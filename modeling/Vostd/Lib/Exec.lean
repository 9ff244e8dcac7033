/-
# Fallible computations of a systems program

A call of a systems routine either returns, or it stops: on a failed assertion,
on an arithmetic overflow that the build traps, on an exhausted allocator.  A
model adds two outcomes that the routine must be shown never to have: it may
touch memory that is not alive, and a bounded loop may run out of its bound.

`Exec α` is the computation, `Exec.Post A x Q` the statement that `x`
returns a value satisfying `Q` or stops with one of the faults in `A`.  The
rules below compose such statements along `>>=`, conditionals and counted
loops, so that a proof about a routine follows the routine's own text.
-/
import Mathlib

namespace Vostd

/-- The ways a call can fail to return. -/
inductive Fault : Type where
  /-- an `assert!`, `unwrap` or `expect` failed, or an explicit `panic!` -/
  | assertion
  /-- an address computation left the machine word -/
  | overflow
  /-- a reference counter or an entry counter left its range -/
  | counter
  /-- the frame allocator could not serve a request -/
  | noMemory
  /-- an object that is not alive was accessed -/
  | badAccess
  /-- the bound that the model puts on a loop was reached -/
  | outOfFuel
  deriving DecidableEq, Repr

/-- The faults with which the routine itself gives up.  The other ones are errors
of the program that a proof has to exclude. -/
def Fault.IsPanic : Fault → Prop
  | .assertion | .overflow | .noMemory => True
  | .counter | .badAccess | .outOfFuel => False

/-- A set of faults that has those of a routine that refuses its arguments or gets no
memory. -/
structure Fault.Refusing (A : Fault → Prop) : Prop where
  assertion : A .assertion
  noMemory : A .noMemory

theorem Fault.refusing_isPanic : Fault.Refusing Fault.IsPanic := ⟨trivial, trivial⟩

/-- A computation that returns a value or stops with a fault. -/
abbrev Exec (α : Type) : Type := Except Fault α

namespace Exec

variable {α β : Type} {x : Exec α} {Q R : α → Prop} {f : α → Exec β} {p : Prop} {a b : ℕ}

/-- `assert!(p)`. -/
def check (p : Prop) [Decidable p] : Exec Unit :=
  if p then .ok () else .error .assertion

/-- `debug_assert!(p)`: a check in builds with debug assertions only. -/
def debugAssert (debug : Bool) (p : Prop) [Decidable p] : Exec Unit :=
  if debug then check p else .ok ()

/-- `opt.unwrap()`. -/
def unwrap : Option α → Exec α
  | some a => .ok a
  | none => .error .assertion

/-- `a + b` on machine words of 64 bits. -/
def add (a b : ℕ) : Exec ℕ :=
  if a + b < 2 ^ 64 then .ok (a + b) else .error .overflow

/-- `a * b` on machine words of 64 bits. -/
def mul (a b : ℕ) : Exec ℕ :=
  if a * b < 2 ^ 64 then .ok (a * b) else .error .overflow

/-- `a - b` on machine words. -/
def sub (a b : ℕ) : Exec ℕ :=
  if b ≤ a then .ok (a - b) else .error .overflow

/-- **The postcondition relation.**  `x` returns a value satisfying `Q`, or stops
with a fault that `A` admits. -/
def Post (A : Fault → Prop) (x : Exec α) (Q : α → Prop) : Prop :=
  match x with
  | .ok a => Q a
  | .error e => A e

variable {A : Fault → Prop}

@[simp] theorem post_ok (a : α) (Q : α → Prop) : Post A (.ok a) Q ↔ Q a := Iff.rfl

@[simp] theorem post_pure (a : α) (Q : α → Prop) : Post A (pure a) Q ↔ Q a := Iff.rfl

@[simp] theorem post_error (e : Fault) (Q : α → Prop) :
    Post A (.error e) Q ↔ A e := Iff.rfl

/-- What a returning computation satisfies. -/
theorem Post.of_ok {a : α} (h : Post A x Q) (hx : x = .ok a) : Q a := by
  rw [hx] at h
  exact h

/-- How a stopping computation stops. -/
theorem Post.of_error {e : Fault} (h : Post A x Q) (hx : x = .error e) : A e := by
  rw [hx] at h
  exact h

/-- What cannot fail returns. -/
theorem Post.exists_ok (h : Post (fun _ => False) x Q) :
    ∃ a, x = .ok a ∧ Q a := by
  cases x with
  | ok a => exact ⟨a, rfl, h⟩
  | error e => exact h.elim

/-- Weakening the postcondition. -/
theorem Post.mono (h : Post A x Q) (hQR : ∀ a, Q a → R a) : Post A x R := by
  cases x with
  | ok a => exact hQR a h
  | error e => exact h

/-- Weakening the postcondition with the knowledge that the value was returned. -/
theorem Post.mono' (h : Post A x Q) (hQR : ∀ a, x = .ok a → Q a → R a) : Post A x R := by
  cases x with
  | ok a => exact hQR a rfl h
  | error e => exact h

/-- Allowing more faults. -/
theorem Post.allow {B : Fault → Prop} (h : Post A x Q) (hAB : ∀ e, A e → B e) : Post B x Q := by
  cases x with
  | ok a => exact h
  | error e => exact hAB e h

/-- Two postconditions of one computation. -/
theorem Post.and (hQ : Post A x Q) (hR : Post A x R) : Post A x (fun a => Q a ∧ R a) := by
  cases x with
  | ok a => exact ⟨hQ, hR⟩
  | error e => exact hQ

/-- **Sequencing.** -/
theorem Post.bind {R : β → Prop} (hx : Post A x Q) (hf : ∀ a, Q a → Post A (f a) R) :
    Post A (x >>= f) R := by
  cases x with
  | ok a => exact hf a hx
  | error e => exact hx

/-- Sequencing after a part of which nothing is known. -/
theorem Post.bind_any {R : β → Prop}
    (hf : ∀ a, Post (fun _ => True) (f a) R) : Post (fun _ => True) (x >>= f) R := by
  cases x with
  | ok a => exact hf a
  | error e => trivial

/-- A sequence returns when both parts do. -/
theorem bind_eq_ok {b : β} :
    x >>= f = .ok b ↔ ∃ a, x = .ok a ∧ f a = .ok b := by
  cases x with
  | ok a => simp [bind, Except.bind]
  | error e => simp [bind, Except.bind]

/-- A pure last step adds no fault. -/
theorem error_of_bind_ok {f : α → β} {e : Fault}
    (h : (x >>= fun a => .ok (f a)) = .error e) : x = .error e := by
  cases x with
  | ok a => cases h
  | error e' => exact congrArg Except.error (Except.error.inj h)

/-- A test of a run: it returns, and its result passes. -/
def returns (x : Exec α) (p : α → Bool) : Bool :=
  match x with
  | .ok a => p a
  | .error _ => false

theorem exists_of_returns {p : α → Bool} (h : returns x p = true) :
    ∃ a, x = .ok a ∧ p a = true := by
  cases x with
  | ok a => exact ⟨a, rfl, h⟩
  | error e => cases h

/-! A routine whose tests pass is executed step by step. -/

theorem ok_bind (a : α) (f : α → Exec β) : (Except.ok a : Exec α) >>= f = f a := rfl

theorem check_pos [Decidable p] (h : p) : check p = .ok () := if_pos h

theorem add_eq (h : a + b < 2 ^ 64) : add a b = .ok (a + b) := if_pos h

theorem sub_eq (h : b ≤ a) : sub a b = .ok (a - b) := if_pos h

theorem check_eq_ok [Decidable p] {u : Unit} : check p = .ok u ↔ p := by
  unfold check
  by_cases h : p
  · simp [h]
  · simp [h]

theorem debugAssert_eq_ok {debug : Bool} [Decidable p] {u : Unit} :
    debugAssert debug p = .ok u ↔ (debug = true → p) := by
  unfold debugAssert
  cases debug with
  | false => simp
  | true => simp [check_eq_ok]

theorem debugAssert_pos [Decidable p] (debug : Bool) (h : p) :
    debugAssert debug p = .ok () := debugAssert_eq_ok.mpr fun _ => h

theorem unwrap_eq_ok {o : Option α} {a : α} : unwrap o = .ok a ↔ o = some a := by
  cases o with
  | none => simp [unwrap]
  | some b => simp [unwrap]

/-- Conditionals. -/
theorem post_ite [Decidable p] {y : Exec α} (hx : p → Post A x Q) (hy : ¬p → Post A y Q) :
    Post A (if p then x else y) Q := by
  by_cases h : p
  · rw [if_pos h]; exact hx h
  · rw [if_neg h]; exact hy h

theorem post_check [Decidable p] (h : ¬p → A .assertion) :
    Post A (check p) (fun _ => p) := by
  unfold check
  exact post_ite (fun hp => hp) h

theorem post_debugAssert [Decidable p] {debug : Bool} (h : ¬p → A .assertion) :
    Post A (debugAssert debug p) (fun _ => True) := by
  unfold debugAssert
  exact post_ite (fun _ => (post_check h).mono fun _ _ => trivial) (fun _ => trivial)

theorem post_unwrap {o : Option α} (h : o = none → A .assertion) :
    Post A (unwrap o) (fun a => o = some a) := by
  cases o with
  | none => exact h rfl
  | some a => rfl

theorem post_add (h : 2 ^ 64 ≤ a + b → A .overflow) :
    Post A (add a b) (fun c => c = a + b ∧ a + b < 2 ^ 64) := by
  unfold add
  exact post_ite (fun hp => ⟨rfl, hp⟩) (fun hp => h (not_lt.mp hp))

theorem post_mul (h : 2 ^ 64 ≤ a * b → A .overflow) :
    Post A (mul a b) (fun c => c = a * b ∧ a * b < 2 ^ 64) := by
  unfold mul
  exact post_ite (fun hp => ⟨rfl, hp⟩) (fun hp => h (not_lt.mp hp))

theorem post_sub (h : a < b → A .overflow) :
    Post A (sub a b) (fun c => c = a - b ∧ b ≤ a) := by
  unfold sub
  exact post_ite (fun hp => ⟨rfl, hp⟩) (fun hp => h (not_le.mp hp))

/-- `for i in i..i + n { state = body(i, state) }`. -/
def forRange (body : ℕ → β → Exec β) : ℕ → ℕ → β → Exec β
  | _, 0, b => .ok b
  | i, n + 1, b => do
      let b ← body i b
      forRange body (i + 1) n b

/-- **Counted loops.**  An invariant indexed by the loop counter. -/
theorem post_forRange {f : ℕ → β → Exec β} (I : ℕ → β → Prop) (n : ℕ) :
    ∀ (i : ℕ) (b : β), I i b →
      (∀ j b, i ≤ j → j < i + n → I j b → Post A (f j b) (I (j + 1))) →
      Post A (forRange f i n b) (I (i + n)) := by
  induction n with
  | zero =>
      intro i b hb _
      exact hb
  | succ n ih =>
      intro i b hb hstep
      rw [forRange]
      refine Post.bind (hstep i b le_rfl (by omega) hb) ?_
      intro b' hb'
      have hrest := ih (i + 1) b' hb' (fun j c hj hjn hc => hstep j c (by omega) (by omega) hc)
      rwa [show i + 1 + n = i + (n + 1) from by omega] at hrest

end Exec

end Vostd
