/-
# Lock operations as atomic steps

The operations of a lock, each a sequence of atomic accesses to the state of the lock.
A thread holds guards and is in the middle of at most one operation; a step of the
system is the next access of some thread.  This covers every interleaving.

What the threads hold and owe is measured by claims, which add up over the threads.
`LockOps.claims_invariant` reduces an invariant about the lock state and the sum of the
claims to single accesses: the accessing thread and an arbitrary rest.
-/
import Vostd.Lib.System
import Vostd.Lib.Threads

namespace Vostd

/-- What an access comes to. -/
inductive Outcome (P : Type) : Type where
  /-- the operation goes on with another access -/
  | running (p : P)
  /-- the operation is done; an attempt has succeeded -/
  | done
  /-- an attempt has failed -/
  | failed
  /-- the operation is done but for waking one or all of the waiting threads -/
  | wake (all : Bool)
  deriving DecidableEq, Repr

/-- The access that follows. -/
def Outcome.next {P : Type} : Outcome P → Option P
  | .running p => some p
  | .done | .failed | .wake _ => none

/-- The same outcome among more accesses. -/
def Outcome.map {P Q : Type} (f : P → Q) : Outcome P → Outcome Q
  | .running p => .running (f p)
  | .done => .done
  | .failed => .failed
  | .wake all => .wake all

theorem Outcome.next_map {P Q : Type} (f : P → Q) (r : Outcome P) :
    (r.map f).next = r.next.map f := by
  cases r <;> rfl

/-- The operations `O` of a lock with states `W`, for threads that hold guards `H`; the
accesses after the first one are `P`. -/
structure LockOps (W H O P : Type) where
  /-- the operations that a thread can begin -/
  starts : H → O → Bool
  /-- the first access of an operation -/
  start : W → H → O → W × H × Outcome P
  /-- the later ones -/
  resume : W → H → P → W × H × Outcome P

/-- A lock and its threads: the guards of each, and the access that it makes next when it
is in the middle of an operation. -/
structure LockState (ι W H P : Type) where
  word : W
  threads : ι → H × Option P

namespace LockOps

variable {ι W H O P : Type} (ops : LockOps W H O P)

/-- A thread begins an operation, or goes on with the one that it is in. -/
inductive Access (word : W) : H × Option P → Option O → W × H × Outcome P → Prop
  | start {held : H} {op : O} (h : ops.starts held op = true) :
      Access word (held, none) (some op) (ops.start word held op)
  | resume {held : H} {p : P} : Access word (held, some p) none (ops.resume word held p)

variable [DecidableEq ι]

/-- The state after an access of thread `i`. -/
def after (s : LockState ι W H P) (i : ι) (r : W × H × Outcome P) : LockState ι W H P :=
  ⟨r.1, Function.update s.threads i (r.2.1, r.2.2.next)⟩

variable (ι)

/-- All interleavings, from a lock that nobody uses. -/
def system (word : W) (held : H) : System (LockState ι W H P) (ι × Option O) where
  init := fun s => s = ⟨word, fun _ => (held, none)⟩
  step := fun s l s' => ∃ r, ops.Access s.word (s.threads l.1) l.2 r ∧ s' = after s l.1 r

variable {ι} {ops} [Fintype ι] {M : Type} [AddCommMonoid M]

/-- **The claims rule.**  An invariant of the lock state and of the sum of the claims is
kept if every access keeps it whatever the claims of the other threads are. -/
theorem claims_invariant (claims : H × Option P → M) (OK : W → M → Prop) {word : W} {held : H}
    {ok : LockState ι W H P → ι × Option O → Prop}
    (hinit : OK word (total claims (fun _ : ι => (held, none))))
    (hstep : ∀ s i op r d, ops.Access s.word (s.threads i) op r → ok s (i, op) →
      total claims s.threads = d + claims (s.threads i) →
      OK s.word (d + claims (s.threads i)) → OK r.1 (d + claims (r.2.1, r.2.2.next)))
    {s : LockState ι W H P} (hs : ((ops.system ι word held).restrict ok).Reachable s) :
    OK s.word (total claims s.threads) := by
  refine System.invariant (I := fun s => OK s.word (total claims s.threads)) ?_ ?_ hs
  · rintro _ rfl
    exact hinit
  · rintro s ⟨i, op⟩ _ - h ⟨hok, r, hr, rfl⟩
    obtain ⟨d, hd, hupd⟩ := exists_total_eq claims s.threads i
    show OK r.1 (total claims (Function.update s.threads i (r.2.1, r.2.2.next)))
    rw [hupd]
    exact hstep s i op r d hr hok hd (hd ▸ h)

end LockOps

end Vostd
