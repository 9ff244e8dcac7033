/-
# Pending TLB flushes

`tlb.rs`.  A flusher collects the flushes that its owner asks for in a stack of 32 places.
Three conditions make it give up the list and flush everything instead: a range of more
than 32 pages, a full stack, and a stack pushed onto it that has given up or does not fit.

What a stack is for is a set of pages, those that were asked for since it was last
cleared.  `OpsStack.Made` pairs the stacks with these sets along every sequence of
operations, and `OpsStack.Made.covers` says that no page of the set is lost.

The body of `dispatch_tlb_flush` is not compiled in the source.  The model keeps what the
proofs about its callers need: the stack that it finds, and that it leaves an empty one.
-/
import Vostd.Lib.InPlace
import Vostd.PageTable.Config

namespace Vostd

open Exec

/-- `TlbFlushOp`. -/
inductive TlbFlushOp : Type where
  | all
  | address (va : ℕ)
  | range (r : AddrRange)
  deriving DecidableEq, Repr

/-- `FLUSH_ALL_RANGE_THRESHOLD`. -/
def FLUSH_ALL_RANGE_THRESHOLD : ℕ := 32 * PAGE_SIZE

/-- `FLUSH_ALL_OPS_THRESHOLD`. -/
def FLUSH_ALL_OPS_THRESHOLD : ℕ := 32

/-- `optimize_for_large_range`. -/
def TlbFlushOp.optimizeForLargeRange : TlbFlushOp → TlbFlushOp
  | .range r => if r.stop - r.start > FLUSH_ALL_RANGE_THRESHOLD then .all else .range r
  | op => op

/-- `OpsStack`. -/
structure OpsStack where
  ops : Vector (Option TlbFlushOp) FLUSH_ALL_OPS_THRESHOLD
  needFlushAll : Bool
  size : ℕ
  deriving DecidableEq, Repr

namespace OpsStack

/-- `OpsStack::new`. -/
def new : OpsStack := ⟨Vector.replicate FLUSH_ALL_OPS_THRESHOLD none, false, 0⟩

/-- `push`. -/
def push (s : OpsStack) (op : TlbFlushOp) : Exec OpsStack :=
  if s.needFlushAll then .ok s
  else
    let op := op.optimizeForLargeRange
    if op = .all ∨ s.size ≥ FLUSH_ALL_OPS_THRESHOLD then
      .ok { s with needFlushAll := true, size := 0 }
    else do
      let ops ← Exec.store s.ops s.size (some op)
      .ok { s with ops := ops, size := s.size + 1 }

/-- `push_from`. -/
def pushFrom (s other : OpsStack) : Exec OpsStack :=
  if s.needFlushAll then .ok s
  else if other.needFlushAll ∨ s.size + other.size ≥ FLUSH_ALL_OPS_THRESHOLD then
    .ok { s with needFlushAll := true, size := 0 }
  else
    Exec.forRange (fun i s => do
      let op ← Exec.load other.ops i
      let ops ← Exec.store s.ops s.size op
      .ok { s with ops := ops, size := s.size + 1 }) 0 other.size s

/-- `clear_without_flush`. -/
def clearWithoutFlush (s : OpsStack) : OpsStack := { s with needFlushAll := false, size := 0 }

end OpsStack

/-- `TlbFlusher`, with the stacks that its dispatches found, the last one first. -/
structure TlbFlusher where
  opsStack : OpsStack
  dispatched : List OpsStack

namespace TlbFlusher

/-- `TlbFlusher::new`. -/
def new : TlbFlusher := ⟨OpsStack.new, []⟩

/-- `issue_tlb_flush` and `issue_tlb_flush_with`, which differ in the frame that they keep. -/
def issueTlbFlush (f : TlbFlusher) (op : TlbFlushOp) : Exec TlbFlusher := do
  let s ← f.opsStack.push op
  .ok { f with opsStack := s }

/-- `dispatch_tlb_flush`. -/
def dispatchTlbFlush (f : TlbFlusher) : TlbFlusher :=
  ⟨f.opsStack.clearWithoutFlush, f.opsStack :: f.dispatched⟩

end TlbFlusher

/-! ## The pages of a request -/

/-- The pages, by number, that an operation flushes. -/
def TlbFlushOp.Covers : TlbFlushOp → ℕ → Prop
  | .all, _ => True
  | .address va, page => va / PAGE_SIZE = page
  | .range r, page => ∃ a, r.Contains a ∧ a / PAGE_SIZE = page

/-- The pages that a stack flushes. -/
def OpsStack.Covers (s : OpsStack) (page : ℕ) : Prop :=
  s.needFlushAll = true ∨ ∃ i op, i < s.size ∧ s.ops[i]? = some (some op) ∧ op.Covers page

/-- Flushing everything instead of a large range loses no page. -/
theorem TlbFlushOp.covers_optimize {op : TlbFlushOp} {page : ℕ} (h : op.Covers page) :
    op.optimizeForLargeRange.Covers page := by
  cases op with
  | all => exact h
  | address va => exact h
  | range r =>
      unfold TlbFlushOp.optimizeForLargeRange
      simp only
      split
      · trivial
      · exact h

namespace OpsStack

variable {s t : OpsStack} {op : TlbFlushOp} {page : ℕ}

/-- **`push`** stays inside the array and loses no page. -/
theorem post_push (hs : s.size ≤ FLUSH_ALL_OPS_THRESHOLD) (op : TlbFlushOp) :
    Post (fun _ => False) (s.push op) (fun s' => s'.size ≤ FLUSH_ALL_OPS_THRESHOLD ∧
      ∀ page, s.Covers page ∨ op.Covers page → s'.Covers page) := by
  unfold OpsStack.push
  refine post_ite ?_ ?_
  · intro hall
    exact ⟨hs, fun _ _ => Or.inl hall⟩
  intro hnot
  refine post_ite ?_ ?_
  · intro _
    exact ⟨Nat.zero_le _, fun _ _ => Or.inl rfl⟩
  intro hroom
  have hlt : s.size < FLUSH_ALL_OPS_THRESHOLD := not_le.mp (fun h => hroom (Or.inr h))
  refine Post.bind (post_store (fun hfull => absurd hlt (not_lt.mpr hfull))) ?_
  rintro ops ⟨hself, hother⟩
  refine ⟨hlt, ?_⟩
  rintro page (hcov | hcov)
  · -- the operations below the new one stay
    obtain ⟨i, op', hi, hop', hpage⟩ := hcov.resolve_left hnot
    refine Or.inr ⟨i, op', Nat.lt_succ_of_lt hi, ?_, hpage⟩
    show ops[i]? = _
    rw [hother i (by omega), hop']
  · exact Or.inr ⟨s.size, _, Nat.lt_succ_self _, hself, TlbFlushOp.covers_optimize hcov⟩

/-- What the loop of `push_from` has done after `i` steps. -/
structure Copied (s t : OpsStack) (i : ℕ) (r : OpsStack) : Prop where
  flag : r.needFlushAll = s.needFlushAll
  size : r.size = s.size + i
  old : ∀ j, j < s.size → r.ops[j]? = s.ops[j]?
  copy : ∀ j, j < i → r.ops[s.size + j]? = t.ops[j]?

theorem Copied.covers {r : OpsStack} (h : Copied s t t.size r) (hs : s.needFlushAll = false)
    (ht : t.needFlushAll = false) (hcov : s.Covers page ∨ t.Covers page) : r.Covers page := by
  have hsize := h.size
  rcases hcov with hcov | hcov
  · obtain ⟨i, op, hi, hop, hpage⟩ := hcov.resolve_left (by rw [hs]; decide)
    exact Or.inr ⟨i, op, by omega, by rw [h.old i hi, hop], hpage⟩
  · obtain ⟨i, op, hi, hop, hpage⟩ := hcov.resolve_left (by rw [ht]; decide)
    exact Or.inr ⟨s.size + i, op, by omega, by rw [h.copy i hi, hop], hpage⟩

/-- **`push_from`** stays inside both arrays and loses no page. -/
theorem post_pushFrom (hs : s.size ≤ FLUSH_ALL_OPS_THRESHOLD) (t : OpsStack) :
    Post (fun _ => False) (s.pushFrom t) (fun s' => s'.size ≤ FLUSH_ALL_OPS_THRESHOLD ∧
      ∀ page, s.Covers page ∨ t.Covers page → s'.Covers page) := by
  unfold OpsStack.pushFrom
  refine post_ite ?_ ?_
  · intro hall
    exact ⟨hs, fun _ _ => Or.inl hall⟩
  intro hnot
  refine post_ite ?_ ?_
  · intro _
    exact ⟨Nat.zero_le _, fun _ _ => Or.inl rfl⟩
  intro hroom
  have hflag : t.needFlushAll = false := by
    rw [← Bool.not_eq_true]
    exact fun h => hroom (Or.inl h)
  have hlt : s.size + t.size < FLUSH_ALL_OPS_THRESHOLD := not_le.mp (fun h => hroom (Or.inr h))
  have hinit : Copied s t 0 s :=
    ⟨rfl, rfl, fun _ _ => rfl, fun j hj => absurd hj (Nat.not_lt_zero j)⟩
  refine (post_forRange (fun i (r : OpsStack) => Copied s t i r) t.size 0 s hinit ?_).mono ?_
  · intro i r _ hi hr
    refine Post.bind (post_load (fun hout => absurd hout (by omega))) ?_
    intro op hop
    have hsize := hr.size
    refine Post.bind (post_store (fun hfull => absurd hfull (by omega))) ?_
    rintro ops ⟨hself, hother⟩
    refine ⟨hr.flag, ?_, ?_, ?_⟩
    · show r.size + 1 = s.size + (i + 1)
      omega
    · intro j hj
      show ops[j]? = _
      rw [hother j (by omega), hr.old j hj]
    · intro j hj
      show ops[s.size + j]? = _
      rcases Nat.lt_succ_iff_lt_or_eq.mp hj with hlt' | rfl
      · rw [hother _ (by omega), hr.copy j hlt']
      · rw [← hsize, hself, hop]
  · intro r hr
    rw [Nat.zero_add] at hr
    have hsize := hr.size
    exact ⟨by omega, fun page hcov => hr.covers (by simpa using hnot) hflag hcov⟩

/-! ## Sequences of operations -/

/-- The stacks that operations make, with the pages that were asked for since the stack
was last cleared. -/
inductive Made : OpsStack → Set ℕ → Prop
  | new : Made OpsStack.new ∅
  | push {s s' : OpsStack} {pages : Set ℕ} {op : TlbFlushOp} (h : Made s pages)
      (hrun : s.push op = .ok s') : Made s' (pages ∪ {page | op.Covers page})
  | pushFrom {s t s' : OpsStack} {pages pages' : Set ℕ} (h : Made s pages) (h' : Made t pages')
      (hrun : s.pushFrom t = .ok s') : Made s' (pages ∪ {page | t.Covers page})
  | clear {s : OpsStack} {pages : Set ℕ} (h : Made s pages) : Made s.clearWithoutFlush ∅

theorem Made.size_le {pages : Set ℕ} (h : Made s pages) : s.size ≤ FLUSH_ALL_OPS_THRESHOLD := by
  induction h with
  | new => exact Nat.zero_le _
  | push _ hrun ih => exact ((post_push ih _).of_ok hrun).1
  | pushFrom _ _ hrun ih _ => exact ((post_pushFrom ih _).of_ok hrun).1
  | clear _ _ => exact Nat.zero_le _

/-- **No page is lost.** -/
theorem Made.covers {pages : Set ℕ} (h : Made s pages) : ∀ page ∈ pages, s.Covers page := by
  induction h with
  | new =>
      intro page hpage
      exact hpage.elim
  | push h hrun ih =>
      rintro page (hpage | hpage)
      · exact ((post_push h.size_le _).of_ok hrun).2 page (Or.inl (ih page hpage))
      · exact ((post_push h.size_le _).of_ok hrun).2 page (Or.inr hpage)
  | pushFrom h _ hrun ih _ =>
      rintro page (hpage | hpage)
      · exact ((post_pushFrom h.size_le _).of_ok hrun).2 page (Or.inl (ih page hpage))
      · exact ((post_pushFrom h.size_le _).of_ok hrun).2 page (Or.inr hpage)
  | clear _ _ =>
      intro page hpage
      exact hpage.elim

end OpsStack

/-- A flush request stays pending. -/
theorem post_issueTlbFlush {f : TlbFlusher} (hs : f.opsStack.size ≤ FLUSH_ALL_OPS_THRESHOLD)
    (op : TlbFlushOp) :
    Post (fun _ => False) (f.issueTlbFlush op) (fun f' => f'.dispatched = f.dispatched ∧
      f'.opsStack.size ≤ FLUSH_ALL_OPS_THRESHOLD ∧
      ∀ page, f.opsStack.Covers page ∨ op.Covers page → f'.opsStack.Covers page) := by
  unfold TlbFlusher.issueTlbFlush
  refine Post.bind (OpsStack.post_push hs op) ?_
  rintro s ⟨hsize, hcov⟩
  exact ⟨rfl, hsize, hcov⟩

end Vostd
