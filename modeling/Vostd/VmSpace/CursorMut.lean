/-
# The cursor of a user address space

`CursorMut` of `vm_space.rs`: a page table cursor on a table of base pages together with the
flusher of the TLB.  `unmap` takes away what `take_next` finds, one slot after the other, and
asks for the flush of each; `map` asks for a flush when it replaces a page.

Every run of these operations is made of steps of the page table cursor and of the flusher
(`CursorMut.Steps`).  So a reached cursor is a reached page table cursor below
(`CursorMut.Reached.cursor`), and what is known of those holds here.
-/
import Vostd.VmSpace.Tlb
import Vostd.PageTable.Faults
import Vostd.PageTable.Landing

namespace Vostd

open Exec

variable {P : Type}

namespace VmSpace

/-! ## The code -/

/-- `CursorMut`. -/
structure CursorMut where
  ptCursor : Cursor
  flusher : TlbFlusher

namespace CursorMut

/-- `virt_addr`. -/
def virtAddr (s : CursorMut) : ℕ := s.ptCursor.va

/-- `map`: a `UFrame` is a base page. -/
def map (cfg : PageTableConfig P) (m : Mem P) (s : CursorMut) (pa : ℕ) (prop : P) :
    Exec (Mem P × CursorMut) := do
  let startVa := s.virtAddr
  let (frag, m, c) ← s.ptCursor.map cfg m ⟨pa, 1, prop⟩
  match frag with
  | none => .ok (m, { s with ptCursor := c })
  | some (.mapped _ _) => do
      let f ← s.flusher.issueTlbFlush (.address startVa)
      .ok (m, ⟨c, f.dispatchTlbFlush⟩)
  | some (.strayPageTable _ _ _ _) => .error .assertion

/-- The loop of `unmap`. -/
def unmapLoop (cfg : PageTableConfig P) (endVa : ℕ) :
    ℕ → ℕ → Mem P → CursorMut → Exec (ℕ × Mem P × CursorMut)
  | 0, _, _, _ => .error .outOfFuel
  | fuel + 1, numUnmapped, m, s => do
      let len ← Exec.sub endVa s.virtAddr
      let (frag, m, c) ← s.ptCursor.takeNext cfg m len
      match frag with
      | none => .ok (numUnmapped, m, { s with ptCursor := c })
      | some (.mapped va _) => do
          let numUnmapped ← Exec.add numUnmapped 1
          let f ← s.flusher.issueTlbFlush (.address va)
          unmapLoop cfg endVa fuel numUnmapped m ⟨c, f⟩
      | some (.strayPageTable _ va len numFrames) => do
          let numUnmapped ← Exec.add numUnmapped numFrames
          let stop ← Exec.add va len
          let f ← s.flusher.issueTlbFlush (.range ⟨va, stop⟩)
          unmapLoop cfg endVa fuel numUnmapped m ⟨c, f⟩

/-- `unmap`: clears the next `len` bytes and returns the number of pages that were mapped. -/
def unmap (cfg : PageTableConfig P) (m : Mem P) (s : CursorMut) (len : ℕ) :
    Exec (ℕ × Mem P × CursorMut) := do
  Exec.check (len % PAGE_SIZE = 0)
  let endVa ← Exec.add s.virtAddr len
  Exec.check (endVa ≤ s.ptCursor.barrierVa.stop)
  let (numUnmapped, m, s) ← unmapLoop cfg endVa (len / PAGE_SIZE + 1) 0 m s
  .ok (numUnmapped, m, { s with flusher := s.flusher.dispatchTlbFlush })

/-- `protect_next`. -/
def protectNext (cfg : PageTableConfig P) (m : Mem P) (s : CursorMut) (len : ℕ) (op : P → P) :
    Exec (Option AddrRange × Mem P × CursorMut) := do
  let (range, m, c) ← s.ptCursor.protectNext cfg m len op
  .ok (range, m, { s with ptCursor := c })

/-- The operations of the cursor and, through `flusher()`, of its flusher. -/
inductive Op (P : Type) : Type where
  | query
  | findNext (len : ℕ)
  | jump (va : ℕ)
  | map (pa : ℕ) (prop : P)
  | unmap (len : ℕ)
  | protectNext (len : ℕ) (op : P → P)
  | issueTlbFlush (op : TlbFlushOp)
  | dispatchTlbFlush

/-- One operation; its result does not matter here. -/
def perform (cfg : PageTableConfig P) (m : Mem P) (s : CursorMut) :
    Op P → Exec (Mem P × CursorMut)
  | .query => do
      let (_, m, c) ← s.ptCursor.query cfg m
      .ok (m, { s with ptCursor := c })
  | .findNext len => do
      let (_, m, c) ← s.ptCursor.findNext cfg m len
      .ok (m, { s with ptCursor := c })
  | .jump va => do
      let (_, c) ← s.ptCursor.jump va
      .ok (m, { s with ptCursor := c })
  | .map pa prop => s.map cfg m pa prop
  | .unmap len => do
      let (_, m, s) ← s.unmap cfg m len
      .ok (m, s)
  | .protectNext len op => do
      let (_, m, s) ← s.protectNext cfg m len op
      .ok (m, s)
  | .issueTlbFlush op => do
      let f ← s.flusher.issueTlbFlush op
      .ok (m, { s with flusher := f })
  | .dispatchTlbFlush => .ok (m, { s with flusher := s.flusher.dispatchTlbFlush })

/-- A sequence of operations. -/
def run (cfg : PageTableConfig P) : List (Op P) → Mem P → CursorMut → Exec (Mem P × CursorMut)
  | [], m, s => .ok (m, s)
  | op :: ops, m, s => do
      let (m, s) ← s.perform cfg m op
      run cfg ops m s

/-- The cursor `s` on the memory `m'`: opened on `r` by `VmSpace::cursor_mut`, and moved by
operations. -/
def Reached (cfg : PageTableConfig P) (m : Mem P) (root : ℕ) (r : AddrRange) (ops : List (Op P))
    (m' : Mem P) (s : CursorMut) : Prop :=
  ∃ c₀ locked m₀, Cursor.new cfg m root r = .ok (.ok (c₀, locked), m₀) ∧
    run cfg ops m₀ ⟨c₀, TlbFlusher.new⟩ = .ok (m', s)

/-! ## Steps of the page table cursor and of the flusher -/

/-- One operation of the page table cursor, or one of the flusher. -/
inductive Step (cfg : PageTableConfig P) : Mem P × CursorMut → Mem P × CursorMut → Prop
  | cursor {m m' : Mem P} {s : CursorMut} {c : Cursor} {op : Vostd.Op cfg} {r : Res P}
      (h : s.ptCursor.perform cfg m op = .ok (r, m', c)) :
      Step cfg (m, s) (m', { s with ptCursor := c })
  | issue {m : Mem P} {s : CursorMut} {f : TlbFlusher} {op : TlbFlushOp}
      (h : s.flusher.issueTlbFlush op = .ok f) : Step cfg (m, s) (m, { s with flusher := f })
  | dispatch {m : Mem P} {s : CursorMut} :
      Step cfg (m, s) (m, { s with flusher := s.flusher.dispatchTlbFlush })

def Steps (cfg : PageTableConfig P) : Mem P × CursorMut → Mem P × CursorMut → Prop :=
  Relation.ReflTransGen (Step cfg)

section

variable {cfg : PageTableConfig P} {m m' : Mem P} {s : CursorMut}

/-- An operation of the page table cursor by its own name. -/
theorem step_of (op : Vostd.Op cfg) {α : Type} {x : Exec α} {a : α}
    {g : α → Res P × Mem P × Cursor} (hx : x = .ok a)
    (hop : s.ptCursor.perform cfg m op = x >>= fun a => .ok (g a)) :
    Step cfg (m, s) ((g a).2.1, { s with ptCursor := (g a).2.2 }) := by
  rw [hx] at hop
  exact Step.cursor hop

theorem step_takeNext {len : ℕ} {frag : Option (PageTableFrag P)} {c : Cursor}
    (h : s.ptCursor.takeNext cfg m len = .ok (frag, m', c)) :
    Step cfg (m, s) (m', { s with ptCursor := c }) :=
  step_of (.takeNext len) h rfl

/-- `unmap` is a sequence of `take_next`, each with a flush. -/
theorem steps_unmapLoop {endVa : ℕ} (fuel : ℕ) : ∀ (num : ℕ) (m : Mem P) (s : CursorMut)
    {r : ℕ × Mem P × CursorMut}, unmapLoop cfg endVa fuel num m s = .ok r →
    Steps cfg (m, s) r.2 := by
  induction fuel with
  | zero =>
      intro num m s r h
      cases h
  | succ fuel ih =>
      intro num m s r h
      obtain ⟨len, -, h⟩ := bind_eq_ok.mp h
      obtain ⟨⟨frag, m₁, c₁⟩, htake, h⟩ := bind_eq_ok.mp h
      refine .head (step_takeNext htake) ?_
      match frag, h with
      | none, h =>
          cases h
          exact .refl
      | some (.mapped va item), h =>
          obtain ⟨num₁, -, h⟩ := bind_eq_ok.mp h
          obtain ⟨f, hissue, h⟩ := bind_eq_ok.mp h
          exact .head (.issue hissue) (ih num₁ m₁ ⟨c₁, f⟩ h)
      | some (.strayPageTable pt va size k), h =>
          obtain ⟨num₁, -, h⟩ := bind_eq_ok.mp h
          obtain ⟨stop, -, h⟩ := bind_eq_ok.mp h
          obtain ⟨f, hissue, h⟩ := bind_eq_ok.mp h
          exact .head (.issue hissue) (ih num₁ m₁ ⟨c₁, f⟩ h)

/-- **One operation**, as such steps. -/
theorem steps_perform (hmax : 1 ≤ cfg.maxItemLevel) {op : Op P} {r : Mem P × CursorMut}
    (h : s.perform cfg m op = .ok r) : Steps cfg (m, s) r := by
  cases op with
  | query =>
      obtain ⟨⟨res, m₁, c₁⟩, hrun, heq⟩ := bind_eq_ok.mp h
      cases heq
      exact .single (step_of .query hrun rfl)
  | findNext len =>
      obtain ⟨⟨res, m₁, c₁⟩, hrun, heq⟩ := bind_eq_ok.mp h
      cases heq
      exact .single (step_of (.findNext len) hrun rfl)
  | jump va =>
      obtain ⟨⟨res, c₁⟩, hrun, heq⟩ := bind_eq_ok.mp h
      cases heq
      exact .single (step_of (.jump va) hrun rfl)
  | map pa prop =>
      obtain ⟨⟨frag, m₁, c₁⟩, hrun, h⟩ := bind_eq_ok.mp h
      refine .head (step_of (.map ⟨⟨pa, 1, prop⟩, hmax⟩) hrun rfl) ?_
      match frag, h with
      | none, h =>
          cases h
          exact .refl
      | some (.mapped va item), h =>
          obtain ⟨f, hissue, h⟩ := bind_eq_ok.mp h
          cases h
          exact .head (.issue hissue) (.single .dispatch)
  | unmap len =>
      obtain ⟨⟨num, m₁, s₁⟩, hrun, heq⟩ := bind_eq_ok.mp h
      cases heq
      obtain ⟨_, -, hrun⟩ := bind_eq_ok.mp hrun
      obtain ⟨endVa, -, hrun⟩ := bind_eq_ok.mp hrun
      obtain ⟨_, -, hrun⟩ := bind_eq_ok.mp hrun
      obtain ⟨⟨num₁, m₂, s₂⟩, hloop, hrun⟩ := bind_eq_ok.mp hrun
      cases hrun
      exact (steps_unmapLoop _ _ _ _ hloop).tail .dispatch
  | protectNext len op =>
      obtain ⟨⟨range, m₁, s₁⟩, hrun, heq⟩ := bind_eq_ok.mp h
      cases heq
      obtain ⟨⟨range, m₂, c₂⟩, hnext, heq⟩ := bind_eq_ok.mp hrun
      cases heq
      exact .single (step_of (.protectNext len op) hnext rfl)
  | issueTlbFlush op =>
      obtain ⟨f, hissue, heq⟩ := bind_eq_ok.mp h
      cases heq
      exact .single (.issue hissue)
  | dispatchTlbFlush =>
      cases h
      exact .single .dispatch

theorem steps_run (hmax : 1 ≤ cfg.maxItemLevel) (ops : List (Op P)) :
    ∀ (m : Mem P) (s : CursorMut) {r : Mem P × CursorMut}, run cfg ops m s = .ok r →
    Steps cfg (m, s) r := by
  induction ops with
  | nil =>
      intro m s r h
      cases h
      exact .refl
  | cons op ops ih =>
      intro m s r h
      obtain ⟨⟨m₁, s₁⟩, hop, h⟩ := bind_eq_ok.mp h
      exact (steps_perform hmax hop).trans (ih m₁ s₁ h)

/-- Such steps are operations of the page table cursor. -/
theorem Steps.runOps {x y : Mem P × CursorMut} (h : Steps cfg x y) :
    ∃ ops rs, x.2.ptCursor.runOps cfg ops x.1 = .ok (rs, y.1, y.2.ptCursor) := by
  induction h using Relation.ReflTransGen.head_induction_on with
  | refl => exact ⟨[], [], rfl⟩
  | head hstep _ ih =>
      obtain ⟨ops, rs, hrun⟩ := ih
      cases hstep with
      | @cursor m m₁ s c op r hop =>
          refine ⟨op :: ops, r :: rs, ?_⟩
          rw [Cursor.runOps, hop]
          show Cursor.runOps cfg ops m₁ c >>= _ = _
          rw [show Cursor.runOps cfg ops m₁ c = _ from hrun]
          rfl
      | issue => exact ⟨ops, rs, hrun⟩
      | dispatch => exact ⟨ops, rs, hrun⟩

/-- **A reached cursor of an address space is a reached page table cursor.** -/
theorem Reached.cursor (hmax : 1 ≤ cfg.maxItemLevel) {root : ℕ} {r : AddrRange} {ops : List (Op P)}
    (h : Reached cfg m root r ops m' s) :
    ∃ ops', Vostd.Reached cfg m root r ops' m' s.ptCursor := by
  obtain ⟨c₀, locked, m₀, hnew, hrun⟩ := h
  obtain ⟨ops', rs, hrun'⟩ := (steps_run hmax ops m₀ _ hrun).runOps
  exact ⟨ops', c₀, locked, m₀, rs, hnew, hrun'⟩

end

/-! ## A small address space -/

/-- The user configuration of the samples. -/
def sampleConfig : PageTableConfig Unit := userPtConfig 2 two_le_four

/-- A cursor on the first 4 MiB of a new address space, after some operations, with the root and
the memory of the new table. -/
def sampleSpace (ops : List (Op Unit)) : Exec (ℕ × Mem Unit × Mem Unit × CursorMut) := do
  let (root, m) ← emptyTable sampleConfig (freshMem samplePool)
  let (res, m₀) ← Cursor.new sampleConfig m root ⟨0, 2 ^ 22⟩
  match res with
  | .error _ => .error .assertion
  | .ok (c, _) => do
      let (m', s) ← run sampleConfig ops m₀ ⟨c, TlbFlusher.new⟩
      .ok (root, m, m', s)

theorem sampleSpace_reached {ops : List (Op Unit)} {root : ℕ} {m m' : Mem Unit} {s : CursorMut}
    (h : sampleSpace ops = .ok (root, m, m', s)) :
    emptyTable sampleConfig (freshMem samplePool) = .ok (root, m) ∧
      Reached sampleConfig m root ⟨0, 2 ^ 22⟩ ops m' s := by
  obtain ⟨⟨root, m⟩, hm, h⟩ := bind_eq_ok.mp h
  obtain ⟨⟨res, m₀⟩, hnew, h⟩ := bind_eq_ok.mp h
  cases res with
  | error e => cases h
  | ok cl =>
      obtain ⟨⟨m', s⟩, hrun, h⟩ := bind_eq_ok.mp h
      cases h
      exact ⟨hm, cl.1, cl.2, m₀, hnew, hrun⟩

/-- What is computed of such a cursor holds of a reached one. -/
theorem exists_sampleSpace (ops : List (Op Unit)) (p : Mem Unit → CursorMut → Bool)
    (h : (sampleSpace ops).returns (fun x => p x.2.2.1 x.2.2.2) = true) :
    ∃ root m m' s, emptyTable sampleConfig (freshMem samplePool) = .ok (root, m) ∧
      Reached sampleConfig m root ⟨0, 2 ^ 22⟩ ops m' s ∧ p m' s = true := by
  obtain ⟨⟨root, m, m', s⟩, hs, hp⟩ := exists_of_returns h
  obtain ⟨hm, hreach⟩ := sampleSpace_reached hs
  exact ⟨root, m, m', s, hm, hreach, hp⟩

end CursorMut

end VmSpace

end Vostd
