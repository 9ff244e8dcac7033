/-
# What `query` returns

`query` goes down from the current level of the cursor until it finds an entry that is no
node.  The cursor may stand at any level at or above that entry, after any history of
operations; `walkEnd` is the place where a walk from the root stops, and the loop ends
there from wherever it starts (`queryLoop_walkEnd`), because the path of the cursor is a
part of this walk.
-/
import Vostd.PageTable.Faults

namespace Vostd

open Exec

variable {P : Type}

/-! ## Where a walk stops -/

/-- The level and the entry at which the walk of `va` from a node of the given level stops. -/
def walkEnd (m : Mem P) : ℕ → ℕ → ℕ → ℕ × Pte P
  | 0, _, _ => (0, .absent)
  | l + 1, q, va =>
      match m.entry q (pteIndex va (l + 1)) with
      | .table pt => walkEnd m l pt va
      | e => (l + 1, e)

theorem walkEnd_table {m : Mem P} {l q va pt : ℕ} (hl : 1 ≤ l)
    (h : m.entry q (pteIndex va l) = .table pt) : walkEnd m l q va = walkEnd m (l - 1) pt va := by
  obtain ⟨k, rfl⟩ : ∃ k, l = k + 1 := ⟨l - 1, by omega⟩
  simp only [walkEnd, h, Nat.add_sub_cancel]

theorem walkEnd_leaf {m : Mem P} {l q va : ℕ} {e : Pte P} (hl : 1 ≤ l)
    (h : m.entry q (pteIndex va l) = e) (he : e.node? = none) : walkEnd m l q va = (l, e) := by
  obtain ⟨k, rfl⟩ : ∃ k, l = k + 1 := ⟨l - 1, by omega⟩
  cases e with
  | absent => simp only [walkEnd, h]
  | frame pa prop => simp only [walkEnd, h]
  | table pt => cases he

/-- The walk can be resumed at any node that it visits. -/
theorem walkEnd_eq_of_nodeAt {m : Mem P} {root va l q : ℕ} (h4 : l ≤ 4)
    (hq : nodeAt m root va l = some q) : walkEnd m 4 root va = walkEnd m l q va := by
  induction h4 using Nat.decreasingInduction generalizing q with
  | self =>
      rw [nodeAt_four] at hq
      obtain rfl := Option.some.inj hq
      rfl
  | of_succ k hk ih =>
      obtain ⟨p, hp, he⟩ := (nodeAt_eq_some_iff (by omega)).mp hq
      rw [ih hp, walkEnd_table (by omega) he, Nat.add_sub_cancel]

/-- The item that an entry of a level holds. -/
def Pte.item? (level : ℕ) : Pte P → Option (Item P)
  | .frame pa prop => some ⟨pa, level, prop⟩
  | .absent | .table _ => none

/-! ## The loop -/

section

variable {m m' : Mem P} {cfg : PageTableConfig P} {root : ℕ} {c : Cursor}

/-- **The loop of `query`** ends where the walk of the address ends. -/
theorem queryLoop_walkEnd (hW : WellFormed m) (fuel : ℕ) : ∀ c : Cursor,
    CursorPath m cfg root c → c.va < c.barrierVa.stop →
    Post (fun _ => True) (Cursor.queryLoop cfg fuel m c) (fun r =>
      r.2.2.level = (walkEnd m 4 root c.va).1 ∧
      r.1.2 = (walkEnd m 4 root c.va).2.item? r.2.2.level) := by
  induction fuel with
  | zero =>
      intro c _ _
      trivial
  | succ fuel ih =>
      intro c h hva
      obtain ⟨q, n, hc⟩ := h.position hW hva
      have hend := walkEnd_eq_of_nodeAt hc.position.level_le hc.position.nodeAt
      rw [Cursor.queryLoop]
      refine hc.curEntry_bind ?_
      cases he : n.entries (pteIndex c.va c.level) with
      | table pt =>
          -- one level down, the cursor is still on the walk of its address
          refine Post.bind (post_pushLevel h hva (hc.two_le hW he) hc.position.nodeAt
            (hc.entry_eq.trans he)) ?_
          rintro c₁ ⟨h₁, hsame, -, hva₁⟩
          have hrec := ih c₁ h₁ (by rw [hva₁, hsame.barrierVa]; exact hva)
          rwa [hva₁] at hrec
      | absent =>
          rw [hend, walkEnd_leaf hc.position.level_pos (hc.entry_eq.trans he) rfl]
          apply Post.bind_any
          intro r
          exact ⟨rfl, rfl⟩
      | frame pa prop =>
          rw [hend, walkEnd_leaf hc.position.level_pos (hc.entry_eq.trans he) rfl]
          apply Post.bind_any
          intro m₁
          apply Post.bind_any
          intro r
          exact ⟨rfl, rfl⟩

/-- What `query` promises: the slot at which the walk of the address stops, and the item
there. -/
structure QueryExact (m : Mem P) (root va : ℕ) (range : AddrRange) (item : Option (Item P)) :
    Prop where
  /-- the range is the slot that contains the address, at the level where its walk stops -/
  range_eq : range = ⟨alignDown va (pageSize (walkEnd m 4 root va).1),
    alignDown va (pageSize (walkEnd m 4 root va).1) + pageSize (walkEnd m 4 root va).1⟩
  contains : range.Contains va
  /-- the item is that of the entry where the walk stops -/
  item_eq : item = (walkEnd m 4 root va).2.item? (walkEnd m 4 root va).1
  isSome_iff : item.isSome = true ↔ pageWalk m root va ≠ none
  /-- every byte of the range is translated by the item -/
  mapped : ∀ it, item = some it → ∀ a, range.Contains a →
    pageWalk m root a = some (it.pa + (a - range.start), it.prop)
  unmapped : item = none → ∀ a, range.Contains a → pageWalk m root a = none

/-- The addresses of a slot in the form of a range. -/
theorem slotNo_of_contains {va a l : ℕ} (hva : cfg.Canonical va) (hl : 1 ≤ l) (h4 : l ≤ 4)
    (ha : (⟨alignDown va (pageSize l), alignDown va (pageSize l) + pageSize l⟩ :
      AddrRange).Contains a) : slotNo l a = slotNo l va :=
  ((canonical_of_slot hva hl h4 ha.1 ha.2).mem_slot_iff hva hl h4).mpr ⟨ha.1, ha.2⟩

/-- What the table shows in a slot is what `query` promises. -/
theorem queryExact_of_itemShown {va : ℕ} {range : AddrRange} {item : Option (Item P)}
    (hva : cfg.Canonical va) (hl : 1 ≤ (walkEnd m 4 root va).1) (h4 : (walkEnd m 4 root va).1 ≤ 4)
    (hrange : range = ⟨alignDown va (pageSize (walkEnd m 4 root va).1),
      alignDown va (pageSize (walkEnd m 4 root va).1) + pageSize (walkEnd m 4 root va).1⟩)
    (hitem : item = (walkEnd m 4 root va).2.item? (walkEnd m 4 root va).1)
    (hshow : ItemShown m cfg root (walkEnd m 4 root va).1 va item) :
    QueryExact m root va range item := by
  have hcontains : range.Contains va := by
    rw [hrange]
    exact ⟨alignDown_le _ _, lt_alignDown_add _ (pageSize_pos _)⟩
  have hslot : ∀ a, range.Contains a →
      slotNo (walkEnd m 4 root va).1 a = slotNo (walkEnd m 4 root va).1 va := by
    intro a ha
    rw [hrange] at ha
    exact slotNo_of_contains hva hl h4 ha
  cases item with
  | none =>
      refine ⟨hrange, hcontains, hitem, ?_, fun it hit => (by cases hit), ?_⟩
      · rw [hshow va rfl]
        simp
      · intro _ a ha
        exact hshow a (hslot a ha)
  | some it =>
      obtain ⟨-, -, hwalk⟩ := hshow
      refine ⟨hrange, hcontains, hitem, ?_, ?_, fun hn => (by cases hn)⟩
      · rw [hwalk va rfl]
        simp
      · intro it' hit a ha
        obtain rfl := Option.some.inj hit
        rw [hwalk a (hslot a ha)]
        rw [hrange] at ha ⊢
        rw [mod_eq_sub (dvd_alignDown _ _) ha.1 ha.2]

/-- **`query` is exact.**  On a range with headroom, from every reached cursor inside its range,
`query` returns the slot at which the walk of the current address stops and the item there;
the nodes and the address of the cursor stay as they are. -/
theorem query_exact {m₀ : Mem P} {r : AddrRange} {ops : List (Op cfg)} (hW : WellFormed m₀)
    (hroot : IsRoot m₀ cfg root) (h : Reached cfg m₀ root r ops m c) (hroom : RangeHeadroom cfg r)
    (hcounts : m.CountsFit cfg) (hva : r.Contains c.va) :
    ∃ range item m' c', c.query cfg m = .ok (.ok (range, item), m', c') ∧
      QueryExact m root c.va range item ∧ m'.nodes = m.nodes ∧
      m'.refCount = cloneRefCount cfg m.refCount item ∧ c'.va = c.va := by
  have hok := h.ok hW hroot
  have hstop : c.va < c.barrierVa.stop := by
    rw [hok.barrierVa]
    exact hva.2
  have h4 := hok.cursor.level_le.trans hok.cursor.guard_le
  obtain ⟨⟨⟨range, item⟩, m', c'⟩, hrun, hpath, -, hva', hnodes, hcount, hrange, hshow⟩ :=
    (post_queryLoop (A := fun _ => False) (Or.inr hcounts) hok.wellFormed (NR_LEVELS + 1) c
      hok.cursor.toCursorPath hstop (Or.inr (hok.headroom hroom))
      (by unfold NR_LEVELS; omega)).exists_ok
  obtain ⟨hlevel, hitem⟩ :=
    (queryLoop_walkEnd hok.wellFormed (NR_LEVELS + 1) c hok.cursor.toCursorPath hstop).of_ok hrun
  simp only at hpath hva' hnodes hcount hrange hshow hlevel hitem
  refine ⟨range, item, m', c', ?_, ?_, hnodes, hcount, hva'⟩
  · unfold Cursor.query
    rw [if_neg (not_le.mpr hstop), hrun]
    rfl
  · have hl1 := hpath.level_pos
    have hl4 := hpath.level_le.trans hpath.guard_le
    rw [hlevel] at hrange hitem hshow hl1 hl4
    exact queryExact_of_itemShown (hok.cursor.va_managed hstop).canonical hl1 hl4 hrange hitem hshow

/-- A page that has just been mapped, seen by the cursor that went back to it. -/
theorem query_exact_sample : ∃ (m₀ m : Mem Unit) (root : ℕ) (c : Cursor),
    Reached sampleKernelConfig m₀ root highRange
      [.map ⟨⟨0x7000, 1, ()⟩, by decide⟩, .jump highRange.start] m c ∧
    ∃ range item m' c', c.query sampleKernelConfig m = .ok (.ok (range, item), m', c') ∧
      QueryExact m root highRange.start range item ∧ m'.nodes = m.nodes ∧
      m'.refCount = cloneRefCount sampleKernelConfig m.refCount item ∧ c'.va = c.va := by
  obtain ⟨root, m₀, m, c, hW, hroot, hreach, hc⟩ := exists_reached sampleKernelConfig highRange
    [.map ⟨⟨0x7000, 1, ()⟩, by decide⟩, .jump highRange.start]
    (fun _ c => c.va = highRange.start) (by decide +kernel)
  have hva := of_decide_eq_true hc
  refine ⟨m₀, m, root, c, hreach, ?_⟩
  rw [← hva]
  refine query_exact hW hroot hreach rangeHeadroom_highRange ?_ (by rw [hva]; decide)
  -- the items of this table are not counted
  intro q i l pa prop _ htracked
  cases htracked

/-- At the top of the address space `query` does not return. -/
theorem query_overflows : ∃ (m₀ m : Mem Unit) (root : ℕ) (c : Cursor),
    WellFormed m₀ ∧ IsRoot m₀ sampleKernelConfig root ∧
    Reached sampleKernelConfig m₀ root topRange [.jump (2 ^ 64 - 8192)] m c ∧
    topRange.Contains c.va ∧ c.query sampleKernelConfig m = .error .overflow := by
  obtain ⟨root, m₀, m, c, hW, hroot, hreach, hc⟩ := exists_reached sampleKernelConfig topRange
    [.jump (2 ^ 64 - 8192)] (fun m c => topRange.Contains c.va ∧
      (c.query sampleKernelConfig m >>= fun _ => .ok ()) = .error .overflow) (by decide +kernel)
  obtain ⟨hva, hrun⟩ := of_decide_eq_true hc
  exact ⟨m₀, m, root, c, hW, hroot, hreach, hva, error_of_bind_ok hrun⟩

end

end Vostd
