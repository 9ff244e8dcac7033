/-
# The cursor invariant

The path of a cursor is a stretch of a walk: for some address of its range, the
anchor, `path[l - 1]` is the node that the anchor's walk visits at level `l`.
While the cursor is inside its range the current address itself is an anchor
(`CursorPath.position`); a cursor that has run to the end of its range may have
left the span of its nodes, and then only an earlier address is one.

This file gives the specifications of the operations that move a cursor without
touching the table: `pop_level`, `push_level`, `move_forward` and `jump`.
-/
import Vostd.PageTable.Cursor

namespace Vostd

open Exec Function

variable {P : Type}

/-! ## The invariant -/

/-- What holds of a cursor while it moves. -/
structure CursorPath (m : Mem P) (cfg : PageTableConfig P) (root : ℕ) (c : Cursor) : Prop where
  isRoot : IsRoot m cfg root
  level_pos : 1 ≤ c.level
  level_le : c.level ≤ c.guardLevel
  guard_le : c.guardLevel ≤ 4
  nonempty : c.barrierVa.start < c.barrierVa.stop
  managed : ∀ a, c.barrierVa.Contains a → cfg.Managed a
  stop_aligned : 4096 ∣ c.barrierVa.stop
  va_aligned : 4096 ∣ c.va
  start_le : c.barrierVa.start ≤ c.va
  /-- the range lies in the span of the subtree root -/
  span : ∀ a, c.barrierVa.Contains a →
    a / pageSize (c.guardLevel + 1) = c.barrierVa.start / pageSize (c.guardLevel + 1)
  /-- there are no guards above the subtree root -/
  above : ∀ l, c.guardLevel < l → c.path (l - 1) = none
  anchor : ∃ x, c.barrierVa.Contains x ∧
    (∀ l, c.level ≤ l → l ≤ c.guardLevel →
      ∃ q, c.path (l - 1) = some q ∧ nodeAt m root x l = some q) ∧
    (c.level < c.guardLevel ∨ c.va < c.barrierVa.stop →
      x / pageSize (c.level + 1) = c.va / pageSize (c.level + 1))

/-- **The cursor invariant**, between operations. -/
structure CursorOK (m : Mem P) (cfg : PageTableConfig P) (root : ℕ) (c : Cursor) : Prop
    extends CursorPath m cfg root c where
  le_stop : c.va ≤ c.barrierVa.stop

/-- Two cursors of the same range. -/
structure SameRange (c c' : Cursor) : Prop where
  guardLevel : c'.guardLevel = c.guardLevel
  barrierVa : c'.barrierVa = c.barrierVa

theorem SameRange.refl (c : Cursor) : SameRange c c := ⟨rfl, rfl⟩

theorem SameRange.trans {c c' c'' : Cursor} (h : SameRange c c') (h' : SameRange c' c'') :
    SameRange c c'' :=
  ⟨h'.guardLevel.trans h.guardLevel, h'.barrierVa.trans h.barrierVa⟩

/-- The slot that a cursor stands at. -/
structure CurSlot (m : Mem P) (cfg : PageTableConfig P) (root : ℕ) (c : Cursor) (q : ℕ)
    (n : Node P) : Prop where
  path : c.path (c.level - 1) = some q
  position : Position m root c.va c.level q n
  level : n.level = c.level
  slot : n.slots.Contains (pteIndex c.va c.level)
  cfg_eq : n.cfg = cfg
  stray : n.stray = false

/-- The slots of the cursor's range end at addresses: after the range there is room
for a slot of the subtree root. -/
def Cursor.Headroom (c : Cursor) : Prop := c.barrierVa.stop + pageSize c.guardLevel ≤ 2 ^ 64

theorem no_headroom {c : Cursor} (h : 2 ^ 64 ≤ c.barrierVa.stop) : ¬c.Headroom := by
  unfold Cursor.Headroom
  have := pageSize_pos c.guardLevel
  omega

theorem SameRange.headroom_iff {c c' : Cursor} (h : SameRange c c') :
    c'.Headroom ↔ c.Headroom := by
  unfold Cursor.Headroom
  rw [h.barrierVa, h.guardLevel]

namespace CursorPath

variable {m m' : Mem P} {cfg : PageTableConfig P} {root : ℕ} {c : Cursor}

theorem va_mem (h : CursorPath m cfg root c) (hva : c.va < c.barrierVa.stop) :
    c.barrierVa.Contains c.va := ⟨h.start_le, hva⟩

theorem va_managed (h : CursorPath m cfg root c) (hva : c.va < c.barrierVa.stop) :
    cfg.Managed c.va := h.managed _ (h.va_mem hva)

/-- Inside its range, the cursor's own address is an anchor. -/
theorem nodeAt_va (h : CursorPath m cfg root c) (hva : c.va < c.barrierVa.stop) {l : ℕ}
    (hl : c.level ≤ l) (hl' : l ≤ c.guardLevel) :
    ∃ q, c.path (l - 1) = some q ∧ nodeAt m root c.va l = some q := by
  obtain ⟨x, -, hpath, hx⟩ := h.anchor
  obtain ⟨q, hq, hnode⟩ := hpath l hl hl'
  have hlp := h.level_pos
  have hg := h.guard_le
  have hs := slotNo_of_div (by omega) (by omega) (div_pageSize_mono (by omega) (hx (Or.inr hva)) :
    x / pageSize (l + 1) = c.va / pageSize (l + 1))
  exact ⟨q, hq, by rw [← nodeAt_congr (by omega) hs, hnode]⟩

/-- **The cursor's position**: a cursor inside its range stands at a managed slot
of a live node of its table. -/
theorem position (h : CursorPath m cfg root c) (hW : WellFormed m)
    (hva : c.va < c.barrierVa.stop) : ∃ q n, CurSlot m cfg root c q n := by
  obtain ⟨q, hq, hnode⟩ := h.nodeAt_va hva le_rfl h.level_le
  have hcov := h.isRoot.covers (h.va_managed hva)
  obtain ⟨k, hk, hkl, hkc, hks⟩ := h.isRoot
  obtain ⟨k', hk', hkl', hslot⟩ := hcov
  rw [hk] at hk'
  obtain rfl := Option.some.inj hk'
  have h4 : c.level ≤ 4 := h.level_le.trans h.guard_le
  obtain ⟨n, hn, hnl, hns, hnc, hnst⟩ := hW.reach hk hkl hslot h.level_pos h4 hnode
  exact ⟨q, n, hq, ⟨⟨k, hk, hkl, hslot⟩, h.level_pos, h4, hnode, hn⟩, hnl, hns,
    by rw [hnc, hkc], by rw [hnst, hks]⟩

/-- With headroom, the end of the current slot is an address. -/
theorem slot_overflow {A : Fault → Prop} (h : CursorPath m cfg root c)
    (hva : c.va < c.barrierVa.stop) (hA : A .overflow ∨ c.Headroom) :
    2 ^ 64 ≤ alignDown c.va (pageSize c.level) + pageSize c.level → A .overflow := by
  intro hov
  refine hA.resolve_right ?_
  unfold Cursor.Headroom
  have hsize := pageSize_le h.level_le
  have hle := alignDown_le c.va (pageSize c.level)
  omega

/-- A step on the memory that keeps the nodes of the anchor's walk keeps the
invariant. -/
theorem of_nodeAt (h : CursorPath m cfg root c) (hroot : IsRoot m' cfg root)
    (hnode : ∀ x, c.barrierVa.Contains x → ∀ l q, c.level ≤ l → l ≤ 4 →
      nodeAt m root x l = some q → nodeAt m' root x l = some q) :
    CursorPath m' cfg root c where
  isRoot := hroot
  level_pos := h.level_pos
  level_le := h.level_le
  guard_le := h.guard_le
  nonempty := h.nonempty
  managed := h.managed
  stop_aligned := h.stop_aligned
  va_aligned := h.va_aligned
  start_le := h.start_le
  span := h.span
  above := h.above
  anchor := by
    obtain ⟨x, hx, hpath, hdiv⟩ := h.anchor
    refine ⟨x, hx, ?_, hdiv⟩
    intro l hl hl'
    obtain ⟨q, hq, hnq⟩ := hpath l hl hl'
    exact ⟨q, hq, hnode x hx l q hl (hl'.trans h.guard_le) hnq⟩

/-- The invariant is kept by steps that concern other addresses. -/
theorem of_keeps {R : ℕ → Prop} {r : ℕ} (h : CursorPath m cfg root c) (hk : Keeps m m' r R)
    (hR : r = root → ∀ a, c.barrierVa.Contains a → ¬R a) : CursorPath m' cfg root c := by
  have hlp := h.level_pos
  refine h.of_nodeAt (hk.isRoot h.isRoot) ?_
  intro x hx l q hl hl4 hq
  exact hk.nodeAt root x (h.isRoot.covers (h.managed x hx)) (fun hr => hR hr.symm x hx) l q
    (by omega) hl4 hq

theorem of_grow (h : CursorPath m cfg root c) (hW : WellFormed m) (hg : Grow root m m') :
    CursorPath m' cfg root c :=
  h.of_keeps (hg.keeps hW) (fun _ _ _ hf => hf)

end CursorPath

/-! ## Reading the current entry -/

section

variable {α : Type} {m : Mem P} {cfg : PageTableConfig P} {root q : ℕ} {c : Cursor} {n : Node P}
  {A : Fault → Prop}

theorem CurSlot.curNode_bind (h : CurSlot m cfg root c q n) {f : ℕ → Exec α} {Q : α → Prop}
    (hf : Post A (f q) Q) : Post A (c.curNode >>= f) Q := by
  unfold Cursor.curNode
  rw [h.path]
  exact hf

theorem CurSlot.curEntry_bind (h : CurSlot m cfg root c q n) {f : Pte P → Exec α} {Q : α → Prop}
    (hf : Post A (f (n.entries (pteIndex c.va c.level))) Q) :
    Post A (c.curEntry m >>= f) Q := by
  have hnode : m.node q = .ok n := by simp only [Mem.node, h.position.node]
  have hentry : c.curEntry m = .ok (n.entries (pteIndex c.va c.level)) := by
    unfold Cursor.curEntry Cursor.curNode
    rw [h.path]
    show (m.node q >>= fun n => Except.ok (n.entries (pteIndex c.va c.level))) = _
    rw [hnode]
    rfl
  rw [hentry]
  exact hf

/-- The current slot as a range of addresses. -/
theorem post_curVaRange (c : Cursor)
    (hov : 2 ^ 64 ≤ alignDown c.va (pageSize c.level) + pageSize c.level → A .overflow) :
    Post A c.curVaRange (fun r => r.start = alignDown c.va (pageSize c.level) ∧
      r.stop = alignDown c.va (pageSize c.level) + pageSize c.level) := by
  unfold Cursor.curVaRange
  refine Post.bind (post_add hov) ?_
  rintro _ ⟨rfl, -⟩
  exact ⟨rfl, rfl⟩

end

/-! ## `pop_level` and `push_level` -/

section

variable {m : Mem P} {cfg : PageTableConfig P} {root : ℕ} {c : Cursor} {A : Fault → Prop}

/-- `pop_level` below the subtree root. -/
theorem post_popLevel (h : CursorPath m cfg root c) (hl : c.level < c.guardLevel) :
    Post A c.popLevel (fun c' => CursorPath m cfg root c' ∧ SameRange c c' ∧
      c'.level = c.level + 1 ∧ c'.va = c.va) := by
  unfold Cursor.popLevel
  have hsome : c.path (c.level - 1) ≠ none := by
    obtain ⟨x, hx, hpath, -⟩ := h.anchor
    obtain ⟨q, hq, -⟩ := hpath c.level le_rfl h.level_le
    rw [hq]
    exact Option.some_ne_none q
  refine Post.bind (post_unwrap (fun hnone => absurd hnone hsome)) ?_
  intro q _
  have hlp := h.level_pos
  refine ⟨⟨h.isRoot, ?_, ?_, h.guard_le, h.nonempty, h.managed, h.stop_aligned, h.va_aligned,
    h.start_le, h.span, ?_, ?_⟩, ⟨rfl, rfl⟩, rfl, rfl⟩
  · show 1 ≤ c.level + 1
    omega
  · exact hl
  · intro l hlg
    show update c.path (c.level - 1) none (l - 1) = none
    have hgl : c.guardLevel < l := hlg
    rw [update_of_ne (by omega), h.above l hlg]
  · obtain ⟨x, hx, hpath, hdiv⟩ := h.anchor
    refine ⟨x, hx, ?_, ?_⟩
    · intro l hll hlg
      have hll' : c.level + 1 ≤ l := hll
      obtain ⟨q', hq', hn⟩ := hpath l (by omega) hlg
      refine ⟨q', ?_, hn⟩
      show update c.path (c.level - 1) none (l - 1) = some q'
      rw [update_of_ne (by omega), hq']
    · intro _
      exact div_pageSize_mono (Nat.le_succ _) (hdiv (Or.inl hl))

/-- `push_level` onto the child of the current entry. -/
theorem post_pushLevel (h : CursorPath m cfg root c) (hva : c.va < c.barrierVa.stop)
    (hl : 2 ≤ c.level) {q child : ℕ} (hq : nodeAt m root c.va c.level = some q)
    (he : m.entry q (pteIndex c.va c.level) = .table child) :
    Post A (c.pushLevel child) (fun c' => CursorPath m cfg root c' ∧ SameRange c c' ∧
      c'.level = c.level - 1 ∧ c'.va = c.va) := by
  unfold Cursor.pushLevel
  refine Post.bind (post_sub (fun hlt => by omega)) ?_
  rintro _ ⟨rfl, -⟩
  refine Post.bind (post_sub (fun hlt => by omega)) ?_
  rintro _ ⟨rfl, -⟩
  have hll := h.level_le
  have hg := h.guard_le
  refine ⟨⟨h.isRoot, ?_, ?_, hg, h.nonempty, h.managed, h.stop_aligned, h.va_aligned,
    h.start_le, h.span, ?_, ?_⟩, ⟨rfl, rfl⟩, rfl, rfl⟩
  · show 1 ≤ c.level - 1
    omega
  · show c.level - 1 ≤ c.guardLevel
    omega
  · intro l hlg
    show update c.path (c.level - 1 - 1) (some child) (l - 1) = none
    have hgl : c.guardLevel < l := hlg
    rw [update_of_ne (by omega), h.above l hlg]
  · refine ⟨c.va, h.va_mem hva, ?_, fun _ => rfl⟩
    intro l hlow hlg
    have hlow' : c.level - 1 ≤ l := hlow
    show ∃ q', update c.path (c.level - 1 - 1) (some child) (l - 1) = some q' ∧ _
    by_cases heq : l = c.level - 1
    · subst heq
      rw [update_self]
      exact ⟨child, rfl, nodeAt_step (by omega) (by omega) hq he⟩
    · obtain ⟨q', hq', hn⟩ := h.nodeAt_va hva (l := l) (by omega) hlg
      exact ⟨q', by rw [update_of_ne (by omega), hq'], hn⟩

end

/-! ## `move_forward` -/

section

variable {m : Mem P} {cfg : PageTableConfig P} {root : ℕ} {A : Fault → Prop}

/-- The loop of `move_forward` leaves exactly the nodes that end at `nextVa`. -/
theorem post_leaveNodes {nextVa : ℕ} (fuel : ℕ) : ∀ c : Cursor, CursorPath m cfg root c →
    fuel = c.guardLevel - c.level → pageSize c.level ∣ nextVa →
    Post A (Cursor.leaveNodes nextVa fuel c) (fun c' => CursorPath m cfg root c' ∧
      SameRange c c' ∧ c'.va = c.va ∧ c.level ≤ c'.level ∧
      pageSize c'.level ∣ nextVa ∧
      (c'.level < c'.guardLevel → pteIndex nextVa c'.level ≠ 0)) := by
  induction fuel with
  | zero =>
      intro c h hfuel hdvd
      exact ⟨h, SameRange.refl c, rfl, le_rfl, hdvd, fun hl => absurd hl (by omega)⟩
  | succ fuel ih =>
      intro c h hfuel hdvd
      rw [Cursor.leaveNodes]
      refine post_ite ?_ ?_
      · rintro ⟨hl, hidx⟩
        refine Post.bind (post_popLevel h hl) ?_
        rintro c₁ ⟨h₁, hsame, hl₁, hva₁⟩
        have hdvd₁ : pageSize c₁.level ∣ nextVa := by
          rw [hl₁]
          exact pageSize_succ_dvd h.level_pos hdvd hidx
        refine (ih c₁ h₁ (by rw [hsame.guardLevel, hl₁]; omega) hdvd₁).mono ?_
        rintro c₂ ⟨h₂, hsame₂, hva₂, hl₂, hend⟩
        exact ⟨h₂, hsame.trans hsame₂, hva₂.trans hva₁, by omega, hend⟩
      · intro hcond
        exact ⟨h, SameRange.refl c, rfl, le_rfl, hdvd, fun hl hidx => hcond ⟨hl, hidx⟩⟩

/-- Where a cursor goes on after a slot: at the start of a slot that is not the first one of
its node, unless the node is the subtree root. -/
structure Cursor.Resumed (c : Cursor) : Prop where
  start : pageSize c.level ∣ c.va
  index : c.level < c.guardLevel → pteIndex c.va c.level ≠ 0

/-- `move_forward` inside the range. -/
theorem post_moveForward {c : Cursor} (h : CursorPath m cfg root c)
    (hva : c.va < c.barrierVa.stop)
    (hov : 2 ^ 64 ≤ alignDown c.va (pageSize c.level) + pageSize c.level → A .overflow) :
    Post A c.moveForward (fun c' => CursorPath m cfg root c' ∧ SameRange c c' ∧
      c'.va = alignDown c.va (pageSize c.level) + pageSize c.level ∧ c.level ≤ c'.level ∧
      c'.Resumed) := by
  unfold Cursor.moveForward
  refine Post.bind (post_curVaRange c hov) ?_
  rintro r ⟨-, hstop⟩
  set next := alignDown c.va (pageSize c.level) + pageSize c.level with hnext
  have hpos := pageSize_pos c.level
  have hlt : c.va < next := lt_alignDown_add c.va hpos
  have hdvd : pageSize c.level ∣ next :=
    Nat.dvd_add (dvd_alignDown _ _) dvd_rfl
  -- the address before `next` is in the slot of the cursor
  have hlast : (next - 1) / pageSize c.level = c.va / pageSize c.level := by
    rw [div_eq_iff_mem hpos]
    omega
  rw [hstop]
  refine Post.bind (post_leaveNodes _ c h rfl hdvd) ?_
  rintro c₁ ⟨h₁, hsame, hva₁, hl₁, hd, hend⟩
  refine ⟨⟨h₁.isRoot, h₁.level_pos, h₁.level_le, h₁.guard_le, h₁.nonempty, h₁.managed,
    h₁.stop_aligned, ?_, ?_, h₁.span, h₁.above, ?_⟩, ⟨hsame.guardLevel, hsame.barrierVa⟩, rfl, hl₁,
    hd, hend⟩
  · exact (four_thousand_dvd_pageSize c.level).trans hdvd
  · have hs := h₁.start_le
    show c₁.barrierVa.start ≤ next
    omega
  · obtain ⟨x, hx, hpath, hdiv⟩ := h₁.anchor
    refine ⟨x, hx, hpath, ?_⟩
    intro hor
    show x / pageSize (c₁.level + 1) = next / pageSize (c₁.level + 1)
    have hva₁' : c₁.va < c₁.barrierVa.stop := by rw [hva₁, hsame.barrierVa]; exact hva
    by_cases hg : c₁.level < c₁.guardLevel
    · rw [hdiv (Or.inr hva₁'), hva₁, div_pageSize_pred h₁.level_pos hd (hend hg)]
      exact (div_pageSize_mono (by omega) hlast).symm
    · have hlevel : c₁.level = c₁.guardLevel := by
        have := h₁.level_le
        omega
      have hnx : next < c₁.barrierVa.stop := hor.resolve_left hg
      rw [hlevel, h₁.span x hx, h₁.span next ⟨by have := h₁.start_le; omega, hnx⟩]

/-! ## `jump` -/

/-- A cursor at the end of its range, where the range ends with the span of the
subtree root: no node of the path spans its address any more. -/
def Cursor.Depleted (c : Cursor) : Prop :=
  c.va = c.barrierVa.stop ∧ pageSize (c.guardLevel + 1) ∣ c.barrierVa.stop

/-- The subtree root spans every target, unless the cursor is depleted. -/
theorem CursorOK.spans_target {c : Cursor} {va : ℕ} (h : CursorOK m cfg root c)
    (hmem : c.barrierVa.Contains va) (hd : ¬c.Depleted) :
    c.va / pageSize (c.guardLevel + 1) = va / pageSize (c.guardLevel + 1) := by
  have hpos := pageSize_pos (c.guardLevel + 1)
  rw [h.span va hmem]
  rcases Nat.lt_or_ge c.va c.barrierVa.stop with hlt | hge
  · exact h.span c.va (h.va_mem hlt)
  · have heq : c.va = c.barrierVa.stop := le_antisymm h.le_stop hge
    have hne := h.nonempty
    have hlast := h.span (c.barrierVa.stop - 1) ⟨by omega, by omega⟩
    -- the end of the range is not the end of the span
    have hndvd : ¬pageSize (c.guardLevel + 1) ∣ c.barrierVa.stop := fun hdvd => hd ⟨heq, hdvd⟩
    rw [heq, ← hlast]
    obtain ⟨k, hk⟩ : ∃ k, c.barrierVa.stop = k + 1 := ⟨c.barrierVa.stop - 1, by omega⟩
    rw [hk] at hndvd ⊢
    rw [Nat.succ_div_of_not_dvd hndvd, Nat.add_sub_cancel]

/-- The loop of `jump` climbs to a node that spans the target. -/
theorem post_jumpLoop {va : ℕ} (hpage : 4096 ∣ va) (fuel : ℕ) : ∀ c : Cursor,
    CursorOK m cfg root c → c.barrierVa.Contains va → (A .assertion ∨ ¬c.Depleted) →
    c.guardLevel + 2 ≤ fuel + c.level →
    Post A (Cursor.jumpLoop va fuel c) (fun c' => CursorPath m cfg root c' ∧
      SameRange c c' ∧ c'.va = va) := by
  induction fuel with
  | zero =>
      intro c h _ _ hfuel
      have := h.level_le
      omega
  | succ fuel ih =>
      intro c h hmem hA hfuel
      rw [Cursor.jumpLoop]
      refine post_ite ?_ ?_
      · rintro ⟨-, hlo, hhi⟩
        refine ⟨⟨h.isRoot, h.level_pos, h.level_le, h.guard_le, h.nonempty, h.managed,
          h.stop_aligned, hpage, hmem.1, h.span, h.above, ?_⟩, ⟨rfl, rfl⟩, rfl⟩
        obtain ⟨x, hx, hpath, hdiv⟩ := h.anchor
        refine ⟨x, hx, hpath, ?_⟩
        intro _
        show x / pageSize (c.level + 1) = va / pageSize (c.level + 1)
        by_cases hg : c.level < c.guardLevel
        · rw [hdiv (Or.inl hg), eq_comm, div_eq_iff_mem (pageSize_pos _)]
          omega
        · have hlevel : c.level = c.guardLevel := by
            have := h.level_le
            omega
          rw [hlevel, h.span x hx, h.span va hmem]
      · intro hmiss
        by_cases hg : c.level < c.guardLevel
        · refine Post.bind (post_popLevel h.toCursorPath hg) ?_
          rintro c₁ ⟨h₁, hsame, hl₁, hva₁⟩
          refine (ih c₁ ⟨h₁, by rw [hva₁, hsame.barrierVa]; exact h.le_stop⟩
            (by rw [hsame.barrierVa]; exact hmem) ?_ ?_).mono ?_
          · unfold Cursor.Depleted
            rw [hva₁, hsame.barrierVa, hsame.guardLevel]
            exact hA
          · rw [hsame.guardLevel, hl₁]
            omega
          · rintro c₂ ⟨h₂, hsame₂, hva₂⟩
            exact ⟨h₂, hsame.trans hsame₂, hva₂⟩
        · have hlevel : c.level = c.guardLevel := by
            have := h.level_le
            omega
          have hass : A .assertion := by
            refine hA.resolve_right ?_
            intro hd
            have hspan := h.spans_target hmem hd
            rw [eq_comm, div_eq_iff_mem (pageSize_pos _), ← hlevel] at hspan
            exact hmiss ⟨hlevel.le, hspan.1, by omega⟩
          -- a depleted cursor: popping the subtree root makes the next pop panic
          have hlp := h.level_pos
          have habove := h.above (c.guardLevel + 1) (Nat.lt_succ_self _)
          rw [Nat.add_sub_cancel] at habove
          unfold Cursor.popLevel
          cases hpath : c.path (c.level - 1) with
          | none => exact hass
          | some q =>
              obtain ⟨k, rfl⟩ : ∃ k, fuel = k + 1 := ⟨fuel - 1, by omega⟩
              show Post _ (Cursor.jumpLoop va (k + 1) _) _
              rw [Cursor.jumpLoop, if_neg (by simp only; omega)]
              unfold Cursor.popLevel
              simp only [Nat.add_sub_cancel]
              rw [update_of_ne (by omega), hlevel, habove]
              exact hass

/-- `jump` sets the address when it is in the range of the cursor. -/
theorem post_jump {c : Cursor} (h : CursorOK m cfg root c) {va : ℕ}
    (hA : A .assertion ∨ 4096 ∣ va ∧ ¬(c.Depleted ∧ c.barrierVa.Contains va)) :
    Post A (c.jump va) (fun r => CursorOK m cfg root r.2 ∧ SameRange c r.2 ∧
      (if c.barrierVa.Contains va then r.1 = .ok () ∧ r.2.va = va
        else r.1 = .error (.invalidVaddr va) ∧ r.2 = c)) := by
  unfold Cursor.jump
  refine Post.bind (post_check (fun hmod => hA.resolve_right ?_)) ?_
  · rintro ⟨hdvd, -⟩
    exact hmod (Nat.mod_eq_zero_of_dvd hdvd)
  intro _ hpage
  by_cases hmem : c.barrierVa.Contains va
  · rw [if_pos hmem]
    have hg := h.guard_le
    have hlp := h.level_pos
    refine Post.bind (post_jumpLoop (Nat.dvd_of_mod_eq_zero hpage) _ c h hmem ?_ ?_) ?_
    · exact hA.imp_right (fun hd hdep => hd.2 ⟨hdep, hmem⟩)
    · unfold NR_LEVELS
      omega
    · rintro c₁ ⟨h₁, hsame, hva⟩
      refine ⟨⟨h₁, ?_⟩, hsame, ?_⟩
      · rw [hsame.barrierVa, hva]
        exact hmem.2.le
      · rw [if_pos hmem]
        exact ⟨rfl, hva⟩
  · rw [if_neg hmem]
    refine ⟨h, SameRange.refl c, ?_⟩
    rw [if_neg hmem]
    exact ⟨rfl, rfl⟩

/-- A depleted cursor stands at its subtree root. -/
theorem CursorOK.level_of_depleted {c : Cursor} (h : CursorOK m cfg root c) (hd : c.Depleted) :
    c.level = c.guardLevel := by
  obtain ⟨heq, hdvd⟩ := hd
  by_contra hne
  have hlt : c.level < c.guardLevel := lt_of_le_of_ne h.level_le hne
  obtain ⟨x, hx, -, hdiv⟩ := h.anchor
  have hxs := hdiv (Or.inl hlt)
  rw [heq, Nat.div_eq_iff (pageSize_pos _)] at hxs
  have hle : c.level + 1 ≤ c.guardLevel + 1 := by omega
  have hdvd' := Nat.div_mul_cancel ((pageSize_dvd hle).trans hdvd)
  have := hx.2
  omega

/-- From a depleted cursor, `jump` pops more levels than there are. -/
theorem jump_of_depleted {c : Cursor} (h : CursorOK m cfg root c) (hd : c.Depleted) {va : ℕ}
    (hmem : c.barrierVa.Contains va) : c.jump va = .error .assertion := by
  have hlevel := h.level_of_depleted hd
  obtain ⟨heq, hdvd⟩ := hd
  have hpos := h.level_pos
  obtain ⟨x, hx, hpath, -⟩ := h.anchor
  obtain ⟨q, hq, -⟩ := hpath c.level le_rfl h.level_le
  have habove := h.above (c.guardLevel + 1) (Nat.lt_succ_self _)
  rw [Nat.add_sub_cancel, ← hlevel] at habove
  have hbelow : va < alignDown c.va (pageSize (c.level + 1)) := by
    rw [heq, hlevel, alignDown_of_dvd hdvd]
    exact hmem.2
  unfold Cursor.jump Exec.check
  rw [if_pos hmem]
  by_cases hal : va % PAGE_SIZE = 0
  · rw [if_pos hal]
    show Cursor.jumpLoop va (NR_LEVELS + 2) c >>= _ = _
    rw [Cursor.jumpLoop, if_neg (by omega)]
    unfold Cursor.popLevel
    rw [hq]
    show Cursor.jumpLoop va (NR_LEVELS + 1) _ >>= _ = _
    rw [Cursor.jumpLoop, if_neg (by simp only; omega)]
    unfold Cursor.popLevel
    simp only [Nat.add_sub_cancel]
    rw [update_of_ne (by omega), habove]
    rfl
  · rw [if_neg hal]
    rfl

end

end Vostd
