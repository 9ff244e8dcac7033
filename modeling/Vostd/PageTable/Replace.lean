/-
# Replacing the current entry

`replace_cur_entry` overwrites one entry by a frame or clears it, and marks the
subtree that the entry may have held.  `Replaced` is this step on the memory; the
lemmas below are its whole effect on the table: it stays well formed, the walks
outside the slot do not change (`Replaced.keeps`), and the addresses of the slot
translate by the new entry (`Replaced.pageWalk_slot`).
-/
import Vostd.PageTable.Stray

namespace Vostd

open Exec

variable {P : Type}

/-- How the addresses of a slot translate by an entry that is no child. -/
def Pte.translate (l : ℕ) (x : ℕ) : Pte P → Option (ℕ × P)
  | .frame pa prop => some (pa + x % pageSize l, prop)
  | .absent | .table _ => none

theorem walkFrom_leaf {m : Mem P} {l q x : ℕ} {e : Pte P} (hl : 1 ≤ l)
    (h : m.entry q (pteIndex x l) = e) (he : e.node? = none) :
    walkFrom m l q x = e.translate l x := by
  cases e with
  | absent => rw [walkFrom_absent hl h]; rfl
  | frame pa prop => rw [walkFrom_frame hl h]; rfl
  | table c => cases he

/-- The counts after the entry `old` was removed: a child node is cloned. -/
def Pte.removedCount (refCount : ℕ → ℕ) : Pte P → ℕ → ℕ
  | .table pt => Function.update refCount pt (refCount pt + 1)
  | .absent | .frame _ _ => refCount

theorem Pte.removedCount_of_leaf {old : Pte P} (h : ∀ pt, old ≠ .table pt) (refCount : ℕ → ℕ) :
    old.removedCount refCount = refCount := by
  cases old with
  | table pt => exact absurd rfl (h pt)
  | _ => rfl

/-- The entry `idx` of the node `q` becomes `e`; what was below it is stray. -/
structure Replaced (m m' : Mem P) (q : ℕ) (n : Node P) (idx : ℕ) (e : Pte P) : Prop where
  marked : MarkedBy (m.put q n idx e) m'
    (fun p => ∃ pt, n.entries idx = .table pt ∧ Below (m.put q n idx e) pt p)
  refCount : m'.refCount = (n.entries idx).removedCount m.refCount
  canUnmap : ∀ pt, n.entries idx = .table pt → n.level = 4 → n.cfg.topLevelCanUnmap = true

theorem MarkedBy.keeps {m m' : Mem P} {S : ℕ → Prop} (h : MarkedBy m m' S)
    (hS : ∀ p k, m.nodes p = Option.some k → k.level = 4 → ¬S p) (root : ℕ) :
    Keeps m m' root (fun _ => False) where
  top := by
    intro r k hk hl
    obtain ⟨k', hk', hc, hl', -, he, -, hs⟩ := h.some r k hk
    exact ⟨k', hk', by rw [hl', hl], hc, hs (hS r k hk hl), fun i _ => by rw [he]⟩
  nodeAt := by
    intro r x _ _ l q _ h4 hq
    rw [h.nodeAt_eq r x h4, hq]
  walk := fun r x _ _ => h.pageWalk_eq r x

section

variable {m m' : Mem P} {root va l q : ℕ} {n : Node P} {e : Pte P}

namespace Replaced

/-- A removed child has no owner any more. -/
theorem not_owned (hp : Position m root va l q n) (hW : WellFormed m) (he : e.node? = none)
    {pt : ℕ} (hpt : n.entries (pteIndex va l) = .table pt) (p i : ℕ) :
    ¬Owns (m.put q n (pteIndex va l) e) p i pt := by
  intro ho
  obtain ⟨ho', hne⟩ := Mem.put_owns hp.node he ho
  obtain ⟨rfl, rfl⟩ := hW.unique ho' ⟨n, hp.node, hp.slot hW, hpt⟩
  exact hne rfl rfl

theorem put_wellFormed (hr : Replaced m m' q n (pteIndex va l) e) (hp : Position m root va l q n)
    (hW : WellFormed m) (he : e.node? = none)
    (hleaf : ∀ pa prop, e = .frame pa prop → n.MapsFrames) :
    WellFormed (m.put q n (pteIndex va l) e) :=
  hW.put hp.node (hp.slot hW) he hleaf hr.canUnmap

theorem wellFormed (hr : Replaced m m' q n (pteIndex va l) e) (hp : Position m root va l q n)
    (hW : WellFormed m) (he : e.node? = none)
    (hleaf : ∀ pa prop, e = .frame pa prop → n.MapsFrames) :
    WellFormed m' := by
  have hW₁ := hr.put_wellFormed hp hW he hleaf
  refine hW₁.marked hr.marked ?_
  intro p i c ho
  constructor
  · rintro ⟨pt, hpt, hb⟩
    exact ⟨pt, hpt, hb.tail ho⟩
  · rintro ⟨pt, hpt, hb⟩
    refine ⟨pt, hpt, ?_⟩
    rcases hb.eq_or_owned with rfl | ⟨p', i', hb', ho'⟩
    · exact absurd ho (not_owned hp hW he hpt p i)
    · obtain ⟨rfl, -⟩ := hW₁.unique ho ho'
      exact hb'

/-- A removed child is referred to by no entry, so the counts of children are as before. -/
theorem refCount_of_owns (hr : Replaced m m' q n (pteIndex va l) e) (hp : Position m root va l q n)
    (hW : WellFormed m) (he : e.node? = none) {p i d : ℕ} (hown : Owns m' p i d) :
    Owns m p i d ∧ m'.refCount d = m.refCount d := by
  have hput := hr.marked.owns_iff.mp hown
  refine ⟨(Mem.put_owns hp.node he hput).1, ?_⟩
  rw [hr.refCount]
  cases hold : n.entries (pteIndex va l) with
  | table pt =>
      refine Function.update_of_ne ?_ _ _
      rintro rfl
      exact not_owned hp hW he hold p i hput
  | _ => rfl

/-- What is marked is below the top level. -/
theorem marked_level (hr : Replaced m m' q n (pteIndex va l) e) (hp : Position m root va l q n)
    (hW : WellFormed m) (he : e.node? = none)
    (hleaf : ∀ pa prop, e = .frame pa prop → n.MapsFrames)
    {pt p : ℕ} {k : Node P} (hpt : n.entries (pteIndex va l) = .table pt)
    (hb : Below (m.put q n (pteIndex va l) e) pt p)
    (hk : (m.put q n (pteIndex va l) e).nodes p = some k) : k.level < 4 := by
  obtain ⟨d, hd, hdl, -⟩ := (hW.ok q n hp.node).child _ _ (hp.slot hW) hpt
  obtain ⟨d', hd', hdl', -⟩ := Mem.put_nodes_of (pteIndex va l) e hp.node hd
  obtain ⟨k', hk', hkl⟩ := hb.level_le (hr.put_wellFormed hp hW he hleaf) hd'
  rw [hk] at hk'
  obtain rfl := Option.some.inj hk'
  have := (hW.ok q n hp.node).level_le
  omega

/-- **Nothing outside the slot changes.** -/
theorem keeps (hr : Replaced m m' q n (pteIndex va l) e) (hp : Position m root va l q n)
    (hW : WellFormed m) (he : e.node? = none)
    (hleaf : ∀ pa prop, e = .frame pa prop → n.MapsFrames) :
    Keeps m m' root (fun x => slotNo l x = slotNo l va) := by
  refine (hp.keeps hW (changesEntry_put hp.node _ e) hr.canUnmap).trans
    ((hr.marked.keeps ?_ root).mono (fun _ h => h.elim))
  rintro p k hk hkl ⟨pt, hpt, hb⟩
  have := hr.marked_level hp hW he hleaf hpt hb hk
  omega

/-- The nodes at and above the changed entry stay where they are. -/
theorem nodeAt_above (hr : Replaced m m' q n (pteIndex va l) e) (hp : Position m root va l q n)
    (hW : WellFormed m) {r x k : ℕ} (hx : Covers m r x) (hk : l ≤ k) (hk4 : k ≤ 4) :
    nodeAt m' r x k = nodeAt m r x k := by
  rw [hr.marked.nodeAt_eq r x hk4, hp.nodeAt_above hW (changesEntry_put hp.node _ e) hx hk hk4]

/-- The nodes of walks beside the slot stay where they are. -/
theorem nodeAt_beside (hr : Replaced m m' q n (pteIndex va l) e) (hp : Position m root va l q n)
    (hW : WellFormed m) {r x k : ℕ} (hx : Covers m r x) (hk : 1 ≤ k) (hk4 : k ≤ 4)
    (hne : r = root → slotNo l x ≠ slotNo l va) : nodeAt m' r x k = nodeAt m r x k := by
  rw [hr.marked.nodeAt_eq r x hk4,
    hp.nodeAt_beside hW (changesEntry_put hp.node _ e) hx hk hk4 hne]

/-- The other nodes keep their number of entries. -/
theorem nrChildren_iff (hr : Replaced m m' q n (pteIndex va l) e) {p k : ℕ} (hne : p ≠ q) :
    (∃ d, m'.nodes p = some d ∧ d.nrChildren = k) ↔ ∃ d, m.nodes p = some d ∧ d.nrChildren = k := by
  constructor
  · rintro ⟨d', hd', rfl⟩
    obtain ⟨d, hd, -, -, hcount, -⟩ := hr.marked.of_some hd'
    rw [Mem.put, Mem.setNode_nodes_of_ne _ _ hne] at hd
    exact ⟨d, hd, hcount.symm⟩
  · rintro ⟨d, hd, rfl⟩
    obtain ⟨d', hd', -, -, hcount, -⟩ := hr.marked.some p d
      (by rw [Mem.put, Mem.setNode_nodes_of_ne _ _ hne, hd])
    exact ⟨d', hd', hcount⟩

/-- **The addresses of the slot translate by the new entry.** -/
theorem pageWalk_slot (hr : Replaced m m' q n (pteIndex va l) e) (hp : Position m root va l q n)
    (hW : WellFormed m) (he : e.node? = none) {x : ℕ} (hx : slotNo l x = slotNo l va) :
    pageWalk m' root x = e.translate l x := by
  have hcov := hp.covers.of_slot hp.level_pos hp.level_le hx
  have hpx := hp.of_slot (slotNo_mono hp.level_pos (Nat.le_succ l) hx) hcov
  have hnode : nodeAt m' root x l = some q := by
    rw [hr.nodeAt_above hp hW hcov le_rfl hp.level_le, hpx.nodeAt]
  have hent : m'.entry q (pteIndex x l) = e := by
    rw [hr.marked.entry_eq, Mem.put, Mem.entry_eq (Mem.setNode_nodes_self _ _ _), Node.set_entries,
      pteIndex_of_slotNo hp.level_pos le_rfl hp.level_le hx, Function.update_self]
  rw [pageWalk_eq_walkFrom hp.level_le hnode, walkFrom_leaf hp.level_pos hent he]

end Replaced

end

/-! ## The operation -/

/-- What `replace_cur_entry` hands back for an old entry. -/
def fragOf (m' : Mem P) (c : Cursor) : Pte P → Option (PageTableFrag P)
  | .absent => none
  | .frame pa prop => some (.mapped c.va ⟨pa, c.level, prop⟩)
  | .table pt => some (.strayPageTable pt c.va (pageSize c.level) (framesBelow m' NR_LEVELS pt))

section

variable {A : Fault → Prop} {m : Mem P} {cfg : PageTableConfig P} {root q : ℕ} {c : Cursor}
  {n : Node P} {new : Child P}

/-- An entry that was no child leaves no subtree to mark. -/
theorem Replaced.of_leaf {idx : ℕ} {e : Pte P} (hno : ∀ pt, n.entries idx ≠ .table pt) :
    Replaced m (m.put q n idx e) q n idx e := by
  refine ⟨(MarkedBy.refl _).congr ?_, (Pte.removedCount_of_leaf hno m.refCount).symm,
    fun pt hpt => absurd hpt (hno pt)⟩
  intro p
  exact ⟨fun h => h.elim, fun ⟨pt, hpt, _⟩ => absurd hpt (hno pt)⟩

/-- The table after the entry is overwritten, before the subtree is marked. -/
theorem CurSlot.put_wellFormed (hW : WellFormed m) (hc : CurSlot m cfg root c q n)
    (hnew : ∀ pa, new ≠ .pageTable pa)
    (hleaf : ∀ pa l prop, new = .frame pa l prop → n.MapsFrames)
    (hcan : n.level = 4 → n.cfg.topLevelCanUnmap = true) :
    WellFormed (m.put q n (pteIndex c.va c.level) new.intoPte) := by
  have hnone : new.intoPte.node? = none := by
    cases new with
    | none => rfl
    | frame pa l prop => rfl
    | pageTable pa => exact absurd rfl (hnew pa)
  refine hW.put hc.position.node hc.slot hnone ?_ (fun _ _ => hcan)
  intro pa prop he
  cases new with
  | none => cases he
  | frame pa' l prop' => exact hleaf pa' l prop' rfl
  | pageTable pa' => cases he

theorem post_incRefCount {pa : ℕ} (hA : ¬m.refCount pa < REF_COUNT_MAX → A .assertion) :
    Post A (m.incRefCount pa) (fun m' =>
      m' = { m with refCount := Function.update m.refCount pa (m.refCount pa + 1) }) := by
  unfold Mem.incRefCount
  exact Post.bind (post_check hA) (fun _ _ => rfl)

/-- The removal of a child passes its check only where children may be removed. -/
theorem CurSlot.canUnmap (hc : CurSlot m cfg root c q n)
    (hcond : ¬(!cfg.topLevelCanUnmap && c.level == NR_LEVELS) = true) (hl : n.level = 4) :
    n.cfg.topLevelCanUnmap = true := by
  rw [hc.cfg_eq]
  cases hu : cfg.topLevelCanUnmap with
  | true => rfl
  | false =>
      rw [hu, ← hc.level, hl] at hcond
      exact absurd rfl hcond

/-- **`replace_cur_entry`** with a frame or nothing. -/
theorem post_replaceCurEntry (hW : WellFormed m) (hc : CurSlot m cfg root c q n) (new : Child P)
    (hnew : ∀ pa, new ≠ .pageTable pa)
    (hleaf : ∀ pa l prop, new = .frame pa l prop → l = c.level → n.MapsFrames)
    (hA : A .assertion ∨ ((∀ pa l prop, new = .frame pa l prop → l = c.level) ∧
      ∀ pt, n.entries (pteIndex c.va c.level) = .table pt →
        (cfg.topLevelCanUnmap = true ∨ c.level ≠ 4) ∧ m.refCount pt < REF_COUNT_MAX)) :
    Post A (c.replaceCurEntry cfg m new) (fun r =>
      Replaced m r.2 q n (pteIndex c.va c.level) new.intoPte ∧
      r.1 = fragOf (m.put q n (pteIndex c.va c.level) new.intoPte) c
        (n.entries (pteIndex c.va c.level)) ∧
      ∀ pa l prop, new = .frame pa l prop → l = c.level) := by
  unfold Cursor.replaceCurEntry
  refine hc.curNode_bind ?_
  refine Post.bind (post_replaceChild hW hc.position.node hc.slot hnew
    (fun pa l prop hframe => hA.imp_right ?_)) ?_
  · rintro ⟨hlevel, -⟩
    rw [hlevel pa l prop hframe, hc.level]
  rintro ⟨old, m₁⟩ ⟨rfl, rfl, hlev⟩
  have hlev' : ∀ pa l prop, new = .frame pa l prop → l = c.level := by
    intro pa l prop h
    rw [hlev pa l prop h, hc.level]
  simp only
  cases hold : n.entries (pteIndex c.va c.level) with
  | absent => exact ⟨Replaced.of_leaf (by rw [hold]; simp), rfl, hlev'⟩
  | frame pa prop => exact ⟨Replaced.of_leaf (by rw [hold]; simp), rfl, hlev'⟩
  | table pt =>
      refine post_ite (fun hcond => ?_) ?_
      · refine hA.resolve_right ?_
        rintro ⟨-, hremove⟩
        simp only [Bool.and_eq_true, Bool.not_eq_true', beq_iff_eq, NR_LEVELS] at hcond
        rcases (hremove pt hold).1 with hcan | hlevel
        · rw [hcan] at hcond
          exact Bool.noConfusion hcond.1
        · exact hlevel hcond.2
      intro hcond
      have hcan := hc.canUnmap hcond
      have hW₁ := hc.put_wellFormed hW hnew
        (fun pa l prop h => hleaf pa l prop h (hlev' pa l prop h)) hcan
      obtain ⟨d, hd, hdl, -⟩ := (hW.ok q n hc.position.node).child _ _ hc.slot hold
      obtain ⟨d', hd', hdl', -⟩ := Mem.put_nodes_of (pteIndex c.va c.level) new.intoPte
        hc.position.node hd
      have h4 := (hW.ok q n hc.position.node).level_le
      refine Post.bind (post_dfsMarkStray NR_LEVELS _ pt d' hW₁.levelsOK hd'
        (by unfold NR_LEVELS; omega) (by omega)) ?_
      rintro ⟨k, m₂⟩ ⟨hm₂, hrc, hk⟩
      simp only at hrc
      refine Post.bind (post_incRefCount (fun hmax => ?_)) ?_
      · refine hA.resolve_right ?_
        rintro ⟨-, hremove⟩
        rw [hrc] at hmax
        exact hmax (hremove pt hold).2
      rintro _ rfl
      refine ⟨⟨(hm₂.addRef pt).congr ?_, ?_, fun _ _ => hcan⟩, ?_, hlev'⟩
      · intro p
        constructor
        · intro hb
          exact ⟨pt, hold, hb⟩
        · rintro ⟨pt', hpt', hb⟩
          rw [hold] at hpt'
          injection hpt' with h
          subst h
          exact hb
      · rw [hold, Pte.removedCount, hrc]
        rfl
      · simp only at hk
        rw [hk]
        rfl

end

end Vostd
