/-
# Specifications of the cursor operations

One specification for each public operation of `cursor/mod.rs`: what it returns,
what it does to the translation, where the cursor stands afterwards, and that it
keeps the table well formed.  The loops are handled by induction on their bound,
with an invariant that says which addresses have already been passed and that
nothing was mapped there.
-/
import Vostd.PageTable.Leaves

namespace Vostd

open Exec

variable {P : Type}
  {m m' : Mem P} {cfg : PageTableConfig P} {root : ℕ} {c : Cursor} {A : Fault → Prop}

/-! ## The current slot -/

namespace CurSlot

variable {m : Mem P} {cfg : PageTableConfig P} {root q : ℕ} {c : Cursor} {n : Node P}

theorem entry_eq (hc : CurSlot m cfg root c q n) :
    m.entry q (pteIndex c.va c.level) = n.entries (pteIndex c.va c.level) :=
  Mem.entry_eq hc.position.node _

/-- An entry that is a child is above the lowest level. -/
theorem two_le (hc : CurSlot m cfg root c q n) (hW : WellFormed m) {pt : ℕ}
    (he : n.entries (pteIndex c.va c.level) = .table pt) : 2 ≤ c.level := by
  obtain ⟨k, hk, hkl, -⟩ := (hW.ok q n hc.position.node).child _ _ hc.slot he
  have := (hW.ok pt k hk).level_pos
  have := hc.level
  omega

/-- The walk of an address of the slot, resumed at the current node. -/
theorem pageWalk_slot (hc : CurSlot m cfg root c q n) {x : ℕ}
    (hx : slotNo c.level x = slotNo c.level c.va) :
    pageWalk m root x = walkFrom m c.level q x := by
  have hp := hc.position
  have hpx := hp.of_slot (slotNo_mono hp.level_pos (Nat.le_succ _) hx)
    (hp.covers.of_slot hp.level_pos hp.level_le hx)
  exact pageWalk_eq_walkFrom hp.level_le hpx.nodeAt

/-- An entry that is no child translates the whole slot. -/
theorem pageWalk_leaf (hc : CurSlot m cfg root c q n)
    (he : (n.entries (pteIndex c.va c.level)).node? = none) {x : ℕ}
    (hx : slotNo c.level x = slotNo c.level c.va) :
    pageWalk m root x = (n.entries (pteIndex c.va c.level)).translate c.level x := by
  have hp := hc.position
  rw [hc.pageWalk_slot hx]
  refine walkFrom_leaf hp.level_pos ?_ he
  rw [pteIndex_of_slotNo hp.level_pos le_rfl hp.level_le hx, hc.entry_eq]

/-- A child without entries translates nothing. -/
theorem pageWalk_emptyChild (hc : CurSlot m cfg root c q n) (hW : WellFormed m) {pt : ℕ}
    {k : Node P} (he : n.entries (pteIndex c.va c.level) = .table pt)
    (hk : m.nodes pt = some k) (hzero : k.nrChildren = 0) {x : ℕ}
    (hx : slotNo c.level x = slotNo c.level c.va) : pageWalk m root x = none := by
  have hp := hc.position
  have h2 := hc.two_le hW he
  obtain ⟨k', hk', hkl, -⟩ := (hW.ok q n hp.node).child _ _ hc.slot he
  rw [hk] at hk'
  obtain rfl := Option.some.inj hk'
  have habs : ∀ i, k.slots.Contains i → k.entries i = .absent := by
    rw [← Node.presentCount_eq_zero_iff, ← (hW.ok pt k hk).count, hzero]
  have h4 := hp.level_le
  have hcl := hc.level
  rw [hc.pageWalk_slot hx, walkFrom_table hp.level_pos (c := pt)]
  · refine walkFrom_absent (by omega) ?_
    rw [Mem.entry_eq hk]
    exact habs _ (Node.slots_of_level_lt (by omega) (pteIndex_lt _ _))
  · rw [pteIndex_of_slotNo hp.level_pos le_rfl hp.level_le hx, hc.entry_eq, he]

end CurSlot

/-- Managed addresses of a range in the current slot. -/
theorem CursorPath.slotNo_of_mem
    (h : CursorPath m cfg root c) (hva : c.va < c.barrierVa.stop) {a : ℕ}
    (ha : c.barrierVa.Contains a) (hlo : alignDown c.va (pageSize c.level) ≤ a)
    (hhi : a < alignDown c.va (pageSize c.level) + pageSize c.level) :
    slotNo c.level a = slotNo c.level c.va := by
  have h4 := h.level_le.trans h.guard_le
  exact ((h.managed a ha).canonical.mem_slot_iff (h.va_managed hva).canonical h.level_pos h4).mpr
    ⟨hlo, hhi⟩

/-! ## `query` -/

/-- The item, or its absence, is what the table shows in the whole slot. -/
def ItemShown (m : Mem P) (cfg : PageTableConfig P) (root l va : ℕ) : Option (Item P) → Prop
  | none => ∀ x, slotNo l x = slotNo l va → pageWalk m root x = none
  | some item => item.level = l ∧ (∃ q i, LeafAt m cfg q i l item.pa item.prop) ∧
      ∀ x, slotNo l x = slotNo l va →
        pageWalk m root x = some (item.pa + x % pageSize l, item.prop)

/-- The reference counts after an item was cloned. -/
def cloneRefCount (cfg : PageTableConfig P) (rc : ℕ → ℕ) : Option (Item P) → ℕ → ℕ
  | none => rc
  | some item => if cfg.tracked item.prop then Function.update rc item.pa (rc item.pa + 1) else rc

/-- The frames of counted items can take another reference. -/
def Mem.CountsFit (cfg : PageTableConfig P) (m : Mem P) : Prop :=
  ∀ q i l pa prop, LeafAt m cfg q i l pa prop → cfg.tracked prop = true →
    m.refCount pa < REF_COUNT_MAX

theorem post_cloneItem {item : Item P}
    (hA : A .assertion ∨ (cfg.tracked item.prop = true → m.refCount item.pa < REF_COUNT_MAX)) :
    Post A (m.cloneItem cfg item) (fun m' => m'.nodes = m.nodes ∧
      m'.refCount = cloneRefCount cfg m.refCount (some item) ∧ m'.pool = m.pool) := by
  unfold Mem.cloneItem
  simp only [cloneRefCount]
  refine post_ite ?_ ?_
  · intro ht
    rw [if_pos ht]
    refine (post_incRefCount
      (fun hmax => hA.resolve_right (fun hcount => hmax (hcount ht)))).mono ?_
    rintro _ rfl
    exact ⟨rfl, rfl, rfl⟩
  · intro ht
    rw [if_neg ht]
    exact ⟨rfl, rfl, rfl⟩

theorem entry_eq_of_nodes (h : m'.nodes = m.nodes) (q i : ℕ) :
    m'.entry q i = m.entry q i := by
  simp only [Mem.entry, h]

/-- Reference counts do not matter to a cursor. -/
theorem CursorPath.of_nodes
    (h : CursorPath m cfg root c) (hn : m'.nodes = m.nodes) : CursorPath m' cfg root c := by
  refine h.of_nodeAt ?_ ?_
  · obtain ⟨k, hk, hrest⟩ := h.isRoot
    exact ⟨k, by rw [hn, hk], hrest⟩
  · intro x _ l q _ h4 hq
    rw [nodeAt_eq_of_agree h4 (fun _ _ _ p _ => entry_eq_of_nodes hn p _), hq]

theorem cloneRefCount_ne_zero {rc : ℕ → ℕ} {it : Option (Item P)}
    {q : ℕ} (h : rc q ≠ 0) : cloneRefCount cfg rc it q ≠ 0 := by
  cases it with
  | none => exact h
  | some item =>
      simp only [cloneRefCount]
      split
      · by_cases hq : q = item.pa
        · subst hq
          rw [Function.update_self]
          omega
        · rwa [Function.update_of_ne hq]
      · exact h

theorem WellFormed.of_nodes (h : WellFormed m) (hn : m'.nodes = m.nodes)
    (hrc : ∀ q k, m.nodes q = some k → m'.refCount q ≠ 0) : WellFormed m' where
  ok := by
    intro q k hk
    rw [hn] at hk
    have hok := h.ok q k hk
    exact ⟨hok.level_pos, hok.level_le, hrc q k hk, hok.count,
      by rw [hn]; exact hok.child, hok.leaf⟩
  unique := by
    rintro p i p' i' q ⟨k, hk, hrest⟩ ⟨k', hk', hrest'⟩
    rw [hn] at hk hk'
    exact h.unique ⟨k, hk, hrest⟩ ⟨k', hk', hrest'⟩
  borrowed := by
    rw [hn]
    exact h.borrowed

theorem post_queryLoop
    (hA : A .assertion ∨ m.CountsFit cfg) (hW : WellFormed m) (fuel : ℕ) : ∀ c : Cursor,
    CursorPath m cfg root c → c.va < c.barrierVa.stop → (A .overflow ∨ c.Headroom) →
    c.level ≤ fuel →
    Post A (Cursor.queryLoop cfg fuel m c) (fun r =>
      CursorPath r.2.1 cfg root r.2.2 ∧ SameRange c r.2.2 ∧ r.2.2.va = c.va ∧
      r.2.1.nodes = m.nodes ∧ r.2.1.refCount = cloneRefCount cfg m.refCount r.1.2 ∧
      r.1.1 = ⟨alignDown c.va (pageSize r.2.2.level),
        alignDown c.va (pageSize r.2.2.level) + pageSize r.2.2.level⟩ ∧
      ItemShown m cfg root r.2.2.level c.va r.1.2) := by
  induction fuel with
  | zero =>
      intro c h _ _ hfuel
      have := h.level_pos
      omega
  | succ fuel ih =>
      intro c h hva hov hfuel
      obtain ⟨q, n, hc⟩ := h.position hW hva
      rw [Cursor.queryLoop]
      refine hc.curEntry_bind ?_
      cases he : n.entries (pteIndex c.va c.level) with
      | table pt =>
          have h2 := hc.two_le hW he
          refine Post.bind (post_pushLevel h hva h2 hc.position.nodeAt (hc.entry_eq.trans he)) ?_
          rintro c₁ ⟨h₁, hsame, hl₁, hva₁⟩
          refine (ih c₁ h₁ (by rw [hva₁, hsame.barrierVa]; exact hva)
            (hov.imp_right hsame.headroom_iff.mpr) (by omega)).mono ?_
          rintro ⟨⟨rng, it⟩, m₂, c₂⟩ ⟨h₂, hsame₂, hva₂, hn, hrc, hr, hit⟩
          rw [hva₁] at hr hit
          exact ⟨h₂, hsame.trans hsame₂, hva₂.trans hva₁, hn, hrc, hr, hit⟩
      | absent =>
          refine Post.bind (post_curVaRange c (h.slot_overflow hva hov)) ?_
          rintro ⟨s, t⟩ ⟨rfl, rfl⟩
          refine ⟨h, SameRange.refl c, rfl, rfl, rfl, rfl, ?_⟩
          intro x hx
          rw [hc.pageWalk_leaf (by rw [he]; rfl) hx, he]
          rfl
      | frame pa prop =>
          have hleaf : LeafAt m cfg q (pteIndex c.va c.level) c.level pa prop :=
            ⟨n, hc.position.node, hc.cfg_eq, hc.level, hc.slot, he⟩
          refine Post.bind (post_cloneItem
            (hA.imp_right (fun hcounts => hcounts _ _ _ _ _ hleaf))) ?_
          rintro m₁ ⟨hn, hrc, -⟩
          refine Post.bind (post_curVaRange c (h.slot_overflow hva hov)) ?_
          rintro ⟨s, t⟩ ⟨rfl, rfl⟩
          refine ⟨h.of_nodes hn, SameRange.refl c, rfl, hn, hrc, rfl, rfl, ⟨q, _, hleaf⟩, ?_⟩
          intro x hx
          rw [hc.pageWalk_leaf (by rw [he]; rfl) hx, he]
          rfl

/-- **`query`** shows what is mapped in the slot of the current address; it
changes nothing but the reference count of the item that it clones. -/
theorem post_query
    (hA : A .assertion ∨ m.CountsFit cfg) (hov : A .overflow ∨ c.Headroom) (hW : WellFormed m)
    (h : CursorOK m cfg root c) :
    Post A (c.query cfg m) (fun r =>
      WellFormed r.2.1 ∧ CursorOK r.2.1 cfg root r.2.2 ∧ SameRange c r.2.2 ∧ r.2.2.va = c.va ∧
      r.2.1.nodes = m.nodes ∧
      match r.1 with
      | .error err => err = .invalidVaddr c.va ∧ c.barrierVa.stop ≤ c.va ∧ r.2.1 = m
      | .ok (rng, it) => c.va < c.barrierVa.stop ∧
          r.2.1.refCount = cloneRefCount cfg m.refCount it ∧
          ∃ l, 1 ≤ l ∧ l ≤ 4 ∧ rng = ⟨alignDown c.va (pageSize l),
            alignDown c.va (pageSize l) + pageSize l⟩ ∧ ItemShown m cfg root l c.va it) := by
  unfold Cursor.query
  refine post_ite ?_ ?_
  · intro hva
    exact ⟨hW, h, SameRange.refl c, rfl, rfl, rfl, hva, rfl⟩
  · intro hva
    have hva' : c.va < c.barrierVa.stop := by omega
    have h4 := h.level_le.trans h.guard_le
    refine Post.bind (post_queryLoop hA hW _ c h.toCursorPath hva' hov
      (by unfold NR_LEVELS; omega)) ?_
    rintro ⟨⟨rng, it⟩, m₁, c₁⟩ ⟨h₁, hsame, hva₁, hn, hrc, hr, hit⟩
    simp only at h₁ hsame hva₁ hn hrc hr hit
    refine ⟨hW.of_nodes hn ?_, ⟨h₁, ?_⟩, hsame, hva₁, hn, hva', hrc, c₁.level, h₁.level_pos,
      h₁.level_le.trans h₁.guard_le, hr, hit⟩
    · intro q k hk
      rw [hrc]
      exact cloneRefCount_ne_zero (hW.ok q k hk).alive
    · rw [hva₁, hsame.barrierVa]
      omega

/-! ## `find_next_impl` -/

/-- The current slot starts at the current address and ends before `stop`. -/
structure Fits (c : Cursor) (stop : ℕ) : Prop where
  start : pageSize c.level ∣ c.va
  le : c.va + pageSize c.level ≤ stop

/-- What `find_next_impl` stops at: a mapped frame, or a subtree that may be
removed as a whole. -/
def Found (cfg : PageTableConfig P) (c : Cursor) (stop : ℕ) (findUnmapSubtree splitHuge : Bool) :
    Pte P → Prop
  | .absent => False
  | .frame _ _ => splitHuge = true → Fits c stop
  | .table _ => findUnmapSubtree = true ∧ Fits c stop ∧
      (cfg.topLevelCanUnmap = true ∨ c.level ≠ 4)

/-- The result of `find_next_impl`: the table only grew, the cursor went forward
over addresses at which nothing is mapped, to the end or to a hit. -/
structure FindSpec (m : Mem P) (cfg : PageTableConfig P) (root : ℕ) (c : Cursor) (stop : ℕ)
    (findUnmapSubtree splitHuge : Bool) (r : Option ℕ × Mem P × Cursor) : Prop where
  grow : Grow root m r.2.1
  path : CursorPath r.2.1 cfg root r.2.2
  same : SameRange c r.2.2
  le : min c.va c.barrierVa.stop ≤ r.2.2.va
  le_stop : r.2.2.va ≤ c.barrierVa.stop
  unmapped : ∀ a, c.va ≤ a → a < r.2.2.va → pageWalk m root a = none
  done : r.1 = none → stop ≤ r.2.2.va
  found : ∀ v, r.1 = some v → v = r.2.2.va ∧ v < stop ∧ ∃ q n, CurSlot r.2.1 cfg root r.2.2 q n ∧
    Found cfg r.2.2 stop findUnmapSubtree splitHuge (n.entries (pteIndex r.2.2.va r.2.2.level))

section

variable {m m₁ : Mem P} {cfg : PageTableConfig P} {root : ℕ} {c c₁ : Cursor} {stop : ℕ}
  {findUnmapSubtree splitHuge : Bool} {A : Fault → Prop}

/-- A search that is continued from a later address and a grown table. -/
theorem FindSpec.continued {r : Option ℕ × Mem P × Cursor} (hW : WellFormed m)
    (h : CursorPath m cfg root c) (hg : Grow root m m₁) (hsame : SameRange c c₁)
    (hle : c.va ≤ c₁.va)
    (hun : ∀ a, c.va ≤ a → a < c₁.va → a < c.barrierVa.stop → pageWalk m root a = none)
    (hspec : FindSpec m₁ cfg root c₁ stop findUnmapSubtree splitHuge r) :
    FindSpec m cfg root c stop findUnmapSubtree splitHuge r where
  grow := hg.trans hspec.grow
  path := hspec.path
  same := hsame.trans hspec.same
  le := by
    have := hspec.le
    rw [hsame.barrierVa] at this
    omega
  le_stop := by
    have := hspec.le_stop
    rwa [hsame.barrierVa] at this
  unmapped := by
    intro a ha har
    have hstop : a < c.barrierVa.stop := by
      have := hspec.le_stop
      rw [hsame.barrierVa] at this
      omega
    by_cases hlt : a < c₁.va
    · exact hun a ha hlt hstop
    · have hcov : Covers m root a :=
        h.isRoot.covers (h.managed a ⟨h.start_le.trans ha, hstop⟩)
      rw [← (hg.keeps hW).walk root a hcov (fun _ hf => hf)]
      exact hspec.unmapped a (by omega) har
  done := hspec.done
  found := hspec.found

/-- Setting a cursor that ran past its range to the end of the range. -/
theorem CursorPath.clamp (h : CursorPath m cfg root c) (hva : c.barrierVa.stop < c.va) :
    CursorPath m cfg root { c with va := c.barrierVa.stop } where
  isRoot := h.isRoot
  level_pos := h.level_pos
  level_le := h.level_le
  guard_le := h.guard_le
  nonempty := h.nonempty
  managed := h.managed
  stop_aligned := h.stop_aligned
  va_aligned := h.stop_aligned
  start_le := h.nonempty.le
  span := h.span
  above := h.above
  anchor := by
    obtain ⟨x, hx, hpath, hdiv⟩ := h.anchor
    refine ⟨x, hx, hpath, ?_⟩
    intro hor
    -- the end of the range lies between the anchor and the old address
    have hl : c.level < c.guardLevel := hor.resolve_right (lt_irrefl _)
    have hxva := hdiv (Or.inl hl)
    have h1 : x / pageSize (c.level + 1) ≤ c.barrierVa.stop / pageSize (c.level + 1) :=
      Nat.div_le_div_right hx.2.le
    have h2 : c.barrierVa.stop / pageSize (c.level + 1) ≤ c.va / pageSize (c.level + 1) :=
      Nat.div_le_div_right hva.le
    show x / pageSize (c.level + 1) = c.barrierVa.stop / pageSize (c.level + 1)
    omega

/-- The faults of a search: slots may end beyond the address space if there is no
headroom, and the search may have to split huge pages. -/
structure SearchFaults (A : Fault → Prop) (m : Mem P) (cfg : PageTableConfig P) (c : Cursor)
    (splitHuge : Bool) : Prop where
  slotEnd : A .overflow ∨ c.Headroom
  split : splitHuge = true → 2 ≤ cfg.maxItemLevel →
    Fault.Refusing A ∧ (A .overflow ∨ m.Fits)

theorem SearchFaults.isPanic : SearchFaults Fault.IsPanic m cfg c splitHuge :=
  ⟨Or.inl trivial, fun _ _ => ⟨Fault.refusing_isPanic, Or.inl trivial⟩⟩

theorem SearchFaults.continued (hA : SearchFaults A m cfg c splitHuge) (hW : WellFormed m)
    (hg : Grow root m m₁) (hsame : SameRange c c₁) : SearchFaults A m₁ cfg c₁ splitHuge where
  slotEnd := hA.slotEnd.imp_right hsame.headroom_iff.mpr
  split := by
    intro hs hl
    obtain ⟨href, hfit⟩ := hA.split hs hl
    exact ⟨href, hfit.imp_right (hg.allLeaves hW passesToParts_fits)⟩

/-- The step of the search over a slot in which nothing is mapped. -/
theorem post_findSkip {fuel : ℕ} (hA : SearchFaults A m cfg c splitHuge) (hW : WellFormed m)
    (h : CursorPath m cfg root c) (hva : c.va < stop) (hal : 4096 ∣ stop)
    (hstop : stop ≤ c.barrierVa.stop) (hfuel : 5 * ((stop - c.va) / 4096) + c.level < fuel + 1)
    (hun : ∀ x, slotNo c.level x = slotNo c.level c.va → pageWalk m root x = none)
    (ih : ∀ c₁ : Cursor, CursorPath m cfg root c₁ → SearchFaults A m cfg c₁ splitHuge →
      stop ≤ c₁.barrierVa.stop → 5 * ((stop - c₁.va) / 4096) + c₁.level < fuel →
      Post A (Cursor.findLoop cfg stop findUnmapSubtree splitHuge fuel m c₁)
        (FindSpec m cfg root c₁ stop findUnmapSubtree splitHuge)) :
    Post A
      (c.moveForward >>= Cursor.findLoop cfg stop findUnmapSubtree splitHuge fuel m)
      (FindSpec m cfg root c stop findUnmapSubtree splitHuge) := by
  have hvab : c.va < c.barrierVa.stop := by omega
  refine Post.bind (post_moveForward h hvab (h.slot_overflow hvab hA.slotEnd)) ?_
  rintro c₁ ⟨h₁, hsame, hva₁, hl₁, -⟩
  have hlt : c.va < c₁.va := by
    rw [hva₁]
    exact lt_alignDown_add _ (pageSize_pos _)
  have hpage : c.va + 4096 ≤ c₁.va := by
    have h1 := h.va_aligned
    have h2 := h₁.va_aligned
    omega
  have hfuel₁ : 5 * ((stop - c₁.va) / 4096) + c₁.level < fuel := by
    have h4 := h₁.level_le.trans h₁.guard_le
    have hlp := h.level_pos
    have hva_al := h.va_aligned
    omega
  refine (ih c₁ h₁ (hA.continued hW (Grow.refl root m) hsame)
    (by rw [hsame.barrierVa]; exact hstop) hfuel₁).mono ?_
  intro r hr
  refine hr.continued hW h (Grow.refl root m) hsame hlt.le ?_
  intro a ha ha₁ has
  refine hun a (h.slotNo_of_mem hvab ⟨h.start_le.trans ha, has⟩ ?_ (by rw [← hva₁]; exact ha₁))
  exact (alignDown_le _ _).trans ha

/-- The step of the search into a child. -/
theorem post_findDown {fuel q child : ℕ} (hA : SearchFaults A m cfg c splitHuge)
    (hW : WellFormed m) (h : CursorPath m cfg root c) (hva : c.va < stop)
    (hstop : stop ≤ c.barrierVa.stop) (hg : Grow root m m₁)
    (hfuel : 5 * ((stop - c.va) / 4096) + c.level < fuel + 1) (hl : 2 ≤ c.level)
    (hq : nodeAt m₁ root c.va c.level = some q)
    (he : m₁.entry q (pteIndex c.va c.level) = .table child)
    (ih : ∀ c₁ : Cursor, CursorPath m₁ cfg root c₁ → SearchFaults A m₁ cfg c₁ splitHuge →
      stop ≤ c₁.barrierVa.stop → 5 * ((stop - c₁.va) / 4096) + c₁.level < fuel →
      Post A (Cursor.findLoop cfg stop findUnmapSubtree splitHuge fuel m₁ c₁)
        (FindSpec m₁ cfg root c₁ stop findUnmapSubtree splitHuge)) :
    Post A
      (c.pushLevel child >>= Cursor.findLoop cfg stop findUnmapSubtree splitHuge fuel m₁)
      (FindSpec m cfg root c stop findUnmapSubtree splitHuge) := by
  refine Post.bind (post_pushLevel (h.of_grow hW hg) (by omega) hl hq he) ?_
  rintro c₁ ⟨h₁, hsame, hl₁, hva₁⟩
  refine (ih c₁ h₁ (hA.continued hW hg hsame) (by rw [hsame.barrierVa]; exact hstop)
    (by rw [hva₁, hl₁]; omega)).mono ?_
  intro r hr
  exact hr.continued hW h hg hsame hva₁.ge (fun a ha ha₁ _ => by omega)

/-- Splitting the huge page at the current slot grows the table. -/
theorem CurSlot.grow_split {q pa paddr : ℕ} {n : Node P} {prop : P}
    (hc : CurSlot m cfg root c q n) (hl : 2 ≤ c.level)
    (he : n.entries (pteIndex c.va c.level) = .frame pa prop)
    (ha : Attached m m₁ q (pteIndex c.va c.level) paddr n (n.splitUpTo pa prop 512)) :
    GrowStep root m m₁ :=
  GrowStep.split hc.position hl hc.stray he ha

/-- Where an attached child is found. -/
theorem CurSlot.attached {q paddr : ℕ} {n k : Node P} (hc : CurSlot m cfg root c q n)
    (hW : WellFormed m) (ha : Attached m m₁ q (pteIndex c.va c.level) paddr n k) :
    nodeAt m₁ root c.va c.level = some q ∧
      m₁.entry q (pteIndex c.va c.level) = .table paddr := by
  have hp := hc.position
  refine ⟨?_, ?_⟩
  · rw [hp.nodeAt_above hW (ha.changesEntry hW hp.node) hp.covers le_rfl hp.level_le, hp.nodeAt]
  · rw [Mem.entry_eq ha.nodes_parent, Node.set_entries, Function.update_self]

/-- The search has found something in the current slot. -/
theorem FindSpec.hit {q : ℕ} {n : Node P} (h : CursorPath m cfg root c) (hva : c.va < stop)
    (hstop : stop ≤ c.barrierVa.stop) (hc : CurSlot m cfg root c q n)
    (hf : Found cfg c stop findUnmapSubtree splitHuge (n.entries (pteIndex c.va c.level))) :
    FindSpec m cfg root c stop findUnmapSubtree splitHuge (some c.va, m, c) := by
  refine ⟨Grow.refl root m, h, SameRange.refl c, min_le_left _ _, hva.le.trans hstop,
    fun a ha ha' => absurd ha' (by simp only; omega),
    fun hn => (Option.some_ne_none _ hn).elim, ?_⟩
  intro v hv
  obtain rfl := Option.some.inj hv
  exact ⟨rfl, hva, q, n, hc, hf⟩

/-- The search has come to its end. -/
theorem FindSpec.ended (h : CursorPath m cfg root c) (hle : stop ≤ c.va)
    (hstop : stop ≤ c.barrierVa.stop) :
    FindSpec m cfg root c stop findUnmapSubtree splitHuge
      (none, m, if c.va > c.barrierVa.stop then { c with va := c.barrierVa.stop } else c) := by
  by_cases hover : c.va > c.barrierVa.stop
  · rw [if_pos hover]
    refine ⟨Grow.refl root m, h.clamp hover, ⟨rfl, rfl⟩, min_le_right _ _, le_rfl, ?_,
      fun _ => hstop, fun v hv => by cases hv⟩
    intro a ha ha'
    have : a < c.barrierVa.stop := ha'
    omega
  · rw [if_neg hover]
    refine ⟨Grow.refl root m, h, SameRange.refl c, min_le_left _ _, not_lt.mp hover, ?_,
      fun _ => hle, fun v hv => by cases hv⟩
    intro a ha ha'
    have : a < c.va := ha'
    omega

/-- A page of the lowest level always fits. -/
theorem CursorPath.two_le_of_not_fits (h : CursorPath m cfg root c) (hva : c.va < stop)
    (hal : 4096 ∣ stop) (hnot : ¬(c.va = alignDown c.va (pageSize c.level) ∧
      alignDown c.va (pageSize c.level) + pageSize c.level ≤ stop)) : 2 ≤ c.level := by
  by_contra hl
  have hl1 : c.level = 1 := by
    have := h.level_pos
    omega
  have hvd := h.va_aligned
  rw [hl1, pageSize_one, alignDown_of_dvd hvd] at hnot
  exact hnot ⟨rfl, by omega⟩

/-- The step of the search that splits a huge page. -/
theorem post_findSplit {fuel q pa : ℕ} {n : Node P} {prop : P}
    (hA : SearchFaults A m cfg c splitHuge) (hW : WellFormed m) (h : CursorPath m cfg root c)
    (hva : c.va < stop) (hstop : stop ≤ c.barrierVa.stop)
    (hfuel : 5 * ((stop - c.va) / 4096) + c.level < fuel + 1) (hl : 2 ≤ c.level)
    (hc : CurSlot m cfg root c q n) (hsplit : splitHuge = true)
    (he : n.entries (pteIndex c.va c.level) = .frame pa prop)
    (ih : ∀ m₁ c₁, WellFormed m₁ → CursorPath m₁ cfg root c₁ → SearchFaults A m₁ cfg c₁ splitHuge →
      stop ≤ c₁.barrierVa.stop → 5 * ((stop - c₁.va) / 4096) + c₁.level < fuel →
      Post A (Cursor.findLoop cfg stop findUnmapSubtree splitHuge fuel m₁ c₁)
        (FindSpec m₁ cfg root c₁ stop findUnmapSubtree splitHuge)) :
    Post A (do
        let (child, m) ← splitIfMappedHuge m q (pteIndex c.va c.level)
        let childPt ← Exec.unwrap child
        let c ← c.pushLevel childPt
        Cursor.findLoop cfg stop findUnmapSubtree splitHuge fuel m c)
      (FindSpec m cfg root c stop findUnmapSubtree splitHuge) := by
  have hslot := hc.slot
  -- a huge page is at a level of items
  have hmax : 2 ≤ cfg.maxItemLevel := by
    have hle := ((hW.ok q n hc.position.node).leaf _ _ _ hslot he).2
    rw [hc.level, hc.cfg_eq] at hle
    omega
  obtain ⟨href, hfit⟩ := hA.split hsplit hmax
  refine Post.bind (post_splitIfMappedHuge (href.alloc m) hW hc.position.node hslot he
    (by rw [hc.level]; exact hl) (hfit.imp_right fun hf =>
      hf _ _ _ _ _ _ ⟨n, hc.position.node, rfl, rfl, hslot, he⟩)) ?_
  rintro ⟨child, m₁⟩ ⟨paddr, rfl, ha⟩
  have hg := Grow.single (hc.grow_split hl he ha)
  obtain ⟨hq', he'⟩ := hc.attached hW ha
  exact post_findDown hA hW h hva hstop hg hfuel hl hq' he'
    (fun c₁ => ih m₁ c₁ (hg.wellFormed hW))

/-- **The search loop.** -/
theorem post_findLoop (hal : 4096 ∣ stop) (fuel : ℕ) : ∀ (m : Mem P) (c : Cursor),
    WellFormed m → CursorPath m cfg root c → SearchFaults A m cfg c splitHuge →
    stop ≤ c.barrierVa.stop →
    5 * ((stop - c.va) / 4096) + c.level < fuel →
    Post A (Cursor.findLoop cfg stop findUnmapSubtree splitHuge fuel m c)
      (FindSpec m cfg root c stop findUnmapSubtree splitHuge) := by
  induction fuel with
  | zero =>
      intro m c _ _ _ _ hfuel
      omega
  | succ fuel ih =>
      intro m c hW h hA hstop hfuel
      rw [Cursor.findLoop]
      refine post_ite ?_ ?_
      · intro hva
        have hvab : c.va < c.barrierVa.stop := by omega
        obtain ⟨q, n, hc⟩ := h.position hW hvab
        refine Post.bind (post_curVaRange c (h.slot_overflow hvab hA.slotEnd)) ?_
        rintro ⟨s, t⟩ ⟨rfl, rfl⟩
        have hfits : c.va = alignDown c.va (pageSize c.level) ∧
            alignDown c.va (pageSize c.level) + pageSize c.level ≤ stop → Fits c stop := by
          rintro ⟨h1, h2⟩
          rw [← h1] at h2
          exact ⟨h1 ▸ dvd_alignDown _ _, h2⟩
        refine hc.curEntry_bind ?_
        have hskip := fun hun =>
          post_findSkip hA hW h hva hal hstop hfuel hun (fun c₁ => ih m c₁ hW)
        cases he : n.entries (pteIndex c.va c.level) with
        | absent =>
            refine hskip ?_
            intro x hx
            rw [hc.pageWalk_leaf (by rw [he]; rfl) hx, he]
            rfl
        | frame pa prop =>
            refine post_ite ?_ ?_
            · intro hcond
              refine FindSpec.hit h hva hstop hc ?_
              rw [he]
              intro hsplit
              rw [hsplit] at hcond
              exact hfits (by simpa using hcond)
            · intro hcond
              have h2 : 2 ≤ c.level :=
                h.two_le_of_not_fits hva hal
                  (fun hfit => hcond (by rw [decide_eq_true hfit]; rfl))
              refine hc.curNode_bind ?_
              exact post_findSplit hA hW h hva hstop hfuel h2 hc
                (by by_contra hno; simp [hno] at hcond) he ih
        | table pt =>
            refine post_ite ?_ ?_
            · intro hcond
              refine FindSpec.hit h hva hstop hc ?_
              rw [he]
              simp only [Bool.and_eq_true, decide_eq_true_eq, Bool.or_eq_true, bne_iff_ne] at hcond
              exact ⟨hcond.1.1, hfits hcond.1.2, hcond.2⟩
            · intro _
              obtain ⟨k, hk, hkl, -⟩ := (hW.ok q n hc.position.node).child _ _ hc.slot he
              refine post_node_bind hk ?_
              refine post_ite ?_ ?_
              · intro _
                exact post_findDown hA hW h hva hstop (Grow.refl root m) hfuel (hc.two_le hW he)
                  hc.position.nodeAt (hc.entry_eq.trans he) (fun c₁ => ih m c₁ hW)
              · intro hzero
                refine hskip ?_
                intro x hx
                exact hc.pageWalk_emptyChild hW he hk (not_not.mp hzero) hx
      · intro hva
        exact FindSpec.ended h (by omega) hstop

end

end Vostd
