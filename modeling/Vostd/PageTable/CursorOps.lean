/-
# `map`, `take_next` and `protect_next`

The three operations that write have one shape: the cursor is brought to a slot,
growing the table if necessary; the entry of the slot is overwritten; the cursor
moves to the end of the slot.  `Overwrites` is this shape, and the consequences
for the translation are drawn from it once.
-/
import Vostd.PageTable.CursorSpec

namespace Vostd

open Exec

variable {P : Type}

/-! ## Overwriting the current slot -/

/-- The cursor `c` stands at a slot of `m`; the slot is overwritten by `e`; the
cursor `c'` stands at its end. -/
structure Overwrites (m m' : Mem P) (cfg : PageTableConfig P) (root : ℕ) (c c' : Cursor)
    (e : Pte P) (q : ℕ) (n : Node P) : Prop where
  slot : CurSlot m cfg root c q n
  replaced : Replaced m m' q n (pteIndex c.va c.level) e
  leaf : e.node? = none
  level_ok : ∀ pa prop, e = .frame pa prop → n.MapsFrames
  start : pageSize c.level ∣ c.va
  start_le : c.barrierVa.start ≤ c.va
  inside : c.va + pageSize c.level ≤ c.barrierVa.stop
  cursor : CursorOK m' cfg root c'
  same : SameRange c c'
  va_eq : c'.va = c.va + pageSize c.level

namespace Overwrites

variable {m m' : Mem P} {cfg : PageTableConfig P} {root q : ℕ} {c c' : Cursor} {e : Pte P}
  {n : Node P}

/-- The slot is a part of the cursor's range. -/
theorem mem_barrier (h : Overwrites m m' cfg root c c' e q n) {a : ℕ} (hlo : c.va ≤ a)
    (hhi : a < c.va + pageSize c.level) : c.barrierVa.Contains a :=
  ⟨h.start_le.trans hlo, lt_of_lt_of_le hhi h.inside⟩

theorem managed (h : Overwrites m m' cfg root c c' e q n) {a : ℕ} (hlo : c.va ≤ a)
    (hhi : a < c.va + pageSize c.level) : cfg.Managed a := by
  have hb := h.cursor.managed a
  rw [h.same.barrierVa] at hb
  exact hb (h.mem_barrier hlo hhi)

theorem wellFormed (h : Overwrites m m' cfg root c c' e q n) (hW : WellFormed m) :
    WellFormed m' :=
  h.replaced.wellFormed h.slot.position hW h.leaf h.level_ok

theorem keeps (h : Overwrites m m' cfg root c c' e q n) (hW : WellFormed m) :
    Keeps m m' root (fun x => slotNo c.level x = slotNo c.level c.va) :=
  h.replaced.keeps h.slot.position hW h.leaf h.level_ok

/-- A bound on the reference counts of children stays one. -/
theorem refCount_lt (h : Overwrites m m' cfg root c c' e q n) (hW : WellFormed m) {B : ℕ}
    (hB : ∀ p i d, Owns m p i d → m.refCount d < B) :
    ∀ p i d, Owns m' p i d → m'.refCount d < B := by
  intro p i d hown
  obtain ⟨hold, hrc⟩ := h.replaced.refCount_of_owns h.slot.position hW h.leaf hown
  rw [hrc]
  exact hB p i d hold

theorem pageWalk_slot (h : Overwrites m m' cfg root c c' e q n) (hW : WellFormed m) {x : ℕ}
    (hx : slotNo c.level x = slotNo c.level c.va) : pageWalk m' root x = e.translate c.level x :=
  h.replaced.pageWalk_slot h.slot.position hW h.leaf hx

end Overwrites

section

variable {m m' : Mem P} {cfg : PageTableConfig P} {root q : ℕ} {c : Cursor} {e : Pte P}
  {n : Node P} {A : Fault → Prop}

/-- After the entry was overwritten, the cursor still has its path. -/
theorem CursorPath.of_replaced (h : CursorPath m cfg root c) (hW : WellFormed m)
    (hc : CurSlot m cfg root c q n) (hr : Replaced m m' q n (pteIndex c.va c.level) e)
    (he : e.node? = none)
    (hleaf : ∀ pa prop, e = .frame pa prop → n.MapsFrames) :
    CursorPath m' cfg root c := by
  refine h.of_nodeAt ((hr.keeps hc.position hW he hleaf).isRoot h.isRoot) ?_
  intro x hx l p hl h4 hp
  rw [hr.nodeAt_above hc.position hW (h.isRoot.covers (h.managed x hx)) hl h4, hp]

/-- `move_forward` after the entry was overwritten. -/
theorem post_overwriteForward (h : CursorPath m cfg root c) (hW : WellFormed m)
    (hc : CurSlot m cfg root c q n) (hr : Replaced m m' q n (pteIndex c.va c.level) e)
    (he : e.node? = none)
    (hleaf : ∀ pa prop, e = .frame pa prop → n.MapsFrames)
    (hstart : pageSize c.level ∣ c.va) (hin : c.va + pageSize c.level ≤ c.barrierVa.stop)
    (hov : 2 ^ 64 ≤ c.barrierVa.stop → A .overflow) :
    Post A c.moveForward (fun c' => Overwrites m m' cfg root c c' e q n) := by
  have hpos := pageSize_pos c.level
  refine (post_moveForward (h.of_replaced hW hc hr he hleaf) (by omega) ?_).mono ?_
  · rw [alignDown_of_dvd hstart]
    intro hmax
    exact hov (hmax.trans hin)
  rintro c' ⟨h', hsame, hva, -⟩
  rw [alignDown_of_dvd hstart] at hva
  exact ⟨hc, hr, he, hleaf, hstart, h.start_le, hin,
    ⟨h', by rw [hva, hsame.barrierVa]; exact hin⟩, hsame, hva⟩

end

/-! ## `map` -/

/-- The faults of an operation that may refuse: addresses overflow only where a slot
or a mapped frame ends beyond the address space. -/
structure OpFaults (A : Fault → Prop) (m : Mem P) (c : Cursor) : Prop extends
    Fault.Refusing A where
  slotEnd : A .overflow ∨ c.Headroom
  frameEnd : A .overflow ∨ m.Fits

theorem OpFaults.isPanic {m : Mem P} {c : Cursor} : OpFaults Fault.IsPanic m c :=
  ⟨Fault.refusing_isPanic, Or.inl trivial, Or.inl trivial⟩

section

variable {cfg : PageTableConfig P} {root : ℕ} {A : Fault → Prop} {m : Mem P} {c : Cursor} {len : ℕ}

/-- `map_loop` brings the cursor to the level of the item. -/
theorem post_mapLoop {level : ℕ} (hl1 : 1 ≤ level) (fuel : ℕ) :
    ∀ (m : Mem P) (c : Cursor), AllocFaults A m → (A .overflow ∨ m.Fits) →
    WellFormed m → CursorPath m cfg root c → c.va < c.barrierVa.stop → level ≤ c.guardLevel →
    c.level - level < fuel → level - c.level < fuel →
    Post A (Cursor.mapLoop level fuel m c) (fun r => Grow root m r.1 ∧
      CursorPath r.1 cfg root r.2 ∧ SameRange c r.2 ∧ r.2.va = c.va ∧ r.2.level = level) := by
  induction fuel with
  | zero =>
      intro m c _ _ _ _ _ _ hf _
      omega
  | succ fuel ih =>
      intro m c hA hfit hW h hva hg hf hf'
      rw [Cursor.mapLoop]
      refine post_ite ?_ ?_
      · intro hl
        exact ⟨Grow.refl root m, h, SameRange.refl c, rfl, hl⟩
      intro hne
      refine post_ite ?_ ?_
      · intro hlt
        refine Post.bind (post_popLevel h (by omega)) ?_
        rintro c₁ ⟨h₁, hsame, hl₁, hva₁⟩
        refine (ih m c₁ hA hfit hW h₁ (by rw [hva₁, hsame.barrierVa]; exact hva)
          (by rw [hsame.guardLevel]; exact hg) (by omega) (by omega)).mono ?_
        rintro ⟨m₂, c₂⟩ ⟨hg₂, h₂, hsame₂, hva₂, hl₂⟩
        exact ⟨hg₂, h₂, hsame.trans hsame₂, hva₂.trans hva₁, hl₂⟩
      · intro hlt
        obtain ⟨q, n, hc⟩ := h.position hW hva
        have h2 : 2 ≤ c.level := by omega
        -- all three branches go down one level in a table that may have grown
        have hdown : ∀ (m₁ : Mem P) (child : ℕ), Grow root m m₁ →
            nodeAt m₁ root c.va c.level = some q →
            m₁.entry q (pteIndex c.va c.level) = .table child →
            Post A (c.pushLevel child >>= Cursor.mapLoop level fuel m₁) (fun r =>
              Grow root m r.1 ∧ CursorPath r.1 cfg root r.2 ∧ SameRange c r.2 ∧ r.2.va = c.va ∧
              r.2.level = level) := by
          intro m₁ child hgrow hq he
          refine Post.bind (post_pushLevel (h.of_grow hW hgrow) hva h2 hq he) ?_
          rintro c₁ ⟨h₁, hsame, hl₁, hva₁⟩
          refine (ih m₁ c₁ ⟨hA.noMemory, hA.pool.imp_right hgrow.poolFresh⟩
            (hfit.imp_right (hgrow.allLeaves hW passesToParts_fits))
            (hgrow.wellFormed hW) h₁ (by rw [hva₁, hsame.barrierVa]; exact hva)
            (by rw [hsame.guardLevel]; exact hg) (by omega) (by omega)).mono ?_
          rintro ⟨m₂, c₂⟩ ⟨hg₂, h₂, hsame₂, hva₂, hl₂⟩
          exact ⟨hgrow.trans hg₂, h₂, hsame.trans hsame₂, hva₂.trans hva₁, hl₂⟩
        refine hc.curEntry_bind ?_
        cases he : n.entries (pteIndex c.va c.level) with
        | table pt =>
            exact hdown m pt (Grow.refl root m) hc.position.nodeAt (hc.entry_eq.trans he)
        | absent =>
            refine hc.curNode_bind ?_
            refine Post.bind (post_allocAbsentChild hA hW hc.position.node hc.slot he) ?_
            rintro ⟨child, m₁⟩ ha
            obtain ⟨hq', he'⟩ := hc.attached hW ha
            exact hdown m₁ child (Grow.single
              (GrowStep.alloc hc.position h2 hc.stray he ha)) hq' he'
        | frame pa prop =>
            refine hc.curNode_bind ?_
            refine Post.bind (post_splitIfMappedHuge hA hW hc.position.node hc.slot he
              (by rw [hc.level]; exact h2) (hfit.imp_right fun hf =>
                hf _ _ _ _ _ _ ⟨n, hc.position.node, rfl, rfl, hc.slot, he⟩)) ?_
            rintro ⟨child, m₁⟩ ⟨paddr, rfl, ha⟩
            obtain ⟨hq', he'⟩ := hc.attached hW ha
            exact hdown m₁ paddr (Grow.single (hc.grow_split h2 he ha)) hq' he'

/-- The result of `map`: at the level of the item, the slot of the current address
is overwritten by the item. -/
structure MapSpec (m : Mem P) (cfg : PageTableConfig P) (root : ℕ) (c : Cursor) (item : Item P)
    (r : Option (PageTableFrag P) × Mem P × Cursor) : Prop where
  level_pos : 1 ≤ item.level
  level_le : item.level ≤ cfg.highestTranslationLevel
  guard_le : item.level ≤ c.guardLevel
  result : ∃ m₁ c₁ q n, Grow root m m₁ ∧ SameRange c c₁ ∧ c₁.va = c.va ∧ c₁.level = item.level ∧
    Overwrites m₁ r.2.1 cfg root c₁ r.2.2 (.frame item.pa item.prop) q n ∧
    r.1 = fragOf (m₁.put q n (pteIndex c₁.va c₁.level) (.frame item.pa item.prop)) c₁
      (n.entries (pteIndex c₁.va c₁.level))

/-- The conditions under which `map` accepts an item at the current address. -/
structure MapArgs (cfg : PageTableConfig P) (c : Cursor) (item : Item P) : Prop where
  level_le : item.level ≤ cfg.highestTranslationLevel
  guard_le : item.level ≤ c.guardLevel
  aligned : pageSize item.level ∣ c.va
  inside : c.va + pageSize item.level ≤ c.barrierVa.stop

/-- The faults of `map`: the arguments are refused, there is no memory for a node, a
subtree may not be removed or is referred to too often, or an address is no word. -/
structure MapFaults (A : Fault → Prop) (m : Mem P) (cfg : PageTableConfig P) (c : Cursor)
    (item : Item P) : Prop where
  alloc : AllocFaults A m
  args : A .assertion ∨ MapArgs cfg c item
  level_pos : A .overflow ∨ 1 ≤ item.level
  remove : A .assertion ∨ ((cfg.topLevelCanUnmap = true ∨ item.level ≠ 4) ∧
    ∀ p i q, Owns m p i q → m.refCount q < REF_COUNT_MAX)
  stop : A .overflow ∨ c.barrierVa.stop < 2 ^ 64
  frameEnd : A .overflow ∨ m.Fits

/-- **`map`**, with the reasons for which it may stop. -/
theorem post_map_of_faults {item : Item P}
    (hA : MapFaults A m cfg c item) (hW : WellFormed m) (h : CursorOK m cfg root c)
    (hitem : item.level ≤ cfg.maxItemLevel) :
    Post A (c.map cfg m item) (MapSpec m cfg root c item) := by
  have hpages := pageSize_pos item.level
  unfold Cursor.map
  refine Post.bind (post_check (fun hno => hA.args.resolve_right ?_)) ?_
  · intro hm
    have := hm.inside
    omega
  intro _ hva
  refine Post.bind (post_check (fun hno => hA.args.resolve_right ?_)) ?_
  · intro hm
    exact hno ⟨hm.level_le, hm.guard_le⟩
  rintro _ ⟨hhtl, hguard⟩
  refine Post.bind (post_sub (fun hlt => hA.level_pos.resolve_right (not_le.mpr hlt))) ?_
  rintro _ ⟨-, hpos⟩
  refine Post.bind (post_check (fun hno => hA.args.resolve_right ?_)) ?_
  · intro hm
    exact hno (Nat.mod_eq_zero_of_dvd hm.aligned)
  intro _ hdvd
  refine Post.bind (post_sub (fun hlt => absurd hva (by omega))) ?_
  rintro _ ⟨rfl, hle⟩
  refine Post.bind (post_check (fun hno => hA.args.resolve_right ?_)) ?_
  · intro hm
    have := hm.inside
    omega
  intro _ hfit
  have hlp := h.level_pos
  have hll := h.level_le
  have hg := h.guard_le
  refine Post.bind (post_mapLoop hpos _ m c hA.alloc hA.frameEnd hW h.toCursorPath hva hguard
    (by unfold NR_LEVELS; omega) (by unfold NR_LEVELS; omega)) ?_
  rintro ⟨m₁, c₁⟩ ⟨hgrow, h₁, hsame, hva₁, hl₁⟩
  simp only at hgrow h₁ hsame hva₁ hl₁
  have hva₁' : c₁.va < c₁.barrierVa.stop := by rw [hva₁, hsame.barrierVa]; exact hva
  have hW₁ := hgrow.wellFormed hW
  obtain ⟨q, n, hc⟩ := h₁.position hW₁ hva₁'
  have hleaf : n.MapsFrames := by
    rw [Node.MapsFrames, hc.level, hc.cfg_eq, hl₁]
    exact ⟨hhtl, hitem⟩
  have hdvd₁ : pageSize c₁.level ∣ c₁.va := by
    rw [hl₁, hva₁]
    exact Nat.dvd_of_mod_eq_zero hdvd
  refine Post.bind (post_replaceCurEntry hW₁ hc _ (fun pa hf => by cases hf)
    (fun _ _ _ _ _ => hleaf) (hA.remove.imp_right ?_)) ?_
  · rintro ⟨hcan, hcounts⟩
    refine ⟨?_, ?_⟩
    · intro pa l prop hframe
      injection hframe with _ hlevel _
      rw [hl₁, hlevel]
    · intro pt hpt
      rw [hl₁]
      exact ⟨hcan, hgrow.refCount_lt hW (by decide) hcounts _ _ pt
        ⟨n, hc.position.node, hc.slot, hpt⟩⟩
  rintro ⟨frag, m₂⟩ ⟨hr, hfrag, -⟩
  refine Post.bind (post_overwriteForward h₁ hW₁ hc hr rfl (fun _ _ _ => hleaf) hdvd₁
    (by rw [hl₁, hva₁, hsame.barrierVa]; omega)
    (fun hov => hA.stop.resolve_right (by rw [hsame.barrierVa] at hov; omega))) ?_
  intro c₂ ho
  exact ⟨hpos, hhtl, hguard, m₁, c₁, q, n, hgrow, hsame, hva₁, hl₁, ho, hfrag⟩

/-- **`map`** that may refuse. -/
theorem post_map (hA : OpFaults A m c) {item : Item P}
    (hl1 : A .overflow ∨ 1 ≤ item.level) (hW : WellFormed m) (h : CursorOK m cfg root c)
    (hitem : item.level ≤ cfg.maxItemLevel) :
    Post A (c.map cfg m item) (MapSpec m cfg root c item) := by
  refine post_map_of_faults ⟨hA.toRefusing.alloc m, Or.inl hA.assertion, hl1, Or.inl hA.assertion,
    hA.slotEnd.imp_right ?_, hA.frameEnd⟩ hW h hitem
  intro hroom
  by_contra hmax
  exact no_headroom (not_lt.mp hmax) hroom

/-! ## `find_next`, `take_next` and `protect_next` -/

theorem post_findNextImpl {findUnmapSubtree splitHuge : Bool}
    (hA : SearchFaults A m cfg c splitHuge)
    (hlen : A .assertion ∨ (4096 ∣ len ∧ c.va + len ≤ c.barrierVa.stop))
    (hW : WellFormed m) (h : CursorOK m cfg root c) :
    Post A (c.findNextImpl cfg m len findUnmapSubtree splitHuge) (fun r =>
      4096 ∣ len ∧ c.va + len ≤ c.barrierVa.stop ∧
      FindSpec m cfg root c (c.va + len) findUnmapSubtree splitHuge r) := by
  unfold Cursor.findNextImpl
  refine Post.bind (post_check (fun hmod => hlen.resolve_right ?_)) ?_
  · rintro ⟨hdvd, -⟩
    exact hmod (Nat.mod_eq_zero_of_dvd hdvd)
  intro _ hmod
  refine Post.bind (post_sub (fun hlt => absurd h.le_stop (not_le.mpr hlt))) ?_
  rintro _ ⟨rfl, hle⟩
  refine Post.bind (post_check (fun hlong => hlen.resolve_right (by omega))) ?_
  intro _ hfit
  refine Post.bind (post_add (fun hov => hA.slotEnd.resolve_right (no_headroom (by omega)))) ?_
  rintro _ ⟨rfl, -⟩
  have hdvd : 4096 ∣ len := Nat.dvd_of_mod_eq_zero hmod
  have h4 := h.level_le.trans h.guard_le
  refine (post_findLoop (Nat.dvd_add h.va_aligned hdvd) _ m c hW h.toCursorPath hA (by omega)
    ?_).mono ?_
  · rw [Nat.add_sub_cancel_left, PAGE_SIZE]
    omega
  · intro r hr
    exact ⟨hdvd, by omega, hr⟩

/-- A search that splits huge pages stops only at slots that fit. -/
theorem FindSpec.fits {m₁ : Mem P} {c₁ : Cursor} {stop v : ℕ} {findUnmapSubtree : Bool}
    (hf : FindSpec m cfg root c stop findUnmapSubtree true (some v, m₁, c₁)) :
    v = c₁.va ∧ ∃ q n, CurSlot m₁ cfg root c₁ q n ∧ Fits c₁ stop ∧
      n.entries (pteIndex c₁.va c₁.level) ≠ .absent := by
  obtain ⟨hv, -, q, n, hc, hfound⟩ := hf.found v rfl
  simp only at hv hc hfound
  refine ⟨hv, q, n, hc, ?_⟩
  cases he : n.entries (pteIndex c₁.va c₁.level) with
  | absent =>
      rw [he] at hfound
      exact hfound.elim
  | frame pa prop =>
      rw [he] at hfound
      exact ⟨hfound rfl, by simp⟩
  | table pt =>
      rw [he] at hfound
      exact ⟨hfound.2.1, by simp⟩

/-- The result of `take_next`. -/
structure TakeSpec (m : Mem P) (cfg : PageTableConfig P) (root : ℕ) (c : Cursor) (len : ℕ)
    (r : Option (PageTableFrag P) × Mem P × Cursor) : Prop where
  len_aligned : 4096 ∣ len
  len_le : c.va + len ≤ c.barrierVa.stop
  result : ∃ v m₁ c₁, FindSpec m cfg root c (c.va + len) true true (v, m₁, c₁) ∧
    ((v = none ∧ r = (none, m₁, c₁)) ∨
      ∃ q n, v = some c₁.va ∧ Fits c₁ (c.va + len) ∧
        Overwrites m₁ r.2.1 cfg root c₁ r.2.2 .absent q n ∧
        n.entries (pteIndex c₁.va c₁.level) ≠ .absent ∧
        r.1 = fragOf (m₁.put q n (pteIndex c₁.va c₁.level) .absent) c₁
          (n.entries (pteIndex c₁.va c₁.level)))

/-- The faults of `take_next`: of the search, of a length that is refused, and of a
subtree that may not be removed or whose root is referred to too often. -/
structure TakeFaults (A : Fault → Prop) (m : Mem P) (cfg : PageTableConfig P) (c : Cursor)
    (len : ℕ) : Prop where
  search : SearchFaults A m cfg c true
  len : A .assertion ∨ (4096 ∣ len ∧ c.va + len ≤ c.barrierVa.stop)
  remove : A .assertion ∨ (cfg.topLevelCanUnmap = true ∧
    ∀ p i q, Owns m p i q → m.refCount q < REF_COUNT_MAX)

theorem TakeFaults.isPanic :
    TakeFaults Fault.IsPanic m cfg c len :=
  ⟨SearchFaults.isPanic, Or.inl trivial, Or.inl trivial⟩

/-- **`take_next`.** -/
theorem post_takeNext (hA : TakeFaults A m cfg c len)
    (hW : WellFormed m) (h : CursorOK m cfg root c) :
    Post A (c.takeNext cfg m len) (TakeSpec m cfg root c len) := by
  unfold Cursor.takeNext
  refine Post.bind (post_findNextImpl hA.search hA.len hW h) ?_
  rintro ⟨v, m₁, c₁⟩ ⟨hdvd, hle, hf⟩
  cases v with
  | none => exact ⟨hdvd, hle, none, m₁, c₁, hf, Or.inl ⟨rfl, rfl⟩⟩
  | some v =>
      have hW₁ := hf.grow.wellFormed hW
      obtain ⟨hv, q, n, hc, hfits⟩ := hf.fits
      simp only at hW₁
      refine Post.bind (post_replaceCurEntry hW₁ hc .none (fun pa hf => by cases hf)
        (fun _ _ _ hf => by cases hf) ?_) ?_
      · refine hA.remove.imp_right ?_
        rintro ⟨hcan, hcounts⟩
        refine ⟨fun _ _ _ hframe => (by cases hframe), ?_⟩
        intro pt hpt
        exact ⟨Or.inl hcan, hf.grow.refCount_lt hW (by decide) hcounts _ _ pt
          ⟨n, hc.position.node, hc.slot, hpt⟩⟩
      rintro ⟨frag, m₂⟩ ⟨hr, hfrag, -⟩
      have hb := hf.same.barrierVa
      simp only at hb
      refine Post.bind (post_overwriteForward hf.path hW₁ hc hr rfl (fun _ _ hf => by cases hf)
        hfits.1.start (by rw [hb]; exact hfits.1.le.trans hle) ?_) ?_
      · intro hov
        rw [hb] at hov
        exact hA.search.slotEnd.resolve_right (no_headroom hov)
      intro c₂ ho
      exact ⟨hdvd, hle, some v, m₁, c₁, hf, Or.inr ⟨q, n, by rw [hv], hfits.1, ho, hfits.2, hfrag⟩⟩

/-- The result of `protect_next`. -/
structure ProtectSpec (m : Mem P) (cfg : PageTableConfig P) (root : ℕ) (c : Cursor) (len : ℕ)
    (op : P → P) (r : Option AddrRange × Mem P × Cursor) : Prop where
  len_aligned : 4096 ∣ len
  len_le : c.va + len ≤ c.barrierVa.stop
  result : ∃ v m₁ c₁, FindSpec m cfg root c (c.va + len) false true (v, m₁, c₁) ∧
    ((v = none ∧ r = (none, m₁, c₁)) ∨
      ∃ q n pa prop, v = some c₁.va ∧ Fits c₁ (c.va + len) ∧
        n.entries (pteIndex c₁.va c₁.level) = .frame pa prop ∧
        Overwrites m₁ r.2.1 cfg root c₁ r.2.2 (.frame pa (op prop)) q n ∧
        r.1 = some ⟨c₁.va, c₁.va + pageSize c₁.level⟩)

/-- **`protect_next`.** -/
theorem post_protectNext (hA : SearchFaults A m cfg c true)
    (hass : A .assertion) (hW : WellFormed m) (h : CursorOK m cfg root c) (len : ℕ) (op : P → P) :
    Post A (c.protectNext cfg m len op) (ProtectSpec m cfg root c len op) := by
  unfold Cursor.protectNext
  refine Post.bind (post_findNextImpl hA (Or.inl hass) hW h) ?_
  rintro ⟨v, m₁, c₁⟩ ⟨hdvd, hle, hf⟩
  cases v with
  | none => exact ⟨hdvd, hle, none, m₁, c₁, hf, Or.inl ⟨rfl, rfl⟩⟩
  | some v =>
      have hW₁ := hf.grow.wellFormed hW
      obtain ⟨hv, hvlt, q, n, hc, hfound⟩ := hf.found v rfl
      simp only at hv hc hfound hW₁
      -- subtrees are not searched for, so the hit is a frame
      obtain ⟨pa, prop, he, hfits⟩ : ∃ pa prop, n.entries (pteIndex c₁.va c₁.level) =
          .frame pa prop ∧ Fits c₁ (c.va + len) := by
        cases he : n.entries (pteIndex c₁.va c₁.level) with
        | absent => rw [he] at hfound; exact hfound.elim
        | frame pa prop => rw [he] at hfound; exact ⟨pa, prop, rfl, hfound rfl⟩
        | table pt => rw [he] at hfound; exact absurd hfound.1 (by simp)
      refine hc.curNode_bind ?_
      refine Post.bind (post_protectChild hW₁ hc.position.node hc.slot he op) ?_
      rintro _ rfl
      have hb := hf.same.barrierVa
      have hhead : A .overflow ∨ c₁.Headroom := hA.slotEnd.imp_right hf.same.headroom_iff.mpr
      simp only at hb
      refine Post.bind (post_curVaRange c₁ (hf.path.slot_overflow
        (show c₁.va < c₁.barrierVa.stop by rw [hb]; omega) hhead)) ?_
      rintro ⟨s, t⟩ ⟨hs, ht⟩
      simp only at hs ht
      rw [alignDown_of_dvd hfits.start] at hs ht
      have hleaf := (hW₁.ok q n hc.position.node).leaf _ _ _ hc.slot he
      refine Post.bind (post_overwriteForward (e := .frame pa (op prop)) hf.path hW₁ hc
        (Replaced.of_leaf (by rw [he]; simp)) rfl (fun _ _ _ => hleaf) hfits.start
        (by rw [hb]; exact hfits.le.trans hle)
        (fun hov => hhead.resolve_right (no_headroom hov))) ?_
      intro c₂ ho
      refine ⟨hdvd, hle, some v, m₁, c₁, hf, Or.inr ⟨q, n, pa, prop, by rw [hv], hfits, he, ho, ?_⟩⟩
      rw [hs, ht]

end

end Vostd
