/-
# Cursor operations refine an abstract map

A cursor operation is a step on the translation of its table.  `AbsStep` says
which one, for each operation and result, without mentioning nodes or levels of
the tree: `map` overrides an interval, `take_next` erases one, `protect_next`
changes the properties on one, and the others change nothing.  A finite sequence
of operations on a cursor is then a run of the abstract system
(`refines_runOps`).
-/
import Vostd.PageTable.Table

namespace Vostd

open Exec

variable {P : Type}

/-! ## Operations -/

/-- An item of a configuration: its level is one that `item_into_raw` can return. -/
structure ConfigItem (cfg : PageTableConfig P) extends Item P where
  level_le : level ≤ cfg.maxItemLevel

/-- The operations on a cursor. -/
inductive Op (cfg : PageTableConfig P) : Type where
  | map (item : ConfigItem cfg)
  | takeNext (len : ℕ)
  | protectNext (len : ℕ) (op : P → P)
  | findNext (len : ℕ)
  | query
  | jump (va : ℕ)

/-- Their results. -/
inductive Res (P : Type) : Type where
  | map (frag : Option (PageTableFrag P))
  | takeNext (frag : Option (PageTableFrag P))
  | protectNext (range : Option AddrRange)
  | findNext (va : Option ℕ)
  | query (state : Except PageTableError (AddrRange × Option (Item P)))
  | jump (res : Except PageTableError Unit)

/-- One operation on a cursor. -/
def Cursor.perform (cfg : PageTableConfig P) (m : Mem P) (c : Cursor) :
    Op cfg → Exec (Res P × Mem P × Cursor)
  | .map item => do
      let (frag, m, c) ← c.map cfg m item.toItem
      .ok (.map frag, m, c)
  | .takeNext len => do
      let (frag, m, c) ← c.takeNext cfg m len
      .ok (.takeNext frag, m, c)
  | .protectNext len op => do
      let (range, m, c) ← c.protectNext cfg m len op
      .ok (.protectNext range, m, c)
  | .findNext len => do
      let (va, m, c) ← c.findNext cfg m len
      .ok (.findNext va, m, c)
  | .query => do
      let (state, m, c) ← c.query cfg m
      .ok (.query state, m, c)
  | .jump va => do
      let (res, c) ← c.jump va
      .ok (.jump res, m, c)

/-- A sequence of operations on a cursor. -/
def Cursor.runOps (cfg : PageTableConfig P) :
    List (Op cfg) → Mem P → Cursor → Exec (List (Res P) × Mem P × Cursor)
  | [], m, c => .ok ([], m, c)
  | op :: ops, m, c => do
      let (r, m, c) ← c.perform cfg m op
      let (rs, m, c) ← runOps cfg ops m c
      .ok (r :: rs, m, c)

/-! ## The abstract system -/

/-- What a fragment says about the interval that it was taken from. -/
def FragShows (T : ByteMap (ℕ × P)) (va size : ℕ) : Option (PageTableFrag P) → Prop
  | none => T.Unmapped va (va + size)
  | some (.mapped v item) => v = va ∧ pageSize item.level = size ∧
      ∀ a, va ≤ a → a < va + size → T a = pageBytes va item.pa item.prop a
  | some (.strayPageTable _ v len _) => v = va ∧ len = size

/-- What an item says about an interval. -/
def ItemShows (T : ByteMap (ℕ × P)) (r : AddrRange) : Option (Item P) → Prop
  | none => T.Unmapped r.start r.stop
  | some item => r.start + pageSize item.level = r.stop ∧
      ∀ a, r.start ≤ a → a < r.stop → T a = pageBytes r.start item.pa item.prop a

/-- **The abstract system.**  A state is a translation and the address of the
cursor; `barrier` is the range of the cursor. -/
inductive AbsStep (cfg : PageTableConfig P) (barrier : AddrRange) :
    ByteMap (ℕ × P) × ℕ → Op cfg → Res P → ByteMap (ℕ × P) × ℕ → Prop
  /-- `map` overrides the page and hands back what was there -/
  | map {T va item frag} (hstart : pageSize item.level ∣ va)
      (hle : va + pageSize item.level ≤ barrier.stop)
      (hfrag : FragShows T va (pageSize item.level) frag) :
      AbsStep cfg barrier (T, va) (.map item) (.map frag)
        (T.override va (va + pageSize item.level) (pageBytes va item.pa item.prop),
          va + pageSize item.level)
  /-- `take_next` finds nothing -/
  | takeNone {T va len va'} (hle : va + len ≤ va') (hle' : va' ≤ barrier.stop)
      (hun : T.Unmapped va va') :
      AbsStep cfg barrier (T, va) (.takeNext len) (.takeNext none) (T, va')
  /-- `take_next` erases the first interval that is mapped or has a subtree -/
  | takeSome {T va len v size frag} (hle : va ≤ v) (hle' : v + size ≤ va + len)
      (hun : T.Unmapped va v) (hfrag : FragShows T v size (some frag)) :
      AbsStep cfg barrier (T, va) (.takeNext len) (.takeNext (some frag))
        (T.erase v (v + size), v + size)
  /-- `protect_next` finds nothing -/
  | protectNone {T va len op va'} (hle : va + len ≤ va') (hle' : va' ≤ barrier.stop)
      (hun : T.Unmapped va va') :
      AbsStep cfg barrier (T, va) (.protectNext len op) (.protectNext none) (T, va')
  /-- `protect_next` changes the property of the first page that is mapped -/
  | protectSome {T va len op v size pa prop} (hle : va ≤ v) (hle' : v + size ≤ va + len)
      (hun : T.Unmapped va v) (hold : ∀ a, v ≤ a → a < v + size → T a = pageBytes v pa prop a) :
      AbsStep cfg barrier (T, va) (.protectNext len op) (.protectNext (some ⟨v, v + size⟩))
        (T.override v (v + size) (pageBytes v pa (op prop)), v + size)
  /-- `find_next` finds nothing -/
  | findNone {T va len va'} (hle : va + len ≤ va') (hle' : va' ≤ barrier.stop)
      (hun : T.Unmapped va va') :
      AbsStep cfg barrier (T, va) (.findNext len) (.findNext none) (T, va')
  /-- `find_next` finds the first address that is mapped -/
  | findSome {T va len v} (hle : va ≤ v) (hlt : v < va + len) (hun : T.Unmapped va v)
      (hmapped : T v ≠ none) :
      AbsStep cfg barrier (T, va) (.findNext len) (.findNext (some v)) (T, v)
  /-- `query` shows the interval around the address -/
  | queryOk {T va r item} (hmem : r.Contains va) (hlt : va < barrier.stop)
      (hitem : ItemShows T r item) :
      AbsStep cfg barrier (T, va) .query (.query (.ok (r, item))) (T, va)
  | queryEnd {T va} (hend : barrier.stop ≤ va) :
      AbsStep cfg barrier (T, va) .query (.query (.error (.invalidVaddr va))) (T, va)
  /-- `jump` moves inside the range -/
  | jumpOk {T va va'} (hmem : barrier.Contains va') :
      AbsStep cfg barrier (T, va) (.jump va') (.jump (.ok ())) (T, va')
  | jumpErr {T va va'} (hmem : ¬barrier.Contains va') :
      AbsStep cfg barrier (T, va) (.jump va') (.jump (.error (.invalidVaddr va'))) (T, va)

/-- A run of the abstract system. -/
inductive AbsRun (cfg : PageTableConfig P) (barrier : AddrRange) :
    ByteMap (ℕ × P) × ℕ → List (Op cfg) → List (Res P) → ByteMap (ℕ × P) × ℕ → Prop
  | nil (s) : AbsRun cfg barrier s [] [] s
  | cons {s s' s'' op r ops rs} (h : AbsStep cfg barrier s op r s')
      (hs : AbsRun cfg barrier s' ops rs s'') : AbsRun cfg barrier s (op :: ops) (r :: rs) s''

/-! ## The step -/

/-- The addresses that alias an address of a range in the translated bits. -/
def Aliases (r : AddrRange) (x : ℕ) : Prop := ∃ b, r.Contains b ∧ b % 2 ^ 48 = x % 2 ^ 48

/-- What an operation does besides the abstract step: it keeps the invariants and
leaves alone what its range does not concern. -/
structure StepOK (m : Mem P) (cfg : PageTableConfig P) (root : ℕ) (c : Cursor) (m' : Mem P)
    (c' : Cursor) : Prop where
  wellFormed : WellFormed m'
  cursor : CursorOK m' cfg root c'
  same : SameRange c c'
  keeps : Keeps m m' root (Aliases c.barrierVa)

section

variable {m m' : Mem P} {cfg : PageTableConfig P} {root : ℕ} {c c' : Cursor}
  {e : Pte P} {q stop : ℕ} {n : Node P} {u s : Bool} {r : Option ℕ × Mem P × Cursor}

/-- The addresses of a slot alias those of the interval. -/
theorem Overwrites.aliases
    (h : Overwrites m m' cfg root c c' e q n) {x : ℕ}
    (hx : slotNo c.level x = slotNo c.level c.va) :
    Aliases c.barrierVa x := by
  have hp := h.slot.position
  have hpos := pageSize_pos c.level
  refine ⟨c.va + x % pageSize c.level, h.mem_barrier (Nat.le_add_right _ _)
    (Nat.add_lt_add_left (Nat.mod_lt _ hpos) _), ?_⟩
  have h1 := hp.level_pos
  have h4 := hp.level_le
  have hdvd := h.start
  unfold slotNo at hx
  generalize c.level = l at *
  interval_cases l <;>
    simp only [pageSize_one, pageSize_two, pageSize_three, pageSize_four] at * <;> omega

theorem StepOK.refl (hW : WellFormed m) (h' : CursorOK m cfg root c') (hs : SameRange c c') :
    StepOK m cfg root c m c' :=
  ⟨hW, h', hs, Keeps.refl m root _⟩

theorem StepOK.trans {m'' : Mem P} {c'' : Cursor} (h : StepOK m cfg root c m' c')
    (h' : StepOK m' cfg root c' m'' c'') : StepOK m cfg root c m'' c'' := by
  refine ⟨h'.wellFormed, h'.cursor, h.same.trans h'.same, h.keeps.trans ?_⟩
  have := h'.keeps
  rwa [h.same.barrierVa] at this

/-- A step that only grows the table. -/
theorem StepOK.of_grow (hW : WellFormed m) (hg : Grow root m m') (h' : CursorOK m' cfg root c')
    (hs : SameRange c c') : StepOK m cfg root c m' c' :=
  ⟨hg.wellFormed hW, h', hs, (hg.keeps hW).mono (fun _ h => h.elim)⟩

/-- A step that grows the table and overwrites a slot. -/
theorem StepOK.of_overwrites {m₁ : Mem P} {c₁ : Cursor}
    (hW : WellFormed m) (hg : Grow root m m₁) (hs : SameRange c c₁)
    (ho : Overwrites m₁ m' cfg root c₁ c' e q n) : StepOK m cfg root c m' c' := by
  have hW₁ := hg.wellFormed hW
  refine ⟨ho.wellFormed hW₁, ho.cursor, hs.trans ho.same,
    ((hg.keeps hW).mono (fun _ h => h.elim)).trans ((ho.keeps hW₁).mono ?_)⟩
  intro x hx
  rw [← hs.barrierVa]
  exact ho.aliases hx

/-- The fragment of an overwritten slot shows what the slot translated to. -/
theorem Overwrites.fragShows {m₁ : Mem P} {c₁ : Cursor}
    (ho : Overwrites m₁ m' cfg root c₁ c' e q n) (m₂ : Mem P) :
    FragShows (translation cfg m₁ root) c₁.va (pageSize c₁.level)
      (fragOf m₂ c₁ (n.entries (pteIndex c₁.va c₁.level))) := by
  cases he : n.entries (pteIndex c₁.va c₁.level) with
  | absent =>
      intro a hlo hhi
      rw [ho.translation_before (by rw [he]; rfl) hlo hhi, he]
      rfl
  | frame pa prop =>
      refine ⟨rfl, rfl, ?_⟩
      intro a hlo hhi
      rw [ho.translation_before (by rw [he]; rfl) hlo hhi, he]
      rfl
  | table pt => exact ⟨rfl, rfl⟩

/-- The addresses that a search has passed are not mapped. -/
theorem FindSpec.translation_unmapped (hf : FindSpec m cfg root c stop u s r) :
    (translation cfg m root).Unmapped c.va r.2.2.va := by
  intro a hlo hhi
  unfold translation
  split
  · exact hf.unmapped a hlo hhi
  · rfl

theorem FindSpec.cursorOK (hf : FindSpec m cfg root c stop u s r) : CursorOK r.2.1 cfg root r.2.2 :=
  ⟨hf.path, by rw [hf.same.barrierVa]; exact hf.le_stop⟩

/-- A search from a cursor inside its range goes forward. -/
theorem FindSpec.le_va
    (hf : FindSpec m cfg root c stop u s r) (h : CursorOK m cfg root c) : c.va ≤ r.2.2.va := by
  have := hf.le
  rwa [min_eq_left h.le_stop] at this

/-- `map` refines the abstract step. -/
theorem refines_map (hW : WellFormed m) (h : CursorOK m cfg root c) (item : ConfigItem cfg) :
    Post Fault.IsPanic (c.map cfg m item.toItem) (fun r => StepOK m cfg root c r.2.1 r.2.2 ∧
      AbsStep cfg c.barrierVa (translation cfg m root, c.va) (.map item) (.map r.1)
        (translation cfg r.2.1 root, r.2.2.va)) := by
  refine (post_map OpFaults.isPanic (Or.inl trivial) hW h item.level_le).mono ?_
  rintro ⟨frag, m', c'⟩ ⟨-, -, -, m₁, c₁, q, n, hg, hs, hva, hl, ho, hfrag⟩
  simp only at ho hfrag
  refine ⟨StepOK.of_overwrites hW hg hs ho, ?_⟩
  have hroot₁ := (hg.keeps hW).isRoot h.isRoot
  have hT := hg.translation_eq hW h.isRoot
  have hshow := ho.fragShows (m₁.put q n (pteIndex c₁.va c₁.level) (.frame item.pa item.prop))
  have hstart := ho.start
  have hin := ho.inside
  rw [← hfrag, hT, hva, hl] at hshow
  rw [hva, hl] at hstart
  rw [hva, hl, hs.barrierVa] at hin
  have hstep : AbsStep cfg c.barrierVa _ _ _ _ := AbsStep.map hstart hin hshow
  have hT' := ho.translation_eq (hg.wellFormed hW) hroot₁
  rw [hT, hva, hl] at hT'
  have hva' := ho.va_eq
  rw [hva, hl] at hva'
  simp only
  rw [hT', hva']
  exact hstep

/-- `take_next` refines the abstract step. -/
theorem refines_takeNext {A : Fault → Prop} {len : ℕ}
    (hA : TakeFaults A m cfg c len) (hW : WellFormed m)
    (h : CursorOK m cfg root c) :
    Post A (c.takeNext cfg m len) (fun r => StepOK m cfg root c r.2.1 r.2.2 ∧
      AbsStep cfg c.barrierVa (translation cfg m root, c.va) (.takeNext len) (.takeNext r.1)
        (translation cfg r.2.1 root, r.2.2.va)) := by
  refine (post_takeNext hA hW h).mono ?_
  rintro ⟨frag, m', c'⟩ ⟨-, -, v, m₁, c₁, hf, hres⟩
  have hT := hf.grow.translation_eq hW h.isRoot
  have hun := hf.translation_unmapped
  have hle := hf.le_va h
  simp only at hT hun hle
  rcases hres with ⟨rfl, hr⟩ | ⟨q, n, rfl, hfits, ho, hne, hfrag⟩
  · obtain ⟨rfl, rfl, rfl⟩ : frag = none ∧ m' = m₁ ∧ c' = c₁ := by simpa using hr
    refine ⟨StepOK.of_grow hW hf.grow hf.cursorOK hf.same, ?_⟩
    simp only
    rw [hT]
    exact AbsStep.takeNone (hf.done rfl) hf.le_stop hun
  · simp only at ho hfrag
    refine ⟨StepOK.of_overwrites hW hf.grow hf.same ho, ?_⟩
    have hroot₁ := (hf.grow.keeps hW).isRoot h.isRoot
    have hshow := ho.fragShows (m₁.put q n (pteIndex c₁.va c₁.level) .absent)
    rw [← hfrag, hT] at hshow
    have hT' := ho.translation_eq (hf.grow.wellFormed hW) hroot₁
    rw [hT] at hT'
    obtain ⟨frag, rfl⟩ : ∃ f, frag = some f := by
      rw [hfrag]
      cases he : n.entries (pteIndex c₁.va c₁.level) with
      | absent => exact absurd he hne
      | frame pa prop => exact ⟨_, rfl⟩
      | table pt => exact ⟨_, rfl⟩
    simp only
    rw [hT', ho.va_eq]
    exact AbsStep.takeSome hle hfits.le hun hshow

/-- `protect_next` refines the abstract step. -/
theorem refines_protectNext (hW : WellFormed m) (h : CursorOK m cfg root c) (len : ℕ)
    (op : P → P) :
    Post Fault.IsPanic (c.protectNext cfg m len op) (fun r => StepOK m cfg root c r.2.1 r.2.2 ∧
      AbsStep cfg c.barrierVa (translation cfg m root, c.va) (.protectNext len op)
        (.protectNext r.1) (translation cfg r.2.1 root, r.2.2.va)) := by
  refine (post_protectNext SearchFaults.isPanic trivial hW h len op).mono ?_
  rintro ⟨range, m', c'⟩ ⟨-, -, v, m₁, c₁, hf, hres⟩
  have hT := hf.grow.translation_eq hW h.isRoot
  have hun := hf.translation_unmapped
  have hle := hf.le_va h
  simp only at hT hun hle
  rcases hres with ⟨rfl, hr⟩ | ⟨q, n, pa, prop, rfl, hfits, he, ho, hrange⟩
  · obtain ⟨rfl, rfl, rfl⟩ : range = none ∧ m' = m₁ ∧ c' = c₁ := by simpa using hr
    refine ⟨StepOK.of_grow hW hf.grow hf.cursorOK hf.same, ?_⟩
    simp only
    rw [hT]
    exact AbsStep.protectNone (hf.done rfl) hf.le_stop hun
  · simp only at ho hrange
    refine ⟨StepOK.of_overwrites hW hf.grow hf.same ho, ?_⟩
    have hroot₁ := (hf.grow.keeps hW).isRoot h.isRoot
    have hT' := ho.translation_eq (hf.grow.wellFormed hW) hroot₁
    rw [hT] at hT'
    simp only
    rw [hT', ho.va_eq, hrange]
    refine AbsStep.protectSome hle hfits.le hun ?_
    intro a hlo hhi
    have hb := ho.translation_before (by rw [he]; rfl) hlo hhi
    rw [hT, he] at hb
    exact hb

/-- `find_next` refines the abstract step. -/
theorem refines_findNext (hW : WellFormed m) (h : CursorOK m cfg root c) (len : ℕ) :
    Post Fault.IsPanic (c.findNext cfg m len) (fun r => StepOK m cfg root c r.2.1 r.2.2 ∧
      AbsStep cfg c.barrierVa (translation cfg m root, c.va) (.findNext len) (.findNext r.1)
        (translation cfg r.2.1 root, r.2.2.va)) := by
  unfold Cursor.findNext
  refine (post_findNextImpl SearchFaults.isPanic (Or.inl trivial) hW h).mono ?_
  rintro ⟨v, m', c'⟩ ⟨-, hlen, hf⟩
  have hT := hf.grow.translation_eq hW h.isRoot
  have hun := hf.translation_unmapped
  have hle := hf.le_va h
  simp only at hT hun hle
  refine ⟨StepOK.of_grow hW hf.grow hf.cursorOK hf.same, ?_⟩
  simp only
  rw [hT]
  cases v with
  | none => exact AbsStep.findNone (hf.done rfl) hf.le_stop hun
  | some v =>
      obtain ⟨hv, hlt, q, n, hc, hfound⟩ := hf.found v rfl
      simp only at hv hc hfound hlt
      subst hv
      refine AbsStep.findSome hle hlt hun ?_
      have hb := hf.same.barrierVa
      simp only at hb
      -- only frames are searched for
      obtain ⟨pa, prop, he⟩ : ∃ pa prop, n.entries (pteIndex c'.va c'.level) = .frame pa prop := by
        cases he : n.entries (pteIndex c'.va c'.level) with
        | absent => rw [he] at hfound; exact hfound.elim
        | frame pa prop => exact ⟨pa, prop, rfl⟩
        | table pt => rw [he] at hfound; exact absurd hfound.1 (by simp)
      have hman := hf.path.va_managed (by rw [hb]; exact lt_of_lt_of_le hlt hlen)
      rw [← hT, translation_of_canonical hman.canonical,
        hc.pageWalk_leaf (by rw [he]; rfl) rfl, he]
      exact Option.some_ne_none _

/-- The slot of a canonical address is canonical. -/
theorem canonical_of_slot {l va a : ℕ} (hva : cfg.Canonical va) (hl : 1 ≤ l) (h4 : l ≤ 4)
    (hlo : alignDown va (pageSize l) ≤ a) (hhi : a < alignDown va (pageSize l) + pageSize l) :
    cfg.Canonical a := by
  unfold PageTableConfig.Canonical alignDown at *
  cases hs : cfg.vaSignExt <;> rw [hs] at hva <;> simp at hva ⊢ <;>
    interval_cases l <;>
    simp only [pageSize_one, pageSize_two, pageSize_three, pageSize_four] at * <;> omega

/-- `query` refines the abstract step. -/
theorem refines_query (hW : WellFormed m) (h : CursorOK m cfg root c) :
    Post Fault.IsPanic (c.query cfg m) (fun r => StepOK m cfg root c r.2.1 r.2.2 ∧
      AbsStep cfg c.barrierVa (translation cfg m root, c.va) .query (.query r.1)
        (translation cfg r.2.1 root, r.2.2.va)) := by
  refine (post_query (Or.inl trivial) (Or.inl trivial) hW h).mono ?_
  rintro ⟨state, m', c'⟩ ⟨hW', hc', hs, hva, hn, hres⟩
  simp only at hW' hc' hs hva hn hres
  have hent := entry_eq_of_nodes hn
  have hwalk : ∀ r x, pageWalk m' r x = pageWalk m r x :=
    fun r x => pageWalk_eq_of_agree (fun _ _ _ q _ => hent q _)
  have hT : translation cfg m' root = translation cfg m root := by
    funext a
    unfold translation
    rw [hwalk]
  refine ⟨⟨hW', hc', hs, ⟨?_, ?_, fun r x _ _ => hwalk r x⟩⟩, ?_⟩
  · intro r n hr hl
    exact ⟨n, by rw [hn, hr], hl, rfl, rfl, fun _ _ => rfl⟩
  · intro r x _ _ l q _ h4 hq
    rw [nodeAt_eq_of_agree h4 (fun _ _ _ p _ => hent p _), hq]
  simp only
  rw [hT, hva]
  cases state with
  | error err =>
      obtain ⟨rfl, hend, -⟩ := hres
      exact AbsStep.queryEnd hend
  | ok res =>
      obtain ⟨rng, item⟩ := res
      obtain ⟨hlt, -, l, hl, h4, rfl, hshow⟩ := hres
      have hman := h.va_managed hlt
      refine AbsStep.queryOk ⟨alignDown_le _ _, lt_alignDown_add _ (pageSize_pos l)⟩ hlt ?_
      have hslot : ∀ a, alignDown c.va (pageSize l) ≤ a →
          a < alignDown c.va (pageSize l) + pageSize l →
          cfg.Canonical a ∧ slotNo l a = slotNo l c.va := by
        intro a hlo hhi
        have hcan := canonical_of_slot hman.canonical hl h4 hlo hhi
        exact ⟨hcan, (hcan.mem_slot_iff hman.canonical hl h4).mpr ⟨hlo, hhi⟩⟩
      cases item with
      | none =>
          intro a hlo hhi
          obtain ⟨hcan, hsl⟩ := hslot a hlo hhi
          rw [translation_of_canonical hcan, hshow a hsl]
      | some item =>
          obtain ⟨hil, -, hshow⟩ := hshow
          refine ⟨by rw [hil], ?_⟩
          intro a hlo hhi
          obtain ⟨hcan, hsl⟩ := hslot a hlo hhi
          rw [translation_of_canonical hcan, hshow a hsl, mod_eq_sub (dvd_alignDown _ _) hlo hhi]
          rfl

/-- `jump` refines the abstract step. -/
theorem refines_jump (hW : WellFormed m) (h : CursorOK m cfg root c) (va : ℕ) :
    Post Fault.IsPanic (c.jump va) (fun r => StepOK m cfg root c m r.2 ∧
      AbsStep cfg c.barrierVa (translation cfg m root, c.va) (.jump va) (.jump r.1)
        (translation cfg m root, r.2.va)) := by
  refine (post_jump h (Or.inl trivial)).mono ?_
  rintro ⟨res, c'⟩ ⟨hc', hs, hres⟩
  simp only at hc' hs hres
  refine ⟨StepOK.refl hW hc' hs, ?_⟩
  simp only
  split at hres
  · next hmem =>
    obtain ⟨rfl, rfl⟩ := hres
    exact AbsStep.jumpOk hmem
  · next hmem =>
    obtain ⟨rfl, rfl⟩ := hres
    exact AbsStep.jumpErr hmem

/-- **Every operation refines the abstract step**, keeps the invariants, and leaves
alone what its range does not concern. -/
theorem refines_perform (hW : WellFormed m) (h : CursorOK m cfg root c) (op : Op cfg) :
    Post Fault.IsPanic (c.perform cfg m op) (fun r => StepOK m cfg root c r.2.1 r.2.2 ∧
      AbsStep cfg c.barrierVa (translation cfg m root, c.va) op r.1
        (translation cfg r.2.1 root, r.2.2.va)) := by
  cases op with
  | map item => exact Post.bind (refines_map hW h item) (fun _ hr => hr)
  | takeNext len => exact Post.bind (refines_takeNext TakeFaults.isPanic hW h) (fun _ hr => hr)
  | protectNext len op => exact Post.bind (refines_protectNext hW h len op) (fun _ hr => hr)
  | findNext len => exact Post.bind (refines_findNext hW h len) (fun _ hr => hr)
  | query => exact Post.bind (refines_query hW h) (fun _ hr => hr)
  | jump va => exact Post.bind (refines_jump hW h va) (fun _ hr => hr)

/-! ## Runs -/

/-- A sequence of operations is a run of the abstract system. -/
theorem refines_runOps (ops : List (Op cfg)) : ∀ (m : Mem P) (c : Cursor), WellFormed m →
    CursorOK m cfg root c →
    Post Fault.IsPanic (c.runOps cfg ops m) (fun r => StepOK m cfg root c r.2.1 r.2.2 ∧
      AbsRun cfg c.barrierVa (translation cfg m root, c.va) ops r.1
        (translation cfg r.2.1 root, r.2.2.va)) := by
  induction ops with
  | nil =>
      intro m c hW h
      exact ⟨StepOK.refl hW h (SameRange.refl c), AbsRun.nil _⟩
  | cons op ops ih =>
      intro m c hW h
      rw [Cursor.runOps]
      refine Post.bind (refines_perform hW h op) ?_
      rintro ⟨r, m₁, c₁⟩ ⟨hstep, habs⟩
      refine Post.bind (ih m₁ c₁ hstep.wellFormed hstep.cursor) ?_
      rintro ⟨rs, m₂, c₂⟩ ⟨hrun, habs'⟩
      have hb := hstep.same.barrierVa
      simp only at hb
      rw [hb] at habs'
      exact ⟨hstep.trans hrun, AbsRun.cons habs habs'⟩

/-- **Cursors refine the abstract map.**  On a well-formed memory, opening a cursor
leaves the translation as it is, and whatever sequence of operations is then
performed either panics or is a run of the abstract system from the start of the
range, with the memory well formed again. -/
theorem cursor_runs_refine {m m₀ : Mem P} {r : AddrRange} {locked : List ℕ} (hW : WellFormed m)
    (hroot : IsRoot m cfg root) (hnew : Cursor.new cfg m root r = .ok (.ok (c, locked), m₀))
    (ops : List (Op cfg)) :
    translation cfg m₀ root = translation cfg m root ∧
      Post Fault.IsPanic (c.runOps cfg ops m₀) (fun res => WellFormed res.2.1 ∧
        AbsRun cfg r (translation cfg m root, r.start) ops res.1
          (translation cfg res.2.1 root, res.2.2.va)) := by
  obtain ⟨hg, ho⟩ := opened_of_new hW hroot hnew
  have hT := hg.translation_eq hW hroot
  refine ⟨hT, (refines_runOps ops m₀ c (hg.wellFormed hW) ho.cursor).mono ?_⟩
  rintro ⟨rs, m', c'⟩ ⟨hstep, habs⟩
  rw [ho.barrierVa, ho.va, hT] at habs
  exact ⟨hstep.wellFormed, habs⟩

/-- A new cursor on a table, and a sequence of operations. -/
def openRun (cfg : PageTableConfig P) (m : Mem P) (root : ℕ) (r : AddrRange) (ops : List (Op cfg)) :
    Exec (List (Res P) × Mem P × Cursor) := do
  let (res, m) ← Cursor.new cfg m root r
  match res with
  | .error _ => .error .assertion
  | .ok (c, _) => c.runOps cfg ops m

theorem openRun_eq_ok {m : Mem P} {r : AddrRange} {ops : List (Op cfg)}
    {res : List (Res P) × Mem P × Cursor} (h : openRun cfg m root r ops = .ok res) :
    ∃ c locked m₀, Cursor.new cfg m root r = .ok (.ok (c, locked), m₀) ∧
      c.runOps cfg ops m₀ = .ok res := by
  obtain ⟨⟨new, m₀⟩, hnew, h⟩ := bind_eq_ok.mp h
  cases new with
  | error e => cases h
  | ok cl => exact ⟨cl.1, cl.2, m₀, hnew, h⟩

/-- The same on a new table. -/
def session (cfg : PageTableConfig P) (pool : List ℕ) (r : AddrRange) (ops : List (Op cfg)) :
    Exec (List (Res P) × Mem P × Cursor) := do
  let (root, m) ← emptyTable cfg (freshMem pool)
  openRun cfg m root r ops

/-- The frames of the samples. -/
def samplePool : List ℕ := [4096, 8192, 12288, 16384]

/-- Mapping a page, going back to it, reading it and taking it out again. -/
def sampleOps : List (Op (userPtConfig (P := Unit) 2 (by decide))) :=
  [.map ⟨⟨0x7000, 1, ()⟩, by decide⟩, .jump 0, .query, .takeNext 4096]

theorem cursor_runs_refine_sample : ∃ root m c locked m₀ res,
    WellFormed m ∧ IsRoot m (userPtConfig (P := Unit) 2 (by decide)) root ∧
      Cursor.new (userPtConfig 2 (by decide)) m root ⟨0, 4096⟩ = .ok (.ok (c, locked), m₀) ∧
      c.runOps (userPtConfig 2 (by decide)) sampleOps m₀ = .ok res ∧
      AbsRun (userPtConfig 2 (by decide)) ⟨0, 4096⟩
        (translation (userPtConfig 2 (by decide)) m root, 0) sampleOps res.1
        (translation (userPtConfig 2 (by decide)) res.2.1 root, res.2.2.va) := by
  obtain ⟨res, hs, -⟩ := exists_of_returns (p := fun _ => true)
    (show returns (session _ samplePool ⟨0, 4096⟩ sampleOps) _ = true by decide)
  obtain ⟨⟨root, m⟩, hm, hs⟩ := bind_eq_ok.mp hs
  obtain ⟨c, locked, m₀, hnew, hrun⟩ := openRun_eq_ok hs
  obtain ⟨-, hW, hroot⟩ := (post_emptyTable (wellFormed_of_no_nodes (fun _ => rfl)) _).of_ok hm
  have h := cursor_runs_refine hW hroot hnew sampleOps
  exact ⟨root, m, c, locked, m₀, res, hW, hroot, hnew, hrun, (h.2.of_ok hrun).2⟩

end

end Vostd
