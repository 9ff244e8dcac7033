/-
# Mapping items one after another

The loops of the kernel that fill a range call `map` once for each item and let the
cursor move on.  What they need from outside is collected in `MapReady`: the frame
allocator keeps its promise, mapped frames end in the address space, and no node is
referred to so often that it could not be handed out.  Each `map` keeps this
(`MapReady.map`), so a whole loop either runs out of memory or lays out its items side
by side (`post_mapItems`).
-/
import Vostd.PageTable.Faults

namespace Vostd

open Exec

variable {P : Type}

/-! ## The loop -/

/-- `for item in items { cursor.map(item) }`. -/
def Cursor.mapItems (cfg : PageTableConfig P) :
    List (Item P) → Mem P → Cursor → Exec (Mem P × Cursor)
  | [], m, c => .ok (m, c)
  | item :: items, m, c => do
      let (_, m, c) ← c.map cfg m item
      mapItems cfg items m c

/-- The bytes that a list of items covers. -/
def itemsSize (items : List (Item P)) : ℕ := (items.map (fun item => pageSize item.level)).sum

@[simp] theorem itemsSize_nil : itemsSize ([] : List (Item P)) = 0 := rfl

@[simp] theorem itemsSize_cons (item : Item P) (items : List (Item P)) :
    itemsSize (item :: items) = pageSize item.level + itemsSize items := by
  simp [itemsSize]

/-- The map `T` with the items side by side from `va` on. -/
def ByteMap.layOut : ByteMap (ℕ × P) → ℕ → List (Item P) → ByteMap (ℕ × P)
  | T, _, [] => T
  | T, va, item :: items =>
      layOut (T.override va (va + pageSize item.level) (pageBytes va item.pa item.prop))
        (va + pageSize item.level) items

/-- Outside the items nothing changes. -/
theorem ByteMap.layOut_of_not_mem (items : List (Item P)) : ∀ (T : ByteMap (ℕ × P)) (va : ℕ)
    {a : ℕ}, ¬(va ≤ a ∧ a < va + itemsSize items) → T.layOut va items a = T a := by
  induction items with
  | nil =>
      intro T va a _
      rfl
  | cons item items ih =>
      intro T va a ha
      rw [itemsSize_cons] at ha
      rw [layOut, ih _ _ (by omega), override_of_not_mem _ _ (by omega)]

/-- The bytes of the first item. -/
theorem ByteMap.layOut_head (T : ByteMap (ℕ × P)) {va k : ℕ} (item : Item P)
    (items : List (Item P)) (hk : k < pageSize item.level) :
    T.layOut va (item :: items) (va + k) = some (item.pa + k, item.prop) := by
  rw [layOut, layOut_of_not_mem _ _ _ (by omega), override_of_mem _ _ (by omega), pageBytes,
    Nat.add_sub_cancel_left]

/-! ## What the loop needs -/

/-- The state of the memory in which `map` refuses nothing but its arguments. -/
structure MapReady (m : Mem P) : Prop where
  pool : m.PoolFresh
  fits : m.Fits
  counts : ∀ p i q, Owns m p i q → m.refCount q < REF_COUNT_MAX

section

variable {m m' : Mem P} {cfg : PageTableConfig P} {root : ℕ} {c c' : Cursor} {item : Item P}

/-- Growing a table keeps the memory ready. -/
theorem MapReady.of_grow (hready : MapReady m) (hW : WellFormed m) (hg : Grow root m m') :
    MapReady m' :=
  ⟨hg.poolFresh hready.pool, hg.allLeaves hW passesToParts_fits hready.fits,
    hg.refCount_lt hW (by decide) hready.counts⟩

/-- A new table. -/
theorem emptyTable_mapReady {pool : List ℕ} (hpool : pool.Nodup)
    (hm : emptyTable cfg (freshMem pool) = .ok (root, m)) : MapReady m := by
  have hfresh : (freshMem (P := P) pool).PoolFresh := ⟨hpool, fun _ _ => rfl⟩
  obtain ⟨hf, -, -⟩ := (post_emptyTable (wellFormed_of_no_nodes (fun _ => rfl)) cfg).of_ok hm
  refine ⟨(alloc_poolFresh hfresh cfg NR_LEVELS).of_ok hm, (emptyTable_ok hm).2.2, ?_⟩
  rintro p i q ⟨n, hn, -, he⟩
  -- the only node is the root, which is empty
  rcases hf.cases hn with ⟨-, rfl⟩ | hn
  · cases he
  · cases hn

/-- Overwriting an entry takes nothing out of the pool: a child that is cloned is in use. -/
theorem Overwrites.poolFresh {q : ℕ} {n : Node P} {e : Pte P}
    (ho : Overwrites m m' cfg root c c' e q n) (hW : WellFormed m) (h : m.PoolFresh) :
    m'.PoolFresh := by
  have hpool : m'.pool = m.pool := ho.replaced.marked.pool
  refine ⟨by rw [hpool]; exact h.nodup, ?_⟩
  intro p hp
  rw [hpool] at hp
  rw [ho.replaced.refCount]
  cases hold : n.entries (pteIndex c.va c.level) with
  | table pt =>
      obtain ⟨k, hk, -⟩ := (hW.ok q n ho.slot.position.node).child _ _ ho.slot.slot hold
      have hne : p ≠ pt := by
        rintro rfl
        exact (hW.ok p k hk).alive (h.unused p hp)
      exact (Function.update_of_ne hne _ _).trans (h.unused p hp)
  | _ => exact h.unused p hp

/-- **One `map`** of an item that fits: it returns or there is no memory, and afterwards the
memory is ready again. -/
theorem MapReady.map (hready : MapReady m) (hW : WellFormed m) (h : CursorOK m cfg root c)
    (hstop : c.barrierVa.stop < 2 ^ 64) (hargs : MapArgs cfg c item) (hpos : 1 ≤ item.level)
    (hmax : item.level ≤ cfg.maxItemLevel) (htop : cfg.topLevelCanUnmap = true ∨ item.level ≠ 4)
    (hend : item.pa + pageSize item.level ≤ 2 ^ 64) :
    Post (fun e => e = .noMemory) (c.map cfg m item) (fun r =>
      MapReady r.2.1 ∧ StepOK m cfg root c r.2.1 r.2.2 ∧ r.2.2.va = c.va + pageSize item.level ∧
      translation cfg r.2.1 root = (translation cfg m root).override c.va
        (c.va + pageSize item.level) (pageBytes c.va item.pa item.prop)) := by
  have hfaults : MapFaults (fun e => e = .noMemory) m cfg c item :=
    ⟨⟨rfl, Or.inr hready.pool⟩, Or.inr hargs, Or.inr hpos, Or.inr ⟨htop, hready.counts⟩,
      Or.inr hstop, Or.inr hready.fits⟩
  refine (post_map_of_faults hfaults hW h hmax).mono' ?_
  rintro ⟨frag, m', c'⟩ hrun hspec
  obtain ⟨hstep, habs⟩ := (refines_map hW h ⟨item, hmax⟩).of_ok hrun
  -- the frames that are mapped now end in the address space
  have hfits : m'.Fits := by
    have hperform : c.perform cfg m (.map ⟨item, hmax⟩) = .ok (.map frag, m', c') := by
      show (c.map cfg m item >>= _) = _
      rw [hrun]
      rfl
    refine ((perform_keeps hW h hready.fits (.map ⟨item, hmax⟩) ?_).of_ok hperform).2
    intro it hit
    injection hit with hit
    rw [← hit]
    exact ⟨hpos, hend⟩
  obtain ⟨m₁, c₁, q, n, hgrow, -, -, -, ho, -⟩ := hspec.result
  have hready₁ := hready.of_grow hW hgrow
  have hpool := ho.poolFresh (hgrow.wellFormed hW) hready₁.pool
  have hcounts := ho.refCount_lt (hgrow.wellFormed hW) hready₁.counts
  simp only at habs hcounts hpool ⊢
  refine ⟨⟨hpool, hfits, hcounts⟩, hstep, ?_⟩
  generalize hT : translation cfg m' root = T at habs
  generalize hva : c'.va = va at habs
  cases habs
  exact ⟨rfl, rfl⟩

/-- The conditions on an item wherever it is mapped. -/
structure ItemOK (cfg : PageTableConfig P) (c : Cursor) (item : Item P) : Prop where
  level_pos : 1 ≤ item.level
  level_le : item.level ≤ cfg.highestTranslationLevel
  guard_le : item.level ≤ c.guardLevel
  max_le : item.level ≤ cfg.maxItemLevel
  top : cfg.topLevelCanUnmap = true ∨ item.level ≠ 4
  fits : item.pa + pageSize item.level ≤ 2 ^ 64

/-- Items laid out from `va` on start at multiples of their sizes. -/
def AlignedFrom : ℕ → List (Item P) → Prop
  | _, [] => True
  | va, item :: items => pageSize item.level ∣ va ∧ AlignedFrom (va + pageSize item.level) items

/-- **The loop** runs out of memory or lays out its items. -/
theorem post_mapItems (items : List (Item P)) : ∀ (m : Mem P) (c : Cursor), MapReady m →
    WellFormed m → CursorOK m cfg root c → c.barrierVa.stop < 2 ^ 64 →
    (∀ item ∈ items, ItemOK cfg c item) → AlignedFrom c.va items →
    c.va + itemsSize items ≤ c.barrierVa.stop →
    Post (fun e => e = .noMemory) (Cursor.mapItems cfg items m c) (fun r =>
      MapReady r.1 ∧ StepOK m cfg root c r.1 r.2 ∧ r.2.va = c.va + itemsSize items ∧
      translation cfg r.1 root = (translation cfg m root).layOut c.va items) := by
  induction items with
  | nil =>
      intro m c hready hW h _ _ _ _
      exact ⟨hready, StepOK.refl hW h (SameRange.refl c), rfl, rfl⟩
  | cons item items ih =>
      intro m c hready hW h hstop hitems hal hle
      have hitem := hitems item List.mem_cons_self
      rw [itemsSize_cons] at hle
      have hargs : MapArgs cfg c item := ⟨hitem.level_le, hitem.guard_le, hal.1, by omega⟩
      rw [Cursor.mapItems]
      refine Post.bind (hready.map hW h hstop hargs hitem.level_pos hitem.max_le hitem.top
        hitem.fits) ?_
      rintro ⟨frag, m₁, c₁⟩ ⟨hready₁, hstep, hva, hT⟩
      have hb := hstep.same.barrierVa
      have hg := hstep.same.guardLevel
      simp only at hready₁ hstep hva hT hb hg
      refine (ih m₁ c₁ hready₁ hstep.wellFormed hstep.cursor (by rw [hb]; exact hstop) ?_
        (by rw [hva]; exact hal.2) (by rw [hb, hva]; omega)).mono ?_
      · intro it hit
        have hok := hitems it (List.mem_cons_of_mem item hit)
        exact ⟨hok.level_pos, hok.level_le, by rw [hg]; exact hok.guard_le, hok.max_le, hok.top,
          hok.fits⟩
      · rintro ⟨m₂, c₂⟩ ⟨hready₂, hstep₂, hva₂, hT₂⟩
        refine ⟨hready₂, hstep.trans hstep₂, ?_, ?_⟩
        · rw [hva₂, hva, itemsSize_cons, Nat.add_assoc]
        · rw [hT₂, hT, hva]
          rfl

/-! ## Items that cannot be mapped -/

/-- A table whose top-level entries are all nodes. -/
def TopFilled (m : Mem P) (cfg : PageTableConfig P) (root : ℕ) : Prop :=
  ∃ n, m.nodes root = some n ∧ n.level = 4 ∧ n.cfg = cfg ∧
    ∀ i, cfg.topLevelIndexRange.Contains i → ∃ pt, n.entries i = .table pt

/-- A table that never gives up its top-level nodes keeps them. -/
theorem TopFilled.of_keeps {R : ℕ → Prop} (h : TopFilled m cfg root)
    (hunmap : cfg.topLevelCanUnmap = false) (hk : Keeps m m' root R) : TopFilled m' cfg root := by
  obtain ⟨n, hn, hl, hc, hfull⟩ := h
  obtain ⟨n', hn', hl', hc', -, hfixed⟩ := hk.top root n hn hl
  refine ⟨n', hn', hl', hc'.trans hc, ?_⟩
  intro i hi
  obtain ⟨pt, he⟩ := hfull i hi
  refine ⟨pt, ?_⟩
  rw [hfixed i (Or.inr ⟨by rw [hc]; exact hunmap, pt, he⟩), he]

/-- An item above the subtree root of the cursor is refused, and so is one in the place of a
node of the top level. -/
theorem map_refused (hW : WellFormed m) (h : CursorOK m cfg root c) (htop : TopFilled m cfg root)
    (hunmap : cfg.topLevelCanUnmap = false) (hmax : item.level ≤ cfg.maxItemLevel)
    (hitem : c.guardLevel < item.level ∨ item.level = 4) :
    Post (fun _ => True) (c.map cfg m item) (fun _ => False) := by
  refine (post_map_of_faults ⟨⟨trivial, Or.inl trivial⟩, Or.inl trivial, Or.inl trivial,
    Or.inl trivial, Or.inl trivial, Or.inl trivial⟩ hW h hmax).mono ?_
  rintro ⟨frag, m', c'⟩ hspec
  rcases hitem with hguard | h4
  · have := hspec.guard_le
    omega
  · obtain ⟨m₁, c₁, q, n, hg, -, -, hl, ho, -⟩ := hspec.result
    have hp := ho.slot.position
    have hl4 : c₁.level = 4 := hl.trans h4
    -- the node of the slot is the root, and its entry is a node
    obtain rfl : q = root := by
      have hq := hp.nodeAt
      rw [hl4, nodeAt_four] at hq
      exact (Option.some.inj hq).symm
    obtain ⟨n', hn', hn4, hnc, hfull⟩ := htop.of_keeps hunmap (hg.keeps hW)
    rw [hp.node] at hn'
    obtain rfl := Option.some.inj hn'
    have hslot := ho.slot.slot
    unfold Node.slots NR_LEVELS at hslot
    rw [if_pos hn4, hnc] at hslot
    obtain ⟨pt, he⟩ := hfull _ hslot
    have hcan := ho.replaced.canUnmap pt he hn4
    rw [hnc, hunmap] at hcan
    cases hcan

/-- **A loop with such an item does not come to its end.** -/
theorem mapItems_refused (hunmap : cfg.topLevelCanUnmap = false) (items : List (Item P)) :
    ∀ (m : Mem P) (c : Cursor), WellFormed m → CursorOK m cfg root c → TopFilled m cfg root →
    (∀ item ∈ items, item.level ≤ cfg.maxItemLevel) →
    (∃ item ∈ items, c.guardLevel < item.level ∨ item.level = 4) →
    Post (fun _ => True) (Cursor.mapItems cfg items m c) (fun _ => False) := by
  induction items with
  | nil =>
      rintro m c _ _ _ _ ⟨item, hmem, -⟩
      cases hmem
  | cons item items ih =>
      intro m c hW h htop hmax hbad
      have hitem := hmax item List.mem_cons_self
      rw [Cursor.mapItems]
      by_cases hhead : c.guardLevel < item.level ∨ item.level = 4
      · exact Post.bind (map_refused hW h htop hunmap hitem hhead) (fun _ hfalse => hfalse.elim)
      · refine Post.bind ((refines_map hW h ⟨item, hitem⟩).allow (fun _ _ => trivial)) ?_
        rintro ⟨frag, m₁, c₁⟩ ⟨hstep, -⟩
        simp only at hstep
        refine ih m₁ c₁ hstep.wellFormed hstep.cursor (htop.of_keeps hunmap hstep.keeps)
          (fun it hit => hmax it (List.mem_cons_of_mem item hit)) ?_
        obtain ⟨it, hmem, hit⟩ := hbad
        rcases List.mem_cons.mp hmem with rfl | hmem
        · exact absurd hit hhead
        · exact ⟨it, hmem, by rw [hstep.same.guardLevel]; exact hit⟩

end

end Vostd
