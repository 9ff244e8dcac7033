/-
# The invariant of the heap

The invariant of the heap is that its slots can be placed: each list, be it a slab's or a user's,
links the slots that are placed in it, the held slots and the allocations are those that are
placed there, and each slab counts the slots that are not free.  An operation moves one slot from
a place to another, or makes or removes the slots of a page.
-/
import Vostd.Heap.Placement

namespace Vostd.Heap

open Exec Function

variable {ι : Type}

/-! ## The invariant -/

/-- The slot sizes of the slabs. -/
def sizesOf (slabs : ℕ → Option Slab) : ℕ → Option SlotSize := fun p => (slabs p).map Slab.slotSize

/-- A slab keeps its free slots, and counts the others. -/
structure SlabInv (mem : Memory) (p : ℕ) (slab : Slab) (place : Placement ι) : Prop where
  start_eq : slab.startPaddr = p
  free : ∃ xs, Keeps mem slab.freeList.head slab.slotSize.val place (.free p) xs ∧
    slab.nrAllocated + xs.length = slab.capacity

/-- The slots that are held. -/
structure HeldInv (held : List HeapSlot) (place : Placement ι) : Prop where
  nodup : held.Nodup
  mem_iff : ∀ s, s ∈ held ↔ place s = some .held

/-- The allocations have slots, which the slot map says and which fit the layout. -/
structure LiveInv (slotMap : AllocLayout → Option SlotInfo) (live : List (ℕ × AllocLayout))
    (place : Placement ι) : Prop where
  nodup : (live.map Prod.fst).Nodup
  slot : ∀ a ∈ live, ∃ info, slotMap a.2 = some info ∧ place ⟨a.1, info⟩ = some .live ∧
    a.2.size ≤ info.size ∧ a.1 % a.2.align = 0

/-- **The invariant of the heap.** -/
structure Inv (cfg : Setting ι) (w : World ι) (place : Placement ι) : Prop where
  laid : Laid (sizesOf w.slabs) w.used place
  slab : ∀ p slab, w.slabs p = some slab → SlabInv w.mem p slab place
  free_slot : ∀ s p, place s = some (.free p) → ∃ S i, sizesOf w.slabs p = some S ∧
    i < PAGE_SIZE / S.val ∧ s = Slab.slotAt S p i
  list : ∀ l, ∃ xs, Keeps w.mem (w.lists l).head (cfg.slotSize l) place (.listed l) xs
  listed_slot : ∀ s l, place s = some (.listed l) → s.info = .slabSlot (cfg.slotSize l)
  held : HeldInv w.held place
  live : LiveInv cfg.slotMap w.live place

/-! ## Held slots and allocations -/

namespace HeldInv

variable {held : List HeapSlot} {place : Placement ι} {s : HeapSlot}

theorem erase (h : HeldInv held place) {o : Option (Place ι)} (hq : o ≠ some .held) :
    HeldInv (held.erase s) (update place s o) where
  nodup := h.nodup.erase s
  mem_iff := by
    intro t
    rw [h.nodup.mem_erase_iff, h.mem_iff]
    by_cases ht : t = s
    · subst ht
      rw [update_self]
      exact iff_of_false (fun h => h.1 rfl) hq
    · rw [update_of_ne ht]
      exact and_iff_right ht

theorem cons (h : HeldInv held place) (hs : place s ≠ some .held) :
    HeldInv (s :: held) (update place s (some .held)) where
  nodup := List.nodup_cons.mpr ⟨fun hmem => hs ((h.mem_iff s).mp hmem), h.nodup⟩
  mem_iff := by
    intro t
    rw [List.mem_cons, h.mem_iff]
    by_cases ht : t = s
    · subst ht
      rw [update_self]
      exact iff_of_true (Or.inl rfl) rfl
    · rw [update_of_ne ht]
      exact ⟨fun h => h.resolve_left ht, Or.inr⟩

end HeldInv

namespace LiveInv

variable {slotMap : AllocLayout → Option SlotInfo}
  {live : List (ℕ × AllocLayout)} {place : Placement ι} {s : HeapSlot} {o : Option (Place ι)}

theorem congr {place' : Placement ι} (h : LiveInv slotMap live place)
    (hplace : ∀ s, place s = some .live → place' s = some .live) : LiveInv slotMap live place' where
  nodup := h.nodup
  slot := by
    intro a ha
    obtain ⟨info, hmap, hlive, hrest⟩ := h.slot a ha
    exact ⟨info, hmap, hplace _ hlive, hrest⟩

theorem move (h : LiveInv slotMap live place) (hs : place s ≠ some .live) :
    LiveInv slotMap live (update place s o) := by
  refine h.congr fun t ht => ?_
  have hne : t ≠ s := by
    rintro rfl
    exact hs ht
  rw [update_of_ne hne, ht]

theorem cons {sizes : ℕ → Option SlotSize} {used : ℕ → Bool} (h : LiveInv slotMap live place)
    (hlaid : Laid sizes used place) (hs : place s = some .held) {layout : AllocLayout}
    (hmap : slotMap layout = some s.info) (hsize : layout.size ≤ s.size)
    (halign : s.addr % layout.align = 0) :
    LiveInv slotMap ((s.addr, layout) :: live) (update place s (some .live)) where
  nodup := by
    refine List.nodup_cons.mpr ⟨fun hmem => ?_, h.nodup⟩
    obtain ⟨a, ha, haddr⟩ := List.mem_map.mp hmem
    obtain ⟨info, -, hlive, -⟩ := h.slot a ha
    -- a slot at the address of `s` is `s`, which is held
    have heq := hlaid.addr_inj (s := ⟨a.1, info⟩) (t := s)
      (by rw [hlive]; exact Option.some_ne_none _)
      (by rw [hs]; exact Option.some_ne_none _) haddr
    rw [heq, hs] at hlive
    cases hlive
  slot := by
    intro a ha
    rcases List.mem_cons.mp ha with rfl | ha
    · exact ⟨s.info, hmap, update_self .., hsize, halign⟩
    · exact (h.move (o := some .live) (by rw [hs]; exact fun h => nomatch h)).slot a ha

theorem erase (h : LiveInv slotMap live place) {ptr : ℕ} {layout : AllocLayout}
    (hmem : (ptr, layout) ∈ live) {info : SlotInfo} :
    LiveInv slotMap (live.erase (ptr, layout)) (update place ⟨ptr, info⟩ o) where
  nodup := h.nodup.sublist (List.erase_sublist.map _)
  slot := by
    intro a ha
    have hnodup : live.Nodup := h.nodup.of_map _
    obtain ⟨hne, ha⟩ := hnodup.mem_erase_iff.mp ha
    have hptr : a.1 ≠ ptr := fun heq => hne (List.inj_on_of_nodup_map h.nodup ha hmem heq)
    obtain ⟨info', hmap, hlive, hrest⟩ := h.slot a ha
    refine ⟨info', hmap, ?_, hrest⟩
    rw [update_of_ne fun heq => hptr (congrArg HeapSlot.addr heq), hlive]

end LiveInv

/-! ## Slabs -/

namespace SlabInv

variable {mem : Memory} {p : ℕ} {slab : Slab} {place : Placement ι}

theorem capacity_le (slab : Slab) : slab.capacity ≤ 512 :=
  (Nat.div_le_div_left slab.slotSize.word_le (by decide)).trans (by decide)

/-- A slab without free slots gives an error. -/
theorem alloc_nil (h : Keeps mem slab.freeList.head slab.slotSize.val place (.free p) []) :
    slab.alloc mem = .ok (none, slab) := by
  unfold Slab.alloc
  rw [show slab.freeList.pop slab.slotSize.val mem = _ from h.lists.pop_nil]

/-- A slab with a free slot takes the first one. -/
theorem alloc_cons {a : ℕ} {xs : List ℕ}
    (h : Keeps mem slab.freeList.head slab.slotSize.val place (.free p) (a :: xs))
    (hcount : slab.nrAllocated + (a :: xs).length = slab.capacity) :
    slab.alloc mem = .ok (some ⟨a, .slabSlot slab.slotSize.val⟩,
      { slab with freeList := ⟨xs.head?⟩, nrAllocated := slab.nrAllocated + 1 }) := by
  unfold Slab.alloc
  rw [show slab.freeList.pop slab.slotSize.val mem = _ from (h.lists.pop _).1]
  have := capacity_le slab
  rw [List.length_cons] at hcount
  exact if_pos (by omega)

end SlabInv

/-! ## Moving one slot -/

theorem sizesOf_eq {slabs : ℕ → Option Slab} {p : ℕ} {S : SlotSize} :
    sizesOf slabs p = some S ↔ ∃ slab, slabs p = some slab ∧ slab.slotSize = S :=
  Option.map_eq_some_iff

theorem sizesOf_update_eq (slabs : ℕ → Option Slab) (p : ℕ) (o : Option Slab) :
    sizesOf (update slabs p o) = update (sizesOf slabs) p (o.map Slab.slotSize) := by
  funext q
  by_cases hq : q = p
  · subst hq
    rw [sizesOf, update_self, update_self]
  · rw [sizesOf, update_of_ne hq, update_of_ne hq]
    rfl

theorem sizesOf_update {slabs : ℕ → Option Slab} {p : ℕ} {slab slab' : Slab}
    (hslab : slabs p = some slab) (h : slab'.slotSize = slab.slotSize) :
    sizesOf (update slabs p (some slab')) = sizesOf slabs := by
  have hold : sizesOf slabs p = some slab'.slotSize := sizesOf_eq.mpr ⟨slab, hslab, h.symm⟩
  rw [sizesOf_update_eq, Option.map_some, ← hold, update_eq_self]

theorem update_ne_none_iff {place : Placement ι} {s : HeapSlot} {q : Place ι}
    (hs : place s ≠ none) (t : HeapSlot) :
    update place s (some q) t ≠ none ↔ place t ≠ none := by
  by_cases ht : t = s
  · subst ht
    rw [update_self]
    exact iff_of_true (Option.some_ne_none q) hs
  · rw [update_of_ne ht]

namespace Inv

variable {cfg : Setting ι} {w w' : World ι} {place : Placement ι}
  {s : HeapSlot} {q₁ : Place ι} {held : List HeapSlot}

/-- **One slot is moved** and possibly written to.  What has to be shown is about the lists that
it leaves and enters, the held slots and the allocations. -/
theorem move (h : Inv cfg w place) {q₂ : Place ι} (hs : place s = some q₁)
    (hmem : ∀ x, x < s.addr ∨ s.addr + s.size ≤ x → w'.mem x = w.mem x)
    (hused : w'.used = w.used) (hsizes : sizesOf w'.slabs = sizesOf w.slabs)
    (hslab : ∀ p slab, w'.slabs p = some slab →
      (w.slabs p = some slab ∧ q₁ ≠ .free p ∧ q₂ ≠ .free p) ∨
        SlabInv w'.mem p slab (update place s (some q₂)))
    (hfree : ∀ p, q₂ = .free p → ∃ S i, sizesOf w.slabs p = some S ∧
      i < PAGE_SIZE / S.val ∧ s = Slab.slotAt S p i)
    (hlist : ∀ l, (w'.lists l = w.lists l ∧ q₁ ≠ .listed l ∧ q₂ ≠ .listed l) ∨
      ∃ xs, Keeps w'.mem (w'.lists l).head (cfg.slotSize l) (update place s (some q₂))
        (.listed l) xs) (hlisted : ∀ l, q₂ = .listed l → s.info = .slabSlot (cfg.slotSize l))
    (hheld : HeldInv w'.held (update place s (some q₂)))
    (hlive : LiveInv cfg.slotMap w'.live (update place s (some q₂))) :
    Inv cfg w' (update place s (some q₂)) where
  laid := by
    rw [hused, hsizes]
    exact h.laid.congr (update_ne_none_iff (by rw [hs]; exact Option.some_ne_none _))
  slab := by
    intro p slab hp
    rcases hslab p slab hp with ⟨hold, h₁, h₂⟩ | hnew
    · obtain ⟨hstart, xs, hkeeps, hcount⟩ := h.slab p slab hold
      exact ⟨hstart, xs, hkeeps.move h.laid hs h₁ h₂ hmem, hcount⟩
    · exact hnew
  free_slot := by
    intro t p ht
    rw [hsizes]
    rcases update_eq_cases ht with ⟨rfl, heq⟩ | ⟨hts, ht⟩
    · exact hfree p (Option.some.inj heq)
    · exact h.free_slot t p ht
  list := by
    intro l
    rcases hlist l with ⟨hold, h₁, h₂⟩ | hnew
    · obtain ⟨xs, hkeeps⟩ := h.list l
      rw [hold]
      exact ⟨xs, hkeeps.move h.laid hs h₁ h₂ hmem⟩
    · exact hnew
  listed_slot := by
    intro t l ht
    rcases update_eq_cases ht with ⟨rfl, heq⟩ | ⟨hts, ht⟩
    · exact hlisted l (Option.some.inj heq)
    · exact h.listed_slot t l ht
  held := hheld
  live := hlive

/-- A slot that is not in a list is moved, and only the held slots and the allocations change. -/
theorem move_token (h : Inv cfg w place) (hs : place s = some q₁)
    (q₂ : Place ι) (h₁ : ∀ p, q₁ ≠ .free p) (h₁' : ∀ l, q₁ ≠ .listed l)
    (h₂ : ∀ p, q₂ ≠ .free p) (h₂' : ∀ l, q₂ ≠ .listed l)
    {live : List (ℕ × AllocLayout)} (hheld : HeldInv held (update place s (some q₂)))
    (hlive : LiveInv cfg.slotMap live (update place s (some q₂))) :
    Inv cfg { w with held := held, live := live } (update place s (some q₂)) :=
  h.move hs (fun _ _ => rfl) rfl rfl (fun p _ hp => Or.inl ⟨hp, h₁ p, h₂ p⟩)
    (fun p hp => (h₂ p hp).elim) (fun l => Or.inl ⟨rfl, h₁' l, h₂' l⟩)
    (fun l hl => (h₂' l hl).elim) hheld hlive

/-- A held slot is lost. -/
theorem forget (h : Inv cfg w place) {slot : HeapSlot} (hslot : slot ∈ w.held) :
    Inv cfg { w with held := w.held.erase slot } (update place slot (some .lost)) := by
  have hs := (h.held.mem_iff slot).mp hslot
  refine h.move_token hs .lost (fun _ => nofun) (fun _ => nofun) (fun _ => nofun) (fun _ => nofun)
    (h.held.erase nofun) (h.live.move ?_)
  rw [hs]
  exact nofun

/-- A slot is moved between the list of a slab and the held slots. -/
theorem move_slab (h : Inv cfg w place) {p : ℕ} {slab slab' : Slab} (hp : w.slabs p = some slab)
    (hs : place s = some q₁) (q₂ : Place ι) (h₁ : q₁ = .free p ∨ q₁ = .held)
    (h₂ : q₂ = .free p ∨ q₂ = .held) {mem' : Memory}
    (hmem : ∀ x, x < s.addr ∨ s.addr + s.size ≤ x → mem' x = w.mem x)
    (hslab : SlabInv mem' p slab' (update place s (some q₂)))
    (hsize : slab'.slotSize = slab.slotSize)
    (hfree : q₂ = .free p → ∃ i, i < PAGE_SIZE / slab.slotSize.val ∧
      s = Slab.slotAt slab.slotSize p i)
    (hheld : HeldInv held (update place s (some q₂))) :
    Inv cfg { w with mem := mem', slabs := update w.slabs p (some slab'), held := held }
      (update place s (some q₂)) := by
  have hother : ∀ {q : Place ι}, q = .free p ∨ q = .held →
      (∀ p', p' ≠ p → q ≠ .free p') ∧ (∀ l, q ≠ .listed l) ∧ q ≠ .live := by
    rintro q (rfl | rfl)
    · exact ⟨fun p' hne h => hne (Place.free.inj h).symm, fun _ => nofun, nofun⟩
    · exact ⟨fun _ _ => nofun, fun _ => nofun, nofun⟩
  obtain ⟨h₁f, h₁l, h₁live⟩ := hother h₁
  obtain ⟨h₂f, h₂l, -⟩ := hother h₂
  refine h.move hs hmem rfl (sizesOf_update hp hsize) (fun q slab₁ hq => ?_) (fun q hq => ?_)
    (fun l => Or.inl ⟨rfl, h₁l l, h₂l l⟩) (fun l hl => (h₂l l hl).elim) hheld (h.live.move ?_)
  · by_cases hqp : q = p
    · subst hqp
      change update w.slabs q (some slab') q = some slab₁ at hq
      rw [update_self] at hq
      cases hq
      exact Or.inr hslab
    · exact Or.inl ⟨(update_of_ne hqp ..).symm.trans hq, h₁f q hqp, h₂f q hqp⟩
  · by_cases hqp : q = p
    · subst hqp
      obtain ⟨i, hi, heq⟩ := hfree hq
      exact ⟨slab.slotSize, i, sizesOf_eq.mpr ⟨slab, hp, rfl⟩, hi, heq⟩
    · exact (h₂f q hqp hq).elim
  · rw [hs]
    exact fun h => h₁live (Option.some.inj h)

/-- A slot is moved between a list and the held slots. -/
theorem move_list [DecidableEq ι] (h : Inv cfg w place) {l : ι} {list' : SlabSlotList}
    (hs : place s = some q₁) (q₂ : Place ι)
    (h₁ : q₁ = .listed l ∨ q₁ = .held) (h₂ : q₂ = .listed l ∨ q₂ = .held) {mem' : Memory}
    (hmem : ∀ x, x < s.addr ∨ s.addr + s.size ≤ x → mem' x = w.mem x)
    (hlist : ∃ xs, Keeps mem' list'.head (cfg.slotSize l) (update place s (some q₂))
      (.listed l) xs) (hlisted : s.info = .slabSlot (cfg.slotSize l))
    (hheld : HeldInv held (update place s (some q₂))) :
    Inv cfg { w with mem := mem', lists := update w.lists l list', held := held }
      (update place s (some q₂)) := by
  have hother : ∀ {q : Place ι}, q = .listed l ∨ q = .held →
      (∀ l', l' ≠ l → q ≠ .listed l') ∧ (∀ p, q ≠ .free p) ∧ q ≠ .live := by
    rintro q (rfl | rfl)
    · exact ⟨fun l' hne h => hne (Place.listed.inj h).symm, fun _ => nofun, nofun⟩
    · exact ⟨fun _ _ => nofun, fun _ => nofun, nofun⟩
  obtain ⟨h₁l, h₁f, h₁live⟩ := hother h₁
  obtain ⟨h₂l, h₂f, -⟩ := hother h₂
  refine h.move hs hmem rfl rfl (fun p _ hp => Or.inl ⟨hp, h₁f p, h₂f p⟩)
    (fun p hp => (h₂f p hp).elim) (fun l' => ?_) (fun l' hl => ?_) hheld (h.live.move ?_)
  · by_cases hll : l' = l
    · subst hll
      right
      show ∃ xs, Keeps mem' (update w.lists l' list' l').head _ _ _ xs
      rw [update_self]
      exact hlist
    · exact Or.inl ⟨update_of_ne hll .., h₁l l' hll, h₂l l' hll⟩
  · by_cases hll : l' = l
    · subst hll
      exact hlisted
    · exact (h₂l l' hll hl).elim
  · rw [hs]
    exact fun h => h₁live (Option.some.inj h)

end Inv

/-! ## The steps -/

/-- The write of a link stays in the slot. -/
theorem storeWord_outside {mem : Memory} {s : HeapSlot} (h : 8 ≤ s.size) (v x : ℕ)
    (hx : x < s.addr ∨ s.addr + s.size ≤ x) : mem.storeWord s.addr v x = mem x := by
  apply Memory.storeWord_of_not_mem
  omega

/-- A slot whose address is in a slab's page is a slot of the slab. -/
theorem Laid.owns {sizes : ℕ → Option SlotSize} {used : ℕ → Bool} {place : Placement ι}
    (h : Laid sizes used place) {s : HeapSlot} (hs : place s ≠ none) {p : ℕ} {S : SlotSize}
    (hS : sizes p = some S) (hle : p ≤ s.paddr) (hlt : s.paddr < p + PAGE_SIZE) :
    ∃ i, i < PAGE_SIZE / S.val ∧ s = Slab.slotAt S p i := by
  obtain ⟨a, info⟩ := s
  unfold HeapSlot.paddr at hle hlt
  cases info with
  | slabSlot size =>
    obtain ⟨q, T, i, hT, hi, heq⟩ := h.slab_slot a size hs
    obtain rfl : a = (Slab.slotAt T q i).addr := congrArg HeapSlot.addr heq
    have hslot := Slab.slotAt_le (p := q) hi
    have hpos := Slab.pos T
    rw [Slab.slotAt_addr] at hle hlt hslot
    unfold paddrToVaddr at hle hlt hslot
    obtain rfl : p = q :=
      page_eq (h.page p S hS) (h.page q T hT) (k := i * T.val) (by omega) (by omega) (by omega)
    obtain rfl : S = T := Option.some.inj (hS.symm.trans hT)
    exact ⟨i, hi, heq⟩
  | largeSlot size =>
    obtain ⟨first, n, hn, rfl, -, hpages⟩ := h.large_slot a size hs
    have hnone := (hpages 0 hn).2
    change p ≤ first * PAGE_SIZE + LINEAR_MAPPING_BASE_VADDR - LINEAR_MAPPING_BASE_VADDR at hle
    change first * PAGE_SIZE + LINEAR_MAPPING_BASE_VADDR - LINEAR_MAPPING_BASE_VADDR < _ at hlt
    have hfirst : p = first * PAGE_SIZE :=
      page_eq (h.page p S hS) (Dvd.intro_left first rfl) (k := 0) (by omega) (by omega) (by decide)
    rw [Nat.add_zero, ← hfirst, hS] at hnone
    cases hnone

namespace Inv

variable {cfg : Setting ι} {w w' : World ι} {place : Placement ι}
  {p : ℕ} {slot : HeapSlot} {layout : AllocLayout}

theorem slabAlloc (h : Inv cfg w place) (hexec : w.slabAlloc p = .ok w') :
    ∃ place', Inv cfg w' place' := by
  unfold World.slabAlloc at hexec
  cases hp : w.slabs p with
  | none =>
    rw [hp] at hexec
    cases hexec
    exact ⟨place, h⟩
  | some slab =>
    rw [hp] at hexec
    obtain ⟨r, hr, hw'⟩ := bind_eq_ok.mp hexec
    cases hw'
    obtain ⟨hstart, xs, hkeeps, hcount⟩ := h.slab p slab hp
    cases xs with
    | nil =>
      rw [SlabInv.alloc_nil hkeeps] at hr
      cases hr
      refine ⟨place, ?_⟩
      rw [update_eq_self_iff.mpr hp.symm]
      exact h
    | cons a xs =>
      rw [SlabInv.alloc_cons hkeeps hcount] at hr
      cases hr
      have hs := (hkeeps.mem_iff a).mp List.mem_cons_self
      have hslab : SlabInv w.mem p
          { slab with freeList := ⟨xs.head?⟩, nrAllocated := slab.nrAllocated + 1 }
          (update place ⟨a, .slabSlot slab.slotSize.val⟩ (some .held)) := by
        refine ⟨hstart, xs, hkeeps.pop nofun, ?_⟩
        rw [List.length_cons] at hcount
        show slab.nrAllocated + 1 + xs.length = slab.capacity
        omega
      refine ⟨_, h.move_slab hp hs .held (Or.inl rfl) (Or.inr rfl) (fun _ _ => rfl) hslab rfl
        nofun (h.held.cons ?_)⟩
      rw [hs]
      exact nofun

/-- **A held slot goes back to the slab whose page it is in**, and none of the assertions and the
subtraction fails. -/
theorem dealloc_owned (h : Inv cfg w place) {slab : Slab} (hp : w.slabs p = some slab)
    (hslot : slot ∈ w.held) (howns : slab.Owns slot) (debug allowPanic : Bool) :
    slab.dealloc debug allowPanic w.mem slot =
        .ok (some ({ slab with freeList := ⟨some slot.addr⟩, nrAllocated := slab.nrAllocated - 1 },
          w.mem.storeWord slot.addr (slab.freeList.head.getD 0))) ∧
      0 < slab.nrAllocated ∧
      ∃ i, i < PAGE_SIZE / slab.slotSize.val ∧ slot = Slab.slotAt slab.slotSize p i := by
  obtain ⟨hstart, xs, hkeeps, hcount⟩ := h.slab p slab hp
  have hs := (h.held.mem_iff slot).mp hslot
  have hS : sizesOf w.slabs p = some slab.slotSize := sizesOf_eq.mpr ⟨slab, hp, rfl⟩
  have howns' := howns
  unfold Slab.Owns at howns'
  rw [hstart] at howns'
  obtain ⟨i, hi, heq⟩ := h.laid.owns (by rw [hs]; exact Option.some_ne_none _) hS howns'.1 howns'.2
  have hinfo : slot.info = .slabSlot slab.slotSize.val := by
    rw [heq]
    rfl
  -- the slots that are free are slots of the page, and `slot` is another one
  have hlt : xs.length < slab.capacity := by
    have hsub : (slot.addr :: xs) ⊆ Slab.grid slab.slotSize p (PAGE_SIZE / slab.slotSize.val) := by
      intro x hx
      rw [Slab.mem_grid]
      rcases List.mem_cons.mp hx with rfl | hx
      · exact ⟨i, hi, by rw [heq]⟩
      · obtain ⟨S, j, hS', hj, hxj⟩ := h.free_slot _ _ ((hkeeps.mem_iff x).mp hx)
        obtain rfl : slab.slotSize = S := Option.some.inj (hS.symm.trans hS')
        exact ⟨j, hj, congrArg HeapSlot.addr hxj⟩
    have hnodup : (slot.addr :: xs).Nodup := by
      refine List.nodup_cons.mpr ⟨fun hmem => ?_, hkeeps.nodup⟩
      have hfree := (hkeeps.mem_iff _).mp hmem
      rw [← hinfo, hs] at hfree
      cases hfree
    have hle := (List.subperm_of_subset hnodup hsub).length_le
    rw [Slab.length_grid, List.length_cons] at hle
    exact hle
  have hnr : 0 < slab.nrAllocated := by omega
  refine ⟨?_, hnr, i, hi, heq⟩
  unfold Slab.dealloc
  rw [if_pos howns, debugAssert_pos debug (show slot.size = slab.slotSize.val by
      rw [HeapSlot.size, hinfo]; rfl), ok_bind, Slab.push_slabSlot allowPanic _ _ _ hinfo, ok_bind,
    sub_eq hnr, ok_bind]

/-- The list of the slab afterwards. -/
theorem keeps_dealloc (h : Inv cfg w place) {slab : Slab} (hp : w.slabs p = some slab)
    (hslot : slot ∈ w.held) (howns : slab.Owns slot) :
    ∃ xs, Keeps (w.mem.storeWord slot.addr (slab.freeList.head.getD 0)) (some slot.addr)
        slab.slotSize.val (update place slot (some (.free p))) (.free p) (slot.addr :: xs) ∧
      slab.nrAllocated - 1 + (slot.addr :: xs).length = slab.capacity := by
  obtain ⟨-, hnr, i, hi, heq⟩ := h.dealloc_owned hp hslot howns false false
  obtain ⟨hstart, xs, hkeeps, hcount⟩ := h.slab p slab hp
  have hslot' : slot = ⟨slot.addr, .slabSlot slab.slotSize.val⟩ := by
    rw [heq]
    rfl
  have hs : place ⟨slot.addr, .slabSlot slab.slotSize.val⟩ = some .held := by
    rw [← hslot']
    exact (h.held.mem_iff slot).mp hslot
  have hpush := hkeeps.push h.laid (by rw [hs]; exact nofun) (by rw [hs]; exact nofun)
  rw [← hslot'] at hpush
  refine ⟨xs, hpush, ?_⟩
  rw [List.length_cons]
  omega

theorem slabDealloc (h : Inv cfg w place) (hslot : slot ∈ w.held)
    (hexec : w.slabDealloc cfg p slot = .ok w') : ∃ place', Inv cfg w' place' := by
  unfold World.slabDealloc at hexec
  cases hp : w.slabs p with
  | none =>
    rw [hp] at hexec
    cases hexec
    exact ⟨place, h⟩
  | some slab =>
    rw [hp] at hexec
    obtain ⟨r, hr, hw'⟩ := bind_eq_ok.mp hexec
    by_cases howns : slab.Owns slot
    · obtain ⟨hdealloc, hnr, i, hi, heq⟩ := h.dealloc_owned hp hslot howns cfg.debug cfg.allowPanic
      rw [hdealloc] at hr
      cases hr
      cases hw'
      have hs := (h.held.mem_iff slot).mp hslot
      have hslab : SlabInv (w.mem.storeWord slot.addr (slab.freeList.head.getD 0)) p
          { slab with freeList := ⟨some slot.addr⟩, nrAllocated := slab.nrAllocated - 1 }
          (update place slot (some (.free p))) := by
        obtain ⟨xs, hkeeps, hcount⟩ := h.keeps_dealloc hp hslot howns
        exact ⟨(h.slab p slab hp).start_eq, slot.addr :: xs, hkeeps, hcount⟩
      refine ⟨_, h.move_slab hp hs (.free p) (Or.inr rfl) (Or.inl rfl)
        (storeWord_outside ?_ _) hslab rfl (fun _ => ⟨i, hi, heq⟩) (h.held.erase nofun)⟩
      rw [heq]
      exact slab.slotSize.word_le
    · unfold Slab.dealloc at hr
      rw [if_neg howns] at hr
      cases hr
      cases hw'
      exact ⟨_, h.forget hslot⟩

theorem push [DecidableEq ι] (h : Inv cfg w place) {l : ι} (hslot : slot ∈ w.held)
    (hsized : ∀ size, slot.info = .slabSlot size → size = cfg.slotSize l)
    (hexec : w.push cfg l slot = .ok w') : ∃ place', Inv cfg w' place' := by
  have hs := (h.held.mem_iff slot).mp hslot
  obtain ⟨r, hr, hw'⟩ := bind_eq_ok.mp hexec
  cases hw'
  obtain ⟨a, info⟩ := slot
  cases info with
  | largeSlot size =>
    -- without `allow_panic` the slot is dropped
    have hr' : r = (w.lists l, w.mem) := by
      unfold SlabSlotList.push at hr
      cases hallow : cfg.allowPanic with
      | true =>
        rw [hallow] at hr
        cases hr
      | false =>
        rw [hallow] at hr
        cases hr
        rfl
    rw [hr', update_eq_self]
    exact ⟨_, h.forget hslot⟩
  | slabSlot size =>
    obtain rfl := hsized size rfl
    rw [Slab.push_slabSlot cfg.allowPanic _ _ ⟨a, .slabSlot (cfg.slotSize l)⟩ rfl] at hr
    cases hr
    obtain ⟨xs, hkeeps⟩ := h.list l
    have hplaced : place ⟨a, .slabSlot (cfg.slotSize l)⟩ ≠ none := by
      rw [hs]
      exact nofun
    have hpush := hkeeps.push h.laid hplaced (by rw [hs]; exact nofun)
    exact ⟨_, h.move_list hs (.listed l) (Or.inr rfl) (Or.inl rfl)
      (storeWord_outside (h.laid.word_le hplaced) _) ⟨_, hpush⟩ rfl (h.held.erase nofun)⟩

theorem pop [DecidableEq ι] (h : Inv cfg w place) (l : ι) :
    ∃ place', Inv cfg (w.pop cfg l) place' := by
  unfold World.pop
  obtain ⟨xs, hkeeps⟩ := h.list l
  cases xs with
  | nil =>
    rw [show (w.lists l).pop (cfg.slotSize l) w.mem = _ from hkeeps.lists.pop_nil]
    refine ⟨place, ?_⟩
    have hlists : update w.lists l ⟨(w.lists l).head⟩ = w.lists := update_eq_self ..
    show Inv cfg { w with lists := update w.lists l ⟨(w.lists l).head⟩ } place
    rw [hlists]
    exact h
  | cons a xs =>
    rw [show (w.lists l).pop (cfg.slotSize l) w.mem = _ from (hkeeps.lists.pop _).1]
    have hs := (hkeeps.mem_iff a).mp List.mem_cons_self
    refine ⟨_, h.move_list hs .held (Or.inl rfl) (Or.inr rfl) (fun _ _ => rfl)
      ⟨xs, hkeeps.pop nofun⟩ rfl (h.held.cons ?_)⟩
    rw [hs]
    exact nofun

/-- The slots of a list that is dropped are lost. -/
theorem dropList [DecidableEq ι] (h : Inv cfg w place) (l : ι) :
    Inv cfg { w with lists := update w.lists l .new } (place.moveAll (.listed l) (some .lost)) := by
  have hkeep : ∀ s q, q ≠ Place.listed l → some Place.lost ≠ some q →
      (place.moveAll (.listed l) (some .lost) s = some q ↔ place s = some q) :=
    fun s q => Placement.moveAll_eq_some_iff s
  have hgone : ∀ s, place.moveAll (.listed l) (some .lost) s ≠ some (.listed l) :=
    fun s => Placement.moveAll_ne s nofun
  refine ⟨h.laid.congr fun s => ?_, fun p slab hp => ?_,
    fun s p hs => h.free_slot s p ((hkeep s (.free p) nofun nofun).mp hs), fun l' => ?_,
    fun s l' hs => ?_,
    ⟨h.held.nodup, fun s => (h.held.mem_iff s).trans (hkeep s .held nofun nofun).symm⟩,
    h.live.congr fun s hs => (hkeep s .live nofun nofun).mpr hs⟩
  · unfold Placement.moveAll
    by_cases hs : place s = some (.listed l)
    · rw [if_pos hs, hs]
      exact iff_of_true nofun nofun
    · rw [if_neg hs]
  · obtain ⟨hstart, xs, hkeeps, hcount⟩ := h.slab p slab hp
    exact ⟨hstart, xs, hkeeps.congr (fun x => hkeep _ (.free p) nofun nofun)
      fun _ _ _ _ _ => rfl, hcount⟩
  · show ∃ xs, Keeps w.mem (update w.lists l .new l').head _ _ _ xs
    by_cases hl : l' = l
    · subst hl
      rw [update_self]
      exact ⟨[], Lists.nil _, List.nodup_nil, fun x => iff_of_false List.not_mem_nil (hgone _)⟩
    · rw [update_of_ne hl]
      obtain ⟨xs, hkeeps⟩ := h.list l'
      exact ⟨xs, hkeeps.congr (fun x => hkeep _ (.listed l') (fun h => hl (Place.listed.inj h))
        nofun) fun _ _ _ _ _ => rfl⟩
  · by_cases hl : l' = l
    · subst hl
      exact (hgone s hs).elim
    · exact h.listed_slot s l' ((hkeep s (.listed l')
        (fun h => hl (Place.listed.inj h)) nofun).mp hs)

theorem alloc (h : Inv cfg w place) (hslot : slot ∈ w.held)
    (hkind : ∀ info, cfg.slotMap layout = some info → info.size = slot.size → info = slot.info)
    (hexec : w.alloc cfg layout slot = .ok w') : ∃ place', Inv cfg w' place' := by
  have hs := (h.held.mem_iff slot).mp hslot
  obtain ⟨r, hr, hw'⟩ := bind_eq_ok.mp hexec
  cases r with
  | none =>
    cases hw'
    exact ⟨place, h⟩
  | some ptr =>
    cases hw'
    obtain ⟨rfl, hsize, halign, info, hmap, hinfo⟩ := AllocDispatch.alloc_eq_ok_some hr
    obtain rfl := hkind info hmap hinfo
    exact ⟨_, h.move_token hs .live (fun _ => nofun) (fun _ => nofun) (fun _ => nofun)
      (fun _ => nofun) (h.held.erase nofun) (h.live.cons h.laid hs hmap hsize halign)⟩

theorem dealloc (h : Inv cfg w place) {ptr : ℕ}
    (hlive : (ptr, layout) ∈ w.live) (hexec : w.dealloc cfg ptr layout = .ok w') :
    ∃ place', Inv cfg w' place' := by
  obtain ⟨info, hmap, hs, -⟩ := h.live.slot _ hlive
  obtain ⟨slot, hslot, hw'⟩ := bind_eq_ok.mp hexec
  cases hw'
  unfold AllocDispatch.dealloc at hslot
  rw [hmap] at hslot
  cases hslot
  refine ⟨_, h.move_token hs .held (fun _ => nofun) (fun _ => nofun) (fun _ => nofun)
    (fun _ => nofun) (h.held.cons ?_) (h.live.erase hlive)⟩
  rw [hs]
  exact nofun

/-- **Writes to an allocation** are not seen by the heap. -/
theorem write (h : Inv cfg w place) {ptr : ℕ} {offset : ℕ}
    {bytes : List UInt8} (hlive : (ptr, layout) ∈ w.live)
    (hle : offset + bytes.length ≤ layout.size) :
    Inv cfg { w with mem := w.mem.store (ptr + offset) bytes } place := by
  obtain ⟨info, -, hs, hsize, -⟩ := h.live.slot _ hlive
  have hplaced : place ⟨ptr, info⟩ ≠ none := by
    rw [hs]
    exact nofun
  have hmem : ∀ x, x < ptr ∨ ptr + info.size ≤ x →
      w.mem.store (ptr + offset) bytes x = w.mem x := by
    intro x hx
    apply Memory.store_of_not_mem
    have : layout.size ≤ info.size := hsize
    omega
  refine ⟨h.laid, fun p slab hp => ?_, h.free_slot, fun l => ?_, h.listed_slot, h.held, h.live⟩
  · obtain ⟨hstart, xs, hkeeps, hcount⟩ := h.slab p slab hp
    exact ⟨hstart, xs, hkeeps.frame h.laid hplaced (by rw [hs]; exact nofun) hmem, hcount⟩
  · obtain ⟨xs, hkeeps⟩ := h.list l
    exact ⟨xs, hkeeps.frame h.laid hplaced (by rw [hs]; exact nofun) hmem⟩

end Inv

/-! ## Making and removing slots -/

namespace Inv

variable {cfg : Setting ι} {w w' : World ι} {place place' : Placement ι}

/-- **The slots of some pages are made or removed.**  The lists of users and the allocations stay
as they are. -/
theorem remake (h : Inv cfg w place) (hlaid : Laid (sizesOf w'.slabs) w'.used place')
    (hmem : ∀ s, place s ≠ none → ∀ y, s.addr ≤ y → y < s.addr + s.size → w'.mem y = w.mem y)
    (hslab : ∀ p slab, w'.slabs p = some slab →
      (w.slabs p = some slab ∧ ∀ s, place' s = some (.free p) ↔ place s = some (.free p)) ∨
        SlabInv w'.mem p slab place')
    (hfree : ∀ s p, place' s = some (.free p) → ∃ S i, sizesOf w'.slabs p = some S ∧
      i < PAGE_SIZE / S.val ∧ s = Slab.slotAt S p i)
    (hlists : w'.lists = w.lists)
    (hlisted : ∀ s l, place' s = some (.listed l) ↔ place s = some (.listed l))
    (hheld : HeldInv w'.held place') (hlive : w'.live = w.live)
    (hlive' : ∀ s, place s = some .live → place' s = some .live) : Inv cfg w' place' := by
  have hword : ∀ {size x q}, place ⟨x, .slabSlot size⟩ = some q →
      ∀ y, x ≤ y → y < x + 8 → w'.mem y = w.mem y := by
    intro size x q hx y hy hy'
    have hplaced : place ⟨x, .slabSlot size⟩ ≠ none := by
      rw [hx]
      exact nofun
    exact hmem _ hplaced y hy (Nat.lt_of_lt_of_le hy'
      (Nat.add_le_add_left (h.laid.word_le hplaced) _))
  refine ⟨hlaid, fun p slab hp => ?_, hfree, fun l => ?_,
    fun s l hs => h.listed_slot s l ((hlisted s l).mp hs), hheld, ?_⟩
  · rcases hslab p slab hp with ⟨hold, hplace⟩ | hnew
    · obtain ⟨hstart, xs, hkeeps, hcount⟩ := h.slab p slab hold
      exact ⟨hstart, xs, hkeeps.congr (fun x => hplace _) (fun x => hword), hcount⟩
    · exact hnew
  · obtain ⟨xs, hkeeps⟩ := h.list l
    rw [hlists]
    exact ⟨xs, hkeeps.congr (fun x => hlisted _ l) fun x => hword⟩
  · rw [hlive]
    exact h.live.congr hlive'

/-- A slot comes into the hands of a user, or a user gives it back with its pages. -/
theorem remakeHeld (h : Inv cfg w place) {slot : HeapSlot} {o : Option (Place ι)} {used : ℕ → Bool}
    {held : List HeapSlot} (hslot : ∀ q, q ≠ .held → place slot ≠ some q)
    (ho : ∀ q, q ≠ .held → o ≠ some q)
    (hlaid : Laid (sizesOf w.slabs) used (update place slot o))
    (hheld : HeldInv held (update place slot o)) :
    Inv cfg { w with used := used, held := held } (update place slot o) := by
  have hkeep : ∀ (s : HeapSlot) (q : Place ι), q ≠ .held →
      (update place slot o s = some q ↔ place s = some q) := by
    intro s q hq
    by_cases heq : s = slot
    · rw [heq, update_self]
      exact iff_of_false (ho q hq) (hslot q hq)
    · rw [update_of_ne heq]
  exact h.remake hlaid (fun _ _ _ _ _ => rfl)
    (fun p slab hp => Or.inl ⟨hp, fun s => hkeep s (.free p) nofun⟩)
    (fun s p hs => h.free_slot s p ((hkeep s (.free p) nofun).mp hs)) rfl
    (fun s l => hkeep s (.listed l) nofun) hheld rfl fun s hs => (hkeep s .live nofun).mpr hs

/-- A slot that lies in unused pages was not made. -/
theorem place_eq_none (h : Inv cfg w place) {slot : HeapSlot} {start n : ℕ} (hn : 0 < n)
    (hunused : w.Unused start n) (hle : paddrToVaddr start ≤ slot.addr)
    (hsize : 0 < slot.size) (hlt : slot.addr < paddrToVaddr start + n * PAGE_SIZE) :
    place slot = none := by
  by_contra hplaced
  have hapart := h.laid.apart_unused hplaced hn hunused.1 hunused.2.2
  unfold Memory.Apart at hapart
  omega

theorem allocLarge (h : Inv cfg w place) {size start : ℕ}
    (hunused : w.Unused start (size / PAGE_SIZE)) (hsized : size % PAGE_SIZE = 0)
    (hexec : w.allocLarge cfg size start = .ok w') : ∃ place', Inv cfg w' place' := by
  obtain ⟨r, hr, hw'⟩ := bind_eq_ok.mp hexec
  unfold HeapSlot.allocLarge at hr
  rw [if_neg fun hbad => hbad.2 hsized] at hr
  by_cases hn : size / PAGE_SIZE = 0
  · rw [if_pos hn] at hr
    cases hr
    cases hw'
    exact ⟨place, h⟩
  rw [if_neg hn] at hr
  cases hr
  cases hw'
  have hpos : 0 < size / PAGE_SIZE := Nat.pos_of_ne_zero hn
  have hmul : size / PAGE_SIZE * PAGE_SIZE = size := Nat.div_mul_cancel
    (Nat.dvd_of_mod_eq_zero hsized)
  have hsize : 0 < size := by
    rw [← hmul]
    exact Nat.mul_pos hpos (by decide)
  have hnone : place ⟨paddrToVaddr start, .largeSlot size⟩ = none :=
    h.place_eq_none hpos hunused le_rfl hsize (by rw [hmul]; exact Nat.lt_add_of_pos_right hsize)
  have hlaid := h.laid.addLarge hpos hunused.1 hunused.2.2 (q := .held)
  rw [hmul] at hlaid
  refine ⟨_, h.remakeHeld (fun q _ => ?_) (fun q hq heq => hq (Option.some.inj heq).symm) hlaid
    (h.held.cons ?_)⟩
  · rw [hnone]
    exact nofun
  · rw [hnone]
    exact nofun

theorem deallocLarge (h : Inv cfg w place) {slot : HeapSlot} (hslot : slot ∈ w.held)
    (hexec : w.deallocLarge cfg slot = .ok w') : ∃ place', Inv cfg w' place' := by
  have hs := (h.held.mem_iff slot).mp hslot
  obtain ⟨r, hr, hw'⟩ := bind_eq_ok.mp hexec
  obtain ⟨a, info⟩ := slot
  unfold HeapSlot.deallocLarge at hr
  cases info with
  | slabSlot size =>
    -- without `allow_panic` the slot is dropped
    cases hallow : cfg.allowPanic with
    | true =>
      rw [hallow] at hr
      cases hr
    | false =>
      rw [hallow] at hr
      cases hr
      cases hw'
      exact ⟨_, h.forget hslot⟩
  | largeSlot size =>
    obtain ⟨-, -, hr⟩ := bind_eq_ok.mp hr
    obtain ⟨-, -, hr⟩ := bind_eq_ok.mp hr
    cases hr
    cases hw'
    have hplaced : place ⟨a, .largeSlot size⟩ ≠ none := by
      rw [hs]
      exact nofun
    refine ⟨_, h.remakeHeld (o := none) (fun q hq heq => ?_) (fun _ _ => nofun)
      (h.laid.removeLarge hplaced) (h.held.erase nofun)⟩
    rw [hs] at heq
    exact hq (Option.some.inj heq).symm

end Inv

namespace Inv

variable {cfg : Setting ι} {w w' : World ι} {place : Placement ι}

theorem newSlab (h : Inv cfg w place) {S : SlotSize} {p : ℕ} (hunused : w.Unused p 1)
    (hdvd : S.val ∣ PAGE_SIZE) (hexec : w.newSlab cfg S p = .ok w') :
    ∃ place', Inv cfg w' place' := by
  obtain ⟨r, hr, hw'⟩ := bind_eq_ok.mp hexec
  cases hw'
  have hbound := hunused.2.1
  rw [Nat.one_mul] at hbound
  obtain ⟨slab, mem', hnew, rfl, hstart, hnr, hlists, hmem⟩ :=
    Slab.new_spec cfg.allowPanic S p w.mem hbound
  rw [hnew] at hr
  cases hr
  rw [Slab.steps_eq_of_dvd hdvd] at hlists hmem
  -- slots that were made before are not in the page, and those in it are new
  have hnone : ∀ s ∈ Slab.slots slab.slotSize p, place s = none := by
    intro s hs
    obtain ⟨i, hi, rfl⟩ := Slab.mem_slots.mp hs
    have hle := Slab.slotAt_le (p := p) hi
    have hpos := Slab.pos slab.slotSize
    refine h.place_eq_none Nat.one_pos hunused (Nat.le_add_right _ _) hpos ?_
    rw [Nat.one_mul]
    omega
  have hkeep : ∀ (s : HeapSlot) (q : Place ι), q ≠ .free p →
      (place.addSlab slab.slotSize p s = some q ↔ place s = some q) := by
    intro s q hq
    by_cases hs : s ∈ Slab.slots slab.slotSize p
    · rw [Placement.addSlab_of_mem hs, hnone s hs]
      exact iff_of_false (fun h => hq (Option.some.inj h).symm) nofun
    · rw [Placement.addSlab_of_not_mem hs]
  have hfree : ∀ s, place.addSlab slab.slotSize p s = some (.free p) ↔
      s ∈ Slab.slots slab.slotSize p := by
    intro s
    by_cases hs : s ∈ Slab.slots slab.slotSize p
    · exact iff_of_true (Placement.addSlab_of_mem hs) hs
    · rw [Placement.addSlab_of_not_mem hs]
      refine iff_of_false (fun hold => ?_) hs
      obtain ⟨T, i, hT, -⟩ := h.free_slot s p hold
      have hused := h.laid.slab_used p T hT
      rw [← Nat.add_zero (p / PAGE_SIZE), hunused.2.2 0 Nat.one_pos] at hused
      cases hused
  have hslab : SlabInv mem' p slab (place.addSlab slab.slotSize p) := by
    refine ⟨hstart, _, ⟨hlists, ?_, fun x => ?_⟩, ?_⟩
    · unfold Slab.grid
      refine List.nodup_reverse.mpr (List.Nodup.map (fun i j hij => ?_) List.nodup_range)
      exact Nat.eq_of_mul_eq_mul_right (Slab.pos _) (Nat.add_left_cancel hij)
    · rw [Slab.mem_grid, hfree, Slab.mem_slots]
      constructor
      · rintro ⟨i, hi, rfl⟩
        exact ⟨i, hi, rfl⟩
      · rintro ⟨i, hi, heq⟩
        exact ⟨i, hi, congrArg HeapSlot.addr heq⟩
    · rw [Slab.length_grid, hnr, Nat.zero_add]
      rfl
  have hlaid := h.laid.addSlab hunused.1 (hunused.2.2 0 Nat.one_pos) hbound hdvd
  refine ⟨place.addSlab slab.slotSize p, h.remake ?_
    (fun s hs y hy hy' => hmem y fun i hi => ?_) (fun q slab' hq => ?_) (fun s q hs => ?_) rfl
    (fun s l => hkeep s (.listed l) nofun) ⟨h.held.nodup, fun s => ?_⟩ rfl
    fun s hs => (hkeep s .live nofun).mpr hs⟩
  · show Laid (sizesOf (update w.slabs p (some slab))) _ _
    rw [sizesOf_update_eq]
    exact hlaid
  · have hapart := h.laid.apart_unused hs Nat.one_pos hunused.1 hunused.2.2
    have hle := Slab.slotAt_le (p := p) hi
    have hword := slab.slotSize.word_le
    rw [Nat.one_mul] at hapart
    rw [Slab.slotAt_addr] at hle ⊢
    unfold Memory.Apart at hapart
    omega
  · rcases update_eq_cases hq with ⟨rfl, heq⟩ | ⟨hqp, hq⟩
    · cases heq
      exact Or.inr hslab
    · exact Or.inl ⟨hq, fun s => hkeep s (.free q) fun h => hqp (Place.free.inj h)⟩
  · show ∃ S i, sizesOf (update w.slabs p (some slab)) q = some S ∧ _
    rw [sizesOf_update_eq]
    by_cases hqp : q = p
    · subst hqp
      obtain ⟨i, hi, heq⟩ := Slab.mem_slots.mp ((hfree s).mp hs)
      exact ⟨slab.slotSize, i, update_self .., hi, heq⟩
    · rw [update_of_ne hqp]
      exact h.free_slot s q ((hkeep s (.free q) fun h => hqp (Place.free.inj h)).mp hs)
  · exact (h.held.mem_iff s).trans (hkeep s .held nofun).symm

/-- A slab of which no slot is allocated has all of its slots in its list. -/
theorem all_free (h : Inv cfg w place) {p : ℕ} {slab : Slab} (hp : w.slabs p = some slab)
    (hnr : slab.nrAllocated = 0) (s : HeapSlot) :
    place s = some (.free p) ↔ s ∈ Slab.slots slab.slotSize p := by
  have hS : sizesOf w.slabs p = some slab.slotSize := sizesOf_eq.mpr ⟨slab, hp, rfl⟩
  obtain ⟨-, xs, hkeeps, hcount⟩ := h.slab p slab hp
  have hsub : xs ⊆ Slab.grid slab.slotSize p (PAGE_SIZE / slab.slotSize.val) := by
    intro x hx
    obtain ⟨S, j, hS', hj, hxj⟩ := h.free_slot _ _ ((hkeeps.mem_iff x).mp hx)
    obtain rfl : slab.slotSize = S := Option.some.inj (hS.symm.trans hS')
    exact Slab.mem_grid.mpr ⟨j, hj, congrArg HeapSlot.addr hxj⟩
  have hperm : xs.Perm (Slab.grid slab.slotSize p (PAGE_SIZE / slab.slotSize.val)) := by
    refine (List.subperm_of_subset hkeeps.nodup hsub).perm_of_length_le ?_
    rw [Slab.length_grid]
    rw [hnr, Nat.zero_add] at hcount
    exact hcount.ge
  constructor
  · intro hs
    obtain ⟨S, j, hS', hj, heq⟩ := h.free_slot _ _ hs
    obtain rfl : slab.slotSize = S := Option.some.inj (hS.symm.trans hS')
    exact Slab.mem_slots.mpr ⟨j, hj, heq⟩
  · intro hs
    obtain ⟨i, hi, rfl⟩ := Slab.mem_slots.mp hs
    exact (hkeeps.mem_iff _).mp (hperm.mem_iff.mpr (Slab.mem_grid.mpr ⟨i, hi, rfl⟩))

theorem dropSlab [DecidableEq ι] (h : Inv cfg w place) {p : ℕ} (hexec : w.dropSlab p = .ok w') :
    ∃ place', Inv cfg w' place' := by
  unfold World.dropSlab at hexec
  cases hp : w.slabs p with
  | none =>
    rw [hp] at hexec
    cases hexec
    exact ⟨place, h⟩
  | some slab =>
    rw [hp] at hexec
    obtain ⟨_, hdrop, hw'⟩ := bind_eq_ok.mp hexec
    cases hw'
    have hall := h.all_free hp (check_eq_ok.mp hdrop)
    have hS : sizesOf w.slabs p = some slab.slotSize := sizesOf_eq.mpr ⟨slab, hp, rfl⟩
    have hkeep : ∀ s q, q ≠ Place.free p → none ≠ some q →
        (place.moveAll (.free p) none s = some q ↔ place s = some q) :=
      fun s q => Placement.moveAll_eq_some_iff s
    have hgone : ∀ s, place.moveAll (.free p) none s ≠ some (.free p) :=
      fun s => Placement.moveAll_ne s nofun
    refine ⟨place.moveAll (.free p) none, h.remake ?_ (fun _ _ _ _ _ => rfl) (fun q slab' hq => ?_)
      (fun s q hs => ?_) rfl (fun s l => hkeep s (.listed l) nofun nofun)
      ⟨h.held.nodup, fun s => (h.held.mem_iff s).trans (hkeep s .held nofun nofun).symm⟩ rfl
      fun s hs => (hkeep s .live nofun nofun).mpr hs⟩
    · show Laid (sizesOf (update w.slabs p none)) _ _
      rw [sizesOf_update_eq]
      exact h.laid.removeSlab hS hall
    · rcases update_eq_cases hq with ⟨rfl, heq⟩ | ⟨hqp, hq⟩
      · cases heq
      · exact Or.inl ⟨hq, fun s => hkeep s (.free q) (fun h => hqp (Place.free.inj h)) nofun⟩
    · by_cases hqp : q = p
      · subst hqp
        exact (hgone s hs).elim
      · show ∃ S i, sizesOf (update w.slabs p none) q = some S ∧ _
        rw [sizesOf_update_eq, update_of_ne hqp]
        exact h.free_slot s q ((hkeep s (.free q) (fun h => hqp (Place.free.inj h)) nofun).mp hs)

theorem init (cfg : Setting ι) : Inv cfg World.init (fun _ => none) where
  laid := by
    have hnone : ∀ p S, sizesOf (World.init : World ι).slabs p ≠ some S := fun _ _ => nofun
    exact ⟨fun p S h => (hnone p S h).elim, fun p S h => (hnone p S h).elim,
      fun p S h => (hnone p S h).elim, fun p S h => (hnone p S h).elim,
      fun p S h => (hnone p S h).elim, fun _ _ h => (h rfl).elim, fun _ _ h => (h rfl).elim,
      fun _ _ _ _ h => (h rfl).elim⟩
  slab := fun _ _ h => nomatch h
  free_slot := fun _ _ h => nomatch h
  list := fun _ => ⟨[], Lists.nil _, List.nodup_nil, fun _ => iff_of_false List.not_mem_nil nofun⟩
  listed_slot := fun _ _ h => nomatch h
  held := ⟨List.nodup_nil, fun _ => iff_of_false List.not_mem_nil nofun⟩
  live := ⟨List.nodup_nil, fun _ h => nomatch h⟩

variable [DecidableEq ι]

/-- **One step keeps the invariant.** -/
theorem step (h : Inv cfg w place) {op : Op ι} (hsized : World.Sized cfg op)
    (hstep : (World.system cfg).step w op w') : ∃ place', Inv cfg w' place' := by
  obtain ⟨hpossible, hexec⟩ := hstep
  cases op with
  | newSlab S p => exact h.newSlab hpossible hsized hexec
  | slabAlloc p => exact h.slabAlloc hexec
  | slabDealloc p slot => exact h.slabDealloc hpossible hexec
  | dropSlab p => exact h.dropSlab hexec
  | push l slot => exact h.push hpossible hsized hexec
  | pop l =>
    cases hexec
    exact h.pop l
  | dropList l =>
    cases hexec
    exact ⟨_, h.dropList l⟩
  | allocLarge size start => exact h.allocLarge hpossible hsized hexec
  | deallocLarge slot => exact h.deallocLarge hpossible hexec
  | forget slot =>
    cases hexec
    exact ⟨_, h.forget hpossible⟩
  | alloc layout slot => exact h.alloc hpossible hsized hexec
  | dealloc ptr layout => exact h.dealloc hpossible hexec
  | write ptr layout offset bytes =>
    cases hexec
    exact ⟨place, h.write hpossible.1 hpossible.2⟩

/-- The invariant holds in every run. -/
theorem of_reachable (h : (World.sizedSystem cfg).Reachable w) : ∃ place, Inv cfg w place := by
  refine System.invariant (I := fun w => ∃ place, Inv cfg w place) ?_ ?_ h
  · rintro w rfl
    exact ⟨_, Inv.init cfg⟩
  · rintro w op w' - ⟨place, hinv⟩ ⟨hsized, hstep⟩
    exact hinv.step hsized hstep

end Inv

end Vostd.Heap
