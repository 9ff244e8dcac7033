/-
# Where the slots of a heap are

Every slot that was ever made is at one place: free in its slab, in a list, held, allocated, or
lost.  The slots of a slab fill its page and large slots fill pages of their own, so slots never
overlap, and what is written to a slot is not seen by the lists that the slot is not in.
-/
import Vostd.Heap.World

namespace Vostd.Heap

open Exec Function

variable {n k first : ℕ} {used : ℕ → Bool} {b : Bool}

/-- Where a slot is. -/
inductive Place (ι : Type)
  | free (p : ℕ)
  | listed (l : ι)
  | held
  | live
  | lost
  deriving DecidableEq

/-- The place of every slot that was made. -/
abbrev Placement (ι : Type) : Type := HeapSlot → Option (Place ι)

variable {ι : Type}

namespace Placement

variable [DecidableEq ι]

/-- All the slots at one place are moved, or cease to be. -/
def moveAll (place : Placement ι) (q : Place ι) (o : Option (Place ι)) : Placement ι :=
  fun s => if place s = some q then o else place s

variable {place : Placement ι} {q q' : Place ι} {o : Option (Place ι)}

theorem moveAll_eq_some_iff (s : HeapSlot) (hq : q' ≠ q) (ho : o ≠ some q') :
    place.moveAll q o s = some q' ↔ place s = some q' := by
  unfold moveAll
  by_cases hs : place s = some q
  · rw [if_pos hs, hs]
    exact iff_of_false ho fun h => hq (Option.some.inj h).symm
  · rw [if_neg hs]

theorem moveAll_ne (s : HeapSlot) (ho : o ≠ some q) : place.moveAll q o s ≠ some q := by
  unfold moveAll
  by_cases hs : place s = some q
  · rw [if_pos hs]
    exact ho
  · rw [if_neg hs]
    exact hs

end Placement

/-! ## Where slots lie -/

/-- The slots of the slabs, whose slot sizes are given by the address of their page, fill the
pages, and the large slots fill pages of their own. -/
structure Laid (sizes : ℕ → Option SlotSize) (used : ℕ → Bool) (place : Placement ι) : Prop where
  page : ∀ p S, sizes p = some S → PAGE_SIZE ∣ p
  slab_used : ∀ p S, sizes p = some S → used (p / PAGE_SIZE) = true
  bound : ∀ p S, sizes p = some S → paddrToVaddr p + PAGE_SIZE ≤ 2 ^ 64
  dvd : ∀ p S, sizes p = some S → S.val ∣ PAGE_SIZE
  placed : ∀ p S, sizes p = some S → ∀ i, i < PAGE_SIZE / S.val →
    place (Slab.slotAt S p i) ≠ none
  slab_slot : ∀ a size, place ⟨a, .slabSlot size⟩ ≠ none → ∃ p S i, sizes p = some S ∧
    i < PAGE_SIZE / S.val ∧ (⟨a, .slabSlot size⟩ : HeapSlot) = Slab.slotAt S p i
  large_slot : ∀ a size, place ⟨a, .largeSlot size⟩ ≠ none → ∃ first n, 0 < n ∧
    a = paddrToVaddr (first * PAGE_SIZE) ∧ size = n * PAGE_SIZE ∧
    ∀ k, k < n → used (first + k) = true ∧ sizes ((first + k) * PAGE_SIZE) = none
  large_apart : ∀ a size b size', place ⟨a, .largeSlot size⟩ ≠ none →
    place ⟨b, .largeSlot size'⟩ ≠ none → a ≠ b ∨ size ≠ size' → Memory.Apart a size b size'

namespace Slab

theorem slotAt_addr (S : SlotSize) (p i : ℕ) : (slotAt S p i).addr = paddrToVaddr p + i * S.val :=
  rfl

/-- A slot of a page lies in the page. -/
theorem slotAt_le {S : SlotSize} {p i : ℕ} (hi : i < PAGE_SIZE / S.val) :
    (slotAt S p i).addr + S.val ≤ paddrToVaddr p + PAGE_SIZE := by
  have h₁ : (i + 1) * S.val ≤ PAGE_SIZE / S.val * S.val := Nat.mul_le_mul_right _ hi
  have h₂ := Nat.div_mul_le_self PAGE_SIZE S.val
  rw [slotAt_addr]
  rw [Nat.succ_mul] at h₁
  omega

theorem slotAt_ne_large (S : SlotSize) (p i : ℕ) {a size : ℕ} :
    slotAt S p i ≠ ⟨a, .largeSlot size⟩ := fun h => nomatch congrArg HeapSlot.info h

/-- The slots of a slab. -/
def slots (S : SlotSize) (p : ℕ) : List HeapSlot :=
  (List.range (PAGE_SIZE / S.val)).map (slotAt S p)

theorem mem_slots {S : SlotSize} {p : ℕ} {s : HeapSlot} :
    s ∈ slots S p ↔ ∃ i, i < PAGE_SIZE / S.val ∧ s = slotAt S p i := by
  rw [slots, List.mem_map]
  constructor
  · rintro ⟨i, hi, rfl⟩
    exact ⟨i, List.mem_range.mp hi, rfl⟩
  · rintro ⟨i, hi, rfl⟩
    exact ⟨i, List.mem_range.mpr hi, rfl⟩

end Slab

/-- Runs of pages without a common page have no address in common. -/
theorem runs_apart {f g m : ℕ} (hn : 0 < n) (hm : 0 < m)
    (h : ∀ i j, i < n → j < m → f + i ≠ g + j) :
    Memory.Apart (paddrToVaddr (f * PAGE_SIZE)) (n * PAGE_SIZE) (paddrToVaddr (g * PAGE_SIZE))
      (m * PAGE_SIZE) := by
  have hle : f + n ≤ g ∨ g + m ≤ f := by
    by_contra hcon
    push Not at hcon
    rcases Nat.le_total f g with hfg | hfg
    · exact h (g - f) 0 (by omega) hm (by omega)
    · exact h 0 (f - g) hn (by omega) (by omega)
  unfold Memory.Apart paddrToVaddr
  rcases hle with hle | hle
  · left
    have := Nat.mul_le_mul_right PAGE_SIZE hle
    rw [Nat.add_mul] at this
    omega
  · right
    have := Nat.mul_le_mul_right PAGE_SIZE hle
    rw [Nat.add_mul] at this
    omega

/-- Runs of pages that have no address in common have no common page. -/
theorem ne_of_runs_apart {f g m i j : ℕ}
    (h : Memory.Apart (paddrToVaddr (f * PAGE_SIZE)) (n * PAGE_SIZE) (paddrToVaddr (g * PAGE_SIZE))
      (m * PAGE_SIZE)) (hi : i < n) (hj : j < m) : f + i ≠ g + j := by
  unfold Memory.Apart paddrToVaddr at h
  unfold PAGE_SIZE at h
  omega

/-- A page is known by an address in it. -/
theorem page_eq {p q : ℕ} (hp : PAGE_SIZE ∣ p) (hq : PAGE_SIZE ∣ q) (hle : p ≤ q + k)
    (hlt : q + k < p + PAGE_SIZE) (hk : k < PAGE_SIZE) : p = q := by
  unfold PAGE_SIZE at *
  omega

theorem div_mul_page {p : ℕ} (h : PAGE_SIZE ∣ p) : p / PAGE_SIZE * PAGE_SIZE = p :=
  Nat.div_mul_cancel h

namespace Laid

variable {sizes : ℕ → Option SlotSize} {used : ℕ → Bool} {place : Placement ι}

/-- Only which slots were made matters. -/
theorem congr {place' : Placement ι} (h : Laid sizes used place)
    (hplace : ∀ s, place' s ≠ none ↔ place s ≠ none) : Laid sizes used place' where
  page := h.page
  slab_used := h.slab_used
  bound := h.bound
  dvd := h.dvd
  placed := fun p S hS i hi => (hplace _).mpr (h.placed p S hS i hi)
  slab_slot := fun a size hs => h.slab_slot a size ((hplace _).mp hs)
  large_slot := fun a size hs => h.large_slot a size ((hplace _).mp hs)
  large_apart := fun a size b size' hs ht => h.large_apart a size b size' ((hplace _).mp hs)
    ((hplace _).mp ht)

/-- A slot that was made is apart from pages that are not in use. -/
theorem apart_unused (h : Laid sizes used place) {s : HeapSlot} (hs : place s ≠ none)
    {start n : ℕ} (hn : 0 < n) (hstart : PAGE_SIZE ∣ start)
    (hunused : ∀ k, k < n → used (start / PAGE_SIZE + k) = false) :
    Memory.Apart s.addr s.size (paddrToVaddr start) (n * PAGE_SIZE) := by
  rw [← div_mul_page hstart]
  obtain ⟨a, info⟩ := s
  cases info with
  | slabSlot size =>
    obtain ⟨p, S, i, hS, hi, heq⟩ := h.slab_slot a size hs
    rw [heq]
    have hpage := div_mul_page (h.page p S hS)
    have hrun := runs_apart (f := p / PAGE_SIZE) (g := start / PAGE_SIZE) Nat.one_pos hn ?_
    · rw [hpage] at hrun
      refine hrun.mono ?_ ?_ le_rfl le_rfl
      · rw [Slab.slotAt_addr]
        exact Nat.le_add_right _ _
      · rw [Nat.one_mul]
        exact Slab.slotAt_le hi
    · intro i' j hi' hj heq'
      have hused := h.slab_used p S hS
      rw [show p / PAGE_SIZE = start / PAGE_SIZE + j from by omega, hunused j hj] at hused
      cases hused
  | largeSlot size =>
    obtain ⟨first, m, hm, rfl, rfl, hpages⟩ := h.large_slot a size hs
    refine runs_apart hm hn fun i j hi hj heq => ?_
    have hused := (hpages i hi).1
    rw [heq, hunused j hj] at hused
    cases hused

/-- **Slots that were made do not overlap.** -/
theorem apart (h : Laid sizes used place) {s t : HeapSlot} (hs : place s ≠ none)
    (ht : place t ≠ none) (hne : s ≠ t) : s.Apart t := by
  -- a slot of a slab is apart from what lies in pages without slabs
  have hlarge : ∀ {a size b size'}, place ⟨a, .slabSlot size⟩ ≠ none →
      place ⟨b, .largeSlot size'⟩ ≠ none →
      HeapSlot.Apart ⟨a, .slabSlot size⟩ ⟨b, .largeSlot size'⟩ := by
    intro a size b size' hs ht
    obtain ⟨p, S, i, hS, hi, heq⟩ := h.slab_slot a size hs
    obtain ⟨first, m, hm, rfl, rfl, hpages⟩ := h.large_slot b size' ht
    rw [heq]
    have hpage := div_mul_page (h.page p S hS)
    have hrun := runs_apart (f := p / PAGE_SIZE) (g := first) Nat.one_pos hm ?_
    · rw [hpage] at hrun
      refine hrun.mono ?_ ?_ le_rfl le_rfl
      · rw [Slab.slotAt_addr]
        exact Nat.le_add_right _ _
      · rw [Nat.one_mul]
        exact Slab.slotAt_le hi
    · intro i' j hi' hj heq'
      have hnone := (hpages j hj).2
      rw [show first + j = p / PAGE_SIZE from by omega, hpage, hS] at hnone
      cases hnone
  obtain ⟨a, info⟩ := s
  obtain ⟨b, info'⟩ := t
  cases info with
  | slabSlot size =>
    cases info' with
    | slabSlot size' =>
      obtain ⟨p, S, i, hS, hi, heq⟩ := h.slab_slot a size hs
      obtain ⟨q, T, j, hT, hj, heq'⟩ := h.slab_slot b size' ht
      rw [heq, heq'] at hne ⊢
      by_cases hpq : p = q
      · subst hpq
        obtain rfl : S = T := Option.some.inj (hS.symm.trans hT)
        have hij : i ≠ j := fun hij => hne (by rw [hij])
        rcases Nat.lt_or_gt_of_ne hij with hlt | hlt
        · exact Slab.apart_slotAt hlt
        · exact (Slab.apart_slotAt hlt).symm
      · have hp := div_mul_page (h.page p S hS)
        have hq := div_mul_page (h.page q T hT)
        have hrun := runs_apart (f := p / PAGE_SIZE) (g := q / PAGE_SIZE) Nat.one_pos Nat.one_pos
          fun i j hi hj heq => hpq (by rw [← hp, ← hq, show p / PAGE_SIZE = q / PAGE_SIZE by omega])
        rw [hp, hq, Nat.one_mul] at hrun
        refine hrun.mono ?_ (Slab.slotAt_le hi) ?_ (Slab.slotAt_le hj)
        · rw [Slab.slotAt_addr]
          exact Nat.le_add_right _ _
        · rw [Slab.slotAt_addr]
          exact Nat.le_add_right _ _
    | largeSlot size' => exact hlarge hs ht
  | largeSlot size =>
    cases info' with
    | slabSlot size' => exact (hlarge ht hs).symm
    | largeSlot size' =>
      refine h.large_apart a size b size' hs ht ?_
      by_contra hcon
      push Not at hcon
      exact hne (by rw [hcon.1, hcon.2])

/-- A slot of a slab has room for a link. -/
theorem word_le (h : Laid sizes used place) {a size : ℕ} (hs : place ⟨a, .slabSlot size⟩ ≠ none) :
    8 ≤ size := by
  obtain ⟨p, S, i, -, -, heq⟩ := h.slab_slot a size hs
  cases heq
  exact S.word_le

theorem size_pos (h : Laid sizes used place) {s : HeapSlot} (hs : place s ≠ none) : 0 < s.size := by
  obtain ⟨a, info⟩ := s
  cases info with
  | slabSlot size => exact Nat.lt_of_lt_of_le (by decide) (h.word_le hs)
  | largeSlot size =>
    obtain ⟨first, n, hn, -, rfl, -⟩ := h.large_slot a size hs
    exact Nat.mul_pos hn (by decide)

/-- Different slots are at different addresses. -/
theorem addr_inj (h : Laid sizes used place) {s t : HeapSlot} (hs : place s ≠ none)
    (ht : place t ≠ none) (haddr : s.addr = t.addr) : s = t := by
  by_contra hne
  have hapart := h.apart hs ht hne
  have := h.size_pos hs
  have := h.size_pos ht
  unfold HeapSlot.Apart Memory.Apart at hapart
  omega

/-- The address of a slab's slot is a pointer that is not null. -/
theorem addr_bound (h : Laid sizes used place) {a size : ℕ}
    (hs : place ⟨a, .slabSlot size⟩ ≠ none) : a ≠ 0 ∧ a < 2 ^ 64 := by
  obtain ⟨p, S, i, hS, hi, heq⟩ := h.slab_slot a size hs
  obtain rfl : a = (Slab.slotAt S p i).addr := congrArg HeapSlot.addr heq
  have hle := Slab.slotAt_le (p := p) hi
  have hbound := h.bound p S hS
  have hpos := Slab.pos S
  have hne := Slab.paddrToVaddr_ne_zero p
  rw [Slab.slotAt_addr] at *
  omega

end Laid

/-! ## Making and removing slots -/

theorem setPages_of_not_mem
    (h : ¬(first ≤ k ∧ k < first + n)) : World.setPages used first n b k = used k := if_neg h

theorem setPages_of_mem
    (h : first ≤ k ∧ k < first + n) : World.setPages used first n b k = b := if_pos h

/-- A page that is in use is not among unused ones. -/
theorem ne_of_used {j : ℕ} (hk : used k = true)
    (hunused : ∀ i, i < n → used (first + i) = false) (hj : j < n) : k ≠ first + j := by
  rintro rfl
  rw [hunused j hj] at hk
  cases hk

theorem setPages_of_used (hk : used k = true) (hunused : ∀ i, i < n → used (first + i) = false) :
    World.setPages used first n b k = true := by
  rw [setPages_of_not_mem, hk]
  rintro ⟨hle, hlt⟩
  exact ne_of_used hk hunused (show k - first < n by omega) (by omega)

theorem page_pos : 0 < PAGE_SIZE := by decide

namespace Placement

/-- A slot that was made before, or the slot that is made. -/
theorem update_ne_none {place : Placement ι} {s t : HeapSlot} {o : Option (Place ι)}
    (h : update place s o t ≠ none) : t = s ∨ place t ≠ none := by
  by_cases hts : t = s
  · exact Or.inl hts
  · rw [update_of_ne hts] at h
    exact Or.inr h

/-- The slots of a new slab are free. -/
def addSlab (place : Placement ι) (S : SlotSize) (p : ℕ) : Placement ι :=
  fun s => if s ∈ Slab.slots S p then some (.free p) else place s

variable {place : Placement ι} {S : SlotSize} {p : ℕ} {s : HeapSlot}

theorem addSlab_of_mem (h : s ∈ Slab.slots S p) : place.addSlab S p s = some (.free p) := if_pos h

theorem addSlab_of_not_mem (h : s ∉ Slab.slots S p) : place.addSlab S p s = place s := if_neg h

end Placement

namespace Laid

variable {sizes : ℕ → Option SlotSize} {used : ℕ → Bool} {place : Placement ι}

/-- A large slot is made in unused pages. -/
theorem addLarge (h : Laid sizes used place) {start n : ℕ} (hn : 0 < n)
    (hstart : PAGE_SIZE ∣ start) (hunused : ∀ k, k < n → used (start / PAGE_SIZE + k) = false)
    {q : Place ι} :
    Laid sizes (World.setPages used (start / PAGE_SIZE) n true)
      (update place ⟨paddrToVaddr start, .largeSlot (n * PAGE_SIZE)⟩ (some q)) where
  page := h.page
  slab_used := fun p S hS => setPages_of_used (h.slab_used p S hS) hunused
  bound := h.bound
  dvd := h.dvd
  placed := by
    intro p S hS i hi
    rw [update_of_ne (Slab.slotAt_ne_large S p i)]
    exact h.placed p S hS i hi
  slab_slot := by
    intro a size hs
    rcases Placement.update_ne_none hs with heq | hplaced
    · cases congrArg HeapSlot.info heq
    · exact h.slab_slot a size hplaced
  large_slot := by
    intro a size hs
    rcases Placement.update_ne_none hs with heq | hplaced
    · cases heq
      refine ⟨start / PAGE_SIZE, n, hn, by rw [div_mul_page hstart], rfl, fun k hk => ?_⟩
      refine ⟨setPages_of_mem ⟨Nat.le_add_right _ _, by omega⟩, ?_⟩
      -- an unused page is not a slab's
      by_contra hsome
      obtain ⟨S, hS⟩ := Option.ne_none_iff_exists'.mp hsome
      have hused := h.slab_used _ S hS
      rw [Nat.mul_div_cancel _ page_pos] at hused
      exact ne_of_used hused hunused hk rfl
    · obtain ⟨first, m, hm, ha, hsize, hpages⟩ := h.large_slot a size hplaced
      exact ⟨first, m, hm, ha, hsize, fun k hk =>
        ⟨setPages_of_used (hpages k hk).1 hunused, (hpages k hk).2⟩⟩
  large_apart := by
    intro a size b size' ha hb hne
    rcases Placement.update_ne_none ha with heq | hplaced
    · cases heq
      rcases Placement.update_ne_none hb with heq' | hplaced'
      · cases heq'
        exact (hne.elim (fun h => h rfl) fun h => h rfl).elim
      · exact (h.apart_unused hplaced' hn hstart hunused).symm
    · rcases Placement.update_ne_none hb with heq' | hplaced'
      · cases heq'
        exact h.apart_unused hplaced hn hstart hunused
      · exact h.large_apart a size b size' hplaced hplaced' hne

/-- A large slot is removed, and its pages are given back. -/
theorem removeLarge (h : Laid sizes used place) {a size : ℕ}
    (hs : place ⟨a, .largeSlot size⟩ ≠ none) :
    Laid sizes (World.setPages used ((⟨a, .largeSlot size⟩ : HeapSlot).paddr / PAGE_SIZE)
        ((size + PAGE_SIZE - 1) / PAGE_SIZE) false)
      (update place ⟨a, .largeSlot size⟩ none) := by
  obtain ⟨first, n, hn, rfl, rfl, hpages⟩ := h.large_slot a size hs
  have hfirst : (⟨paddrToVaddr (first * PAGE_SIZE), .largeSlot (n * PAGE_SIZE)⟩ : HeapSlot).paddr /
      PAGE_SIZE = first := by
    show (first * PAGE_SIZE + LINEAR_MAPPING_BASE_VADDR - LINEAR_MAPPING_BASE_VADDR) / PAGE_SIZE = _
    rw [Nat.add_sub_cancel, Nat.mul_div_cancel _ page_pos]
  have hcount : (n * PAGE_SIZE + PAGE_SIZE - 1) / PAGE_SIZE = n := by
    unfold PAGE_SIZE
    omega
  rw [hfirst, hcount]
  have hold : ∀ {t}, update place ⟨paddrToVaddr (first * PAGE_SIZE),
      .largeSlot (n * PAGE_SIZE)⟩ none t ≠ none →
      t ≠ ⟨paddrToVaddr (first * PAGE_SIZE), .largeSlot (n * PAGE_SIZE)⟩ ∧ place t ≠ none := by
    intro t ht
    by_cases heq : t = ⟨paddrToVaddr (first * PAGE_SIZE), .largeSlot (n * PAGE_SIZE)⟩
    · rw [heq, update_self] at ht
      exact (ht rfl).elim
    · rw [update_of_ne heq] at ht
      exact ⟨heq, ht⟩
  refine ⟨h.page, fun p S hS => ?_, h.bound, h.dvd, fun p S hS i hi => ?_,
    fun b size hb => h.slab_slot b size (hold hb).2, fun b size hb => ?_,
    fun b size c size' hb hc => h.large_apart b size c size' (hold hb).2 (hold hc).2⟩
  · rw [setPages_of_not_mem, h.slab_used p S hS]
    rintro ⟨hle, hlt⟩
    have hnone := (hpages (p / PAGE_SIZE - first) (by omega)).2
    rw [Nat.add_sub_cancel' hle, div_mul_page (h.page p S hS), hS] at hnone
    cases hnone
  · rw [update_of_ne (Slab.slotAt_ne_large S p i)]
    exact h.placed p S hS i hi
  · obtain ⟨hne, hplaced⟩ := hold hb
    obtain ⟨g, m, hm, rfl, rfl, hpages'⟩ := h.large_slot b size hplaced
    have hapart := h.apart hplaced hs hne
    refine ⟨g, m, hm, rfl, rfl, fun k hk => ⟨?_, (hpages' k hk).2⟩⟩
    rw [setPages_of_not_mem, (hpages' k hk).1]
    rintro ⟨hle, hlt⟩
    exact ne_of_runs_apart hapart hk (show g + k - first < n by omega) (by omega)

/-- The slots of a slab are made in an unused page. -/
theorem addSlab (h : Laid sizes used place) {S : SlotSize} {p : ℕ} (hp : PAGE_SIZE ∣ p)
    (hunused : used (p / PAGE_SIZE) = false) (hbound : paddrToVaddr p + PAGE_SIZE ≤ 2 ^ 64)
    (hdvd : S.val ∣ PAGE_SIZE) :
    Laid (update sizes p (some S)) (World.setPages used (p / PAGE_SIZE) 1 true)
      (place.addSlab S p) := by
  have hunused' : ∀ k, k < 1 → used (p / PAGE_SIZE + k) = false := by
    intro k hk
    obtain rfl : k = 0 := by omega
    exact hunused
  have hcases : ∀ {q T}, update sizes p (some S) q = some T →
      (q = p ∧ T = S) ∨ (q ≠ p ∧ sizes q = some T) := by
    intro q T hT
    rcases update_eq_cases hT with ⟨rfl, heq⟩ | ⟨hq, hT⟩
    · exact Or.inl ⟨rfl, (Option.some.inj heq).symm⟩
    · exact Or.inr ⟨hq, hT⟩
  have hne : ∀ {q T}, sizes q = some T → q ≠ p := by
    rintro q T hT rfl
    rw [h.slab_used q T hT] at hunused
    cases hunused
  have hplaced : ∀ {s}, place.addSlab S p s ≠ none → s ∈ Slab.slots S p ∨ place s ≠ none := by
    intro s hs
    by_cases hmem : s ∈ Slab.slots S p
    · exact Or.inl hmem
    · rw [Placement.addSlab_of_not_mem hmem] at hs
      exact Or.inr hs
  have hlarge : ∀ {a size}, place.addSlab S p ⟨a, .largeSlot size⟩ ≠ none →
      place ⟨a, .largeSlot size⟩ ≠ none := by
    intro a size hs
    refine (hplaced hs).resolve_left fun hmem => ?_
    obtain ⟨i, -, heq⟩ := Slab.mem_slots.mp hmem
    cases congrArg HeapSlot.info heq
  refine ⟨fun q T hT => ?_, fun q T hT => ?_, fun q T hT => ?_, fun q T hT => ?_,
    fun q T hT i hi => ?_, fun a size hs => ?_, fun a size hs => ?_,
    fun a size b size' ha hb => h.large_apart a size b size' (hlarge ha) (hlarge hb)⟩
  · rcases hcases hT with ⟨rfl, rfl⟩ | ⟨-, hT⟩
    · exact hp
    · exact h.page q T hT
  · rcases hcases hT with ⟨rfl, rfl⟩ | ⟨-, hT⟩
    · exact setPages_of_mem ⟨le_rfl, Nat.lt_succ_self _⟩
    · exact setPages_of_used (h.slab_used q T hT) hunused'
  · rcases hcases hT with ⟨rfl, rfl⟩ | ⟨-, hT⟩
    · exact hbound
    · exact h.bound q T hT
  · rcases hcases hT with ⟨rfl, rfl⟩ | ⟨-, hT⟩
    · exact hdvd
    · exact h.dvd q T hT
  · by_cases hmem : Slab.slotAt T q i ∈ Slab.slots S p
    · rw [Placement.addSlab_of_mem hmem]
      exact nofun
    · rw [Placement.addSlab_of_not_mem hmem]
      rcases hcases hT with ⟨rfl, rfl⟩ | ⟨-, hT⟩
      · exact (hmem (Slab.mem_slots.mpr ⟨i, hi, rfl⟩)).elim
      · exact h.placed q T hT i hi
  · rcases hplaced hs with hmem | hs
    · obtain ⟨i, hi, heq⟩ := Slab.mem_slots.mp hmem
      exact ⟨p, S, i, update_self .., hi, heq⟩
    · obtain ⟨q, T, i, hT, hi, heq⟩ := h.slab_slot a size hs
      exact ⟨q, T, i, (update_of_ne (hne hT) ..).trans hT, hi, heq⟩
  · obtain ⟨first, n, hn, ha, hsize, hpages⟩ := h.large_slot a size (hlarge hs)
    refine ⟨first, n, hn, ha, hsize, fun k hk =>
      ⟨setPages_of_used (hpages k hk).1 hunused', ?_⟩⟩
    rw [update_of_ne, (hpages k hk).2]
    intro heq
    have hused := (hpages k hk).1
    rw [← heq, Nat.mul_div_cancel _ page_pos, hused] at hunused
    cases hunused

/-- The slots of a slab, all of them free, are removed, and the page is given back. -/
theorem removeSlab [DecidableEq ι] (h : Laid sizes used place) {S : SlotSize} {p : ℕ}
    (hS : sizes p = some S) (hall : ∀ s, place s = some (.free p) ↔ s ∈ Slab.slots S p) :
    Laid (update sizes p none) (World.setPages used (p / PAGE_SIZE) 1 false)
      (place.moveAll (.free p) none) := by
  have hcases : ∀ {q T}, update sizes p none q = some T → q ≠ p ∧ sizes q = some T := by
    intro q T hT
    rcases update_eq_cases hT with ⟨rfl, heq⟩ | ⟨hq, hT⟩
    · cases heq
    · exact ⟨hq, hT⟩
  have hplaced : ∀ {s}, place.moveAll (.free p) none s ≠ none →
      s ∉ Slab.slots S p ∧ place s ≠ none := by
    intro s hs
    unfold Placement.moveAll at hs
    by_cases hfree : place s = some (.free p)
    · rw [if_pos hfree] at hs
      exact (hs rfl).elim
    · rw [if_neg hfree] at hs
      exact ⟨fun hmem => hfree ((hall s).mpr hmem), hs⟩
  have hkept : ∀ {k}, k * PAGE_SIZE ≠ p → used k = true →
      World.setPages used (p / PAGE_SIZE) 1 false k = true := by
    intro k hk hused
    rw [setPages_of_not_mem, hused]
    rintro ⟨hle, hlt⟩
    rw [show k = p / PAGE_SIZE by omega, div_mul_page (h.page p S hS)] at hk
    exact hk rfl
  refine ⟨fun q T hT => h.page q T (hcases hT).2, fun q T hT => ?_,
    fun q T hT => h.bound q T (hcases hT).2, fun q T hT => h.dvd q T (hcases hT).2,
    fun q T hT i hi => ?_, fun a size hs => ?_, fun a size hs => ?_,
    fun a size b size' ha hb => h.large_apart a size b size' (hplaced ha).2 (hplaced hb).2⟩
  · obtain ⟨hq, hT⟩ := hcases hT
    refine hkept ?_ (h.slab_used q T hT)
    rwa [div_mul_page (h.page q T hT)]
  · obtain ⟨hq, hT⟩ := hcases hT
    unfold Placement.moveAll
    by_cases hfree : place (Slab.slotAt T q i) = some (.free p)
    · -- a slot of the page `p` is not in the page `q`
      obtain ⟨j, hj, heq⟩ := Slab.mem_slots.mp ((hall _).mp hfree)
      have hslot := Slab.slotAt_le (p := q) hi
      have hslot' := Slab.slotAt_le (p := p) hj
      have haddr : (Slab.slotAt T q i).addr = (Slab.slotAt S p j).addr := by rw [heq]
      have hposT := Slab.pos T
      have hposS := Slab.pos S
      rw [Slab.slotAt_addr] at hslot hslot' haddr
      rw [Slab.slotAt_addr] at haddr
      unfold paddrToVaddr at hslot hslot' haddr
      exact (hq (page_eq (h.page q T hT) (h.page p S hS) (k := j * S.val) (by omega) (by omega)
        (by omega))).elim
    · rw [if_neg hfree]
      exact h.placed q T hT i hi
  · obtain ⟨hnot, hs⟩ := hplaced hs
    obtain ⟨q, T, i, hT, hi, heq⟩ := h.slab_slot a size hs
    refine ⟨q, T, i, ?_, hi, heq⟩
    rw [update_of_ne, hT]
    rintro rfl
    obtain rfl : S = T := Option.some.inj (hS.symm.trans hT)
    exact hnot (Slab.mem_slots.mpr ⟨i, hi, heq⟩)
  · obtain ⟨-, hs⟩ := hplaced hs
    obtain ⟨first, n, hn, ha, hsize, hpages⟩ := h.large_slot a size hs
    have hne : ∀ k, k < n → (first + k) * PAGE_SIZE ≠ p := by
      intro k hk heq
      have hnone := (hpages k hk).2
      rw [heq, hS] at hnone
      cases hnone
    exact ⟨first, n, hn, ha, hsize, fun k hk => ⟨hkept (hne k hk) (hpages k hk).1,
      (update_of_ne (hne k hk) ..).trans (hpages k hk).2⟩⟩

end Laid

/-! ## Lists of slots that are at one place -/

/-- The links lead through the slots of a size that are at the place. -/
structure Keeps (mem : Memory) (head : Option ℕ) (size : ℕ) (place : Placement ι) (q : Place ι)
    (xs : List ℕ) : Prop where
  lists : Lists mem head xs
  nodup : xs.Nodup
  mem_iff : ∀ x, x ∈ xs ↔ place ⟨x, .slabSlot size⟩ = some q

namespace Keeps

variable {sizes : ℕ → Option SlotSize} {used : ℕ → Bool} {place place' : Placement ι}
  {mem mem' : Memory} {head : Option ℕ} {size : ℕ} {q : Place ι} {xs : List ℕ}

/-- Only which slots are at the place matters, and what their links are. -/
theorem congr (h : Keeps mem head size place q xs)
    (hplace : ∀ x, place' ⟨x, .slabSlot size⟩ = some q ↔ place ⟨x, .slabSlot size⟩ = some q)
    (hmem : ∀ x, place ⟨x, .slabSlot size⟩ = some q →
      ∀ y, x ≤ y → y < x + 8 → mem' y = mem y) :
    Keeps mem' head size place' q xs where
  lists := h.lists.congr fun x hx => hmem x ((h.mem_iff x).mp hx)
  nodup := h.nodup
  mem_iff := fun x => (h.mem_iff x).trans (hplace x).symm

/-- **Writes to a slot that is elsewhere are not seen.** -/
theorem frame (h : Keeps mem head size place q xs) (hlaid : Laid sizes used place) {t : HeapSlot}
    (ht : place t ≠ none) (htq : place t ≠ some q)
    (hmem : ∀ x, x < t.addr ∨ t.addr + t.size ≤ x → mem' x = mem x) :
    Keeps mem' head size place q xs := by
  refine h.congr (fun x => Iff.rfl) fun x hx y hy hy' => hmem y ?_
  have hplaced : place ⟨x, .slabSlot size⟩ ≠ none := by
    rw [hx]
    exact Option.some_ne_none q
  have hne : (⟨x, .slabSlot size⟩ : HeapSlot) ≠ t := by
    rintro rfl
    exact htq hx
  have hapart : Memory.Apart x size t.addr t.size := hlaid.apart hplaced ht hne
  have := hlaid.word_le hplaced
  unfold Memory.Apart at hapart
  omega

/-- A slot is moved between other places, and written to. -/
theorem move (h : Keeps mem head size place q xs) (hlaid : Laid sizes used place)
    {s : HeapSlot} {q₁ q₂ : Place ι} (hs : place s = some q₁) (h₁ : q₁ ≠ q) (h₂ : q₂ ≠ q)
    (hmem : ∀ x, x < s.addr ∨ s.addr + s.size ≤ x → mem' x = mem x) :
    Keeps mem' head size (update place s (some q₂)) q xs := by
  have hne : place s ≠ some q := fun h => h₁ (Option.some.inj (hs.symm.trans h))
  have hframe := h.frame hlaid (by rw [hs]; exact Option.some_ne_none _) hne hmem
  refine hframe.congr (fun x => ?_) fun _ _ _ _ _ => rfl
  by_cases hx : (⟨x, .slabSlot size⟩ : HeapSlot) = s
  · rw [hx, update_self]
    exact iff_of_false (fun h => h₂ (Option.some.inj h)) hne
  · rw [update_of_ne hx]

/-- A slot from elsewhere is pushed. -/
theorem push (h : Keeps mem head size place q xs) (hlaid : Laid sizes used place) {a : ℕ}
    (hs : place ⟨a, .slabSlot size⟩ ≠ none) (hsq : place ⟨a, .slabSlot size⟩ ≠ some q) :
    Keeps (mem.storeWord a (head.getD 0)) (some a) size
      (update place ⟨a, .slabSlot size⟩ (some q)) q (a :: xs) where
  lists := by
    obtain ⟨ha0, halt⟩ := hlaid.addr_bound hs
    refine h.lists.push ha0 halt fun x hx => ?_
    have hxq := (h.mem_iff x).mp hx
    have hplaced : place ⟨x, .slabSlot size⟩ ≠ none := by
      rw [hxq]
      exact Option.some_ne_none q
    have hne : (⟨x, .slabSlot size⟩ : HeapSlot) ≠ ⟨a, .slabSlot size⟩ := by
      intro heq
      rw [heq] at hxq
      exact hsq hxq
    have hword := hlaid.word_le hs
    exact Memory.Apart.mono (hlaid.apart hplaced hs hne) le_rfl (Nat.add_le_add_left hword _)
      le_rfl (Nat.add_le_add_left hword _)
  nodup := List.nodup_cons.mpr ⟨fun hmem => hsq ((h.mem_iff a).mp hmem), h.nodup⟩
  mem_iff := by
    intro x
    rw [List.mem_cons]
    by_cases hx : x = a
    · subst hx
      rw [update_self]
      exact iff_of_true (Or.inl rfl) rfl
    · rw [update_of_ne (fun h => hx (congrArg HeapSlot.addr h)), h.mem_iff x]
      exact ⟨fun h => h.resolve_left hx, Or.inr⟩

/-- The first slot is taken elsewhere. -/
theorem pop {a : ℕ} (h : Keeps mem head size place q (a :: xs)) {q' : Place ι} (hq : q' ≠ q) :
    Keeps mem xs.head? size (update place ⟨a, .slabSlot size⟩ (some q')) q xs where
  lists := (h.lists.pop size).2
  nodup := (List.nodup_cons.mp h.nodup).2
  mem_iff := by
    intro x
    have hiff := h.mem_iff x
    rw [List.mem_cons] at hiff
    by_cases hx : x = a
    · subst hx
      rw [update_self]
      exact iff_of_false (List.nodup_cons.mp h.nodup).1 fun h => hq (Option.some.inj h)
    · rw [update_of_ne (fun h => hx (congrArg HeapSlot.addr h)), ← hiff]
      exact ⟨Or.inr, fun h => h.resolve_left hx⟩

end Keeps

end Vostd.Heap
