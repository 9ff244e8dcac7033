/-
# The heap keeps its slots apart

What follows from the invariant for the users of the heap: allocations never overlap, whatever is
written to them; a slab hands out slots that nobody has, as long as its counter says so; slots go
back to their slabs, and a slab that is dropped takes nothing away.

All of this rests on the sizes and kinds that the heap implementation has to keep apart.  Without
the feature `allow_panic` the lists do not check the sizes, and the last slot of a slab comes out
of a list of a larger size as a slot that reaches into the next page.
-/
import Vostd.Heap.Invariant

namespace Vostd.Heap

open Exec Function

variable {ι : Type}

/-- The bytes of a slot lie in pages that are in use. -/
theorem Laid.used_of_mem {sizes : ℕ → Option SlotSize} {used : ℕ → Bool} {place : Placement ι}
    (h : Laid sizes used place) {s : HeapSlot} (hs : place s ≠ none) {x : ℕ} (hle : s.addr ≤ x)
    (hlt : x < s.addr + s.size) : used ((x - LINEAR_MAPPING_BASE_VADDR) / PAGE_SIZE) = true := by
  -- otherwise the slot would be apart from the page of `x`
  by_contra hunused
  have hbase : LINEAR_MAPPING_BASE_VADDR ≤ s.addr := by
    obtain ⟨a, info⟩ := s
    cases info with
    | slabSlot size =>
      obtain ⟨p, S, i, -, -, heq⟩ := h.slab_slot a size hs
      rw [heq, Slab.slotAt_addr]
      exact Nat.le_add_right_of_le (Nat.le_add_left _ _)
    | largeSlot size =>
      obtain ⟨first, n, -, rfl, -, -⟩ := h.large_slot a size hs
      exact Nat.le_add_left _ _
  have hpage := Nat.div_add_mod (x - LINEAR_MAPPING_BASE_VADDR) PAGE_SIZE
  have hmod := Nat.mod_lt (x - LINEAR_MAPPING_BASE_VADDR) page_pos
  have hapart := h.apart_unused hs Nat.one_pos
    (Nat.dvd_mul_right PAGE_SIZE ((x - LINEAR_MAPPING_BASE_VADDR) / PAGE_SIZE)) ?_
  · unfold Memory.Apart paddrToVaddr at hapart
    omega
  · intro k hk
    obtain rfl : k = 0 := by omega
    rw [Nat.mul_div_cancel_left _ page_pos, Nat.add_zero]
    exact Bool.eq_false_of_not_eq_true hunused

namespace World

variable {cfg : Setting ι} {w : World ι}

theorem slabAlloc_some {p : ℕ} {slab slab' : Slab} {slot : HeapSlot} (hp : w.slabs p = some slab)
    (halloc : slab.alloc w.mem = .ok (some slot, slab')) :
    w.slabAlloc p = .ok
      { w with slabs := update w.slabs p (some slab'), held := slot :: w.held } := by
  unfold slabAlloc
  rw [hp]
  exact (congrArg (· >>= _) halloc).trans rfl

variable [DecidableEq ι]

/-- A run that begins with a new slab. -/
theorem reachable_newSlab (cfg : Setting ι) (S : SlotSize) (hdvd : S.val ∣ PAGE_SIZE) {p : ℕ}
    (hp : PAGE_SIZE ∣ p) (hbound : paddrToVaddr p + PAGE_SIZE ≤ 2 ^ 64) :
    ∃ w slab, (sizedSystem cfg).Reachable w ∧ w.slabs p = some slab ∧ slab.slotSize = S ∧
      slab.startPaddr = p ∧ slab.nrAllocated = 0 ∧
      Lists w.mem slab.freeList.head (Slab.grid S p (Slab.steps S)) ∧
      (∀ k, k ≠ p / PAGE_SIZE → w.used k = false) ∧ w.held = [] ∧ w.live = [] := by
  obtain ⟨slab, mem', hnew, hS, hstart, hnr, hlists, -⟩ :=
    Slab.new_spec cfg.allowPanic S p (init : World ι).mem hbound
  have hexec : (init : World ι).newSlab cfg S p = .ok
      ⟨mem', update (fun _ => none) p (some slab), fun _ => .new,
        setPages (fun _ => false) (p / PAGE_SIZE) 1 true, [], []⟩ := by
    unfold newSlab
    rw [hnew]
    rfl
  have hunused : (init : World ι).Unused p 1 := ⟨hp, by rwa [Nat.one_mul], fun _ _ => rfl⟩
  refine ⟨_, slab, .step (l := .newSlab S p) (.init rfl) ⟨hdvd, hunused, hexec⟩, ?_, hS,
    hstart, hnr, hlists, fun k hk => if_neg fun h => hk (by omega), rfl, rfl⟩
  show update (fun _ => none) p (some slab) p = some slab
  rw [update_self]

/-- Lists of 64-byte slots, and a slot map that answers with a page. -/
def pageSetting (allowPanic : Bool) : Setting Unit :=
  ⟨true, allowPanic, fun _ => 64, fun _ => some (.largeSlot 4096)⟩

/-- The last of the slots of 32 bytes in the first page. -/
def lastSlot : HeapSlot := ⟨paddrToVaddr 0 + 127 * 32, .slabSlot 32⟩

/-- A run with an unused slab in the first page and an allocation in the second one, and the same
run after a slot was taken from the slab. -/
theorem reachable_neighbours (allowPanic : Bool) :
    (∃ w slab, (sizedSystem (pageSetting allowPanic)).Reachable w ∧ w.slabs 0 = some slab ∧
      slab.nrAllocated = 0 ∧ w.live = [(paddrToVaddr 4096, ⟨4096, 64⟩)]) ∧
    ∃ w slab, (sizedSystem (pageSetting allowPanic)).Reachable w ∧ w.slabs 0 = some slab ∧
      slab.nrAllocated = 1 ∧ slab.slotSize.val = 32 ∧ slab.Owns lastSlot ∧ w.held = [lastSlot] ∧
      w.live = [(paddrToVaddr 4096, ⟨4096, 64⟩)] := by
  obtain ⟨w, slab, h₀, hslab, hS, hstart, hnr, hlists, hunused, hheld, hlive⟩ := reachable_newSlab
    (pageSetting allowPanic) ⟨32, by decide, by decide⟩ (by decide) (p := 0) (by decide) (by decide)
  have h₁ : (sizedSystem (pageSetting allowPanic)).Reachable
      { w with used := setPages w.used 1 1 true,
               held := [⟨paddrToVaddr 4096, .largeSlot 4096⟩] } := by
    refine .step (l := .allocLarge 4096 4096) h₀ ⟨show 4096 % PAGE_SIZE = 0 by decide,
      ⟨by decide, by decide, fun k hk => hunused _ ?_⟩, ?_⟩
    · show 4096 / PAGE_SIZE + k ≠ 0 / PAGE_SIZE
      decide +revert
    · rw [← hheld]
      cases allowPanic <;> rfl
  have h₂ : (sizedSystem (pageSetting allowPanic)).Reachable
      { w with used := setPages w.used 1 1 true, held := [],
               live := [(paddrToVaddr 4096, ⟨4096, 64⟩)] } := by
    refine .step (l := .alloc ⟨4096, 64⟩ ⟨paddrToVaddr 4096, .largeSlot 4096⟩) h₁
      ⟨fun _ h _ => (Option.some.inj h).symm, List.mem_cons_self, ?_⟩
    show _ = Except.ok _
    rw [← hlive]
    rfl
  refine ⟨⟨_, slab, h₂, hslab, hnr, rfl⟩, ?_⟩
  -- the last slot of the page is handed out first
  have halloc : slab.alloc w.mem = .ok (some lastSlot,
      { slab with freeList := ⟨(Slab.grid slab.slotSize 0 127).head?⟩, nrAllocated := 1 }) := by
    rw [show Slab.steps _ = 127 + 1 from rfl, Slab.grid_succ] at hlists
    unfold Slab.alloc
    rw [hS, show slab.freeList.pop 32 w.mem = _ from (hlists.pop 32).1, hnr]
    rfl
  refine ⟨_, { slab with freeList := ⟨(Slab.grid slab.slotSize 0 127).head?⟩, nrAllocated := 1 },
    .step (l := .slabAlloc 0) h₂ ⟨trivial, trivial, slabAlloc_some hslab halloc⟩,
    ?_, rfl, by rw [hS], ?_, rfl, rfl⟩
  · exact update_self (0 : ℕ) (some _) w.slabs
  · show slab.startPaddr ≤ lastSlot.paddr ∧ lastSlot.paddr < slab.startPaddr + PAGE_SIZE
    rw [hstart]
    decide

/-- **Allocations never overlap**, and an allocation is aligned and lies in pages that are in use:
in every run, whatever was written to the allocations before. -/
theorem live_apart (h : (sizedSystem cfg).Reachable w) :
    w.live.Pairwise (fun a b => Memory.Apart a.1 a.2.size b.1 b.2.size) ∧
      ∀ a ∈ w.live, a.1 % a.2.align = 0 ∧ ∀ x, a.1 ≤ x → x < a.1 + a.2.size →
        w.used ((x - LINEAR_MAPPING_BASE_VADDR) / PAGE_SIZE) = true := by
  obtain ⟨place, hinv⟩ := Inv.of_reachable h
  constructor
  · refine (List.pairwise_map.mp hinv.live.nodup).imp_of_mem fun {a b} ha hb hne => ?_
    obtain ⟨info, -, hs, hsize, -⟩ := hinv.live.slot a ha
    obtain ⟨info', -, hs', hsize', -⟩ := hinv.live.slot b hb
    have hapart := hinv.laid.apart (s := ⟨a.1, info⟩) (t := ⟨b.1, info'⟩) (by rw [hs]; exact nofun)
      (by rw [hs']; exact nofun) fun heq => hne (congrArg HeapSlot.addr heq)
    exact Memory.Apart.mono hapart le_rfl (Nat.add_le_add_left hsize _) le_rfl
      (Nat.add_le_add_left hsize' _)
  · intro a ha
    obtain ⟨info, -, hs, hsize, halign⟩ := hinv.live.slot a ha
    refine ⟨halign, fun x hle hlt => hinv.laid.used_of_mem (s := ⟨a.1, info⟩)
      (by rw [hs]; exact nofun)
      hle (Nat.lt_of_lt_of_le hlt (Nat.add_le_add_left hsize _))⟩

/-- A run with an allocation of a whole page. -/
theorem live_apart_large :
    ∃ w, (sizedSystem (⟨true, true, fun _ => 8, fun _ => some (.largeSlot 4096)⟩ :
        Setting Unit)).Reachable w ∧ w.live = [(paddrToVaddr 8192, ⟨4096, 64⟩)] ∧
      w.used 2 = true := by
  have h₀ : (sizedSystem (⟨true, true, fun _ => 8, fun _ => some (.largeSlot 4096)⟩ :
      Setting Unit)).Reachable { (init : World Unit) with
        used := setPages (fun _ => false) 2 1 true,
        held := [⟨paddrToVaddr 8192, .largeSlot 4096⟩] } :=
    .step (l := .allocLarge 4096 8192) (.init rfl)
      ⟨show 4096 % PAGE_SIZE = 0 by decide,
        ⟨by decide, by decide, fun _ _ => rfl⟩, rfl⟩
  have h₁ : (sizedSystem (⟨true, true, fun _ => 8, fun _ => some (.largeSlot 4096)⟩ :
      Setting Unit)).Reachable { (init : World Unit) with
        used := setPages (fun _ => false) 2 1 true,
        live := [(paddrToVaddr 8192, ⟨4096, 64⟩)] } :=
    .step (l := .alloc ⟨4096, 64⟩ ⟨paddrToVaddr 8192, .largeSlot 4096⟩) h₀
      ⟨fun _ h _ => (Option.some.inj h).symm, List.mem_cons_self, rfl⟩
  have hused := (live_apart h₁).2 _ List.mem_cons_self
  exact ⟨_, h₁, rfl, hused.2 (paddrToVaddr 8192) le_rfl (by decide)⟩

/-- **A slab hands out a slot as long as it counts one that is not allocated**, and the slot is in
its page and apart from all the slots that are held and all the allocations. -/
theorem slab_alloc_spec (h : (sizedSystem cfg).Reachable w) {p : ℕ} {slab : Slab}
    (hp : w.slabs p = some slab) :
    ∃ r, slab.alloc w.mem = .ok r ∧ (r.1 = none ↔ slab.nrAllocated = slab.capacity) ∧
      ∀ slot, r.1 = some slot → slab.Owns slot ∧
        slot.addr + slot.size ≤ paddrToVaddr p + PAGE_SIZE ∧ (∀ t ∈ w.held, slot.Apart t) ∧
        ∀ a ∈ w.live, Memory.Apart slot.addr slot.size a.1 a.2.size := by
  obtain ⟨place, hinv⟩ := Inv.of_reachable h
  obtain ⟨hstart, xs, hkeeps, hcount⟩ := hinv.slab p slab hp
  cases xs with
  | nil =>
    refine ⟨_, SlabInv.alloc_nil hkeeps, iff_of_true rfl hcount, fun slot hslot => ?_⟩
    cases hslot
  | cons a xs =>
    rw [List.length_cons] at hcount
    refine ⟨_, SlabInv.alloc_cons hkeeps hcount, iff_of_false nofun (by omega),
      fun slot hslot => ?_⟩
    cases hslot
    have hs := (hkeeps.mem_iff a).mp List.mem_cons_self
    have hplaced : place ⟨a, .slabSlot slab.slotSize.val⟩ ≠ none := by
      rw [hs]
      exact nofun
    obtain ⟨S, i, hS, hi, heq⟩ := hinv.free_slot _ _ hs
    obtain ⟨slab', hp', rfl⟩ := sizesOf_eq.mp hS
    obtain rfl : slab = slab' := Option.some.inj (hp.symm.trans hp')
    have hle := Slab.slotAt_le (p := p) hi
    have hpos := Slab.pos slab.slotSize
    obtain rfl : a = paddrToVaddr p + i * slab.slotSize.val := congrArg HeapSlot.addr heq
    rw [Slab.slotAt_addr] at hle
    refine ⟨?_, hle, fun t ht => ?_, fun b hb => ?_⟩
    · unfold Slab.Owns HeapSlot.paddr
      rw [hstart]
      unfold paddrToVaddr at hle ⊢
      show p ≤ p + LINEAR_MAPPING_BASE_VADDR + i * slab.slotSize.val - LINEAR_MAPPING_BASE_VADDR ∧
        p + LINEAR_MAPPING_BASE_VADDR + i * slab.slotSize.val - LINEAR_MAPPING_BASE_VADDR < _
      omega
    · have ht' := (hinv.held.mem_iff t).mp ht
      refine hinv.laid.apart hplaced (by rw [ht']; exact nofun) ?_
      rintro rfl
      rw [hs] at ht'
      cases ht'
    · obtain ⟨info, -, hb', hsize, -⟩ := hinv.live.slot b hb
      have hne : (⟨paddrToVaddr p + i * slab.slotSize.val,
        .slabSlot slab.slotSize.val⟩ : HeapSlot) ≠
          ⟨b.1, info⟩ := by
        intro heq'
        rw [← heq', hs] at hb'
        cases hb'
      exact Memory.Apart.mono (hinv.laid.apart hplaced (by rw [hb']; exact nofun) hne) le_rfl le_rfl
        le_rfl (Nat.add_le_add_left hsize _)

/-- A slot that is apart from the one taken before and from the allocation in the next page. -/
theorem slab_alloc_spec_in_first_page :
    ∃ w slab slot slab', (sizedSystem (pageSetting true)).Reachable w ∧ w.slabs 0 = some slab ∧
      lastSlot ∈ w.held ∧ (paddrToVaddr 4096, ⟨4096, 64⟩) ∈ w.live ∧
      slab.alloc w.mem = .ok (some slot, slab') ∧ slot.Apart lastSlot ∧
      Memory.Apart slot.addr slot.size (paddrToVaddr 4096) 4096 := by
  obtain ⟨-, w, slab, hreach, hslab, hnr, hS, -, hheld, hlive⟩ := reachable_neighbours true
  obtain ⟨⟨o, slab'⟩, hr, hfull, hslot⟩ := slab_alloc_spec hreach hslab
  cases o with
  | none =>
    have hcap := hfull.mp rfl
    unfold Slab.capacity at hcap
    rw [hnr, hS] at hcap
    cases hcap
  | some slot =>
    obtain ⟨-, -, happart, hlives⟩ := hslot slot rfl
    refine ⟨w, slab, slot, slab', hreach, hslab, ?_, ?_, hr, happart _ ?_,
      hlives (paddrToVaddr 4096, ⟨4096, 64⟩) ?_⟩
    · rw [hheld]
      exact List.mem_cons_self
    · rw [hlive]
      exact List.mem_cons_self
    · rw [hheld]
      exact List.mem_cons_self
    · rw [hlive]
      exact List.mem_cons_self

/-- **A held slot goes back to the slab that owns it**, in every build, and comes out again first;
any other slab refuses it.  A slab is dropped only if no held slot and no allocation meets its
page. -/
theorem slab_dealloc_spec (h : (sizedSystem cfg).Reachable w) {p : ℕ} {slab : Slab}
    (hp : w.slabs p = some slab) :
    (∀ slot ∈ w.held,
      (¬slab.Owns slot → slab.dealloc cfg.debug cfg.allowPanic w.mem slot = .ok none) ∧
      (slab.Owns slot → ∃ slab' mem' slab'',
        slab.dealloc cfg.debug cfg.allowPanic w.mem slot = .ok (some (slab', mem')) ∧
          slab'.nrAllocated + 1 = slab.nrAllocated ∧ slab'.alloc mem' = .ok (some slot, slab'') ∧
          slab''.nrAllocated = slab.nrAllocated)) ∧
      (slab.onDrop = .ok () →
        (∀ slot ∈ w.held, Memory.Apart slot.addr slot.size (paddrToVaddr p) PAGE_SIZE) ∧
        ∀ a ∈ w.live, Memory.Apart a.1 a.2.size (paddrToVaddr p) PAGE_SIZE) := by
  obtain ⟨place, hinv⟩ := Inv.of_reachable h
  refine ⟨fun slot hslot => ⟨fun howns => ?_, fun howns => ?_⟩, fun hdrop => ?_⟩
  · unfold Slab.dealloc
    exact if_neg howns
  · obtain ⟨hdealloc, hnr, i, hi, heq⟩ :=
      hinv.dealloc_owned hp hslot howns cfg.debug cfg.allowPanic
    obtain ⟨xs, hkeeps, hcount⟩ := hinv.keeps_dealloc hp hslot howns
    have halloc := @SlabInv.alloc_cons ι _ p { slab with
      freeList := ⟨some slot.addr⟩, nrAllocated := slab.nrAllocated - 1 } _ _ xs hkeeps hcount
    have hslot' : (⟨slot.addr, .slabSlot slab.slotSize.val⟩ : HeapSlot) = slot := by
      rw [heq]
      rfl
    rw [hslot'] at halloc
    exact ⟨_, _, _, hdealloc, Nat.sub_add_cancel hnr, halloc, Nat.sub_add_cancel hnr⟩
  · have hall := hinv.all_free hp (check_eq_ok.mp hdrop)
    have hS : sizesOf w.slabs p = some slab.slotSize := sizesOf_eq.mpr ⟨slab, hp, rfl⟩
    -- the page can be given back, and what is left is apart from it
    have hlaid := hinv.laid.removeSlab hS hall
    have hgone : ∀ s q, place s = some q → q ≠ .free p →
        Memory.Apart s.addr s.size (paddrToVaddr p) PAGE_SIZE := by
      intro s q hs hq
      have hplaced : place.moveAll (.free p) none s = some q :=
        (Placement.moveAll_eq_some_iff (o := none) s hq nofun).mpr hs
      have hapart := hlaid.apart_unused (by rw [hplaced]; exact nofun) Nat.one_pos
        (hinv.laid.page p _ hS) fun k hk => if_pos ⟨Nat.le_add_right _ _, Nat.add_lt_add_left hk _⟩
      rwa [Nat.one_mul] at hapart
    constructor
    · intro slot hslot
      exact hgone slot _ ((hinv.held.mem_iff slot).mp hslot) nofun
    · intro a ha
      obtain ⟨info, -, hs, hsize, -⟩ := hinv.live.slot a ha
      exact Memory.Apart.mono (hgone ⟨a.1, info⟩ _ hs nofun) le_rfl (Nat.add_le_add_left hsize _)
        le_rfl le_rfl

/-- The slot that was taken goes back and comes out again; before it was taken, the slab could be
dropped beside the allocation. -/
theorem slab_dealloc_spec_in_first_page :
    (∃ w slab slab' mem' slab'', (sizedSystem (pageSetting true)).Reachable w ∧
      w.slabs 0 = some slab ∧ lastSlot ∈ w.held ∧ (paddrToVaddr 4096, ⟨4096, 64⟩) ∈ w.live ∧
      slab.dealloc true true w.mem lastSlot = .ok (some (slab', mem')) ∧
      slab'.alloc mem' = .ok (some lastSlot, slab'')) ∧
    ∃ w slab, (sizedSystem (pageSetting true)).Reachable w ∧ w.slabs 0 = some slab ∧
      slab.onDrop = .ok () ∧ (paddrToVaddr 4096, ⟨4096, 64⟩) ∈ w.live ∧
      Memory.Apart (paddrToVaddr 4096) 4096 (paddrToVaddr 0) PAGE_SIZE := by
  obtain ⟨⟨w, slab, hreach, hslab, hnr, hlive⟩, w', slab', hreach', hslab', -, -, howns,
    hheld', hlive'⟩ :=
    reachable_neighbours true
  have hmem : lastSlot ∈ w'.held := by
    rw [hheld']
    exact List.mem_cons_self
  have halive : (paddrToVaddr 4096, ⟨4096, 64⟩) ∈ w.live := by
    rw [hlive]
    exact List.mem_cons_self
  have hdrop : slab.onDrop = .ok () := check_pos hnr
  obtain ⟨_, _, _, hdealloc, -, halloc, -⟩ :=
    ((slab_dealloc_spec hreach' hslab').1 lastSlot hmem).2 howns
  refine ⟨⟨w', slab', _, _, _, hreach', hslab', hmem, ?_, hdealloc, halloc⟩, w, slab, hreach, hslab,
    hdrop, halive, ((slab_dealloc_spec hreach hslab).2 hdrop).2 _ halive⟩
  rw [hlive']
  exact List.mem_cons_self

/-- **A list of another size makes slots larger than they are.**  The last slot of a slab is pushed
to a list of a larger size: with `allow_panic` that panics; without it the push returns, and what
is popped next is the same address with the size of the list, beyond the page of the slab and over
any allocation that begins behind it. -/
theorem pop_other_size (h : (sizedSystem cfg).Reachable w) {p : ℕ} {slab : Slab}
    (hp : w.slabs p = some slab) {slot : HeapSlot} (hslot : slot ∈ w.held) (howns : slab.Owns slot)
    (hlast : slot.addr + slot.size = paddrToVaddr p + PAGE_SIZE) {l : ι}
    (hlt : slot.size < cfg.slotSize l) :
    (cfg.allowPanic = true → w.push cfg l slot = .error .assertion) ∧
    (cfg.allowPanic = false → ∃ w' t, w.push cfg l slot = .ok w' ∧
      (system cfg).Reachable (w'.pop cfg l) ∧
      ((w'.lists l).pop (cfg.slotSize l) w'.mem).1 = some t ∧ t ∈ (w'.pop cfg l).held ∧
      t.addr = slot.addr ∧ t.size = cfg.slotSize l ∧
      paddrToVaddr p + PAGE_SIZE < t.addr + t.size ∧
      (w'.pop cfg l).live = w.live ∧ ∀ a ∈ w.live, a.1 = paddrToVaddr p + PAGE_SIZE →
        ¬Memory.Apart t.addr t.size a.1 a.2.size) := by
  obtain ⟨place, hinv⟩ := Inv.of_reachable h
  obtain ⟨-, -, i, -, heq⟩ := hinv.dealloc_owned hp hslot howns cfg.debug cfg.allowPanic
  have hinfo : slot.info = .slabSlot slab.slotSize.val := congrArg HeapSlot.info heq
  have hpos := Slab.pos slab.slotSize
  clear heq
  obtain ⟨a, info⟩ := slot
  cases hinfo
  generalize paddrToVaddr p + PAGE_SIZE = stop at hlast ⊢
  change a + slab.slotSize.val = stop at hlast
  change slab.slotSize.val < cfg.slotSize l at hlt
  constructor
  · intro hallow
    have hpush : (w.lists l).push cfg.allowPanic (cfg.slotSize l) w.mem
        ⟨a, .slabSlot slab.slotSize.val⟩ = .error .assertion := if_pos ⟨hallow, hlt.ne⟩
    unfold push
    rw [hpush]
    rfl
  · intro hallow
    have hpush : (w.lists l).push cfg.allowPanic (cfg.slotSize l) w.mem
        ⟨a, .slabSlot slab.slotSize.val⟩ =
          .ok (⟨some a⟩, w.mem.storeWord a ((w.lists l).head.getD 0)) := by
      refine if_neg fun h => ?_
      rw [hallow] at h
      cases h.1
    have hstep : w.push cfg l ⟨a, .slabSlot slab.slotSize.val⟩ = .ok
        { w with
          mem := w.mem.storeWord a ((w.lists l).head.getD 0)
          lists := update w.lists l ⟨some a⟩
          held := w.held.erase ⟨a, .slabSlot slab.slotSize.val⟩ } := by
      unfold push
      rw [hpush]
      rfl
    have hreach : (system cfg).Reachable _ :=
      .step (l := .push l ⟨a, .slabSlot slab.slotSize.val⟩) h.of_restrict ⟨hslot, hstep⟩
    have hpop : ∀ mem, (update w.lists l ⟨some a⟩ l).pop (cfg.slotSize l) mem =
        (some ⟨a, .slabSlot (cfg.slotSize l)⟩, ⟨nextOf mem a⟩) := by
      intro mem
      rw [update_self]
      rfl
    refine ⟨_, ⟨a, .slabSlot (cfg.slotSize l)⟩, hstep,
      .step (l := .pop l) hreach ⟨trivial, rfl⟩, congrArg Prod.fst (hpop _), ?_, rfl,
        rfl, ?_, rfl, ?_⟩
    · show _ ∈ ((update w.lists l _ l).pop _ _).1.toList ++ _
      rw [hpop]
      exact List.mem_cons_self
    · show stop < a + cfg.slotSize l
      omega
    · rintro ⟨b, layout⟩ _ hb hapart
      change b = stop at hb
      change a + cfg.slotSize l ≤ b ∨ b + layout.size ≤ a at hapart
      omega

/-- A slab of 32-byte slots, a list of 64-byte slots and an allocation behind the slab. -/
theorem pop_other_size_in_first_page :
    ∃ w t, (system (pageSetting false)).Reachable w ∧ t ∈ w.held ∧
      (paddrToVaddr 4096, ⟨4096, 64⟩) ∈ w.live ∧
      ¬Memory.Apart t.addr t.size (paddrToVaddr 4096) 4096 := by
  obtain ⟨-, w, slab, hreach, hslab, -, -, howns, hheld, hlive⟩ := reachable_neighbours false
  have hmem : lastSlot ∈ w.held := by
    rw [hheld]
    exact List.mem_cons_self
  have halive : (paddrToVaddr 4096, ⟨4096, 64⟩) ∈ w.live := by
    rw [hlive]
    exact List.mem_cons_self
  obtain ⟨w', t, -, hreach', -, ht, -, -, -, hlive', hmeets⟩ :=
    (pop_other_size hreach hslab hmem howns (by decide) (l := ()) (by decide)).2 rfl
  exact ⟨_, t, hreach', ht, hlive' ▸ halive, hmeets _ halive (by decide)⟩

end World

end Vostd.Heap
