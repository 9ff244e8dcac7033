/-
# Counting mapped pages

`dfs_mark_stray_and_unlock` counts the pages of a removed subtree by the counters of its
lowest nodes.  In a table of base pages this is the number of pages that the subtree
translates (`framesBelow_eq`), so a fragment that `take_next` hands back says how many pages
were mapped in the slot (`Overwrites.pages_eq`).
-/
import Vostd.PageTable.Refinement

namespace Vostd

open Exec

variable {P : Type}

/-- The number of pages that a fragment takes away. -/
def PageTableFrag.pages : PageTableFrag P → ℕ
  | .mapped _ _ => 1
  | .strayPageTable _ _ _ numFrames => numFrames

/-- The translation of a subtree, from its root at level `l`. -/
def subtreeMap (m : Mem P) (l q : ℕ) : ByteMap (ℕ × P) := fun a => walkFrom m l q a

@[simp] theorem subtreeMap_apply (m : Mem P) (l q a : ℕ) :
    subtreeMap m l q a = walkFrom m l q a := rfl

theorem pageSize_eq_pages (l : ℕ) : pageSize (l + 1) = 512 ^ l * 4096 := by
  rw [pageSize_eq, Nat.add_sub_cancel, Nat.mul_comm]

/-- The entry of an address, counted from the start of the node. -/
theorem pteIndex_of_offset {l b i r : ℕ} (hl : 1 ≤ l) (hb : pageSize (l + 1) ∣ b) (hi : i < 512)
    (hr : r < pageSize l) : pteIndex (b + i * pageSize l + r) l = i := by
  obtain ⟨k, rfl⟩ := hb
  have hsum : pageSize (l + 1) * k + i * pageSize l + r = pageSize l * (512 * k + i) + r := by
    rw [pageSize_succ hl]
    ring
  rw [pteIndex_eq, hsum, Nat.mul_add_div (pageSize_pos l), Nat.div_eq_of_lt hr, Nat.add_zero,
    Nat.mul_add_mod, Nat.mod_eq_of_lt hi]

section

variable {m : Mem P} {cfg : PageTableConfig P}

/-- The pages that a lowest node translates are its entries. -/
theorem mappedPages_lowest (hW : WellFormed m) {q b : ℕ} {n : Node P} (hq : m.nodes q = some n)
    (hl : n.level = 1) (hb : pageSize 2 ∣ b) :
    (subtreeMap m 1 q).mappedPages 4096 b 512 = n.nrChildren := by
  have hok := hW.ok q n hq
  unfold ByteMap.mappedPages
  rw [hok.count, Node.presentCount_eq_sum, Finset.card_filter]
  refine Finset.sum_congr rfl ?_
  intro i hi
  have hi' := Finset.mem_range.mp hi
  have hslot : n.slots.Contains i := Node.slots_of_level_lt (by omega) hi'
  have hidx : pteIndex (b + i * 4096) 1 = i := by
    have hoff := pteIndex_of_offset le_rfl hb hi' (pageSize_pos 1)
    rwa [pageSize_one, Nat.add_zero] at hoff
  have hentry : m.entry q (pteIndex (b + i * 4096) 1) = n.entries i := by
    rw [hidx, Mem.entry_eq hq]
  cases he : n.entries i with
  | absent =>
      rw [subtreeMap_apply, walkFrom_absent le_rfl (hentry.trans he)]
      simp
  | frame pa prop =>
      rw [subtreeMap_apply, walkFrom_frame le_rfl (hentry.trans he)]
      simp [hslot]
  | table c =>
      -- there is no level below the lowest one
      obtain ⟨d, hd, hdl, -⟩ := hok.child i c hslot he
      have := (hW.ok c d hd).level_pos
      omega

/-- **The counters of the lowest nodes count the pages of a subtree.** -/
theorem framesBelow_eq (hW : WellFormed m) (hmax : cfg.maxItemLevel ≤ 1) (l : ℕ) :
    ∀ (fuel q b : ℕ) (n : Node P), m.nodes q = some n → n.level = l → l < 4 → n.cfg = cfg →
    l ≤ fuel → pageSize (l + 1) ∣ b →
    framesBelow m fuel q = (subtreeMap m l q).mappedPages 4096 b (512 ^ l) := by
  induction l with
  | zero =>
      intro fuel q b n hq hl _ _ _ _
      have := (hW.ok q n hq).level_pos
      omega
  | succ l ih =>
      intro fuel q b n hq hl h4 hcfg hfuel hb
      have hok := hW.ok q n hq
      obtain ⟨fuel, rfl⟩ : ∃ k, fuel = k + 1 := ⟨fuel - 1, by omega⟩
      rw [framesBelow, hq]
      simp only
      by_cases hlow : n.level = 1
      · obtain rfl : l = 0 := by omega
        rw [if_pos hlow]
        exact (mappedPages_lowest hW hq hlow hb).symm
      · rw [if_neg hlow, Nat.pow_succ, Nat.mul_comm, ByteMap.mappedPages_mul,
          ← pageSize_eq_pages]
        refine Finset.sum_congr rfl ?_
        intro i hi
        have hi' := Finset.mem_range.mp hi
        have hslot : n.slots.Contains i := Node.slots_of_level_lt (by omega) hi'
        -- the addresses of the slot go through the entry `i`
        have hentry : ∀ j, j < 512 ^ l →
            m.entry q (pteIndex (b + i * pageSize (l + 1) + j * 4096) (l + 1)) = n.entries i := by
          intro j hj
          have hr : j * 4096 < pageSize (l + 1) := by
            rw [pageSize_eq_pages]
            exact (Nat.mul_lt_mul_right (by decide)).mpr hj
          rw [pteIndex_of_offset (by omega) hb hi' hr, Mem.entry_eq hq]
        cases he : n.entries i with
        | absent =>
            have hzero : (subtreeMap m (l + 1) q).mappedPages 4096
                (b + i * pageSize (l + 1)) (512 ^ l) = 0 := by
              unfold ByteMap.mappedPages
              rw [Finset.card_eq_zero, Finset.filter_eq_empty_iff]
              intro j hj
              rw [subtreeMap_apply,
                walkFrom_absent (by omega) ((hentry j (Finset.mem_range.mp hj)).trans he)]
              simp
            rw [hzero]
            rfl
        | frame pa prop =>
            have hle := (hok.leaf i pa prop hslot he).2
            rw [hcfg] at hle
            omega
        | table c =>
            obtain ⟨d, hd, hdl, hdc, -⟩ := hok.child i c hslot he
            have hb' : pageSize (l + 1) ∣ b + i * pageSize (l + 1) :=
              Nat.dvd_add ((pageSize_dvd (Nat.le_succ _)).trans hb) (Nat.dvd_mul_left _ _)
            show framesBelow m fuel c = _
            rw [ih fuel c _ d hd (by omega) (by omega) (hdc.trans hcfg) (by omega) hb']
            apply ByteMap.mappedPages_congr
            intro j hj
            rw [subtreeMap_apply, subtreeMap_apply,
              walkFrom_table (by omega) ((hentry j hj).trans he), Nat.add_sub_cancel]

/-- Changing an entry of a node does not matter to the subtrees below. -/
theorem framesBelow_put (hW : WellFormed m) {q idx : ℕ} {n : Node P} (e : Pte P)
    (fuel : ℕ) : ∀ (p : ℕ) (k : Node P), m.nodes p = some k → k.level < 4 →
    k.level < n.level → m.nodes q = some n →
    framesBelow (m.put q n idx e) fuel p = framesBelow m fuel p := by
  induction fuel with
  | zero =>
      intro p k _ _ _ _
      rfl
  | succ fuel ih =>
      intro p k hp h4 hlt hq
      have hne : p ≠ q := by
        rintro rfl
        rw [hp] at hq
        obtain rfl := Option.some.inj hq
        omega
      rw [framesBelow, framesBelow, Mem.put, Mem.setNode_nodes_of_ne _ _ hne, hp]
      simp only
      by_cases hlow : k.level = 1
      · rw [if_pos hlow, if_pos hlow]
      · rw [if_neg hlow, if_neg hlow]
        refine Finset.sum_congr rfl ?_
        intro i hi
        cases he : k.entries i with
        | absent => rfl
        | frame pa prop => rfl
        | table c =>
            obtain ⟨d, hd, hdl, -⟩ := (hW.ok p k hp).child i c
              (Node.slots_of_level_lt h4 (Finset.mem_range.mp hi)) he
            exact ih c d hd (by omega) (by omega) hq

end

section

variable {m m' m₂ : Mem P} {cfg : PageTableConfig P} {root q : ℕ} {c c' : Cursor} {e : Pte P}
  {n : Node P}

/-- The size of the current slot in pages. -/
theorem Overwrites.lt_pageSize (ho : Overwrites m m' cfg root c c' e q n) {j : ℕ}
    (hj : j < 512 ^ (c.level - 1)) : j * 4096 < pageSize c.level := by
  rw [← Nat.sub_add_cancel ho.slot.position.level_pos, pageSize_eq_pages]
  exact (Nat.mul_lt_mul_right (by decide)).mpr hj

/-- The translation of the slot, by the walk from the current node. -/
theorem Overwrites.translation_page (ho : Overwrites m m' cfg root c c' e q n) {j : ℕ}
    (hj : j < 512 ^ (c.level - 1)) :
    translation cfg m root (c.va + j * 4096) = walkFrom m c.level q (c.va + j * 4096) := by
  have hp := ho.slot.position
  have hlt := ho.lt_pageSize hj
  have hman := ho.managed (a := c.va + j * 4096) (by omega) (by omega)
  have hva := ho.managed le_rfl (Nat.lt_add_of_pos_right (pageSize_pos c.level))
  rw [translation_of_canonical hman.canonical]
  refine ho.slot.pageWalk_slot ?_
  rw [hman.canonical.mem_slot_iff hva.canonical hp.level_pos hp.level_le,
    alignDown_of_dvd ho.start]
  omega

/-- A frame of a table of base pages is one page. -/
theorem Overwrites.mappedPages_frame (ho : Overwrites m m' cfg root c c' e q n)
    (hW : WellFormed m) (hmax : cfg.maxItemLevel ≤ 1) {pa : ℕ} {prop : P}
    (he : n.entries (pteIndex c.va c.level) = .frame pa prop) :
    (translation cfg m root).mappedPages 4096 c.va (512 ^ (c.level - 1)) = 1 := by
  have hlp := ho.slot.position.level_pos
  have hone : (translation cfg m root (c.va + 0 * 4096)).isSome = true := by
    rw [ho.translation_page (Nat.pow_pos (by decide)), Nat.zero_mul, Nat.add_zero,
      walkFrom_frame hlp (ho.slot.entry_eq.trans he)]
    rfl
  have hl1 : c.level = 1 := by
    have hle := ((hW.ok q n ho.slot.position.node).leaf _ pa prop ho.slot.slot he).2
    rw [ho.slot.level, ho.slot.cfg_eq] at hle
    omega
  rw [hl1]
  unfold ByteMap.mappedPages
  rw [Finset.filter_true_of_mem]
  · rfl
  · intro j hj
    obtain rfl : j = 0 := Nat.lt_one_iff.mp (Finset.mem_range.mp hj)
    exact hone

/-- A child has the pages below it. -/
theorem Overwrites.mappedPages_table (ho : Overwrites m m' cfg root c c' e q n)
    (hW : WellFormed m) (hmax : cfg.maxItemLevel ≤ 1) {pt : ℕ}
    (he : n.entries (pteIndex c.va c.level) = .table pt) :
    framesBelow (m.put q n (pteIndex c.va c.level) e) NR_LEVELS pt =
      (translation cfg m root).mappedPages 4096 c.va (512 ^ (c.level - 1)) := by
  have hp := ho.slot.position
  have hlp := hp.level_pos
  obtain ⟨d, hd, hdl, hdc, -⟩ := (hW.ok q n hp.node).child _ pt ho.slot.slot he
  have hnl := ho.slot.level
  have h4 := hp.level_le
  have hdpos := (hW.ok pt d hd).level_pos
  rw [framesBelow_put hW e _ pt d hd (by omega) (by omega) hp.node,
    framesBelow_eq hW hmax (c.level - 1) NR_LEVELS pt c.va d hd (by omega) (by omega)
      (hdc.trans ho.slot.cfg_eq) (by unfold NR_LEVELS; omega)
      (by rw [Nat.sub_add_cancel hlp]; exact ho.start)]
  apply ByteMap.mappedPages_congr
  intro j hj
  have hlt := ho.lt_pageSize hj
  have hidx : pteIndex (c.va + j * 4096) c.level = pteIndex c.va c.level := by
    rw [pteIndex_eq, pteIndex_eq, (div_eq_iff_mem (pageSize_pos _)).mpr]
    rw [alignDown_of_dvd ho.start]
    omega
  rw [subtreeMap_apply, ho.translation_page hj,
    walkFrom_table hlp (by rw [hidx]; exact ho.slot.entry_eq.trans he)]

/-- **A fragment says how many pages were mapped in its slot.** -/
theorem Overwrites.pages_eq (ho : Overwrites m m' cfg root c c' e q n) (hW : WellFormed m)
    (hmax : cfg.maxItemLevel ≤ 1) {frag : PageTableFrag P}
    (hfrag : fragOf (m.put q n (pteIndex c.va c.level) e) c (n.entries (pteIndex c.va c.level)) =
      some frag) :
    frag.pages = (translation cfg m root).mappedPages 4096 c.va (512 ^ (c.level - 1)) := by
  cases he : n.entries (pteIndex c.va c.level) with
  | absent =>
      rw [he] at hfrag
      cases hfrag
  | frame pa prop =>
      rw [he] at hfrag
      obtain rfl := Option.some.inj hfrag
      exact (ho.mappedPages_frame hW hmax he).symm
  | table pt =>
      rw [he] at hfrag
      obtain rfl := Option.some.inj hfrag
      exact ho.mappedPages_table hW hmax he

end

end Vostd
