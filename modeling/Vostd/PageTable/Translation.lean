/-
# The translation of a table

What a page table is for: it translates virtual addresses.  The abstract state of
a table is a partial map from canonical addresses to a physical address and a
property, and each cursor operation is described by its effect on this map
(`AbsStep`).  The lemmas of this file compute the effect of the steps of the model:
growing a table changes nothing, overwriting a slot overrides one interval.
-/
import Vostd.Lib.ByteMap
import Vostd.PageTable.Locking

namespace Vostd

open Exec

variable {P : Type}

/-! ## Translations -/

instance (cfg : PageTableConfig P) (a : ℕ) : Decidable (cfg.Canonical a) := by
  unfold PageTableConfig.Canonical
  infer_instance

/-- The translation of a table: `page_walk` at the canonical addresses. -/
def translation (cfg : PageTableConfig P) (m : Mem P) (root : ℕ) : ByteMap (ℕ × P) :=
  fun a => if cfg.Canonical a then pageWalk m root a else none

/-- The bytes of a page that starts at `va`. -/
def pageBytes (va pa : ℕ) (prop : P) : ℕ → Option (ℕ × P) := fun a => some (pa + (a - va), prop)

section

variable {m m' : Mem P} {cfg : PageTableConfig P} {root : ℕ}

theorem translation_of_canonical {a : ℕ} (ha : cfg.Canonical a) :
    translation cfg m root a = pageWalk m root a := if_pos ha

/-- Outside the addresses that a step concerns, the translation stays. -/
theorem Keeps.translation_eq {R : ℕ → Prop} (hk : Keeps m m' root R) (hW : WellFormed m)
    (hroot : IsRoot m cfg root) {a : ℕ} (ha : cfg.Canonical a → ¬R a) :
    translation cfg m' root a = translation cfg m root a := by
  unfold translation
  split
  · next hc =>
    obtain ⟨n, hn, hl, -⟩ := hroot
    exact hk.walk_all hW hn hl (fun _ => ha hc) (fun _ _ _ => ha hc)
  · rfl

/-- **Growing a table does not change its translation.** -/
theorem Grow.translation_eq (hg : Grow root m m') (hW : WellFormed m) (hroot : IsRoot m cfg root) :
    translation cfg m' root = translation cfg m root := by
  funext a
  exact (hg.keeps hW).translation_eq hW hroot (fun _ h => h)

/-- The offset in a page, from the start of the page. -/
theorem mod_eq_sub {ps va a : ℕ} (hdvd : ps ∣ va) (hlo : va ≤ a) (hhi : a < va + ps) :
    a % ps = a - va := by
  obtain ⟨k, rfl⟩ := hdvd
  have hsub : a = ps * k + (a - ps * k) := by omega
  conv_lhs => rw [hsub]
  rw [Nat.mul_add_mod, Nat.mod_eq_of_lt (by omega)]

/-- The canonical addresses of the slot that starts at a managed address. -/
theorem slotNo_iff_of_dvd {l va a : ℕ} (hva : cfg.Managed va) (ha : cfg.Canonical a) (hl : 1 ≤ l)
    (h4 : l ≤ 4) (hdvd : pageSize l ∣ va) :
    slotNo l a = slotNo l va ↔ va ≤ a ∧ a < va + pageSize l := by
  rw [ha.mem_slot_iff hva.canonical hl h4, alignDown_of_dvd hdvd]

/-- How a slot that starts at `va` translates by an entry. -/
def Pte.bytes (va : ℕ) : Pte P → ℕ → Option (ℕ × P)
  | .frame pa prop => pageBytes va pa prop
  | .absent | .table _ => fun _ => none

theorem Pte.translate_eq_bytes {l va a : ℕ} (hdvd : pageSize l ∣ va) (hlo : va ≤ a)
    (hhi : a < va + pageSize l) (e : Pte P) : e.translate l a = e.bytes va a := by
  cases e with
  | absent => rfl
  | frame pa prop =>
      simp only [Pte.translate, Pte.bytes, pageBytes]
      rw [mod_eq_sub hdvd hlo hhi]
  | table pt => rfl

namespace Overwrites

variable {c c' : Cursor} {e : Pte P} {q : ℕ} {n : Node P}

/-- **Overwriting a slot overrides its interval.** -/
theorem translation_eq (h : Overwrites m m' cfg root c c' e q n) (hW : WellFormed m)
    (hroot : IsRoot m cfg root) : translation cfg m' root =
      (translation cfg m root).override c.va (c.va + pageSize c.level) (e.bytes c.va) := by
  have hp := h.slot.position
  have hva := h.managed le_rfl (Nat.lt_add_of_pos_right (pageSize_pos c.level))
  funext a
  by_cases ha : c.va ≤ a ∧ a < c.va + pageSize c.level
  · have hc := (h.managed ha.1 ha.2).canonical
    have hs := (slotNo_iff_of_dvd hva hc hp.level_pos hp.level_le h.start).mpr ha
    rw [ByteMap.override_of_mem _ _ ha, translation_of_canonical hc, h.pageWalk_slot hW hs,
      Pte.translate_eq_bytes h.start ha.1 ha.2]
  · rw [ByteMap.override_of_not_mem _ _ ha]
    refine (h.keeps hW).translation_eq hW hroot ?_
    intro hc hs
    exact ha ((slotNo_iff_of_dvd hva hc hp.level_pos hp.level_le h.start).mp hs)

/-- What the slot translated to before, when its entry was no child. -/
theorem translation_before (h : Overwrites m m' cfg root c c' e q n)
    (he : (n.entries (pteIndex c.va c.level)).node? = none) {a : ℕ} (hlo : c.va ≤ a)
    (hhi : a < c.va + pageSize c.level) :
    translation cfg m root a = (n.entries (pteIndex c.va c.level)).bytes c.va a := by
  have hp := h.slot.position
  have hva := h.managed le_rfl (Nat.lt_add_of_pos_right (pageSize_pos c.level))
  have hc := (h.managed hlo hhi).canonical
  have hs := (slotNo_iff_of_dvd hva hc hp.level_pos hp.level_le h.start).mpr ⟨hlo, hhi⟩
  rw [translation_of_canonical hc, h.slot.pageWalk_leaf he hs, Pte.translate_eq_bytes
    h.start hlo hhi]

end Overwrites

end

end Vostd
