/-
# Maps in the order of their keys

A finite map whose entries can be visited in the order of their keys, as a list of entries
that is sorted.  The operations are those of an ordered map: looking a key up, inserting,
removing and changing an entry, and the entries next to a key on either side.  What they do
is said by the entries that the map has afterwards.
-/
import Mathlib

namespace Vostd

/-- A finite map, with its entries in the order of the keys. -/
structure SortedMap (K V : Type) [LinearOrder K] where
  entries : List (K × V)
  sorted : entries.Pairwise (fun a b => a.1 < b.1)

namespace SortedMap

variable {K V : Type} [LinearOrder K]

instance [DecidableEq V] : DecidableEq (SortedMap K V) := fun m n =>
  decidable_of_iff (m.entries = n.entries)
    ⟨fun h => by cases m; cases n; cases h; rfl, fun h => h ▸ rfl⟩

/-- The map with one entry. -/
def single (k : K) (v : V) : SortedMap K V := ⟨[(k, v)], List.pairwise_singleton _ _⟩

/-- The value at a key. -/
def get? (m : SortedMap K V) (k : K) : Option V :=
  (m.entries.find? (fun e => decide (e.1 = k))).map Prod.snd

/-- Removes a key. -/
def erase (m : SortedMap K V) (k : K) : SortedMap K V :=
  ⟨m.entries.filter (fun e => decide (e.1 ≠ k)), m.sorted.filter _⟩

/-- Changes the value at a key. -/
def modify (m : SortedMap K V) (k : K) (f : V → V) : SortedMap K V :=
  ⟨m.entries.map (fun e => if e.1 = k then (e.1, f e.2) else e), by
    refine List.pairwise_map.mpr (m.sorted.imp ?_)
    intro a b hab
    split_ifs <;> exact hab⟩

/-- Sets the value at a key. -/
def insert (m : SortedMap K V) (k : K) (v : V) : SortedMap K V :=
  ⟨m.entries.filter (fun e => decide (e.1 < k)) ++
      (k, v) :: m.entries.filter (fun e => decide (k < e.1)), by
    refine List.pairwise_append.mpr ⟨m.sorted.filter _, List.pairwise_cons.mpr ⟨?_, ?_⟩, ?_⟩
    · intro e he
      exact of_decide_eq_true (List.mem_filter.mp he).2
    · exact m.sorted.filter _
    · intro a ha b hb
      have hak : a.1 < k := of_decide_eq_true (List.mem_filter.mp ha).2
      rcases List.mem_cons.mp hb with rfl | hb
      · exact hak
      · exact hak.trans (of_decide_eq_true (List.mem_filter.mp hb).2)⟩

/-- The entry with the greatest key below `k`. -/
def below (m : SortedMap K V) (k : K) : Option (K × V) :=
  (m.entries.filter (fun e => decide (e.1 < k))).getLast?

/-- The entry with the smallest key above `k`. -/
def above (m : SortedMap K V) (k : K) : Option (K × V) :=
  (m.entries.filter (fun e => decide (k < e.1))).head?

variable {m : SortedMap K V} {k : K} {v : V} {e : K × V}

/-- There is one entry for a key. -/
theorem eq_of_mem {e e' : K × V} (h : e ∈ m.entries) (h' : e' ∈ m.entries) (hk : e.1 = e'.1) :
    e = e' := by
  by_contra hne
  have hdiff : m.entries.Pairwise (fun a b => a.1 ≠ b.1) := m.sorted.imp (fun hab => hab.ne)
  have : Std.Symm (fun a b : K × V => a.1 ≠ b.1) := ⟨fun _ _ hab => hab.symm⟩
  exact hdiff.forall h h' hne hk

/-- A map is given by its entries, in the order of the keys. -/
theorem entries_eq {l : List (K × V)} (hl : l.Pairwise (fun a b => a.1 < b.1))
    (h : ∀ e, e ∈ m.entries ↔ e ∈ l) : m.entries = l := by
  have : Std.Antisymm (fun a b : K × V => a.1 < b.1) := ⟨fun _ _ hab hba => (hab.asymm hba).elim⟩
  have : Std.Irrefl (fun a b : K × V => a.1 < b.1) := ⟨fun _ => lt_irrefl _⟩
  exact List.Subset.antisymm_of_pairwise m.sorted hl (fun e he => (h e).mp he)
    (fun e he => (h e).mpr he)

theorem mem_single : e ∈ (single k v).entries ↔ e = (k, v) := List.mem_singleton

theorem mem_erase : e ∈ (m.erase k).entries ↔ e ∈ m.entries ∧ e.1 ≠ k := by
  simp [erase, List.mem_filter]

theorem mem_insert : e ∈ (m.insert k v).entries ↔ e = (k, v) ∨ e ∈ m.entries ∧ e.1 ≠ k := by
  simp only [insert, List.mem_append, List.mem_cons, List.mem_filter, decide_eq_true_eq]
  constructor
  · rintro (⟨he, hlt⟩ | rfl | ⟨he, hlt⟩)
    · exact Or.inr ⟨he, hlt.ne⟩
    · exact Or.inl rfl
    · exact Or.inr ⟨he, hlt.ne'⟩
  · rintro (rfl | ⟨he, hne⟩)
    · exact Or.inr (Or.inl rfl)
    · rcases lt_or_gt_of_ne hne with hlt | hlt
      · exact Or.inl ⟨he, hlt⟩
      · exact Or.inr (Or.inr ⟨he, hlt⟩)

theorem mem_modify {f : V → V} : e ∈ (m.modify k f).entries ↔
    (e ∈ m.entries ∧ e.1 ≠ k) ∨ ∃ v, (k, v) ∈ m.entries ∧ e = (k, f v) := by
  simp only [modify, List.mem_map]
  constructor
  · rintro ⟨a, ha, rfl⟩
    by_cases hk : a.1 = k
    · subst hk
      rw [if_pos rfl]
      exact Or.inr ⟨a.2, ha, rfl⟩
    · rw [if_neg hk]
      exact Or.inl ⟨ha, hk⟩
  · rintro (⟨he, hne⟩ | ⟨v, hv, rfl⟩)
    · exact ⟨e, he, if_neg hne⟩
    · exact ⟨(k, v), hv, if_pos rfl⟩

theorem get?_eq_some : m.get? k = some v ↔ (k, v) ∈ m.entries := by
  unfold get?
  constructor
  · intro h
    obtain ⟨a, ha, rfl⟩ := Option.map_eq_some_iff.mp h
    have hk : a.1 = k := by simpa using List.find?_some ha
    exact hk ▸ List.mem_of_find?_eq_some ha
  · intro h
    cases ha : m.entries.find? (fun e => decide (e.1 = k)) with
    | none =>
        have hnone := List.find?_eq_none.mp ha (k, v) h
        exact absurd (decide_eq_true rfl) hnone
    | some a =>
        have hk : a.1 = k := by simpa using List.find?_some ha
        rw [eq_of_mem (List.mem_of_find?_eq_some ha) h hk]
        rfl

/-- A sorted list begins with its least element. -/
theorem head?_eq_some_iff_of_sorted {α κ : Type} [LinearOrder κ] {f : α → κ} {l : List α}
    (hl : l.Pairwise (fun a b => f a < f b)) {e : α} :
    l.head? = some e ↔ e ∈ l ∧ ∀ a ∈ l, f e ≤ f a := by
  cases l with
  | nil => simp
  | cons b l =>
      have hlt := (List.pairwise_cons.mp hl).1
      constructor
      · intro h
        obtain rfl := Option.some.inj h
        refine ⟨List.mem_cons_self, fun a ha => ?_⟩
        rcases List.mem_cons.mp ha with rfl | ha
        · exact le_rfl
        · exact (hlt a ha).le
      · rintro ⟨he, hmin⟩
        rcases List.mem_cons.mp he with rfl | he
        · rfl
        · exact absurd (hmin b List.mem_cons_self) (not_le.mpr (hlt e he))

/-- **The entry before a key.** -/
theorem below_eq_some : m.below k = some e ↔
    e ∈ m.entries ∧ e.1 < k ∧ ∀ a ∈ m.entries, a.1 < k → a.1 ≤ e.1 := by
  -- the first one, in the other order
  have hsorted : (m.entries.filter (fun e => decide (e.1 < k))).reverse.Pairwise
      (fun a b => OrderDual.toDual a.1 < OrderDual.toDual b.1) :=
    List.pairwise_reverse.mpr (m.sorted.filter _)
  unfold below
  rw [← List.head?_reverse, head?_eq_some_iff_of_sorted hsorted]
  simp only [List.mem_reverse, List.mem_filter, decide_eq_true_eq, and_imp, and_assoc,
    OrderDual.toDual_le_toDual]

theorem below_eq_none : m.below k = none ↔ ∀ a ∈ m.entries, ¬a.1 < k := by
  unfold below
  rw [List.getLast?_eq_none_iff, List.filter_eq_nil_iff]
  simp only [decide_eq_true_eq]

/-- **The entry behind a key.** -/
theorem above_eq_some : m.above k = some e ↔
    e ∈ m.entries ∧ k < e.1 ∧ ∀ a ∈ m.entries, k < a.1 → e.1 ≤ a.1 := by
  unfold above
  rw [head?_eq_some_iff_of_sorted (m.sorted.filter _)]
  simp only [List.mem_filter, decide_eq_true_eq, and_imp, and_assoc]

theorem above_eq_none : m.above k = none ↔ ∀ a ∈ m.entries, ¬k < a.1 := by
  unfold above
  rw [List.head?_eq_none_iff, List.filter_eq_nil_iff]
  simp only [decide_eq_true_eq]

end SortedMap

end Vostd
