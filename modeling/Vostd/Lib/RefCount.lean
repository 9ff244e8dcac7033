/-
# Reference counts

Objects are referred to from slots and from handles outside the slots.  The count
of an object is right when it is the number of both (`Counted`).  The lemmas below
are the moves that keep counts right: a reference moves from a slot to a handle or
back, a handle is cloned, and a handle is given up.
-/
import Mathlib

namespace Vostd

open Function

variable {O S : Type*}

/-- The counts `rc` are those of the handles `ext` and of the references `ref` in
slots. -/
structure Counted (rc ext : O → ℕ) (ref : S → Option O) : Prop where
  finite : {s | ref s ≠ none}.Finite
  count : ∀ o, rc o = ext o + {s | ref s = some o}.ncard

namespace Counted

variable {rc ext : O → ℕ} {ref : S → Option O} {o : O} {s : S}

theorem finite_refs (h : Counted rc ext ref) (o : O) : {s | ref s = some o}.Finite := by
  refine h.finite.subset ?_
  intro s hs
  simp only [Set.mem_ofPred_eq] at hs ⊢
  rw [hs]
  exact Option.some_ne_none o

theorem ext_le (h : Counted rc ext ref) (o : O) : ext o ≤ rc o := by
  rw [h.count o]
  exact Nat.le_add_right _ _

theorem pos_of_ref (h : Counted rc ext ref) (hs : ref s = some o) : rc o ≠ 0 := by
  have hpos : 0 < {s | ref s = some o}.ncard :=
    (Set.ncard_pos (h.finite_refs o)).mpr ⟨s, hs⟩
  have hcount := h.count o
  omega

/-- Nothing refers to an object of count zero. -/
theorem no_ref (h : Counted rc ext ref) (ho : rc o = 0) (s : S) : ref s ≠ some o :=
  fun hs => h.pos_of_ref hs ho

theorem congr (h : Counted rc ext ref) {rc' ext' : O → ℕ} {ref' : S → Option O} (hrc : rc' = rc)
    (hext : ∀ o, ext' o = ext o) (href : ∀ s, ref' s = ref s) : Counted rc' ext' ref' := by
  obtain rfl : ext' = ext := funext hext
  obtain rfl : ref' = ref := funext href
  rwa [hrc]

variable [DecidableEq O]

/-- A handle is cloned. -/
theorem clone (h : Counted rc ext ref) (o : O) :
    Counted (update rc o (rc o + 1)) (update ext o (ext o + 1)) ref where
  finite := h.finite
  count := by
    intro o'
    by_cases ho : o' = o
    · subst ho
      have hcount := h.count o'
      rw [update_self, update_self]
      omega
    · rw [update_of_ne ho, update_of_ne ho, h.count o']

/-- A handle is given up. -/
theorem drop (h : Counted rc ext ref) (ho : 1 ≤ ext o) :
    Counted (update rc o (rc o - 1)) (update ext o (ext o - 1)) ref where
  finite := h.finite
  count := by
    intro o'
    by_cases ho' : o' = o
    · subst ho'
      have hcount := h.count o'
      rw [update_self, update_self]
      omega
    · rw [update_of_ne ho', update_of_ne ho', h.count o']

variable [DecidableEq S]

omit [DecidableEq O] in
/-- The references to `o`, when one slot is cleared. -/
theorem refs_clear (ref : S → Option O) (s : S) (o : O) :
    {t | update ref s none t = some o} = {t | ref t = some o} \ {s} := by
  ext t
  simp only [Set.mem_ofPred_eq, Set.mem_sdiff, Set.mem_singleton_iff]
  by_cases ht : t = s
  · subst ht
    simp only [update_self, reduceCtorEq, not_true_eq_false, and_false]
  · simp only [update_of_ne ht, ht, not_false_eq_true, and_true]

/-- The reference of a slot moves into a handle. -/
theorem take (h : Counted rc ext ref) (hs : ref s = some o) :
    Counted rc (update ext o (ext o + 1)) (update ref s none) where
  finite := by
    refine h.finite.subset ?_
    intro t ht
    simp only [Set.mem_ofPred_eq] at ht ⊢
    by_cases hts : t = s
    · subst hts
      rw [update_self] at ht
      exact absurd rfl ht
    · rwa [update_of_ne hts] at ht
  count := by
    intro o'
    have hcount := h.count o'
    rw [refs_clear]
    by_cases ho : o' = o
    · subst ho
      have hmem : s ∈ {t | ref t = some o'} := hs
      have hpos : 0 < {t | ref t = some o'}.ncard :=
        (Set.ncard_pos (h.finite_refs o')).mpr ⟨s, hmem⟩
      rw [update_self, Set.ncard_sdiff_singleton_of_mem hmem]
      omega
    · rw [update_of_ne ho, Set.sdiff_singleton_eq_self, hcount]
      intro hmem
      rw [Set.mem_ofPred_eq, hs] at hmem
      exact ho (Option.some.inj hmem).symm

/-- A handle moves into an empty slot. -/
theorem give (h : Counted rc ext ref) (hs : ref s = none) (ho : 1 ≤ ext o) :
    Counted rc (update ext o (ext o - 1)) (update ref s (some o)) where
  finite := by
    refine (h.finite.insert s).subset ?_
    intro t ht
    by_cases hts : t = s
    · exact Set.mem_insert_iff.mpr (Or.inl hts)
    · simp only [Set.mem_ofPred_eq, update_of_ne hts] at ht
      exact Set.mem_insert_of_mem _ ht
  count := by
    intro o'
    have hcount := h.count o'
    by_cases ho' : o' = o
    · subst ho'
      have hset : {t | update ref s (some o') t = some o'} = insert s {t | ref t = some o'} := by
        ext t
        by_cases hts : t = s
        · simp [hts]
        · simp [hts]
      have hnot : s ∉ {t | ref t = some o'} := by
        rw [Set.mem_ofPred_eq, hs]
        exact Option.some_ne_none o' |>.symm
      rw [update_self, hset, Set.ncard_insert_of_notMem hnot (h.finite_refs o')]
      omega
    · have hset : {t | update ref s (some o) t = some o'} = {t | ref t = some o'} := by
        ext t
        by_cases hts : t = s
        · subst hts
          simp [hs, Ne.symm ho']
        · simp [hts]
      rw [update_of_ne ho', hset, hcount]

/-- A slot is cleared: its reference, if it has one, becomes a handle. -/
theorem clear (h : Counted rc ext ref) (s : S) :
    Counted rc (fun o => ext o + if ref s = some o then 1 else 0) (update ref s none) := by
  cases hs : ref s with
  | none =>
      refine h.congr rfl ?_ ?_
      · intro o
        rw [if_neg (Option.some_ne_none o).symm, Nat.add_zero]
      · intro t
        rw [← hs, update_eq_self]
  | some o =>
      refine (h.take hs).congr rfl ?_ (fun _ => rfl)
      intro o'
      by_cases ho : o' = o
      · rw [ho, if_pos rfl, update_self]
      · rw [if_neg (fun h => ho (Option.some.inj h).symm), update_of_ne ho, Nat.add_zero]

/-- A slot is overwritten: its old reference becomes a handle, and a handle becomes its
new one. -/
theorem replace (h : Counted rc ext ref) (s : S) (new : Option O) {ext' : O → ℕ}
    (hext : ∀ o, (ext' o + if new = some o then 1 else 0) =
      ext o + if ref s = some o then 1 else 0) :
    Counted rc ext' (update ref s new) := by
  have hclear := h.clear s
  cases new with
  | none =>
      refine hclear.congr rfl ?_ (fun _ => rfl)
      intro o
      rw [← hext o, if_neg (Option.some_ne_none o).symm, Nat.add_zero]
  | some o =>
      have ho := hext o
      rw [if_pos rfl] at ho
      refine (hclear.give (update_self ..) (o := o) (by omega)).congr rfl ?_ ?_
      · intro o'
        by_cases ho' : o' = o
        · rw [ho', update_self]
          omega
        · rw [update_of_ne ho', ← hext o',
            if_neg (fun h => ho' (Option.some.inj h).symm), Nat.add_zero]
      · intro t
        rw [update_idem]

end Counted

end Vostd
