/-
# Loops that collect lists

A traversal that visits some indices in turn, and at each of them returns the list
of what it did there, returns the concatenation of these lists.  `collect` is such a
loop, and `forRange_collect` says that a counted loop with an accumulator is one.

Two traversals are compared by what they collect.  If each list begins with an entry
that tells the index, and such entries occur nowhere else, then equal concatenations
have equal indices and equal lists at each index (`flatMap_marked`).
-/
import Vostd.Lib.Exec

namespace Vostd

namespace Exec

variable {γ : Type} {f : ℕ → Exec (List γ)}

/-- Runs `f` at each index in turn and concatenates what it returns. -/
def collect (f : ℕ → Exec (List γ)) : List ℕ → Exec (List γ)
  | [] => .ok []
  | i :: is => do
      let c ← f i
      let cs ← collect f is
      .ok (c ++ cs)

/-- A counted loop whose body appends to an accumulator. -/
theorem forRange_append {body : ℕ → List γ → Exec (List γ)}
    (hbody : ∀ i acc, body i acc = (f i >>= fun c => .ok (acc ++ c))) (n : ℕ) :
    ∀ (i : ℕ) (acc : List γ), forRange body i n acc =
      (collect f (List.range' i n) >>= fun cs => .ok (acc ++ cs)) := by
  induction n with
  | zero =>
      intro i acc
      show Except.ok acc = Except.ok (acc ++ [])
      rw [List.append_nil]
  | succ n ih =>
      intro i acc
      rw [forRange, List.range'_succ, collect, hbody]
      cases f i with
      | error e => rfl
      | ok c =>
          show forRange body (i + 1) n (acc ++ c) = _
          rw [ih]
          cases collect f (List.range' (i + 1) n) with
          | error e => simp [bind, Except.bind]
          | ok cs => simp [bind, Except.bind]

theorem forRange_collect {body : ℕ → List γ → Exec (List γ)}
    (hbody : ∀ i acc, body i acc = (f i >>= fun c => .ok (acc ++ c))) (i n : ℕ) :
    forRange body i n [] = collect f (List.range' i n) := by
  rw [forRange_append hbody]
  cases collect f (List.range' i n) with
  | error e => rfl
  | ok cs => rfl

/-- What the loop returns: each index returned, and the lists are concatenated. -/
theorem collect_eq_ok {is : List ℕ} {l : List γ} : collect f is = .ok l ↔
    ∃ g : ℕ → List γ, (∀ i ∈ is, f i = .ok (g i)) ∧ l = is.flatMap g := by
  constructor
  · intro h
    -- the list at an index does not depend on its place in the loop
    refine ⟨fun i => (f i).toOption.getD [], ?_⟩
    induction is generalizing l with
    | nil =>
        cases h
        exact ⟨fun i hi => absurd hi (List.not_mem_nil), rfl⟩
    | cons i is ih =>
        obtain ⟨c, hc, h⟩ := bind_eq_ok.mp h
        obtain ⟨cs, hcs, h⟩ := bind_eq_ok.mp h
        cases h
        obtain ⟨hall, rfl⟩ := ih hcs
        constructor
        · intro j hj
          rcases List.mem_cons.mp hj with rfl | hj
          · simp [hc, Except.toOption]
          · exact hall j hj
        · rw [List.flatMap_cons, hc]
          rfl
  · rintro ⟨g, hall, rfl⟩
    induction is with
    | nil => rfl
    | cons i is ih =>
        rw [collect, hall i List.mem_cons_self]
        show collect f is >>= _ = _
        rw [ih (fun j hj => hall j (List.mem_cons_of_mem i hj))]
        rfl

end Exec

section

variable {γ : Type}

/-- Indices that contribute nothing can be left out. -/
theorem flatMap_eq_filter {T : ℕ → Bool} {c : ℕ → List γ} {is : List ℕ}
    (h : ∀ i ∈ is, T i = false → c i = []) : is.flatMap c = (is.filter T).flatMap c := by
  induction is with
  | nil => rfl
  | cons i is ih =>
      have htail := ih (fun j hj => h j (List.mem_cons_of_mem i hj))
      rw [List.flatMap_cons, htail]
      cases hT : T i with
      | false => rw [List.filter_cons_of_neg (by simp [hT]), h i List.mem_cons_self hT,
        List.nil_append]
      | true => rw [List.filter_cons_of_pos hT, List.flatMap_cons]

/-- Two lists that go on with a mark, or end, after the same unmarked part. -/
theorem append_inj_of_marked {M : γ → Prop} {c d l l' : List γ} (hc : ∀ x ∈ c, ¬M x)
    (hd : ∀ x ∈ d, ¬M x) (hl : ∀ x, l.head? = some x → M x) (hl' : ∀ x, l'.head? = some x → M x)
    (h : c ++ l = d ++ l') : c = d ∧ l = l' := by
  induction c generalizing d with
  | nil =>
      cases d with
      | nil => exact ⟨rfl, h⟩
      | cons y d =>
          -- the mark that `l` begins with would be in `d`
          have hhead : l.head? = some y := by
            rw [List.nil_append] at h
            rw [h]
            rfl
          exact absurd (hl y hhead) (hd y List.mem_cons_self)
  | cons x c ih =>
      cases d with
      | nil =>
          have hhead : l'.head? = some x := by
            rw [List.nil_append] at h
            rw [← h]
            rfl
          exact absurd (hl' x hhead) (hc x List.mem_cons_self)
      | cons y d =>
          rw [List.cons_append, List.cons_append] at h
          obtain ⟨rfl, htail⟩ := List.cons_eq_cons.mp h
          obtain ⟨rfl, hll⟩ := ih (fun z hz => hc z (List.mem_cons_of_mem _ hz))
            (fun z hz => hd z (List.mem_cons_of_mem _ hz)) htail
          exact ⟨rfl, hll⟩

/-- A concatenation of lists that begin with marks begins with a mark. -/
theorem head?_flatMap_marked {M : γ → Prop} {mark : ℕ → γ} {c : ℕ → List γ} {is : List ℕ}
    (hmark : ∀ i ∈ is, M (mark i)) (x : γ)
    (hx : (is.flatMap (fun i => mark i :: c i)).head? = some x) : M x := by
  cases is with
  | nil => cases hx
  | cons i is =>
      rw [List.flatMap_cons, List.cons_append, List.head?_cons] at hx
      obtain rfl := Option.some.inj hx
      exact hmark i List.mem_cons_self

/-- **Marked concatenations.**  Where the marks tell the indices, equal concatenations
come from equal indices with equal lists. -/
theorem flatMap_marked {M : γ → Prop} {mark : ℕ → γ} {c d : ℕ → List γ} {is : List ℕ} :
    ∀ {js : List ℕ}, (∀ i ∈ is, M (mark i)) → (∀ j ∈ js, M (mark j)) →
    (∀ i ∈ is, ∀ j ∈ js, mark i = mark j → i = j) →
    (∀ i ∈ is, ∀ x ∈ c i, ¬M x) → (∀ j ∈ js, ∀ x ∈ d j, ¬M x) →
    is.flatMap (fun i => mark i :: c i) = js.flatMap (fun j => mark j :: d j) →
    is = js ∧ ∀ i ∈ is, c i = d i := by
  induction is with
  | nil =>
      intro js _ _ _ _ _ h
      cases js with
      | nil => exact ⟨rfl, fun i hi => absurd hi List.not_mem_nil⟩
      | cons j js => cases h
  | cons i is ih =>
      intro js hi hj hinj hc hd h
      cases js with
      | nil => cases h
      | cons j js =>
          rw [List.flatMap_cons, List.flatMap_cons, List.cons_append, List.cons_append] at h
          obtain ⟨hmark, h⟩ := List.cons_eq_cons.mp h
          obtain rfl := hinj i List.mem_cons_self j List.mem_cons_self hmark
          have hi' : ∀ k ∈ is, M (mark k) := fun k hk => hi k (List.mem_cons_of_mem _ hk)
          have hj' : ∀ k ∈ js, M (mark k) := fun k hk => hj k (List.mem_cons_of_mem _ hk)
          obtain ⟨hcd, hrest⟩ := append_inj_of_marked (hc i List.mem_cons_self)
            (hd i List.mem_cons_self) (head?_flatMap_marked hi') (head?_flatMap_marked hj') h
          obtain ⟨rfl, hall⟩ := ih hi' hj'
            (fun k hk k' hk' => hinj k (List.mem_cons_of_mem _ hk) k' (List.mem_cons_of_mem _ hk'))
            (fun k hk => hc k (List.mem_cons_of_mem _ hk))
            (fun k hk => hd k (List.mem_cons_of_mem _ hk)) hrest
          refine ⟨rfl, ?_⟩
          intro k hk
          rcases List.mem_cons.mp hk with rfl | hk
          · exact hcd
          · exact hall k hk

/-- Two increasing lists with the same elements are equal. -/
theorem eq_of_increasing {l l' : List ℕ} (h : l.Pairwise (· < ·)) (h' : l'.Pairwise (· < ·))
    (hmem : ∀ i, i ∈ l ↔ i ∈ l') : l = l' := by
  have hperm : l.Perm l' :=
    (List.perm_ext_iff_of_nodup (h.imp fun hlt => Nat.ne_of_lt hlt)
      (h'.imp fun hlt => Nat.ne_of_lt hlt)).mpr hmem
  exact hperm.eq_of_pairwise (fun a b _ _ hab hba => absurd hab (Nat.lt_asymm hba)) h h'

end

end Vostd
