/-
# Chains of pointers

A pointer field `f` lays out a list when it leads from each element to the next one and from
the last element to nothing.  A doubly linked list is laid out by one field, and its reversal
by the other; so each fact about chains serves both directions.

The lemmas say how a chain changes when an element is put in or taken out, in terms of what
the field points to afterwards.  They do not say by which writes it got there.
-/
import Mathlib

namespace Vostd

variable {α : Type} {f f' : α → Option α} {as bs xs : List α} {x y : α}

/-- The field `f` leads through the list and ends with it. -/
def Chain (f : α → Option α) (xs : List α) : Prop :=
  ∀ as x bs, xs = as ++ x :: bs → f x = bs.head?

/-- The elements that are met from `p` on, at most `n` of them. -/
def walk (f : α → Option α) : ℕ → Option α → List α
  | 0, _ => []
  | _ + 1, none => []
  | n + 1, some x => x :: walk f n (f x)

namespace Chain

theorem nil (f : α → Option α) : Chain f [] := by
  intro as x bs h
  cases as <;> cases h

/-- What the field says at an element. -/
theorem at_split (h : Chain f (as ++ x :: bs)) : f x = bs.head? := h as x bs rfl

theorem congr (h : Chain f xs) (hf : ∀ y ∈ xs, f' y = f y) : Chain f' xs := by
  intro as x bs heq
  rw [hf x (by rw [heq]; simp), h as x bs heq]

theorem tail (h : Chain f (x :: xs)) : Chain f xs := by
  intro as y bs heq
  exact h (x :: as) y bs (by rw [heq]; rfl)

/-- **A walk along a chain meets the elements in order**, and stops by itself. -/
theorem walk_eq (h : Chain f xs) : ∀ n, xs.length ≤ n → walk f n xs.head? = xs := by
  induction xs with
  | nil =>
      intro n _
      cases n <;> rfl
  | cons x xs ih =>
      intro n hn
      obtain ⟨k, rfl⟩ : ∃ k, n = k + 1 := ⟨n - 1, by simp at hn; omega⟩
      show x :: walk f k (f x) = x :: xs
      rw [h [] x xs rfl, ih h.tail k (by simpa using hn)]

/-- An element that is not last has a successor among the others. -/
theorem getLast?_ne {cs ds : List α} (hnodup : (cs ++ y :: ds).Nodup) (hne : ds ≠ []) :
    (cs ++ y :: ds).getLast? ≠ some y := by
  intro hlast
  have hds : ds.getLast? = some y := by
    rw [List.getLast?_append_of_ne_nil _ (List.cons_ne_nil _ _)] at hlast
    rwa [List.getLast?_cons_of_ne_nil hne] at hlast
  have hmem : y ∈ ds := List.mem_of_getLast? hds
  have := (List.nodup_append.mp hnodup).2.1
  exact (List.nodup_cons.mp this).1 hmem

/-- **The part `xs` between `as` and `bs` is replaced** by `ys`: the last of `as` now leads to the
first that comes behind it. -/
theorem splice (xs ys : List α) (h : Chain f (as ++ (xs ++ bs))) (hnodup : (as ++ (xs ++ bs)).Nodup)
    (hys : ∀ cs y ds, ys = cs ++ y :: ds → f' y = (ds ++ bs).head?)
    (hlast : ∀ y, as.getLast? = some y → f' y = (ys ++ bs).head?)
    (hother : ∀ y ∈ as ++ bs, as.getLast? ≠ some y → f' y = f y) : Chain f' (as ++ (ys ++ bs)) := by
  have hdisj := (List.nodup_append.mp hnodup).2.2
  have hbs : ∀ cs y ds, bs = cs ++ y :: ds → f' y = ds.head? := by
    rintro cs y ds rfl
    have hy : as.getLast? ≠ some y := fun hlast' =>
      hdisj y (List.mem_of_getLast? hlast') y (by simp) rfl
    rw [hother y (by simp) hy, h (as ++ (xs ++ cs)) y ds (by simp)]
  have hback : ∀ cs y ds, ys ++ bs = cs ++ y :: ds → f' y = ds.head? := by
    intro cs y ds heq
    rcases List.append_eq_append_iff.mp heq with ⟨es, -, hes⟩ | ⟨es, hcs, hes⟩
    · exact hbs es y ds hes
    · cases es with
      | nil => exact hbs [] y ds hes.symm
      | cons e es =>
          obtain ⟨rfl, rfl⟩ := List.cons.inj hes
          exact hys cs y es hcs
  intro cs y ds heq
  rcases List.append_eq_append_iff.mp heq with ⟨es, -, hes⟩ | ⟨es, rfl, hes⟩
  · exact hback es y ds hes
  · cases es with
    | nil => exact hback [] y ds hes.symm
    | cons e es =>
        -- `y` comes before the part
        obtain ⟨rfl, rfl⟩ := List.cons.inj hes
        cases es with
        | nil => exact hlast y (by simp)
        | cons e es =>
            have hcs : (cs ++ y :: e :: es).Nodup := (List.nodup_append.mp hnodup).1
            rw [hother y (by simp) (getLast?_ne hcs (List.cons_ne_nil _ _)),
              h cs y (e :: es ++ (xs ++ bs)) (by simp)]
            rfl

/-- **An element is put in** between `as` and `bs`. -/
theorem insert (h : Chain f (as ++ bs)) (hnodup : (as ++ bs).Nodup) (hx : f' x = bs.head?)
    (hlast : ∀ y, as.getLast? = some y → f' y = some x)
    (hother : ∀ y ∈ as ++ bs, as.getLast? ≠ some y → f' y = f y) : Chain f' (as ++ x :: bs) := by
  refine splice [] [x] h hnodup ?_ hlast hother
  intro cs y ds heq
  cases cs with
  | nil =>
      obtain ⟨rfl, rfl⟩ := List.cons.inj heq
      exact hx
  | cons c cs => simp at heq

/-- **An element is taken out** between `as` and `bs`. -/
theorem remove (h : Chain f (as ++ x :: bs)) (hnodup : (as ++ x :: bs).Nodup)
    (hlast : ∀ y, as.getLast? = some y → f' y = bs.head?)
    (hother : ∀ y ∈ as ++ bs, as.getLast? ≠ some y → f' y = f y) : Chain f' (as ++ bs) :=
  splice [x] [] h hnodup (fun cs y ds heq => by simp at heq) hlast hother

end Chain

end Vostd
