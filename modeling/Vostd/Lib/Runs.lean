/-
# Runs of a function

An interval is cut into pieces on each of which a function is constant, from left to right
(`Tiles`).  If neighbouring pieces have different values, then the pieces are the runs of the
function, and there is only one such list (`Tiles.unique`): whoever computes the pieces, in
whatever way, gets the same list.
-/
import Mathlib

namespace Vostd

/-- How to read a piece: where it starts and stops, and its value.  It is nothing else. -/
structure RunView (R α T : Type*) where
  start : R → α
  stop : R → α
  val : R → T
  ext : ∀ r s, start r = start s → stop r = stop s → val r = val s → r = s

section

variable {R α T : Type*} [LinearOrder α]

/-- The pieces lie side by side from `lo` to `hi`, and each has the value of `f` on it. -/
inductive Tiles (v : RunView R α T) (f : α → T) (hi : α) : α → List R → Prop
  | nil : Tiles v f hi hi []
  | cons {lo : α} {r : R} {rs : List R} (start : v.start r = lo) (pos : lo < v.stop r)
      (val : ∀ x, lo ≤ x → x < v.stop r → f x = v.val r) (rest : Tiles v f hi (v.stop r) rs) :
      Tiles v f hi lo (r :: rs)

namespace Tiles

variable {v : RunView R α T} {f g : α → T} {lo mid hi : α} {r s : R} {rs ss : List R}

theorem le (h : Tiles v f hi lo rs) : lo ≤ hi := by
  induction h with
  | nil => exact le_rfl
  | cons _ pos _ _ ih => exact pos.le.trans ih

theorem eq_of_nil (h : Tiles v f hi lo []) : lo = hi := by
  cases h
  rfl

theorem of_cons (h : Tiles v f hi lo (r :: rs)) : v.start r = lo ∧ lo < v.stop r ∧
    (∀ x, lo ≤ x → x < v.stop r → f x = v.val r) ∧ Tiles v f hi (v.stop r) rs := by
  cases h with
  | cons start pos val rest => exact ⟨start, pos, val, rest⟩

/-- Two lists of pieces, one behind the other. -/
theorem append (h : Tiles v f mid lo rs) (h' : Tiles v f hi mid ss) :
    Tiles v f hi lo (rs ++ ss) := by
  induction h with
  | nil => exact h'
  | cons start pos val _ ih => exact .cons start pos val ih

theorem of_append (h : Tiles v f hi lo (rs ++ ss)) :
    ∃ mid, Tiles v f mid lo rs ∧ Tiles v f hi mid ss := by
  induction rs generalizing lo with
  | nil => exact ⟨lo, .nil, h⟩
  | cons r rs ih =>
      cases h with
      | cons start pos val rest =>
          obtain ⟨mid, h₁, h₂⟩ := ih rest
          exact ⟨mid, .cons start pos val h₁, h₂⟩

theorem single (hpos : v.start r < v.stop r)
    (hval : ∀ x, v.start r ≤ x → x < v.stop r → f x = v.val r) :
    Tiles v f (v.stop r) (v.start r) [r] :=
  .cons rfl hpos hval .nil

/-- **A piece is added at the end.** -/
theorem concat (h : Tiles v f (v.start r) lo rs) (hpos : v.start r < v.stop r)
    (hval : ∀ x, v.start r ≤ x → x < v.stop r → f x = v.val r) :
    Tiles v f (v.stop r) lo (rs ++ [r]) :=
  h.append (single hpos hval)

theorem of_concat (h : Tiles v f hi lo (rs ++ [r])) :
    Tiles v f (v.start r) lo rs ∧ v.start r < v.stop r ∧ v.stop r = hi ∧
      ∀ x, v.start r ≤ x → x < v.stop r → f x = v.val r := by
  obtain ⟨mid, h₁, h₂⟩ := h.of_append
  cases h₂ with
  | cons start pos val rest =>
      subst start
      exact ⟨h₁, pos, rest.eq_of_nil, val⟩

/-- The function matters only on the interval. -/
theorem congr (h : Tiles v f hi lo rs) (hfg : ∀ x, lo ≤ x → x < hi → f x = g x) :
    Tiles v g hi lo rs := by
  induction h with
  | nil => exact .nil
  | cons start pos val rest ih =>
      refine .cons start pos ?_ (ih (fun x hx hx' => hfg x (pos.le.trans hx) hx'))
      intro x hx hx'
      rw [← hfg x hx (hx'.trans_le rest.le)]
      exact val x hx hx'

/-- What holds of each piece. -/
theorem of_mem (h : Tiles v f hi lo rs) (hr : r ∈ rs) :
    lo ≤ v.start r ∧ v.start r < v.stop r ∧ v.stop r ≤ hi ∧
      ∀ x, v.start r ≤ x → x < v.stop r → f x = v.val r := by
  induction h with
  | nil => cases hr
  | cons start pos val rest ih =>
      rcases List.mem_cons.mp hr with rfl | hr
      · subst start
        exact ⟨le_rfl, pos, rest.le, val⟩
      · obtain ⟨hlo, hrest⟩ := ih hr
        exact ⟨pos.le.trans hlo, hrest⟩

/-- Every point is in a piece. -/
theorem exists_mem (h : Tiles v f hi lo rs) {x : α} (hx : lo ≤ x) (hx' : x < hi) :
    ∃ r ∈ rs, v.start r ≤ x ∧ x < v.stop r := by
  induction h with
  | nil => exact absurd hx (not_le.mpr hx')
  | @cons lo r rs start pos val rest ih =>
      by_cases hr : x < v.stop r
      · exact ⟨r, List.mem_cons_self, start.le.trans hx, hr⟩
      · obtain ⟨s, hs, hsx⟩ := ih (not_lt.mp hr)
        exact ⟨s, List.mem_cons_of_mem r hs, hsx⟩

/-- A piece starts at the left end or where another one stops. -/
theorem start_eq (h : Tiles v f hi lo rs) (hr : r ∈ rs) :
    v.start r = lo ∨ ∃ s ∈ rs, v.stop s = v.start r := by
  induction h with
  | nil => cases hr
  | @cons lo q rs start pos val rest ih =>
      rcases List.mem_cons.mp hr with rfl | hr
      · exact Or.inl start
      · rcases ih hr with heq | ⟨s, hs, heq⟩
        · exact Or.inr ⟨q, List.mem_cons_self, heq.symm⟩
        · exact Or.inr ⟨s, List.mem_cons_of_mem q hs, heq⟩

/-- The pieces are sorted. -/
theorem sorted (h : Tiles v f hi lo rs) : rs.Pairwise (fun r s => v.stop r ≤ v.start s) := by
  induction h with
  | nil => exact .nil
  | cons start pos val rest ih => exact .cons (fun s hs => (rest.of_mem hs).1) ih

/-- Neighbours touch. -/
theorem contiguous (h : Tiles v f hi lo rs) : rs.IsChain (fun r s => v.stop r = v.start s) := by
  induction h with
  | nil => exact .nil
  | cons start pos val rest ih =>
      cases rest with
      | nil => exact .singleton _
      | cons start' pos' val' rest' => exact .cons_cons start'.symm ih

/-- Pieces that touch, from `lo` on. -/
theorem of_isChain (hchain : rs.IsChain (fun r s => v.stop r = v.start s))
    (hpos : ∀ r ∈ rs, v.start r < v.stop r)
    (hval : ∀ r ∈ rs, ∀ x, v.start r ≤ x → x < v.stop r → f x = v.val r)
    (hlo : ∀ r ∈ rs.head?, v.start r = lo) : ∃ hi, Tiles v f hi lo rs := by
  induction rs generalizing lo with
  | nil => exact ⟨lo, .nil⟩
  | cons r rs ih =>
      obtain rfl := hlo r (Option.mem_some_iff.mpr rfl)
      have hnext : ∀ s ∈ rs.head?, v.start s = v.stop r := by
        intro s hs
        cases rs with
        | nil => cases hs
        | cons q rs =>
            obtain rfl := Option.mem_some_iff.mp hs
            cases hchain with
            | cons_cons htouch _ => exact htouch.symm
      obtain ⟨hi, htiles⟩ := ih hchain.tail (fun s hs => hpos s (List.mem_cons_of_mem r hs))
        (fun s hs => hval s (List.mem_cons_of_mem r hs)) hnext
      have hr : r ∈ r :: rs := List.mem_cons_self
      exact ⟨hi, .cons rfl (hpos r hr) (hval r hr) htiles⟩

/-- The value at the left end is that of the first piece. -/
theorem val_head (h : Tiles v f hi lo (r :: rs)) : f lo = v.val r := by
  cases h with
  | cons start pos val rest => exact val lo le_rfl pos

/-- The first run ends where any list of runs says that it ends. -/
theorem stop_le (h : Tiles v f hi lo (r :: rs)) (h' : Tiles v f hi lo (s :: ss))
    (hne : (r :: rs).IsChain (fun r s => v.val r ≠ v.val s)) : v.stop s ≤ v.stop r := by
  have hval : v.val r = v.val s := h.val_head.symm.trans h'.val_head
  cases h with
  | cons start pos val rest =>
      cases h' with
      | cons start' pos' val' rest' =>
          by_contra hlt
          rw [not_le] at hlt
          -- the run `s` goes on where `r` ends, and the piece behind `r` has another value
          cases rest with
          | nil => exact absurd rest'.le (not_le.mpr hlt)
          | @cons _ q _ start₂ pos₂ val₂ rest₂ =>
              have hq : f (v.stop r) = v.val q := val₂ _ le_rfl pos₂
              have hs : f (v.stop r) = v.val s := val' _ pos.le hlt
              have hrq : v.val r ≠ v.val q := by
                cases hne with
                | cons_cons hrq _ => exact hrq
              exact hrq (hval.trans (hs.symm.trans hq))

/-- **There is only one list of runs.** -/
theorem unique (h : Tiles v f hi lo rs) (h' : Tiles v f hi lo ss)
    (hr : rs.IsChain (fun r s => v.val r ≠ v.val s))
    (hs : ss.IsChain (fun r s => v.val r ≠ v.val s)) : rs = ss := by
  induction rs generalizing lo ss with
  | nil =>
      cases ss with
      | nil => rfl
      | cons s ss =>
          obtain rfl := h.eq_of_nil
          cases h' with
          | cons _ pos _ rest => exact absurd rest.le (not_le.mpr pos)
  | cons r rs ih =>
      cases ss with
      | nil =>
          obtain rfl := h'.eq_of_nil
          cases h with
          | cons _ pos _ rest => exact absurd rest.le (not_le.mpr pos)
      | cons s ss =>
          have hval : v.val r = v.val s := h.val_head.symm.trans h'.val_head
          have hstop : v.stop r = v.stop s := (h'.stop_le h hs).antisymm (h.stop_le h' hr)
          cases h with
          | cons start pos val rest =>
              cases h' with
              | cons start' pos' val' rest' =>
                  obtain rfl : r = s := v.ext r s (start.trans start'.symm) hstop hval
                  rw [ih rest rest' hr.tail hs.tail]

end Tiles

end

end Vostd
