/-
# Sequences of self-delimiting records

A buffer in which records follow one another, each of them long enough to say where it ends,
is read by a loop: read the record at the index, add its length to the index, stop when the
index is the end.  `records` is that loop.  Where the reader of one record accepts exactly the
pieces that a relation calls encodings of its value, the loop accepts exactly the windows that
are a concatenation of such pieces (`records_eq_ok_iff`), and as every record has a byte it
never reaches the bound that is put on its rounds (`post_records`).
-/
import Vostd.Lib.Exec

namespace Vostd

namespace Exec

variable {α : Type}

/-- `while index != stop { let (a, n) = item(index); out.push(a); index += n }`. -/
def records (item : ℕ → Exec (α × ℕ)) (stop : ℕ) : ℕ → ℕ → Exec (List α)
  | 0, index => if index = stop then .ok [] else .error .outOfFuel
  | fuel + 1, index =>
    if index = stop then .ok []
    else do
      let r ← item index
      let rest ← records item stop fuel (index + r.2)
      .ok (r.1 :: rest)

/-- The reader of one record at an index accepts exactly the pieces that `R` relates to its
value, and each of these has a byte. -/
structure Reads (bytes : List UInt8) (item : ℕ → Exec (α × ℕ)) (R : α → List UInt8 → Prop) :
    Prop where
  eq_ok_iff : ∀ index a n, index ≤ bytes.length →
    (item index = .ok (a, n) ↔
      ∃ piece rest, bytes.drop index = piece ++ rest ∧ piece.length = n ∧ R a piece)
  length_pos : ∀ a piece, R a piece → 0 < piece.length

section Records

variable {bytes : List UInt8} {item : ℕ → Exec (α × ℕ)} {R : α → List UInt8 → Prop}

theorem records_stop (stop fuel : ℕ) : records item stop fuel stop = .ok [] := by
  cases fuel <;> simp [records]

theorem records_succ {stop fuel index : ℕ} (h : index ≠ stop) :
    records item stop (fuel + 1) index =
      (item index >>= fun r =>
        records item stop fuel (index + r.2) >>= fun rest => .ok (r.1 :: rest)) := by
  rw [records, if_neg h]

/-- A record that was read ends inside the buffer. -/
theorem Reads.index_add_le (hR : Reads bytes item R) {index n : ℕ} {a : α}
    (hindex : index ≤ bytes.length) (h : item index = .ok (a, n)) :
    0 < n ∧ index + n ≤ bytes.length := by
  obtain ⟨piece, rest, hdrop, hlen, hpiece⟩ := (hR.eq_ok_iff index a n hindex).mp h
  have hpos := hR.length_pos a piece hpiece
  have hsum := congrArg List.length hdrop
  rw [List.length_drop, List.length_append] at hsum
  omega

/-- **The loop ends.**  Every round moves the index forward inside the buffer, so that the
loop stops only where the reader of a record does. -/
theorem post_records {A : Fault → Prop} (hR : Reads bytes item R)
    (hitem : ∀ index, Post A (item index) fun _ => True) (stop : ℕ) :
    ∀ fuel index, index ≤ bytes.length → bytes.length < index + fuel →
      Post A (records item stop fuel index) fun _ => True := by
  intro fuel
  induction fuel with
  | zero =>
    intro index hindex hfuel
    omega
  | succ fuel ih =>
    intro index hindex hfuel
    by_cases hstop : index = stop
    · rw [hstop, records_stop]
      trivial
    · rw [records_succ hstop]
      refine Post.bind ((hitem index).mono' fun r hr _ => hR.index_add_le hindex hr) fun r hr => ?_
      exact Post.bind (ih (index + r.2) hr.2 (by omega)) fun _ _ => trivial

/-- The pieces of a window, with the values they stand for. -/
def Pieces (R : α → List UInt8 → Prop) (as : List α) (window : List UInt8) : Prop :=
  ∃ pieces, List.Forall₂ R as pieces ∧ window = pieces.flatten

theorem pieces_nil {window : List UInt8} : Pieces R [] window ↔ window = [] := by
  constructor
  · rintro ⟨pieces, hall, rfl⟩
    cases hall
    rfl
  · rintro rfl
    exact ⟨[], List.Forall₂.nil, rfl⟩

theorem pieces_cons {a : α} {as : List α} {window : List UInt8} :
    Pieces R (a :: as) window ↔
      ∃ piece rest, window = piece ++ rest ∧ R a piece ∧ Pieces R as rest := by
  constructor
  · rintro ⟨pieces, hall, rfl⟩
    cases hall with
    | @cons _ piece _ pieces hpiece hall =>
      exact ⟨piece, pieces.flatten, List.flatten_cons, hpiece, pieces, hall, rfl⟩
  · rintro ⟨piece, rest, rfl, hpiece, pieces, hall, rfl⟩
    exact ⟨piece :: pieces, List.Forall₂.cons hpiece hall, List.flatten_cons.symm⟩

/-- There are at most as many values as bytes. -/
theorem Pieces.length_le (hR : Reads bytes item R) {as : List α} {window : List UInt8}
    (h : Pieces R as window) : as.length ≤ window.length := by
  induction as generalizing window with
  | nil => exact Nat.zero_le _
  | cons a as ih =>
    obtain ⟨piece, rest, rfl, hpiece, hrest⟩ := pieces_cons.mp h
    have hpos := hR.length_pos a piece hpiece
    have hle := ih hrest
    rw [List.length_cons, List.length_append]
    omega

/-- The window of a buffer from an index up to a later one. -/
def window (bytes : List UInt8) (index stop : ℕ) : List UInt8 :=
  (bytes.drop index).take (stop - index)

theorem window_self (bytes : List UInt8) (index : ℕ) : window bytes index index = [] := by
  rw [window, Nat.sub_self, List.take_zero]

theorem length_window {index stop : ℕ} (hstop : stop ≤ bytes.length) :
    (window bytes index stop).length = stop - index := by
  rw [window, List.length_take, List.length_drop]
  omega

/-- A window that starts with a piece of the buffer. -/
theorem window_of_drop_eq {index stop : ℕ} {piece rest : List UInt8}
    (hdrop : bytes.drop index = piece ++ rest) (hle : index + piece.length ≤ stop) :
    window bytes index stop = piece ++ window bytes (index + piece.length) stop := by
  unfold window
  rw [← List.drop_drop, hdrop, List.drop_left' rfl, List.take_append,
    List.take_of_length_le (by omega), Nat.sub_sub]

/-- The buffer from the start of a window on. -/
theorem drop_of_window_eq {index stop : ℕ} {piece rest : List UInt8} (hle : index ≤ stop)
    (hwin : window bytes index stop = piece ++ rest) :
    bytes.drop index = piece ++ (rest ++ bytes.drop stop) := by
  rw [← List.append_assoc, ← hwin, window]
  conv_lhs => rw [← List.take_append_drop (stop - index) (bytes.drop index)]
  rw [List.drop_drop, Nat.add_sub_cancel' hle]

/-- **What the loop accepts**: the windows that are a concatenation of encodings, up to a stop
that it meets exactly. -/
theorem records_eq_ok_iff (hR : Reads bytes item R) (stop : ℕ) (as : List α) :
    ∀ fuel index, index ≤ bytes.length → bytes.length < index + fuel →
      (records item stop fuel index = .ok as ↔
        index ≤ stop ∧ stop ≤ bytes.length ∧ Pieces R as (window bytes index stop)) := by
  intro fuel
  -- the values are generalised: one round takes the first of them
  induction fuel generalizing as with
  | zero =>
    intro index hindex hfuel
    omega
  | succ fuel ih =>
    intro index hindex hfuel
    by_cases hstop : index = stop
    · subst hstop
      rw [records_stop, window_self]
      constructor
      · intro h
        cases h
        exact ⟨le_rfl, hindex, pieces_nil.mpr rfl⟩
      · rintro ⟨_, _, hpieces⟩
        cases as with
        | nil => rfl
        | cons a as =>
          obtain ⟨piece, rest, hnil, hpiece, _⟩ := pieces_cons.mp hpieces
          have hpos := hR.length_pos a piece hpiece
          have hlen := congrArg List.length hnil
          rw [List.length_nil, List.length_append] at hlen
          omega
    · rw [records_succ hstop, bind_eq_ok]
      constructor
      · rintro ⟨⟨a, n⟩, hitem, hrest⟩
        obtain ⟨as', hrec, hcons⟩ := bind_eq_ok.mp hrest
        cases hcons
        obtain ⟨hpos, hle⟩ := hR.index_add_le hindex hitem
        obtain ⟨hlestop, hstople, hpieces⟩ := (ih as' (index + n) hle (by omega)).mp hrec
        obtain ⟨piece, rest, hdrop, hlen, hpiece⟩ := (hR.eq_ok_iff index a n hindex).mp hitem
        subst hlen
        refine ⟨by omega, hstople, pieces_cons.mpr ?_⟩
        exact ⟨piece, _, window_of_drop_eq hdrop hlestop, hpiece, hpieces⟩
      · rintro ⟨hle, hstople, hpieces⟩
        have hlen : (window bytes index stop).length = stop - index := length_window hstople
        cases as with
        | nil =>
          rw [pieces_nil.mp hpieces, List.length_nil] at hlen
          omega
        | cons a as =>
          obtain ⟨piece, rest, hwin, hpiece, hpieces'⟩ := pieces_cons.mp hpieces
          have hpos := hR.length_pos a piece hpiece
          have hdrop := drop_of_window_eq hle hwin
          have hle' : index + piece.length ≤ stop := by
            rw [hwin, List.length_append] at hlen
            omega
          have hrestwin : rest = window bytes (index + piece.length) stop := by
            have h := window_of_drop_eq hdrop hle'
            rw [hwin] at h
            exact List.append_cancel_left h
          have hitem := (hR.eq_ok_iff index a piece.length hindex).mpr
            ⟨piece, _, hdrop, rfl, hpiece⟩
          refine ⟨(a, piece.length), hitem, bind_eq_ok.mpr ⟨as, ?_, rfl⟩⟩
          refine (ih as (index + piece.length) (by omega) (by omega)).mpr ⟨hle', hstople, ?_⟩
          rwa [← hrestwin]

/-- The loop runs over the records of a window and goes on behind it. -/
theorem records_window (hR : Reads bytes item R) {stop : ℕ} (mid : ℕ) (hmid : mid ≤ stop) :
    ∀ (as : List α) (fuel index : ℕ), index ≤ mid → mid ≤ bytes.length →
      Pieces R as (window bytes index mid) →
      records item stop (fuel + as.length) index =
        (records item stop fuel mid >>= fun rest => .ok (as ++ rest)) := by
  intro as
  induction as with
  | nil =>
    intro fuel index hindex hlen hpieces
    have hzero := congrArg List.length (pieces_nil.mp hpieces)
    rw [length_window hlen, List.length_nil] at hzero
    rw [show index = mid from by omega, List.length_nil, Nat.add_zero]
    cases records item stop fuel mid <;> rfl
  | cons a as ih =>
    intro fuel index hindex hlen hpieces
    obtain ⟨piece, rest, hwin, hpiece, hrest⟩ := pieces_cons.mp hpieces
    have hpos := hR.length_pos a piece hpiece
    have hsum := congrArg List.length hwin
    rw [length_window hlen, List.length_append] at hsum
    have hdrop := drop_of_window_eq hindex hwin
    have hnext : rest = window bytes (index + piece.length) mid := by
      have h : window bytes index mid = _ := window_of_drop_eq hdrop (by omega)
      rw [hwin] at h
      exact List.append_cancel_left h
    rw [hnext] at hrest
    have hitem := (hR.eq_ok_iff index a piece.length (by omega)).mpr
      ⟨piece, _, hdrop, rfl, hpiece⟩
    rw [List.length_cons, ← Nat.add_assoc, records_succ (by omega), hitem, ok_bind,
      ih fuel (index + piece.length) (by omega) hlen hrest]
    cases records item stop fuel mid <;> rfl

end Records

end Exec

end Vostd
