/-
# Lists of frames as a family of sequences

Any number of linked lists over the same metadata slots.  The program works on them by the
operations of `LinkedList`, and by those of a list's cursor while there is one: a cursor
borrows its list, so an operation of the list itself ends it.

Beside the lists stands what they are for: a family of sequences, with a position in the
sequence for each cursor (the position past the end is the ghost position).  Every run of the
code on admissible frames gives the answers of the sequences, and leaves the lists laid out as
the sequences say.
-/
import Vostd.Frame.LinkedList

namespace Vostd

open Exec

namespace FrameList

variable {ι : Type}

/-! ## The lists -/

/-- An operation of a list, or of its cursor. -/
inductive Op (ι : Type)
  | pushFront (l : ι) (frame : ℕ)
  | pushBack (l : ι) (frame : ℕ)
  | popFront (l : ι)
  | popBack (l : ι)
  | contains (l : ι) (paddr : ℕ)
  | cursorMutAt (l : ι) (paddr : ℕ)
  | cursorFrontMut (l : ι)
  | cursorBackMut (l : ι)
  | moveNext (l : ι)
  | movePrev (l : ι)
  | takeCurrent (l : ι)
  | insertBefore (l : ι) (frame : ℕ)
  | drop (l : ι)

/-- What an operation returns. -/
inductive Result
  | unit
  | answer (b : Bool)
  | frame (p : Option ℕ)
  | frames (ps : List ℕ)
  deriving DecidableEq, Repr

/-- The memory, the lists, and where their cursors are. -/
structure World (ι : Type) where
  heap : Heap
  lists : ι → LinkedList
  cursors : ι → Option (Option ℕ)

namespace World

/-- Empty lists, and metadata that `Link::new` has made. -/
def init : World ι := ⟨⟨fun _ => ⟨none, none, 0⟩, 1⟩, fun _ => .new, fun _ => none⟩

variable [DecidableEq ι]

/-- The world after an operation on `l`. -/
def set (w : World ι) (l : ι) (h : Heap) (list : LinkedList) (cursor : Option (Option ℕ)) :
    World ι :=
  ⟨h, Function.update w.lists l list, Function.update w.cursors l cursor⟩

/-- An operation of the cursor of `l`; without a cursor there is no such call. -/
def withCursor (w : World ι) (l : ι) (op : CursorMut → Exec (Result × CursorMut)) :
    Exec (Result × World ι) :=
  match w.cursors l with
  | none => .ok (.unit, w)
  | some current => do
      let (r, c) ← op ⟨w.heap, w.lists l, current⟩
      .ok (r, w.set l c.heap c.list (some c.current))

/-- One operation. -/
def step (w : World ι) : Op ι → Exec (Result × World ι)
  | .pushFront l frame => do
      let c ← pushFront w.heap (w.lists l) frame
      .ok (.unit, w.set l c.heap c.list none)
  | .pushBack l frame => do
      let c ← pushBack w.heap (w.lists l) frame
      .ok (.unit, w.set l c.heap c.list none)
  | .popFront l => do
      let (r, c) ← popFront w.heap (w.lists l)
      .ok (.frame r, w.set l c.heap c.list none)
  | .popBack l => do
      let (r, c) ← popBack w.heap (w.lists l)
      .ok (.frame r, w.set l c.heap c.list none)
  | .contains l paddr => do
      let (b, h, list) ← contains w.heap (w.lists l) paddr
      .ok (.answer b, w.set l h list none)
  | .cursorMutAt l paddr => do
      let (cursor, h, list) ← cursorMutAt w.heap (w.lists l) paddr
      .ok (.answer cursor.isSome, w.set l h list cursor)
  | .cursorFrontMut l =>
      let c := cursorFrontMut w.heap (w.lists l)
      .ok (.unit, w.set l c.heap c.list (some c.current))
  | .cursorBackMut l =>
      let c := cursorBackMut w.heap (w.lists l)
      .ok (.unit, w.set l c.heap c.list (some c.current))
  | .moveNext l => w.withCursor l fun c => .ok (.unit, c.moveNext)
  | .movePrev l => w.withCursor l fun c => .ok (.unit, c.movePrev)
  | .takeCurrent l => w.withCursor l fun c => do
      let (r, c) ← c.takeCurrent
      .ok (.frame r, c)
  | .insertBefore l frame => w.withCursor l fun c => do
      let c ← c.insertBefore frame
      .ok (.unit, c)
  | .drop l => do
      let (frames, h) ← drop w.heap (w.lists l)
      .ok (.frames frames, w.set l h .new none)

/-- The operations one after the other. -/
def run : List (Op ι) → World ι → Exec (List Result × World ι)
  | [], w => .ok ([], w)
  | op :: ops, w => do
      let (r, w) ← w.step op
      let (rs, w) ← run ops w
      .ok (r :: rs, w)

end World

/-! ## The sequences -/

/-- A sequence for each list, and the position of its cursor. -/
structure Seqs (ι : Type) where
  seqs : ι → List ℕ
  pos : ι → Option ℕ

namespace Seqs

def init : Seqs ι := ⟨fun _ => [], fun _ => none⟩

variable [DecidableEq ι]

def set (a : Seqs ι) (l : ι) (xs : List ℕ) (pos : Option ℕ) : Seqs ι :=
  ⟨Function.update a.seqs l xs, Function.update a.pos l pos⟩

/-- The position of a cursor at a frame: `0` is the front, the length is the ghost position. -/
def withCursor (a : Seqs ι) (l : ι) (op : List ℕ → ℕ → Result × List ℕ × ℕ) :
    Result × Seqs ι :=
  match a.pos l with
  | none => (.unit, a)
  | some i => ((op (a.seqs l) i).1, a.set l (op (a.seqs l) i).2.1 (some (op (a.seqs l) i).2.2))

/-- What the operations mean for sequences. -/
def step (a : Seqs ι) : Op ι → Result × Seqs ι
  | .pushFront l frame => (.unit, a.set l (frame :: a.seqs l) none)
  | .pushBack l frame => (.unit, a.set l (a.seqs l ++ [frame]) none)
  | .popFront l => (.frame (a.seqs l).head?, a.set l (a.seqs l).tail none)
  | .popBack l => (.frame (a.seqs l).getLast?, a.set l (a.seqs l).dropLast none)
  | .contains l paddr =>
      (.answer (decide (paddr ∈ (a.seqs l).map metaToFrame)), a.set l (a.seqs l) none)
  | .cursorMutAt l paddr =>
      if paddr ∈ (a.seqs l).map metaToFrame then
        (.answer true, a.set l (a.seqs l) (some ((a.seqs l).idxOf (frameToMeta paddr))))
      else (.answer false, a.set l (a.seqs l) none)
  | .cursorFrontMut l => (.unit, a.set l (a.seqs l) (some 0))
  | .cursorBackMut l => (.unit, a.set l (a.seqs l) (some ((a.seqs l).length - 1)))
  | .moveNext l => a.withCursor l fun xs i => (.unit, xs, if i < xs.length then i + 1 else 0)
  | .movePrev l => a.withCursor l fun xs i => (.unit, xs, if i = 0 then xs.length else i - 1)
  | .takeCurrent l =>
      a.withCursor l fun xs i => (.frame xs[i]?, xs.take i ++ xs.drop (i + 1), i)
  | .insertBefore l frame =>
      a.withCursor l fun xs i => (.unit, xs.take i ++ frame :: xs.drop i, i + 1)
  | .drop l => (.frames (a.seqs l), a.set l [] none)

def run : List (Op ι) → Seqs ι → List Result × Seqs ι
  | [], a => ([], a)
  | op :: ops, a => ((a.step op).1 :: (run ops (a.step op).2).1, (run ops (a.step op).2).2)

/-- Only frames that are in no list are pushed. -/
def Admits (a : Seqs ι) : Op ι → Prop
  | .pushFront _ frame | .pushBack _ frame | .insertBefore _ frame =>
      FrameSlot frame ∧ ∀ l, frame ∉ a.seqs l
  | _ => True

def AdmitsAll : List (Op ι) → Seqs ι → Prop
  | [], _ => True
  | op :: ops, a => a.Admits op ∧ AdmitsAll ops (a.step op).2

end Seqs

/-- The lists are laid out as the sequences say. -/
structure Refines (w : World ι) (a : Seqs ι) : Prop where
  holds : ∀ l, Holds w.heap.slots (w.lists l) (a.seqs l)
  once : ∀ l k, l ≠ k → (a.seqs l).Disjoint (a.seqs k)
  free : ∀ p, (∀ l, p ∉ a.seqs l) → w.heap.slots p = Slot.free
  id_lt : ∀ l, (w.lists l).listId < w.heap.nextId
  id_ne : ∀ l k, l ≠ k → (w.lists l).listId ≠ 0 → (w.lists l).listId ≠ (w.lists k).listId
  cursor : ∀ l, w.cursors l = (a.pos l).map fun i => (a.seqs l)[i]?
  pos_le : ∀ l i, a.pos l = some i → i ≤ (a.seqs l).length

namespace Refines

variable {w : World ι} {a : Seqs ι} {l : ι} {h : Heap} {list : LinkedList} {xs : List ℕ}

theorem init : Refines (World.init : World ι) Seqs.init where
  holds := fun _ => Holds.new _
  once := fun _ _ _ => List.disjoint_nil_left _
  free := fun _ _ => rfl
  id_lt := fun _ => Nat.zero_lt_one
  id_ne := fun _ _ _ hne => absurd rfl hne
  cursor := fun _ => rfl
  pos_le := fun _ _ h => nomatch h

theorem nextId_pos (hr : Refines w a) (l : ι) : 0 < w.heap.nextId :=
  Nat.zero_lt_of_lt (hr.id_lt l)

/-- The id in the slot tells whether the frame is in this list. -/
theorem inList_iff (hr : Refines w a) {slot id nextId : ℕ}
    (hminted : Minted w.heap.nextId (w.lists l).listId id nextId) (hid : id ≠ 0)
    (hkept : (w.lists l).listId ≠ 0 → id = (w.lists l).listId) :
    (w.heap.slots slot).inList = id ↔ slot ∈ a.seqs l := by
  constructor
  · intro heq
    by_contra hnot
    by_cases hin : ∃ k, slot ∈ a.seqs k
    · obtain ⟨k, hk⟩ := hin
      have hkl : k ≠ l := by
        rintro rfl
        exact hnot hk
      obtain ⟨htag, hne⟩ := (hr.holds k).inList slot hk
      rw [htag] at heq
      -- Another list has this id: it is neither an old one of this list nor a fresh one
      cases hminted with
      | kept => exact hr.id_ne k l hkl hne heq
      | fresh _ =>
          have := hr.id_lt k
          omega
    · rw [hr.free slot (not_exists.mp hin)] at heq
      exact hid heq.symm
  · intro hmem
    obtain ⟨htag, hne⟩ := (hr.holds l).inList slot hmem
    rw [htag, hkept hne]

/-- The sequence at a cursor. -/
theorem cursor_split (hr : Refines w a) {i : ℕ} (hpos : a.pos l = some i) :
    a.seqs l = (a.seqs l).take i ++ (a.seqs l).drop i ∧
      w.cursors l = some ((a.seqs l).drop i).head? ∧ ((a.seqs l).take i).length = i := by
  refine ⟨(List.take_append_drop i _).symm, ?_, ?_⟩
  · rw [hr.cursor l, hpos, List.head?_drop]
    rfl
  · rw [List.length_take, min_eq_left (hr.pos_le l i hpos)]

variable [DecidableEq ι]

/-- The position of a new cursor is one of the new sequence. -/
def Points (xs : List ℕ) (cursor : Option (Option ℕ)) (pos : Option ℕ) : Prop :=
  cursor = (pos.map fun i => xs[i]?) ∧ ∀ i, pos = some i → i ≤ xs.length

/-- **A step on one list** keeps the others: their frames are not touched. -/
theorem update (hr : Refines w a) {cursor : Option (Option ℕ)} {pos : Option ℕ}
    (hholds : Holds h.slots list xs)
    (hsame : ∀ p, p ∉ a.seqs l → p ∉ xs → h.slots p = w.heap.slots p)
    (hgone : ∀ p ∈ a.seqs l, p ∉ xs → h.slots p = Slot.free)
    (hnew : ∀ p ∈ xs, p ∉ a.seqs l → ∀ k, p ∉ a.seqs k)
    (hnext : w.heap.nextId ≤ h.nextId) (hlt : list.listId < h.nextId)
    (hid : list.listId = 0 ∨ list.listId = (w.lists l).listId ∨ w.heap.nextId ≤ list.listId)
    (hpoints : Points xs cursor pos) :
    Refines (w.set l h list cursor) (a.set l xs pos) := by
  -- A frame of another list is neither in the old nor in the new sequence
  have hother : ∀ k, k ≠ l → ∀ p ∈ a.seqs k, p ∉ xs := by
    intro k hk p hp hpx
    by_cases hpl : p ∈ a.seqs l
    · exact hr.once k l hk hp hpl
    · exact hnew p hpx hpl k hp
  constructor
  case holds =>
    intro k
    by_cases hk : k = l
    · subst hk
      simpa [World.set, Seqs.set] using hholds
    · simp only [World.set, Seqs.set, Function.update_of_ne hk]
      apply (hr.holds k).congr
      intro p hp
      exact hsame p (hr.once k l hk hp) (hother k hk p hp)
  case once =>
    intro j k hjk p hj hk
    simp only [Seqs.set, Function.update_apply] at hj hk
    split_ifs at hj hk with h₁ h₂ h₂
    · exact hjk (h₁.trans h₂.symm)
    · exact hother k h₂ p hk hj
    · exact hother j h₁ p hj hk
    · exact hr.once j k hjk hj hk
  case free =>
    intro p hp
    have hpx : p ∉ xs := by
      have := hp l
      simpa [Seqs.set] using this
    have hrest : ∀ k, k ≠ l → p ∉ a.seqs k := by
      intro k hk
      have := hp k
      simpa [Seqs.set, Function.update_of_ne hk] using this
    show h.slots p = Slot.free
    by_cases hpl : p ∈ a.seqs l
    · exact hgone p hpl hpx
    · rw [hsame p hpl hpx]
      apply hr.free
      intro k
      by_cases hk : k = l
      · rw [hk]
        exact hpl
      · exact hrest k hk
  case id_lt =>
    intro k
    show (Function.update w.lists l list k).listId < h.nextId
    rw [Function.update_apply]
    split_ifs with hk
    · exact hlt
    · exact lt_of_lt_of_le (hr.id_lt k) hnext
  case id_ne =>
    intro j k hjk
    simp only [World.set, Function.update_apply]
    split_ifs with h₁ h₂ h₂
    · exact absurd (h₁.trans h₂.symm) hjk
    · -- The id of this list: kept, or beyond those of the others
      intro hne heq
      have hk := hr.id_lt k
      rcases hid with hid | hid | hid
      · exact hne hid
      · exact hr.id_ne l k (Ne.symm h₂) (by rw [← hid]; exact hne) (by rw [← hid]; exact heq)
      · omega
    · intro hne heq
      have hj := hr.id_lt j
      rcases hid with hid | hid | hid
      · rw [hid] at heq
        exact hne heq
      · exact hr.id_ne j l h₁ hne (by rw [← hid]; exact heq)
      · omega
    · exact hr.id_ne j k hjk
  case cursor =>
    intro k
    simp only [World.set, Seqs.set, Function.update_apply]
    split_ifs with hk
    · exact hpoints.1
    · exact hr.cursor k
  case pos_le =>
    intro k i
    simp only [Seqs.set, Function.update_apply]
    split_ifs with hk
    · exact hpoints.2 i
    · exact hr.pos_le k i

theorem points_none (xs : List ℕ) : Points xs none none := ⟨rfl, fun _ h => nomatch h⟩

theorem points_some {i : ℕ} (hi : i ≤ xs.length) : Points xs (some xs[i]?) (some i) :=
  ⟨rfl, by rintro _ ⟨⟩; exact hi⟩

/-- The world after a step, and how far the ids have come. -/
def Goes (w : World ι) (s : Result × Seqs ι) (r : Result × World ι) : Prop :=
  r.1 = s.1 ∧ Refines r.2 s.2 ∧ r.2.heap.nextId ≤ w.heap.nextId + 1

/-- A list that becomes another one. -/
theorem becomes (hr : Refines w a) {cursor : Option (Option ℕ)} {pos : Option ℕ} {res : Result}
    (hb : Becomes w.heap (w.lists l) (a.seqs l) h list xs)
    (hnew : ∀ p ∈ xs, p ∉ a.seqs l → ∀ k, p ∉ a.seqs k)
    (hpoints : Points xs cursor pos) :
    Goes w (res, a.set l xs pos) (res, w.set l h list cursor) := by
  have hids : w.heap.nextId ≤ h.nextId ∧ list.listId < h.nextId ∧
      (list.listId = (w.lists l).listId ∨ w.heap.nextId ≤ list.listId) ∧
      h.nextId ≤ w.heap.nextId + 1 := by
    have hlt := hr.id_lt l
    have hm := hb.minted
    generalize list.listId = id at hm ⊢
    generalize h.nextId = n at hm ⊢
    cases hm with
    | kept => exact ⟨le_refl _, hlt, .inl rfl, by omega⟩
    | fresh _ => exact ⟨by omega, by omega, .inr (le_refl _), le_refl _⟩
  exact ⟨rfl, hr.update hb.holds hb.same hb.gone hnew hids.1 hids.2.1 (.inr hids.2.2.1) hpoints,
    hids.2.2.2⟩

/-- Whatever the cursor and the result are then. -/
def GoesOn (w : World ι) (a : Seqs ι) (l : ι) (xs : List ℕ) (h : Heap) (list : LinkedList) :
    Prop :=
  ∀ cursor pos res, Points xs cursor pos →
    Goes w (res, a.set l xs pos) (res, w.set l h list cursor)

/-- Nothing happens to the list. -/
theorem goesOn_self (hr : Refines w a) (l : ι) :
    GoesOn w a l (a.seqs l) w.heap (w.lists l) := by
  intro cursor pos res hpoints
  exact hr.becomes (.refl (hr.holds l)) (fun _ hp hnot => absurd hp hnot) hpoints

/-- The ids are exhausted. -/
abbrev Exhausted (w : World ι) (e : Fault) : Prop :=
  e = .assertion ∧ MAX_LIST_ID ≤ w.heap.nextId

section

variable {as bs : List ℕ} {x paddr : ℕ} {A : Fault → Prop}

theorem post_insert (hr : Refines w a) (hx : FrameSlot x ∧ ∀ k, x ∉ a.seqs k)
    (hsplit : a.seqs l = as ++ bs) :
    Post (Exhausted w) (CursorMut.insertBefore ⟨w.heap, w.lists l, bs.head?⟩ x) (fun c =>
      c.current = bs.head? ∧ GoesOn w a l (as ++ x :: bs) c.heap c.list) := by
  have hl := hr.holds l
  rw [hsplit] at hl
  have hnot : x ∉ as ++ bs := by
    rw [← hsplit]
    exact hx.2 l
  apply (post_insertBefore hl rfl hx.1 hnot (hr.free x hx.2) (hr.nextId_pos l)).mono
  rintro c ⟨hb, hcur⟩
  refine ⟨hcur, ?_⟩
  intro cursor pos res hpoints
  rw [← hsplit] at hb
  refine hr.becomes hb ?_ hpoints
  intro p hp hnot k
  rcases List.mem_cons.mp (List.perm_middle.mem_iff.mp hp) with rfl | hp
  · exact hx.2 k
  · rw [hsplit] at hnot
    exact absurd hp hnot

theorem post_take (hr : Refines w a) (hsplit : a.seqs l = as ++ x :: bs) :
    Post A (CursorMut.takeCurrent ⟨w.heap, w.lists l, some x⟩) (fun r =>
      r.1 = some x ∧ r.2.current = bs.head? ∧ GoesOn w a l (as ++ bs) r.2.heap r.2.list) := by
  have hl := hr.holds l
  rw [hsplit] at hl
  apply (post_takeCurrent (c := ⟨w.heap, w.lists l, some x⟩) hl rfl).mono
  rintro r ⟨hres, hb, hcur⟩
  refine ⟨hres, hcur, ?_⟩
  intro cursor pos res hpoints
  rw [← hsplit] at hb
  refine hr.becomes hb ?_ hpoints
  intro p hp hnot k
  rw [hsplit] at hnot
  exact absurd (List.perm_middle.mem_iff.mpr (List.mem_cons_of_mem _ hp)) hnot

/-- **`contains`** answers membership in this list. -/
theorem post_contains (hr : Refines w a) :
    Post (Exhausted w) (contains w.heap (w.lists l) paddr) (fun r =>
      r.1 = decide (paddr ∈ (a.seqs l).map metaToFrame) ∧
        GoesOn w a l (a.seqs l) r.2.1 r.2.2) := by
  unfold contains
  cases hslot : getSlot paddr with
  | none =>
      refine ⟨?_, hr.goesOn_self l⟩
      exact (decide_eq_false (not_mem_map (hr.holds l).valid hslot)).symm
  | some slot =>
      apply (post_lazyGetId (hr.nextId_pos l)).bind
      rintro ⟨id, nextId, list⟩ ⟨hlist, hminted, hid, hkept⟩
      simp only at hlist hminted hid hkept
      subst hlist
      constructor
      · show ((w.heap.slots slot).inList == id) = _
        rw [Bool.eq_iff_iff, beq_iff_eq, decide_eq_true_iff,
          mem_map_iff (hr.holds l).valid hslot]
        exact hr.inList_iff hminted hid hkept
      · intro cursor pos res hpoints
        refine hr.becomes (.of_minted (hr.holds l) hminted hkept) ?_ hpoints
        exact fun _ hp hnot => absurd hp hnot

/-- `cursor_mut_at` asks what `contains` asks. -/
theorem cursorMutAt_eq (h : Heap) (list : LinkedList) (paddr : ℕ) :
    cursorMutAt h list paddr = (contains h list paddr >>= fun r =>
      .ok (if r.1 then some (some (frameToMeta paddr)) else none, r.2)) := by
  unfold cursorMutAt contains
  cases getSlot paddr with
  | none => rfl
  | some slot =>
      cases hid : lazyGetId h.nextId list with
      | error e => rfl
      | ok r =>
          show (if (h.slots slot).inList == r.1 then _ else _) = _
          cases hb : (h.slots slot).inList == r.1 with
          | true => simp [hb, bind, Except.bind]
          | false => simp [hb, bind, Except.bind]

end

/-! ## One step -/

/-- An operation of the cursor, position by position. -/
theorem post_withCursor (hr : Refines w a) {op : CursorMut → Exec (Result × CursorMut)}
    {op' : List ℕ → ℕ → Result × List ℕ × ℕ} {A : Fault → Prop}
    (hop : ∀ i as bs, a.pos l = some i → a.seqs l = as ++ bs → as.length = i →
      Post A (op ⟨w.heap, w.lists l, bs.head?⟩) (fun r => r.1 = (op' (a.seqs l) i).1 ∧
        Points (op' (a.seqs l) i).2.1 (some r.2.current) (some (op' (a.seqs l) i).2.2) ∧
        GoesOn w a l (op' (a.seqs l) i).2.1 r.2.heap r.2.list)) :
    Post A (w.withCursor l op) (Goes w (a.withCursor l op')) := by
  unfold World.withCursor Seqs.withCursor
  cases hpos : a.pos l with
  | none =>
      have hcur := hr.cursor l
      rw [hpos] at hcur
      rw [hcur]
      exact ⟨rfl, hr, Nat.le_succ _⟩
  | some i =>
      obtain ⟨hsplit, hcur, hlen⟩ := hr.cursor_split hpos
      rw [hcur]
      apply (hop i _ _ hpos hsplit hlen).bind
      rintro ⟨res, c⟩ ⟨hres, hpoints, hgoes⟩
      simp only at hres hpoints hgoes
      subst hres
      exact hgoes _ _ _ hpoints

section

variable {A : Fault → Prop}

theorem post_moveNext (hr : Refines w a) :
    Post A (w.step (.moveNext l)) (Goes w (a.step (.moveNext l))) := by
  unfold World.step Seqs.step
  apply hr.post_withCursor
  rintro i as bs - hsplit rfl
  have hl := hr.holds l
  rw [hsplit] at hl
  cases bs with
  | nil =>
      -- The ghost position: on to the front
      rw [List.append_nil] at hsplit hl
      rw [moveNext_ghost hl rfl]
      refine ⟨rfl, ?_, hr.goesOn_self l⟩
      rw [hsplit, if_neg (lt_irrefl _)]
      show Points as (some as.head?) (some 0)
      rw [List.head?_eq_getElem?]
      exact points_some (Nat.zero_le _)
  | cons x bs =>
      rw [moveNext_eq hl rfl]
      refine ⟨rfl, ?_, hr.goesOn_self l⟩
      rw [hsplit, if_pos (by simp)]
      show Points (as ++ x :: bs) (some bs.head?) (some (as.length + 1))
      have hat : (as ++ x :: bs)[as.length + 1]? = bs.head? := by
        rw [List.getElem?_append_right (by omega), List.head?_eq_getElem?]
        simp
      rw [← hat]
      exact points_some (by simp)

theorem post_movePrev (hr : Refines w a) :
    Post A (w.step (.movePrev l)) (Goes w (a.step (.movePrev l))) := by
  unfold World.step Seqs.step
  apply hr.post_withCursor
  rintro i as bs - hsplit rfl
  have hl := hr.holds l
  rw [hsplit] at hl
  rw [movePrev_eq hl rfl]
  refine ⟨rfl, ?_, hr.goesOn_self l⟩
  rw [hsplit]
  show Points (as ++ bs) (some as.getLast?)
    (some (if as.length = 0 then (as ++ bs).length else as.length - 1))
  rcases List.eq_nil_or_concat as with rfl | ⟨as, x, rfl⟩
  · rw [if_pos List.length_nil]
    have hat : ([] ++ bs)[([] ++ bs).length]? = none := List.getElem?_eq_none (le_refl _)
    rw [List.getLast?_nil, ← hat]
    exact points_some (le_refl _)
  · rw [if_neg (by simp)]
    have hat : (as.concat x ++ bs)[(as.concat x).length - 1]? = (as.concat x).getLast? := by
      simp
    rw [← hat]
    exact points_some (by simp)

theorem post_takeCurrentAt (hr : Refines w a) :
    Post A (w.step (.takeCurrent l)) (Goes w (a.step (.takeCurrent l))) := by
  unfold World.step Seqs.step
  apply hr.post_withCursor
  rintro i as bs - hsplit rfl
  cases bs with
  | nil =>
      rw [takeCurrent_ghost rfl]
      rw [List.append_nil] at hsplit
      have hseq : (a.seqs l).take as.length ++ (a.seqs l).drop (as.length + 1) = a.seqs l := by
        rw [hsplit]
        simp
      have hat : (a.seqs l)[as.length]? = none := by
        rw [hsplit]
        simp
      show _ = Result.frame (a.seqs l)[as.length]? ∧
        Points ((a.seqs l).take as.length ++ (a.seqs l).drop (as.length + 1)) (some none)
          (some as.length) ∧ GoesOn w a l _ _ _
      rw [hseq, hat]
      refine ⟨rfl, ?_, hr.goesOn_self l⟩
      rw [← hat]
      exact points_some (by rw [hsplit])
  | cons x bs =>
      apply (hr.post_take hsplit).bind
      rintro ⟨res, c⟩ ⟨rfl, hcur, hgoes⟩
      have hseq : (a.seqs l).take as.length ++ (a.seqs l).drop (as.length + 1) = as ++ bs := by
        rw [hsplit]
        simp
      have hat : (a.seqs l)[as.length]? = some x := by
        rw [hsplit]
        simp
      show _ = Result.frame (a.seqs l)[as.length]? ∧
        Points ((a.seqs l).take as.length ++ (a.seqs l).drop (as.length + 1)) (some c.current)
          (some as.length) ∧ GoesOn w a l _ _ _
      rw [hseq, hat]
      refine ⟨rfl, ?_, hgoes⟩
      have hnext : (as ++ bs)[as.length]? = bs.head? := by
        rw [List.getElem?_append_right (le_refl _), List.head?_eq_getElem?]
        simp
      rw [hcur, ← hnext]
      exact points_some (by simp)

theorem post_insertBeforeAt (hr : Refines w a) {x : ℕ} (hx : FrameSlot x ∧ ∀ k, x ∉ a.seqs k) :
    Post (Exhausted w) (w.step (.insertBefore l x)) (Goes w (a.step (.insertBefore l x))) := by
  unfold World.step Seqs.step
  apply hr.post_withCursor
  rintro i as bs - hsplit rfl
  apply (hr.post_insert hx hsplit).bind
  rintro c ⟨hcur, hgoes⟩
  have hseq : (a.seqs l).take as.length ++ x :: (a.seqs l).drop as.length = as ++ x :: bs := by
    rw [hsplit]
    simp
  show _ = Result.unit ∧
    Points ((a.seqs l).take as.length ++ x :: (a.seqs l).drop as.length) (some c.current)
      (some (as.length + 1)) ∧ GoesOn w a l _ _ _
  rw [hseq]
  refine ⟨rfl, ?_, hgoes⟩
  have hnext : (as ++ x :: bs)[as.length + 1]? = bs.head? := by
    rw [List.getElem?_append_right (by omega), List.head?_eq_getElem?]
    simp
  rw [hcur, ← hnext]
  exact points_some (by simp)

theorem post_popFront (hr : Refines w a) :
    Post A (w.step (.popFront l)) (Goes w (a.step (.popFront l))) := by
  have hl := hr.holds l
  show Post A (popFront w.heap (w.lists l) >>= fun r =>
    .ok (Result.frame r.1, w.set l r.2.heap r.2.list none)) _
  unfold popFront cursorFrontMut
  rw [hl.front]
  show Post A _ (Goes w (.frame (a.seqs l).head?, a.set l (a.seqs l).tail none))
  cases hseq : a.seqs l with
  | nil =>
      rw [takeCurrent_ghost rfl]
      have hgoes := hr.goesOn_self l
      rw [hseq] at hgoes
      exact hgoes none none _ (points_none _)
  | cons x xs =>
      apply (hr.post_take (show a.seqs l = [] ++ x :: xs from hseq)).bind
      rintro ⟨res, c⟩ ⟨rfl, -, hgoes⟩
      exact hgoes none none _ (points_none _)

theorem post_popBack (hr : Refines w a) :
    Post A (w.step (.popBack l)) (Goes w (a.step (.popBack l))) := by
  have hl := hr.holds l
  show Post A (popBack w.heap (w.lists l) >>= fun r =>
    .ok (Result.frame r.1, w.set l r.2.heap r.2.list none)) _
  unfold popBack cursorBackMut
  rw [hl.back]
  show Post A _ (Goes w (.frame (a.seqs l).getLast?, a.set l (a.seqs l).dropLast none))
  rcases List.eq_nil_or_concat (a.seqs l) with hseq | ⟨xs, x, hseq⟩
  · rw [hseq, List.getLast?_nil, takeCurrent_ghost rfl]
    have hgoes := hr.goesOn_self l
    rw [hseq] at hgoes
    exact hgoes none none _ (points_none _)
  · rw [List.concat_eq_append] at hseq
    rw [hseq, List.getLast?_concat, List.dropLast_concat]
    apply (hr.post_take hseq).bind
    rintro ⟨res, c⟩ ⟨rfl, -, hgoes⟩
    rw [List.append_nil] at hgoes
    exact hgoes none none _ (points_none _)

theorem post_cursorMutAt (hr : Refines w a) {paddr : ℕ} :
    Post (Exhausted w) (w.step (.cursorMutAt l paddr))
      (Goes w (a.step (.cursorMutAt l paddr))) := by
  show Post (Exhausted w) (cursorMutAt w.heap (w.lists l) paddr >>= fun r =>
    .ok (Result.answer r.1.isSome, w.set l r.2.1 r.2.2 r.1)) _
  rw [cursorMutAt_eq]
  apply ((hr.post_contains).bind (R := fun r =>
    r.1 = (if paddr ∈ (a.seqs l).map metaToFrame then some (some (frameToMeta paddr)) else none) ∧
      GoesOn w a l (a.seqs l) r.2.1 r.2.2) _).bind
  · rintro ⟨cursor, h, list⟩ ⟨hcursor, hgoes⟩
    simp only at hcursor hgoes
    subst hcursor
    show Goes w (if paddr ∈ (a.seqs l).map metaToFrame then _ else _) _
    split_ifs with hmem
    · refine hgoes _ _ _ ?_
      obtain ⟨x, hx, rfl⟩ := List.mem_map.mp hmem
      rw [frameToMeta_metaToFrame ((hr.holds l).valid x hx).1]
      have hat : (a.seqs l)[(a.seqs l).idxOf x]? = some x := List.getElem?_idxOf hx
      rw [← hat]
      exact points_some (List.idxOf_lt_length_iff.mpr hx).le
    · exact hgoes _ _ _ (points_none _)
  · rintro ⟨b, h, list⟩ ⟨hb, hgoes⟩
    simp only at hb hgoes
    subst hb
    refine ⟨?_, hgoes⟩
    simp only [decide_eq_true_eq]

theorem post_dropAt (hr : Refines w a) :
    Post A (w.step (.drop l)) (Goes w (a.step (.drop l))) := by
  show Post A (drop w.heap (w.lists l) >>= fun r =>
    .ok (Result.frames r.1, w.set l r.2 .new none)) _
  apply (post_drop (hr.holds l)).bind
  rintro ⟨frames, h⟩ ⟨hframes, list, hb⟩
  simp only at hframes hb
  subst hframes
  have hids : w.heap.nextId ≤ h.nextId ∧ h.nextId ≤ w.heap.nextId + 1 := by
    have hm := hb.minted
    generalize list.listId = id at hm
    generalize h.nextId = n at hm ⊢
    cases hm with
    | kept => omega
    | fresh _ => omega
  refine ⟨rfl, ?_, hids.2⟩
  -- The list is gone; a new one has no id yet
  exact hr.update (Holds.new _) hb.same hb.gone (fun p hp => absurd hp List.not_mem_nil) hids.1
    (lt_of_lt_of_le (hr.nextId_pos l) hids.1) (.inl rfl) (points_none _)

end

/-- **One step** gives the answer of the sequences, and keeps the layout. -/
theorem post_step (hr : Refines w a) (op : Op ι) (hop : a.Admits op) :
    Post (Exhausted w) (w.step op) (Goes w (a.step op)) := by
  cases op with
  | pushFront l frame =>
      have hfront := (hr.holds l).front
      show Post _ (CursorMut.insertBefore ⟨w.heap, w.lists l, (w.lists l).front⟩ frame >>= _) _
      rw [hfront]
      apply (hr.post_insert hop (List.nil_append _).symm).bind
      rintro c ⟨-, hgoes⟩
      exact hgoes _ _ _ (points_none _)
  | pushBack l frame =>
      apply (hr.post_insert hop (List.append_nil _).symm).bind
      rintro c ⟨-, hgoes⟩
      exact hgoes _ _ _ (points_none _)
  | popFront l => exact hr.post_popFront
  | popBack l => exact hr.post_popBack
  | contains l paddr =>
      apply (hr.post_contains).bind
      rintro ⟨b, h, list⟩ ⟨rfl, hgoes⟩
      exact hgoes _ _ _ (points_none _)
  | cursorMutAt l paddr => exact hr.post_cursorMutAt
  | cursorFrontMut l =>
      have hfront := (hr.holds l).front
      rw [List.head?_eq_getElem?] at hfront
      apply hr.goesOn_self l
      show Points (a.seqs l) (some (w.lists l).front) (some 0)
      rw [hfront]
      exact points_some (Nat.zero_le _)
  | cursorBackMut l =>
      have hback := (hr.holds l).back
      rw [List.getLast?_eq_getElem?] at hback
      apply hr.goesOn_self l
      show Points (a.seqs l) (some (w.lists l).back) (some ((a.seqs l).length - 1))
      rw [hback]
      exact points_some (Nat.sub_le _ _)
  | moveNext l => exact hr.post_moveNext
  | movePrev l => exact hr.post_movePrev
  | takeCurrent l => exact hr.post_takeCurrentAt
  | insertBefore l frame => exact hr.post_insertBeforeAt hop
  | drop l => exact hr.post_dropAt

/-- **A run.**  Each step takes at most one id, so only a long run can be refused one. -/
theorem post_run (ops : List (Op ι)) : ∀ {w : World ι} {a : Seqs ι}, Refines w a →
    a.AdmitsAll ops →
    Post (fun e => e = .assertion ∧ MAX_LIST_ID ≤ w.heap.nextId + ops.length) (w.run ops)
      (fun r => r.1 = (a.run ops).1 ∧ Refines r.2 (a.run ops).2) := by
  induction ops with
  | nil =>
      intro w a hr _
      exact ⟨rfl, hr⟩
  | cons op ops ih =>
      rintro w a hr ⟨hop, hops⟩
      have hstep := (hr.post_step op hop).allow (B := fun e => e = .assertion ∧
        MAX_LIST_ID ≤ w.heap.nextId + (op :: ops).length) ?_
      · apply hstep.bind
        rintro ⟨r, w'⟩ ⟨hres, hr', hids⟩
        have hrest := (ih hr' hops).allow (B := fun e => e = .assertion ∧
          MAX_LIST_ID ≤ w.heap.nextId + (op :: ops).length) ?_
        · apply hrest.bind
          rintro ⟨rs, w''⟩ ⟨hrs, hr''⟩
          simp only at hres hrs
          subst hres hrs
          exact ⟨rfl, hr''⟩
        · rintro e ⟨he, hmax⟩
          refine ⟨he, ?_⟩
          simp only [List.length_cons] at hmax hids ⊢
          omega
      · rintro e ⟨he, hmax⟩
        exact ⟨he, by omega⟩

end Refines

/-! ## Every run -/

/-- What the sequences say about the lists in memory. -/
structure Shows (w : World ι) (a : Seqs ι) : Prop where
  forward : ∀ l n, (w.lists l).size ≤ n →
    walk (nexts w.heap.slots) n (w.lists l).front = a.seqs l
  backward : ∀ l n, (w.lists l).size ≤ n →
    walk (prevs w.heap.slots) n (w.lists l).back = (a.seqs l).reverse
  size : ∀ l, (w.lists l).size = (a.seqs l).length
  nodup : ∀ l, (a.seqs l).Nodup
  disjoint : ∀ l k, l ≠ k → (a.seqs l).Disjoint (a.seqs k)
  inList : ∀ l, ∀ p ∈ a.seqs l, (w.heap.slots p).inList = (w.lists l).listId
  free : ∀ p, (∀ l, p ∉ a.seqs l) → w.heap.slots p = ⟨none, none, 0⟩
  ids : ∀ l, a.seqs l ≠ [] → (w.lists l).listId ≠ 0 ∧
    ∀ k, l ≠ k → (w.lists l).listId ≠ (w.lists k).listId
  cursor : ∀ l, w.cursors l = (a.pos l).map fun i => (a.seqs l)[i]?

theorem Refines.shows {w : World ι} {a : Seqs ι} (hr : Refines w a) : Shows w a where
  forward := fun l _ hn => (hr.holds l).walk_next hn
  backward := fun l _ hn => (hr.holds l).walk_prev hn
  size := fun l => (hr.holds l).size
  nodup := fun l => (hr.holds l).nodup
  disjoint := hr.once
  inList := fun l p hp => ((hr.holds l).inList p hp).1
  free := hr.free
  ids := by
    intro l hne
    obtain ⟨p, hp⟩ := List.exists_mem_of_ne_nil _ hne
    have hid := ((hr.holds l).inList p hp).2
    exact ⟨hid, fun k hk => hr.id_ne l k hk hid⟩
  cursor := hr.cursor

/-- **The lists refine a family of sequences.**  From empty lists on, every run on frames that
are in no list when they are pushed gives the answers of the sequences and leaves the lists as
the sequences say.  It is refused only when the ids of lists are exhausted. -/
theorem run_refines_sequences [DecidableEq ι] (ops : List (Op ι))
    (hadmits : Seqs.init.AdmitsAll ops) :
    Post (fun e => e = .assertion ∧ MAX_LIST_ID ≤ 1 + ops.length) (World.init.run ops)
      (fun r => r.1 = (Seqs.init.run ops).1 ∧ Shows r.2 (Seqs.init.run ops).2) := by
  apply (Refines.init.post_run ops hadmits).mono
  rintro r ⟨hres, hr⟩
  exact ⟨hres, hr.shows⟩

/-- The slot of the `n`-th frame. -/
def sampleFrame (n : ℕ) : ℕ := frameToMeta (n * PAGE_SIZE)

/-- Two lists; the cursor of one of them takes a frame out of the middle, and puts another one
in its place. -/
def sampleOps : List (Op Bool) :=
  [.pushFront true (sampleFrame 1), .pushBack true (sampleFrame 2), .pushFront false
    (sampleFrame 3), .pushFront true (sampleFrame 4), .cursorFrontMut true, .moveNext true,
    .takeCurrent true, .insertBefore true (sampleFrame 5), .movePrev true,
    .contains false (3 * PAGE_SIZE), .contains true (3 * PAGE_SIZE), .popBack true]

theorem run_refines_sequences_sample :
    (Seqs.init.run sampleOps).1 = [.unit, .unit, .unit, .unit, .unit, .unit,
        .frame (some (sampleFrame 1)), .unit, .unit, .answer true, .answer false,
        .frame (some (sampleFrame 2))] ∧
      Post (fun e => e = .assertion ∧ MAX_LIST_ID ≤ 1 + sampleOps.length)
        (World.init.run sampleOps)
        (fun r => r.1 = (Seqs.init.run sampleOps).1 ∧ Shows r.2 (Seqs.init.run sampleOps).2) := by
  have hframe : ∀ n < 6, FrameSlot (sampleFrame n) := by
    intro n hn
    unfold FrameSlot IsMetaSlot sampleFrame
    interval_cases n <;> decide
  constructor
  · decide +kernel
  · apply run_refines_sequences
    refine ⟨⟨hframe 1 (by omega), ?_⟩, ⟨hframe 2 (by omega), ?_⟩, ⟨hframe 3 (by omega), ?_⟩,
      ⟨hframe 4 (by omega), ?_⟩, trivial, trivial, trivial, ⟨hframe 5 (by omega), ?_⟩, trivial,
      trivial, trivial, trivial, trivial⟩ <;> decide +kernel

end FrameList

end Vostd
