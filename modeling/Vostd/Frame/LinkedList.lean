/-
# The linked list of frames

`frame/linked_list.rs`.  The links of the list are in the metadata slots of the frames, and
each slot also has the id of the list that its frame is in.  A frame is given by the address
of its slot (`UniqueFrame::ptr`).

`Holds slots l xs` says that the list `l` has the frames `xs`: the field `next` leads through
`xs` and the field `prev` back through it.  `insert_before` and `take_current`, on which the
other operations rest, put a frame in at the cursor and take one out.
-/
import Vostd.Lib.Chains
import Vostd.Arch.Entry

namespace Vostd

open Exec Function

namespace FrameList

/-! ## The code -/

/-- `MAX_LIST_ID`: ids from here on are not given out. -/
def MAX_LIST_ID : ℕ := 2 ^ 63 - 1

/-- The links of a frame, and the field `in_list` of its slot. -/
structure Slot where
  next : Option ℕ
  prev : Option ℕ
  inList : ℕ
  deriving DecidableEq, Repr

/-- The metadata slots and `LIST_ID_ALLOCATOR`. -/
structure Heap where
  slots : ℕ → Slot
  nextId : ℕ

/-- `LinkedList`. -/
structure LinkedList where
  front : Option ℕ
  back : Option ℕ
  size : ℕ
  listId : ℕ
  deriving DecidableEq, Repr

/-- `LinkedList::new`. -/
def LinkedList.new : LinkedList := ⟨none, none, 0, 0⟩

/-- A list, its heap, and the current frame of its cursor (`none` at the ghost position). -/
structure CursorMut where
  heap : Heap
  list : LinkedList
  current : Option ℕ

/-- `meta.next = v` at the slot `p`. -/
def setNext (slots : ℕ → Slot) (p : ℕ) (v : Option ℕ) : ℕ → Slot :=
  update slots p { slots p with next := v }

/-- `meta.prev = v` at the slot `p`. -/
def setPrev (slots : ℕ → Slot) (p : ℕ) (v : Option ℕ) : ℕ → Slot :=
  update slots p { slots p with prev := v }

/-- `slot.in_list.store(v)` at the slot `p`. -/
def setInList (slots : ℕ → Slot) (p v : ℕ) : ℕ → Slot :=
  update slots p { slots p with inList := v }

/-- `get_slot`. -/
def getSlot (paddr : ℕ) : Option ℕ :=
  if paddr % PAGE_SIZE ≠ 0 then none
  else if paddr ≥ MAX_PADDR then none
  else some (frameToMeta paddr)

/-- `lazy_get_id`, as its body is written down in the source. -/
def lazyGetId (nextId : ℕ) (l : LinkedList) : Exec (ℕ × ℕ × LinkedList) :=
  if l.listId = 0 then
    let id := nextId
    if id ≥ MAX_LIST_ID then .error .assertion
    else .ok (id, (nextId + 1) % 2 ^ 64, { l with listId := id })
  else .ok (l.listId, nextId, l)

namespace CursorMut

/-- `move_next`. -/
def moveNext (c : CursorMut) : CursorMut :=
  { c with
    current := match c.current with
      | some current => (c.heap.slots current).next
      | none => c.list.front }

/-- `move_prev`. -/
def movePrev (c : CursorMut) : CursorMut :=
  { c with
    current := match c.current with
      | some current => (c.heap.slots current).prev
      | none => c.list.back }

/-- The first part of `take_current`: what came before the frame now leads to what came after
it. -/
def unlinkNext (slots : ℕ → Slot) (l : LinkedList) (prev next : Option ℕ) :
    (ℕ → Slot) × LinkedList :=
  match prev with
  | some p => (setNext slots p next, l)
  | none => (slots, { l with front := next })

/-- The second part of `take_current`: the other direction. -/
def unlinkPrev (slots : ℕ → Slot) (l : LinkedList) (prev next : Option ℕ) :
    (ℕ → Slot) × LinkedList × Option ℕ :=
  match next with
  | some n => (setPrev slots n prev, l, some n)
  | none => (slots, { l with back := prev }, none)

/-- `take_current`. -/
def takeCurrent (c : CursorMut) : Exec (Option ℕ × CursorMut) :=
  match c.current with
  | none => .ok (none, c)
  | some current => do
      let paddr := metaToFrame current
      let frame := frameToMeta paddr
      let nextPtr := (c.heap.slots frame).next
      let prevPtr := (c.heap.slots frame).prev
      let (slots, list) := unlinkNext c.heap.slots c.list prevPtr nextPtr
      let (slots, list, cur) := unlinkPrev slots list prevPtr nextPtr
      let slots := setInList (setPrev (setNext slots frame none) frame none) frame 0
      let size ← Exec.sub list.size 1
      .ok (some frame, ⟨{ c.heap with slots := slots }, { list with size := size }, cur⟩)

/-- The part of `insert_before` that sets the links. -/
def link (c : CursorMut) (frame : ℕ) : (ℕ → Slot) × LinkedList :=
  let slots := c.heap.slots
  match c.current with
  | some current =>
      match (slots current).prev with
      | some prev =>
          let slots := setPrev slots frame (some prev)
          let slots := setNext slots frame (some current)
          let slots := setNext slots prev (some frame)
          let slots := setPrev slots current (some frame)
          (slots, c.list)
      | none =>
          let slots := setNext slots frame (some current)
          let slots := setPrev slots current (some frame)
          (slots, { c.list with front := some frame })
  | none =>
      match c.list.back with
      | some back =>
          let slots := setPrev slots frame (some back)
          let slots := setNext slots back (some frame)
          (slots, { c.list with back := some frame })
      | none => (slots, { c.list with front := some frame, back := some frame })

/-- `insert_before`. -/
def insertBefore (c : CursorMut) (frame : ℕ) : Exec CursorMut := do
  let (slots, list) := c.link frame
  let (listId, nextId, list) ← lazyGetId c.heap.nextId list
  let slots := setInList slots frame listId
  let size ← Exec.add list.size 1
  .ok ⟨⟨slots, nextId⟩, { list with size := size }, c.current⟩

end CursorMut

section

variable (h : Heap) (l : LinkedList)

/-- `cursor_front_mut`. -/
def cursorFrontMut : CursorMut := ⟨h, l, l.front⟩

/-- `cursor_back_mut`. -/
def cursorBackMut : CursorMut := ⟨h, l, l.back⟩

/-- `cursor_at_ghost_mut`. -/
def cursorAtGhostMut : CursorMut := ⟨h, l, none⟩

/-- `push_front`. -/
def pushFront (frame : ℕ) : Exec CursorMut :=
  let current := l.front
  CursorMut.insertBefore ⟨h, l, current⟩ frame

/-- `push_back`. -/
def pushBack (frame : ℕ) : Exec CursorMut := (cursorAtGhostMut h l).insertBefore frame

/-- `pop_front`. -/
def popFront : Exec (Option ℕ × CursorMut) := (cursorFrontMut h l).takeCurrent

/-- `pop_back`. -/
def popBack : Exec (Option ℕ × CursorMut) := (cursorBackMut h l).takeCurrent

/-- `contains`. -/
def contains (frame : ℕ) : Exec (Bool × Heap × LinkedList) :=
  match getSlot frame with
  | none => .ok (false, h, l)
  | some slot => do
      let inList := (h.slots slot).inList
      let (id, nextId, l) ← lazyGetId h.nextId l
      .ok (inList == id, { h with nextId := nextId }, l)

/-- `cursor_mut_at`. -/
def cursorMutAt (frame : ℕ) : Exec (Option (Option ℕ) × Heap × LinkedList) :=
  match getSlot frame with
  | none => .ok (none, h, l)
  | some slot => do
      let inList := (h.slots slot).inList
      let (id, nextId, l) ← lazyGetId h.nextId l
      if inList == id then .ok (some (some (frameToMeta frame)), { h with nextId := nextId }, l)
      else .ok (none, { h with nextId := nextId }, l)

end

/-- The loop of `drop`: takes frames until the cursor is at the ghost position. -/
def dropLoop : ℕ → List ℕ → CursorMut → Exec (List ℕ × CursorMut)
  | 0, _, _ => .error .outOfFuel
  | fuel + 1, dropped, c => do
      match ← c.takeCurrent with
      | (some frame, c) => dropLoop fuel (dropped ++ [frame]) c
      | (none, c) => .ok (dropped, c)

/-- `drop`: the frames that it drops, in this order. -/
def drop (h : Heap) (l : LinkedList) : Exec (List ℕ × Heap) := do
  let (dropped, c) ← dropLoop (l.size + 1) [] (cursorFrontMut h l)
  .ok (dropped, c.heap)

/-! ## Slots -/

section

variable {slots : ℕ → Slot} {p q : ℕ} {v : Option ℕ} {k : ℕ}

/-- The field `next` of all slots. -/
def nexts (slots : ℕ → Slot) (p : ℕ) : Option ℕ := (slots p).next

/-- The field `prev` of all slots. -/
def prevs (slots : ℕ → Slot) (p : ℕ) : Option ℕ := (slots p).prev

@[simp] theorem nexts_setNext :
    nexts (setNext slots p v) q = if q = p then v else nexts slots q := by
  unfold nexts setNext update
  split <;> simp_all

@[simp] theorem prevs_setNext : prevs (setNext slots p v) q = prevs slots q := by
  unfold prevs setNext update
  split <;> simp_all

@[simp] theorem prevs_setPrev :
    prevs (setPrev slots p v) q = if q = p then v else prevs slots q := by
  unfold prevs setPrev update
  split <;> simp_all

@[simp] theorem nexts_setPrev : nexts (setPrev slots p v) q = nexts slots q := by
  unfold nexts setPrev update
  split <;> simp_all

@[simp] theorem nexts_setInList : nexts (setInList slots p k) q = nexts slots q := by
  unfold nexts setInList update
  split <;> simp_all

@[simp] theorem prevs_setInList : prevs (setInList slots p k) q = prevs slots q := by
  unfold prevs setInList update
  split <;> simp_all

@[simp] theorem inList_setNext : (setNext slots p v q).inList = (slots q).inList := by
  unfold setNext update
  split <;> simp_all

@[simp] theorem inList_setPrev : (setPrev slots p v q).inList = (slots q).inList := by
  unfold setPrev update
  split <;> simp_all

@[simp] theorem inList_setInList :
    (setInList slots p k q).inList = if q = p then k else (slots q).inList := by
  unfold setInList update
  split <;> simp_all

/-- Slots are equal when their fields are. -/
theorem slot_ext {s t : ℕ → Slot} (hn : nexts s p = nexts t p) (hp : prevs s p = prevs t p)
    (hi : (s p).inList = (t p).inList) : s p = t p := by
  unfold nexts at hn
  unfold prevs at hp
  cases hs : s p
  cases ht : t p
  simp_all

end

/-! ## What a list holds -/

/-- The slot of a frame that `get_slot` finds. -/
def FrameSlot (p : ℕ) : Prop := IsMetaSlot p ∧ metaToFrame p < MAX_PADDR

/-- The slot of a frame that is in no list. -/
def Slot.free : Slot := ⟨none, none, 0⟩

/-- The list `l` has the frames `xs`. -/
structure Holds (slots : ℕ → Slot) (l : LinkedList) (xs : List ℕ) : Prop where
  nodup : xs.Nodup
  front : l.front = xs.head?
  back : l.back = xs.getLast?
  size : l.size = xs.length
  next : Chain (nexts slots) xs
  prev : Chain (prevs slots) xs.reverse
  inList : ∀ p ∈ xs, (slots p).inList = l.listId ∧ l.listId ≠ 0
  valid : ∀ p ∈ xs, FrameSlot p

/-- A list takes no id, or the next one. -/
inductive Minted (nextId old : ℕ) : ℕ → ℕ → Prop
  | kept : Minted nextId old old nextId
  | fresh (h : old = 0) : Minted nextId old nextId (nextId + 1)

/-- The list `l` with the frames `xs` becomes the list `l'` with the frames `xs'`. -/
structure Becomes (h : Heap) (l : LinkedList) (xs : List ℕ) (h' : Heap) (l' : LinkedList)
    (xs' : List ℕ) : Prop where
  holds : Holds h'.slots l' xs'
  same : ∀ p, p ∉ xs → p ∉ xs' → h'.slots p = h.slots p
  gone : ∀ p ∈ xs, p ∉ xs' → h'.slots p = Slot.free
  minted : Minted h.nextId l.listId l'.listId h'.nextId

section

variable {slots : ℕ → Slot} {l : LinkedList} {as bs xs : List ℕ} {x : ℕ} {h : Heap}
  {c : CursorMut} {A : Fault → Prop} {paddr : ℕ}

/-- The frame numbers of a list are distinct and below those of the memory. -/
theorem length_le_of_frameSlot (hnodup : xs.Nodup) (hvalid : ∀ p ∈ xs, FrameSlot p) :
    xs.length ≤ MAX_PADDR / PAGE_SIZE := by
  let number := fun p => metaToFrame p / PAGE_SIZE
  have hmul : ∀ p, number p * PAGE_SIZE = metaToFrame p := by
    intro p
    exact Nat.div_mul_cancel (show PAGE_SIZE ∣ metaToFrame p from Dvd.intro_left _ rfl)
  have hinj : ∀ p ∈ xs, ∀ q ∈ xs, number p = number q → p = q := by
    intro p hp q hq heq
    rw [← frameToMeta_metaToFrame (hvalid p hp).1, ← frameToMeta_metaToFrame (hvalid q hq).1,
      ← hmul p, ← hmul q, heq]
  have hsub : (xs.map number) ⊆ List.range (MAX_PADDR / PAGE_SIZE) := by
    intro k hk
    obtain ⟨p, hp, rfl⟩ := List.mem_map.mp hk
    have hlt := (hvalid p hp).2
    rw [← hmul p] at hlt
    rw [List.mem_range]
    unfold MAX_PADDR PAGE_SIZE at *
    omega
  have hlen := (List.Nodup.map_on hinj hnodup).subperm hsub |>.length_le
  simpa using hlen

namespace Holds

theorem new (slots : ℕ → Slot) : Holds slots LinkedList.new [] where
  nodup := List.nodup_nil
  front := rfl
  back := rfl
  size := rfl
  next := Chain.nil _
  prev := Chain.nil _
  inList := by simp
  valid := by simp

/-- What a frame of the list leads to. -/
theorem next_eq (hl : Holds slots l (as ++ x :: bs)) : nexts slots x = bs.head? :=
  hl.next.at_split

theorem prev_eq (hl : Holds slots l (as ++ x :: bs)) : prevs slots x = as.getLast? := by
  have hprev := hl.prev
  rw [List.reverse_append, List.reverse_cons, List.append_assoc] at hprev
  rw [← List.head?_reverse]
  exact hprev.at_split

/-- Only the slots of its frames matter to a list. -/
theorem congr {slots' : ℕ → Slot} (hl : Holds slots l xs) (h : ∀ p ∈ xs, slots' p = slots p) :
    Holds slots' l xs where
  nodup := hl.nodup
  front := hl.front
  back := hl.back
  size := hl.size
  next := by
    apply hl.next.congr
    intro y hy
    show (slots' y).next = (slots y).next
    rw [h y hy]
  prev := by
    apply hl.prev.congr
    intro y hy
    show (slots' y).prev = (slots y).prev
    rw [h y (List.mem_reverse.mp hy)]
  inList := by
    intro p hp
    rw [h p hp]
    exact hl.inList p hp
  valid := hl.valid

/-- The walk forward. -/
theorem walk_next (hl : Holds slots l xs) {n : ℕ} (hn : l.size ≤ n) :
    walk (nexts slots) n l.front = xs := by
  rw [hl.front, hl.next.walk_eq n (by rw [← hl.size]; exact hn)]

/-- The walk backward. -/
theorem walk_prev (hl : Holds slots l xs) {n : ℕ} (hn : l.size ≤ n) :
    walk (prevs slots) n l.back = xs.reverse := by
  rw [hl.back, ← List.head?_reverse,
    hl.prev.walk_eq n (by rw [List.length_reverse, ← hl.size]; exact hn)]

end Holds

/-! ## `lazy_get_id` -/

/-- Only a list without an id takes one, and then only if there is one left. -/
theorem post_lazyGetId {nextId : ℕ} (hpos : 0 < nextId) :
    Post (fun e => e = .assertion ∧ MAX_LIST_ID ≤ nextId) (lazyGetId nextId l) (fun r =>
      r.2.2 = { l with listId := r.1 } ∧ Minted nextId l.listId r.1 r.2.1 ∧ r.1 ≠ 0 ∧
        (l.listId ≠ 0 → r.1 = l.listId)) := by
  unfold lazyGetId
  apply post_ite
  · intro hzero
    apply post_ite
    · intro hge
      exact ⟨rfl, hge⟩
    · intro hlt
      have hmod : (nextId + 1) % 2 ^ 64 = nextId + 1 := by
        apply Nat.mod_eq_of_lt
        unfold MAX_LIST_ID at hlt
        omega
      show _ ∧ Minted nextId l.listId nextId ((nextId + 1) % 2 ^ 64) ∧ nextId ≠ 0 ∧ _
      rw [hmod]
      exact ⟨rfl, .fresh hzero, by omega, fun hne => absurd hzero hne⟩
  · intro hne
    exact ⟨rfl, .kept, hne, fun _ => rfl⟩

/-! ## `insert_before` -/

/-- What comes before the cursor. -/
def CursorMut.before (c : CursorMut) : Option ℕ :=
  match c.current with
  | some current => prevs c.heap.slots current
  | none => c.list.back

/-- The links that `insert_before` sets, at a frame that is in no list: what comes before leads
to the frame, and the frame to the current one; and back. -/
theorem link_eq (hfree : c.heap.slots x = Slot.free) (hcur : c.current ≠ some x)
    (hbefore : c.before ≠ some x) (q : ℕ) :
    nexts (c.link x).1 q
        = (if c.before = some q then some x else if q = x then c.current
            else nexts c.heap.slots q) ∧
      prevs (c.link x).1 q
        = (if c.current = some q then some x else if q = x then c.before
            else prevs c.heap.slots q) ∧
      ((c.link x).1 q).inList = (c.heap.slots q).inList := by
  have hnext : nexts c.heap.slots x = none := by
    show (c.heap.slots x).next = none
    rw [hfree]
    rfl
  have hprev : prevs c.heap.slots x = none := by
    show (c.heap.slots x).prev = none
    rw [hfree]
    rfl
  obtain ⟨heap, list, current⟩ := c
  cases current with
  | some current =>
      change prevs heap.slots current ≠ some x at hbefore
      change nexts heap.slots x = none at hnext
      cases hb : (heap.slots current).prev with
      | some prev =>
          have hb' : prevs heap.slots current = some prev := hb
          simp only [CursorMut.link, CursorMut.before, hb, hb']
          grind [nexts_setNext, prevs_setNext, nexts_setPrev, prevs_setPrev, inList_setNext,
            inList_setPrev]
      | none =>
          have hb' : prevs heap.slots current = none := hb
          simp only [CursorMut.link, CursorMut.before, hb, hb']
          grind [nexts_setNext, prevs_setNext, nexts_setPrev, prevs_setPrev, inList_setNext,
            inList_setPrev]
  | none =>
      cases hb : list.back with
      | some back =>
          simp only [CursorMut.link, CursorMut.before, hb]
          grind [nexts_setNext, prevs_setNext, nexts_setPrev, prevs_setPrev, inList_setNext,
            inList_setPrev]
      | none =>
          simp only [CursorMut.link, CursorMut.before, hb]
          grind

/-- The ends of the list after `insert_before`. -/
theorem link_list (c : CursorMut) (x : ℕ) :
    (c.link x).2 =
      { c.list with
        front := if c.before = none then some x else c.list.front
        back := if c.current = none then some x else c.list.back } := by
  obtain ⟨heap, list, current⟩ := c
  cases current with
  | some current =>
      cases hb : (heap.slots current).prev with
      | some prev =>
          have hb' : prevs heap.slots current = some prev := hb
          simp [CursorMut.link, CursorMut.before, hb, hb']
      | none =>
          have hb' : prevs heap.slots current = none := hb
          simp [CursorMut.link, CursorMut.before, hb, hb']
  | none =>
      cases hb : list.back with
      | some back => simp [CursorMut.link, CursorMut.before, hb]
      | none => simp [CursorMut.link, CursorMut.before, hb]

/-- At the cursor, the list is parted. -/
theorem before_eq (hl : Holds c.heap.slots c.list (as ++ bs))
    (hcur : c.current = bs.head?) : c.before = as.getLast? := by
  unfold CursorMut.before
  cases bs with
  | nil =>
      rw [hcur]
      show c.list.back = as.getLast?
      rw [hl.back, List.append_nil]
  | cons b bs =>
      rw [hcur]
      exact hl.prev_eq

/-- The slots after `insert_before`, between `as` and `bs`. -/
structure Linked (slots slots' : ℕ → Slot) (as bs : List ℕ) (x id : ℕ) : Prop where
  next : ∀ q, nexts slots' q
    = if as.getLast? = some q then some x else if q = x then bs.head? else nexts slots q
  prev : ∀ q, prevs slots' q
    = if bs.head? = some q then some x else if q = x then as.getLast? else prevs slots q
  inList : ∀ q, (slots' q).inList = if q = x then id else (slots q).inList

/-- A frame beside the list is none of those at the place. -/
theorem beside {p : ℕ} (hp : p ∉ as ++ x :: bs) :
    as.getLast? ≠ some p ∧ bs.head? ≠ some p ∧ p ≠ x := by
  refine ⟨fun hlast => ?_, fun hhead => ?_, ?_⟩
  · exact hp (List.mem_append_left _ (List.mem_of_getLast? hlast))
  · exact hp (List.mem_append_right _ (List.mem_cons_of_mem _ (List.mem_of_head? hhead)))
  · rintro rfl
    exact hp (by simp)

namespace Linked

variable {slots' : ℕ → Slot} {l' : LinkedList} {id p : ℕ}

/-- The frames beside the list are left alone. -/
theorem same (h : Linked slots slots' as bs x id) (hp : p ∉ as ++ x :: bs) :
    slots' p = slots p := by
  obtain ⟨hlast, hhead, hne⟩ := beside hp
  apply slot_ext
  · rw [h.next, if_neg hlast, if_neg hne]
  · rw [h.prev, if_neg hhead, if_neg hne]
  · rw [h.inList, if_neg hne]

/-- The list holds the new frame, if its ends and its size say so. -/
theorem holds (h : Linked slots slots' as bs x l'.listId) (hl : Holds slots l (as ++ bs))
    (hx : FrameSlot x) (hnot : x ∉ as ++ bs) (hid : l'.listId ≠ 0)
    (hkept : l.listId ≠ 0 → l'.listId = l.listId)
    (hfront : l'.front = if as.getLast? = none then some x else l.front)
    (hback : l'.back = if bs.head? = none then some x else l.back)
    (hsize : l'.size = l.size + 1) : Holds slots' l' (as ++ x :: bs) where
  nodup := by
    rw [List.nodup_middle, List.nodup_cons]
    exact ⟨hnot, hl.nodup⟩
  front := by
    rw [hfront, hl.front]
    cases as with
    | nil => rfl
    | cons a as => rw [if_neg (by simp)]; rfl
  back := by
    rw [hback, hl.back]
    cases bs with
    | nil => simp
    | cons b bs => rw [if_neg (by simp)]; simp [List.getLast?_append]
  size := by
    rw [hsize, hl.size]
    simp only [List.length_append, List.length_cons]
    omega
  next := by
    apply hl.next.insert hl.nodup
    · rw [h.next, if_neg, if_pos rfl]
      intro hlast
      exact hnot (List.mem_append_left _ (List.mem_of_getLast? hlast))
    · intro y hy
      rw [h.next, if_pos hy]
    · intro y hy hlast
      rw [h.next, if_neg hlast, if_neg]
      rintro rfl
      exact hnot hy
  prev := by
    -- The same chain in the other direction, between `bs` and `as`
    have hrev : Chain (prevs slots) (bs.reverse ++ as.reverse) := by
      rw [← List.reverse_append]
      exact hl.prev
    rw [List.reverse_append, List.reverse_cons, List.append_assoc]
    apply hrev.insert
    · rw [← List.reverse_append, List.nodup_reverse]
      exact hl.nodup
    · rw [h.prev, List.head?_reverse, if_neg, if_pos rfl]
      intro hhead
      exact hnot (List.mem_append_right _ (List.mem_of_head? hhead))
    · intro y hy
      rw [List.getLast?_reverse] at hy
      rw [h.prev, if_pos hy]
    · intro y hy hlast
      rw [List.getLast?_reverse] at hlast
      rw [h.prev, if_neg hlast, if_neg]
      rintro rfl
      rw [← List.reverse_append, List.mem_reverse] at hy
      exact hnot hy
  inList := by
    intro p hp
    rw [h.inList]
    by_cases hpx : p = x
    · rw [if_pos hpx]
      exact ⟨rfl, hid⟩
    · rw [if_neg hpx]
      have hmem : p ∈ as ++ bs := by
        rcases List.mem_cons.mp (List.perm_middle.mem_iff.mp hp) with rfl | hp
        · exact absurd rfl hpx
        · exact hp
      obtain ⟨htag, hne⟩ := hl.inList p hmem
      rw [htag, hkept hne]
      exact ⟨rfl, hne⟩
  valid := by
    intro p hp
    rcases List.mem_cons.mp (List.perm_middle.mem_iff.mp hp) with rfl | hp
    · exact hx
    · exact hl.valid p hp

end Linked

/-- **`insert_before`** puts the frame directly before the current one, or at the end when the
cursor is at the ghost position. -/
theorem post_insertBefore (hl : Holds c.heap.slots c.list (as ++ bs))
    (hcur : c.current = bs.head?) (hx : FrameSlot x) (hnot : x ∉ as ++ bs)
    (hfree : c.heap.slots x = Slot.free) (hpos : 0 < c.heap.nextId) :
    Post (fun e => e = .assertion ∧ MAX_LIST_ID ≤ c.heap.nextId) (c.insertBefore x) (fun c' =>
      Becomes c.heap c.list (as ++ bs) c'.heap c'.list (as ++ x :: bs) ∧
        c'.current = bs.head?) := by
  have hbefore : c.before = as.getLast? := before_eq hl hcur
  have hlink := link_eq (x := x) hfree
    (by rw [hcur]; intro h; exact hnot (List.mem_append_right _ (List.mem_of_head? h)))
    (by rw [hbefore]; intro h; exact hnot (List.mem_append_left _ (List.mem_of_getLast? h)))
  have hlist := link_list c x
  rw [hbefore, hcur] at hlist
  rw [hbefore, hcur] at hlink
  have hsize : c.list.size + 1 < 2 ^ 64 := by
    have hlen := length_le_of_frameSlot hl.nodup hl.valid
    rw [hl.size]
    unfold MAX_PADDR PAGE_SIZE at hlen
    omega
  unfold CursorMut.insertBefore
  apply (post_lazyGetId (l := (c.link x).2) hpos).bind
  intro r hr
  obtain ⟨hr₁, hminted, hid, hkept⟩ := hr
  have hrsize : r.2.2.size = c.list.size := by
    rw [hr₁, hlist]
  apply (post_add (fun h => absurd h (by rw [hrsize]; omega))).bind
  rintro size ⟨rfl, -⟩
  have hlinked : Linked c.heap.slots (setInList (c.link x).1 x r.1) as bs x r.1 := by
    constructor
    · intro q
      rw [nexts_setInList, (hlink q).1]
    · intro q
      rw [prevs_setInList, (hlink q).2.1]
    · intro q
      rw [inList_setInList, (hlink q).2.2]
  rw [hlist] at hminted hkept
  have hr₂ : r.2.2.listId = r.1 := by rw [hr₁]
  refine ⟨⟨?_, ?_, ?_, ?_⟩, hcur⟩
  · apply Linked.holds _ hl hx hnot
    · show r.2.2.listId ≠ 0
      rw [hr₂]
      exact hid
    · show c.list.listId ≠ 0 → r.2.2.listId = c.list.listId
      rw [hr₂]
      exact hkept
    · show r.2.2.front = _
      rw [hr₁, hlist]
    · show r.2.2.back = _
      rw [hr₁, hlist]
    · show r.2.2.size + 1 = _
      rw [hrsize]
    · show Linked c.heap.slots (setInList (c.link x).1 x r.1) as bs x r.2.2.listId
      rw [hr₂]
      exact hlinked
  · intro p _ hp
    exact hlinked.same hp
  · intro p hp hp'
    exact absurd (List.perm_middle.mem_iff.mpr (List.mem_cons_of_mem _ hp)) hp'
  · show Minted c.heap.nextId c.list.listId r.2.2.listId r.2.1
    rw [hr₂]
    exact hminted

/-! ## `take_current` -/

/-- The slots after `take_current`, between `as` and `bs`. -/
structure Unlinked (slots slots' : ℕ → Slot) (as bs : List ℕ) (x : ℕ) : Prop where
  next : ∀ q, nexts slots' q
    = if q = x then none else if as.getLast? = some q then bs.head? else nexts slots q
  prev : ∀ q, prevs slots' q
    = if q = x then none else if bs.head? = some q then as.getLast? else prevs slots q
  inList : ∀ q, (slots' q).inList = if q = x then 0 else (slots q).inList

namespace Unlinked

variable {slots' : ℕ → Slot} {l' : LinkedList} {p : ℕ}

/-- The frame is in no list any more, and its links are cleared. -/
theorem gone (h : Unlinked slots slots' as bs x) : slots' x = Slot.free := by
  have hnext := h.next x
  have hprev := h.prev x
  have hin := h.inList x
  rw [if_pos rfl] at hnext hprev hin
  exact slot_ext (t := fun _ => Slot.free) hnext hprev hin

/-- The frames beside the list are left alone. -/
theorem same (h : Unlinked slots slots' as bs x) (hp : p ∉ as ++ x :: bs) :
    slots' p = slots p := by
  obtain ⟨hlast, hhead, hne⟩ := beside hp
  apply slot_ext
  · rw [h.next, if_neg hne, if_neg hlast]
  · rw [h.prev, if_neg hne, if_neg hhead]
  · rw [h.inList, if_neg hne]

/-- The list holds the other frames, if its ends and its size say so. -/
theorem holds (h : Unlinked slots slots' as bs x) (hl : Holds slots l (as ++ x :: bs))
    (hid : l'.listId = l.listId)
    (hfront : l'.front = if as.getLast? = none then bs.head? else l.front)
    (hback : l'.back = if bs.head? = none then as.getLast? else l.back)
    (hsize : l'.size = l.size - 1) : Holds slots' l' (as ++ bs) := by
  have hnodup := hl.nodup
  rw [List.nodup_middle, List.nodup_cons] at hnodup
  obtain ⟨hnot, hnodup⟩ := hnodup
  have hsub : ∀ p ∈ as ++ bs, p ∈ as ++ x :: bs := by
    intro p hp
    exact List.perm_middle.mem_iff.mpr (List.mem_cons_of_mem _ hp)
  have hne : ∀ p ∈ as ++ bs, p ≠ x := by
    rintro p hp rfl
    exact hnot hp
  constructor
  case nodup => exact hnodup
  case front =>
    rw [hfront, hl.front]
    cases as with
    | nil => rfl
    | cons a as => rw [if_neg (by simp)]; rfl
  case back =>
    rw [hback, hl.back]
    cases bs with
    | nil => simp
    | cons b bs => rw [if_neg (by simp)]; simp [List.getLast?_append]
  case size =>
    rw [hsize, hl.size]
    simp only [List.length_append, List.length_cons]
    omega
  case next =>
    apply hl.next.remove hl.nodup
    · intro y hy
      rw [h.next, if_neg (hne y (List.mem_append_left _ (List.mem_of_getLast? hy))), if_pos hy]
    · intro y hy hlast
      rw [h.next, if_neg (hne y hy), if_neg hlast]
  case prev =>
    -- The same chain in the other direction, between `bs` and `as`
    have hrev : Chain (prevs slots) (bs.reverse ++ x :: as.reverse) := by
      have hprev := hl.prev
      rw [List.reverse_append, List.reverse_cons, List.append_assoc] at hprev
      exact hprev
    rw [List.reverse_append]
    apply hrev.remove
    · have hnodup := List.nodup_reverse.mpr hl.nodup
      rw [List.reverse_append, List.reverse_cons, List.append_assoc] at hnodup
      exact hnodup
    · intro y hy
      rw [List.getLast?_reverse] at hy
      rw [h.prev, List.head?_reverse,
        if_neg (hne y (List.mem_append_right _ (List.mem_of_head? hy))), if_pos hy]
    · intro y hy hlast
      rw [← List.reverse_append, List.mem_reverse] at hy
      rw [List.getLast?_reverse] at hlast
      rw [h.prev, if_neg (hne y hy), if_neg hlast]
  case inList =>
    intro p hp
    rw [h.inList, if_neg (hne p hp), hid]
    exact hl.inList p (hsub p hp)
  case valid =>
    intro p hp
    exact hl.valid p (hsub p hp)

end Unlinked

/-- What the first part of `take_current` does. -/
theorem unlinkNext_eq (slots : ℕ → Slot) (l : LinkedList) (prev next : Option ℕ) (q : ℕ) :
    nexts (CursorMut.unlinkNext slots l prev next).1 q
        = (if prev = some q then next else nexts slots q) ∧
      prevs (CursorMut.unlinkNext slots l prev next).1 q = prevs slots q ∧
      ((CursorMut.unlinkNext slots l prev next).1 q).inList = (slots q).inList ∧
      (CursorMut.unlinkNext slots l prev next).2
        = { l with front := if prev = none then next else l.front } := by
  cases prev with
  | none => simp [CursorMut.unlinkNext]
  | some p => simp [CursorMut.unlinkNext, eq_comm]

/-- What the second part of `take_current` does. -/
theorem unlinkPrev_eq (slots : ℕ → Slot) (l : LinkedList) (prev next : Option ℕ) (q : ℕ) :
    prevs (CursorMut.unlinkPrev slots l prev next).1 q
        = (if next = some q then prev else prevs slots q) ∧
      nexts (CursorMut.unlinkPrev slots l prev next).1 q = nexts slots q ∧
      ((CursorMut.unlinkPrev slots l prev next).1 q).inList = (slots q).inList ∧
      (CursorMut.unlinkPrev slots l prev next).2
        = ({ l with back := if next = none then prev else l.back }, next) := by
  cases next with
  | none => simp [CursorMut.unlinkPrev]
  | some n => simp [CursorMut.unlinkPrev, eq_comm]

/-- **`take_current`** takes the current frame out of the list, clears its links and moves to
its successor, or to the ghost position. -/
theorem post_takeCurrent
    (hl : Holds c.heap.slots c.list (as ++ x :: bs)) (hcur : c.current = some x) :
    Post A c.takeCurrent (fun r => r.1 = some x ∧
      Becomes c.heap c.list (as ++ x :: bs) r.2.heap r.2.list (as ++ bs) ∧
        r.2.current = bs.head?) := by
  have hmem : x ∈ as ++ x :: bs := by simp
  have hframe : frameToMeta (metaToFrame x) = x :=
    frameToMeta_metaToFrame (hl.valid x hmem).1
  have hnext : (c.heap.slots x).next = bs.head? := hl.next_eq
  have hprev : (c.heap.slots x).prev = as.getLast? := hl.prev_eq
  have hnodup := hl.nodup
  rw [List.nodup_middle, List.nodup_cons] at hnodup
  unfold CursorMut.takeCurrent
  rw [hcur]
  simp only [hframe, hnext, hprev]
  have h₁ := unlinkNext_eq c.heap.slots c.list as.getLast? bs.head?
  generalize CursorMut.unlinkNext c.heap.slots c.list as.getLast? bs.head? = u at h₁ ⊢
  have h₂ := unlinkPrev_eq u.1 u.2 as.getLast? bs.head?
  generalize CursorMut.unlinkPrev u.1 u.2 as.getLast? bs.head? = v at h₂ ⊢
  have hlist : v.2.1 =
      { c.list with
        front := if as.getLast? = none then bs.head? else c.list.front
        back := if bs.head? = none then as.getLast? else c.list.back } := by
    rw [(h₂ x).2.2.2, (h₁ x).2.2.2]
  have hunlinked : Unlinked c.heap.slots
      (setInList (setPrev (setNext v.1 x none) x none) x 0) as bs x := by
    constructor
    · intro q
      rw [nexts_setInList, nexts_setPrev, nexts_setNext, (h₂ q).2.1, (h₁ q).1]
    · intro q
      rw [prevs_setInList, prevs_setPrev, prevs_setNext, (h₂ q).1, (h₁ q).2.1]
    · intro q
      rw [inList_setInList, inList_setPrev, inList_setNext, (h₂ q).2.2.1, (h₁ q).2.2.1]
  have hsize : 1 ≤ v.2.1.size := by
    rw [hlist]
    show 1 ≤ c.list.size
    rw [hl.size]
    simp only [List.length_append, List.length_cons]
    omega
  apply (post_sub (a := v.2.1.size) (fun h => absurd h (not_lt.mpr hsize))).bind
  rintro size ⟨rfl, -⟩
  refine ⟨rfl, ⟨?_, ?_, ?_, ?_⟩, ?_⟩
  · apply hunlinked.holds hl
    · show v.2.1.listId = _
      rw [hlist]
    · show v.2.1.front = _
      rw [hlist]
    · show v.2.1.back = _
      rw [hlist]
    · show v.2.1.size - 1 = _
      rw [hlist]
  · intro p hp _
    exact hunlinked.same hp
  · intro p hp hp'
    rcases List.mem_cons.mp (List.perm_middle.mem_iff.mp hp) with rfl | hp
    · exact hunlinked.gone
    · exact absurd hp hp'
  · show Minted c.heap.nextId c.list.listId v.2.1.listId c.heap.nextId
    rw [hlist]
    exact .kept
  · show v.2.2 = _
    rw [(h₂ x).2.2.2]

/-- At the ghost position there is nothing to take. -/
theorem takeCurrent_ghost (hcur : c.current = none) :
    c.takeCurrent = .ok (none, c) := by
  unfold CursorMut.takeCurrent
  rw [hcur]

/-! ## `move_next` and `move_prev` -/

/-- The cursor goes round the list and the ghost position. -/
theorem moveNext_eq (hl : Holds c.heap.slots c.list (as ++ x :: bs))
    (hcur : c.current = some x) : c.moveNext = { c with current := bs.head? } := by
  unfold CursorMut.moveNext
  rw [hcur]
  show CursorMut.mk c.heap c.list (nexts c.heap.slots x) = _
  rw [hl.next_eq]

theorem moveNext_ghost (hl : Holds c.heap.slots c.list xs)
    (hcur : c.current = none) : c.moveNext = { c with current := xs.head? } := by
  unfold CursorMut.moveNext
  rw [hcur]
  show CursorMut.mk c.heap c.list c.list.front = _
  rw [hl.front]

/-- Backward, the position decides alone: `as` is what comes before the cursor. -/
theorem movePrev_eq (hl : Holds c.heap.slots c.list (as ++ bs))
    (hcur : c.current = bs.head?) : c.movePrev = { c with current := as.getLast? } := by
  have hbefore := before_eq hl hcur
  unfold CursorMut.before at hbefore
  unfold CursorMut.movePrev
  show CursorMut.mk c.heap c.list (match c.current with
    | some current => prevs c.heap.slots current
    | none => c.list.back) = _
  rw [hbefore]

/-! ## `drop` -/

namespace Becomes

variable {h₁ h₂ h₃ : Heap} {l₁ l₂ l₃ : LinkedList} {xs₁ xs₂ xs₃ : List ℕ}

theorem refl (hl : Holds h.slots l xs) : Becomes h l xs h l xs :=
  ⟨hl, fun _ _ _ => rfl, fun _ hp hp' => absurd hp hp', .kept⟩

/-- One after the other, when the frames only become fewer and no id is taken. -/
theorem trans (h₁₂ : Becomes h₁ l₁ xs₁ h₂ l₂ xs₂) (h₂₃ : Becomes h₂ l₂ xs₂ h₃ l₃ xs₃)
    (hsub₁ : xs₂ ⊆ xs₁) (hsub₂ : xs₃ ⊆ xs₂) (hid : l₁.listId ≠ 0) :
    Becomes h₁ l₁ xs₁ h₃ l₃ xs₃ where
  holds := h₂₃.holds
  same := by
    intro p hp _
    have hp₂ : p ∉ xs₂ := fun h => hp (hsub₁ h)
    rw [h₂₃.same p hp₂ (fun h => hp₂ (hsub₂ h)), h₁₂.same p hp hp₂]
  gone := by
    intro p hp hp₃
    by_cases hp₂ : p ∈ xs₂
    · exact h₂₃.gone p hp₂ hp₃
    · rw [h₂₃.same p hp₂ hp₃, h₁₂.gone p hp hp₂]
  minted := by
    have hm₁ := h₁₂.minted
    have hm₂ := h₂₃.minted
    generalize hid₂ : l₂.listId = id₂ at hm₁ hm₂
    generalize hn₂ : h₂.nextId = n₂ at hm₁ hm₂
    cases hm₁ with
    | kept => exact hm₂
    | fresh h => exact absurd h hid

end Becomes

/-- Each round takes the first frame. -/
theorem post_dropLoop (xs : List ℕ) :
    ∀ (fuel : ℕ) (dropped : List ℕ) (c : CursorMut), Holds c.heap.slots c.list xs →
      c.current = xs.head? → xs.length < fuel →
      Post A (dropLoop fuel dropped c) (fun r => r.1 = dropped ++ xs ∧
        Becomes c.heap c.list xs r.2.heap r.2.list []) := by
  induction xs with
  | nil =>
      intro fuel dropped c hl hcur hfuel
      obtain ⟨fuel, rfl⟩ : ∃ k, fuel = k + 1 := ⟨fuel - 1, by simp at hfuel; omega⟩
      unfold dropLoop
      rw [takeCurrent_ghost hcur]
      exact ⟨(List.append_nil _).symm, .refl hl⟩
  | cons x xs ih =>
      intro fuel dropped c hl hcur hfuel
      obtain ⟨fuel, rfl⟩ : ∃ k, fuel = k + 1 := ⟨fuel - 1, by simp at hfuel; omega⟩
      unfold dropLoop
      apply (post_takeCurrent
        (show Holds c.heap.slots c.list ([] ++ x :: xs) from hl) hcur).bind
      rintro ⟨frame, c'⟩ ⟨rfl, hbecomes, hcur'⟩
      have hid := (hl.inList x (by simp)).2
      apply (ih fuel (dropped ++ [x]) c' hbecomes.holds hcur' (by simpa using hfuel)).mono
      rintro r ⟨hr, hrest⟩
      refine ⟨by simpa using hr, ?_⟩
      exact hbecomes.trans hrest (by simp) (by simp) hid

/-- **`drop`** takes every frame out of the list, from the front on. -/
theorem post_drop (hl : Holds h.slots l xs) :
    Post A (drop h l) (fun r => r.1 = xs ∧
      ∃ l', Becomes h l xs r.2 l' []) := by
  unfold drop
  apply (post_dropLoop xs (l.size + 1) [] (cursorFrontMut h l) hl hl.front
    (by rw [hl.size]; omega)).bind
  rintro ⟨dropped, c⟩ ⟨hdropped, hbecomes⟩
  exact ⟨hdropped, c.list, hbecomes⟩

/-! ## `contains` -/

/-- The frames of a list by their addresses. -/
theorem getSlot_eq (hx : FrameSlot x) : getSlot (metaToFrame x) = some x := by
  unfold getSlot
  rw [if_neg, if_neg (not_le.mpr hx.2), frameToMeta_metaToFrame hx.1]
  rw [not_not]
  exact Nat.mul_mod_left _ _

theorem metaToFrame_of_getSlot (h : getSlot paddr = some x) :
    metaToFrame x = paddr := by
  unfold getSlot at h
  split_ifs at h with halign hmax
  cases h
  rw [not_not] at halign
  unfold metaToFrame frameToMeta metaSlotSize frameMetadataRange PAGE_SIZE at *
  omega

/-- A frame address is in the list exactly when its slot is. -/
theorem mem_map_iff {slot : ℕ} (hvalid : ∀ p ∈ xs, FrameSlot p)
    (hslot : getSlot paddr = some slot) : paddr ∈ xs.map metaToFrame ↔ slot ∈ xs := by
  constructor
  · intro hmem
    obtain ⟨p, hp, rfl⟩ := List.mem_map.mp hmem
    rw [getSlot_eq (hvalid p hp)] at hslot
    cases hslot
    exact hp
  · intro hmem
    rw [← metaToFrame_of_getSlot hslot]
    exact List.mem_map_of_mem hmem

theorem not_mem_map (hvalid : ∀ p ∈ xs, FrameSlot p) (hslot : getSlot paddr = none) :
    paddr ∉ xs.map metaToFrame := by
  intro hmem
  obtain ⟨p, hp, rfl⟩ := List.mem_map.mp hmem
  rw [getSlot_eq (hvalid p hp)] at hslot
  cases hslot

/-- Taking an id does not change what the list holds. -/
theorem Becomes.of_minted {id nextId : ℕ} (hl : Holds h.slots l xs)
    (hminted : Minted h.nextId l.listId id nextId) (hkept : l.listId ≠ 0 → id = l.listId) :
    Becomes h l xs { h with nextId := nextId } { l with listId := id } xs where
  holds := by
    refine ⟨hl.nodup, hl.front, hl.back, hl.size, hl.next, hl.prev, ?_, hl.valid⟩
    intro p hp
    obtain ⟨htag, hne⟩ := hl.inList p hp
    show (h.slots p).inList = id ∧ id ≠ 0
    rw [hkept hne]
    exact ⟨htag, hne⟩
  same := fun _ _ _ => rfl
  gone := fun _ hp hp' => absurd hp hp'
  minted := hminted

end

end FrameList

end Vostd
