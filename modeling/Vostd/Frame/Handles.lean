/-
# Handles of frames

`Frame`, `UniqueFrame` and `Segment` (`frame/mod.rs`, `frame/unique.rs`, `frame/segment.rs`)
refer to frames; the field `ref_count` of a frame's metadata slot says how many do
(`frame/meta.rs`).  Each operation on handles is a sequence of atomic accesses to slots, and
any number of threads make them in any order.

A slot is given by the number of its frame (`frame_to_index`).  Handles are the values of the
program, in two collections: those that are live, and those that `into_raw` has forgotten.
While a thread is in the middle of an operation, the handle that the operation has taken, or
is about to return, is part of the operation (`Pending`).
-/
import Vostd.Lib.System
import Vostd.Lib.Threads
import Vostd.PageTable.Config

namespace Vostd

namespace FrameHandles

/-! ## Slots and handles -/

/-- `REF_COUNT_UNUSED`. -/
def REF_COUNT_UNUSED : ℕ := 2 ^ 64 - 1

/-- `REF_COUNT_UNIQUE`. -/
def REF_COUNT_UNIQUE : ℕ := 2 ^ 64 - 2

/-- `GetFrameError`. -/
inductive GetFrameError
  | inUse
  | unused
  | busy
  | unique
  | outOfBound
  | notAligned
  deriving DecidableEq, Repr

/-- `MetaSlot`: the reference count, and whether the slot has initialised metadata. -/
structure MetaSlot where
  refCount : ℕ
  hasMeta : Bool
  deriving DecidableEq, Repr

/-- `get_slot`. -/
def getSlot (paddr : ℕ) : Except GetFrameError ℕ :=
  if paddr % PAGE_SIZE ≠ 0 then .error .notAligned
  else if paddr ≥ MAX_PADDR then .error .outOfBound
  else .ok (paddr / PAGE_SIZE)

/-- `Frame`, `UniqueFrame` and `Segment`. -/
inductive Handle
  | frame (i : ℕ)
  | unique (i : ℕ)
  | segment (range : AddrRange)
  deriving DecidableEq, Repr

/-- What `into_raw` returns. -/
inductive RawHandle
  | frame (paddr : ℕ)
  | unique (paddr : ℕ)
  | segment (range : AddrRange)
  deriving DecidableEq, Repr

/-- `into_raw`: the handle is forgotten, and its address returned. -/
def Handle.intoRaw : Handle → RawHandle
  | frame i => .frame (i * PAGE_SIZE)
  | unique i => .unique (i * PAGE_SIZE)
  | segment range => .segment range

/-- `from_raw`. -/
def RawHandle.fromRaw : RawHandle → Handle
  | frame paddr => .frame (paddr / PAGE_SIZE)
  | unique paddr => .unique (paddr / PAGE_SIZE)
  | segment range => .segment range

/-! ## Operations in progress -/

/-- The loop of `Segment::from_unused`, at its round `i`: the frames up to `segEnd` are
forgotten in the segment. -/
structure Filling where
  range : AddrRange
  i : ℕ
  segEnd : ℕ
  made : segEnd = range.start + i * PAGE_SIZE

/-- The loop of `Segment::clone` and of `Segment::slice`: a new segment for `range`, whose
frames before `paddr` are counted already.  All of it is in the segment `source`. -/
structure Adding where
  source : AddrRange
  range : AddrRange
  paddr : ℕ
  within : source.start ≤ range.start ∧ range.stop ≤ source.stop ∧
    PAGE_SIZE ∣ range.start - source.start
  counted : range.start ≤ paddr ∧ PAGE_SIZE ∣ paddr - range.start ∧
    (paddr = range.start ∨ paddr < range.stop + PAGE_SIZE)

/-- Who has called `get_from_unused`. -/
inductive Creator
  | frame (i : ℕ)
  | unique (i : ℕ)
  | segment (f : Filling)

/-- The slot that it is called for. -/
def Creator.index : Creator → ℕ
  | frame i | unique i => i
  | segment f => (f.range.start + f.i * PAGE_SIZE) / PAGE_SIZE

/-- The argument `as_unique_ptr`. -/
def Creator.asUniquePtr : Creator → Bool
  | unique _ => true
  | frame _ | segment _ => false

/-- What comes after `Frame::drop`: nothing, or the rest of a segment from `paddr` on, in
`Segment::drop` or in `Segment::from_unused` after an error. -/
inductive Rest
  | nothing
  | drop (paddr stop : ℕ)
  | recycle (e : GetFrameError) (paddr stop : ℕ)

/-- An operation, by the access that it makes next. -/
inductive Pending
  /-- `get_from_unused`: the `compare_exchange` -/
  | acquire (k : Creator)
  /-- `get_from_unused`: `write_meta` -/
  | writeMeta (k : Creator)
  /-- `get_from_unused`: the `store` of the first count -/
  | publish (k : Creator)
  /-- `get_from_in_use`: the `load` -/
  | load (i : ℕ)
  /-- `get_from_in_use`: the `compare_exchange_weak` -/
  | increment (i last : ℕ)
  /-- `Frame::clone`: `inc_ref_count` -/
  | cloneFrame (i : ℕ)
  /-- `Segment::clone` and `Segment::slice`: `inc_frame_ref_count` -/
  | incRefCount (a : Adding) (h : a.paddr < a.range.stop)
  /-- `Frame::drop`: the `fetch_sub` -/
  | release (i : ℕ) (k : Rest)
  /-- `drop_last_in_place`: `drop_meta_in_place` -/
  | dropMeta (i : ℕ) (k : Rest)
  /-- `drop_last_in_place`: the `store` -/
  | retire (i : ℕ) (k : Rest)
  /-- `UniqueFrame::drop` and `reset_as_unused`: the `store` -/
  | close (i : ℕ)
  /-- `repurpose`: `drop_meta_in_place` -/
  | repurpose (i : ℕ)
  /-- `repurpose`: `write_meta` -/
  | rewrite (i : ℕ)
  /-- `from_unique`: the `store` -/
  | fromUnique (i : ℕ)
  /-- `try_from_shared`: the `compare_exchange` -/
  | tryFromShared (i : ℕ)

/-- What an access comes to: another access, the handles that are returned, or an abort. -/
inductive Outcome
  | running (p : Pending)
  | returns (hs : List Handle) (err : Option GetFrameError)
  | aborts

/-! ## The code between the accesses -/

/-- The loop of `Segment::drop`. -/
def dropSegment (paddr stop : ℕ) : Outcome :=
  if paddr ≥ stop then .returns [] none
  else .running (.release (paddr / PAGE_SIZE) (.drop (paddr + PAGE_SIZE) stop))

/-- The loop of `Segment::from_unused` after an error. -/
def recycleSegment (e : GetFrameError) (p stop : ℕ) : Outcome :=
  if p < stop then .running (.release (p / PAGE_SIZE) (.recycle e (p + PAGE_SIZE) stop))
  else .returns [] (some e)

def Rest.resume : Rest → Outcome
  | nothing => .returns [] none
  | drop paddr stop => dropSegment paddr stop
  | recycle e paddr stop => recycleSegment e paddr stop

/-- `get_from_unused` has returned an error. -/
def Creator.fails (e : GetFrameError) : Creator → Outcome
  | frame _ | unique _ => .returns [] (some e)
  | segment f => recycleSegment e f.range.start f.segEnd

/-- The loop of `Segment::from_unused`. -/
def Filling.resume (f : Filling) : Outcome :=
  if f.i < (f.range.stop - f.range.start) / PAGE_SIZE then
    match getSlot (f.range.start + f.i * PAGE_SIZE) with
    | .error e => Creator.fails e (.segment f)
    | .ok _ => .running (.acquire (.segment f))
  else .returns [.segment ⟨f.range.start, f.segEnd⟩] none

/-- One more frame is in the segment. -/
def Filling.push (f : Filling) : Filling where
  range := f.range
  i := f.i + 1
  segEnd := f.range.start + f.i * PAGE_SIZE + PAGE_SIZE
  made := by ring

/-- `get_from_unused` has returned the slot. -/
def Creator.succeeds : Creator → Outcome
  | frame i => .returns [.frame i] none
  | unique i => .returns [.unique i] none
  | segment f => f.push.resume

/-- The loop of `Segment::clone` and of `Segment::slice`. -/
def Adding.resume (a : Adding) : Outcome :=
  if h : a.paddr ≥ a.range.stop then .returns [.segment a.range] none
  else .running (.incRefCount a (not_le.mp h))

/-- One more frame is counted. -/
def Adding.push (a : Adding) (h : a.paddr < a.range.stop) : Adding where
  source := a.source
  range := a.range
  paddr := a.paddr + PAGE_SIZE
  within := a.within
  counted := by
    obtain ⟨hle, hdvd, -⟩ := a.counted
    refine ⟨by omega, ?_, by omega⟩
    rw [Nat.add_comm, Nat.add_sub_assoc hle]
    exact (Nat.dvd_add_right (dvd_refl _)).mpr hdvd

/-! ## The accesses -/

/-- The slots after an access of `refCount`. -/
def setRefCount (slots : ℕ → MetaSlot) (i v : ℕ) : ℕ → MetaSlot :=
  Function.update slots i { slots i with refCount := v }

/-- The slots after metadata is written or dropped. -/
def setMeta (slots : ℕ → MetaSlot) (i : ℕ) (b : Bool) : ℕ → MetaSlot :=
  Function.update slots i { slots i with hasMeta := b }

/-- The next access of an operation.  `weak` is whether a `compare_exchange_weak` fails
without a reason. -/
def Pending.access (slots : ℕ → MetaSlot) (weak : Bool) : Pending → (ℕ → MetaSlot) × Outcome
  | acquire k =>
      let val := (slots k.index).refCount
      if val = REF_COUNT_UNUSED then (setRefCount slots k.index 0, .running (.writeMeta k))
      else
        (slots, k.fails
          (if val = REF_COUNT_UNIQUE then .unique else if val = 0 then .busy else .inUse))
  | writeMeta k => (setMeta slots k.index true, .running (.publish k))
  | publish k =>
      (setRefCount slots k.index (if k.asUniquePtr then REF_COUNT_UNIQUE else 1), k.succeeds)
  | load i =>
      let last := (slots i).refCount
      if last = REF_COUNT_UNUSED then (slots, .returns [] (some .unused))
      else if last = REF_COUNT_UNIQUE then (slots, .returns [] (some .unique))
      else if last = 0 then (slots, .returns [] (some .busy))
      else if last ≥ REF_COUNT_MAX then (slots, .aborts)
      else (slots, .running (.increment i last))
  | increment i last =>
      if (slots i).refCount = last ∧ weak = false then
        (setRefCount slots i (last + 1), .returns [.frame i] none)
      else (slots, .running (.load i))
  | cloneFrame i =>
      let last := (slots i).refCount
      let slots := setRefCount slots i ((last + 1) % 2 ^ 64)
      if last ≥ REF_COUNT_MAX then (slots, .aborts) else (slots, .returns [.frame i] none)
  | incRefCount a h =>
      let i := a.paddr / PAGE_SIZE
      let last := (slots i).refCount
      let slots := setRefCount slots i ((last + 1) % 2 ^ 64)
      if last ≥ REF_COUNT_MAX then (slots, .aborts) else (slots, (a.push h).resume)
  | release i k =>
      let last := (slots i).refCount
      let slots := setRefCount slots i ((last + (2 ^ 64 - 1)) % 2 ^ 64)
      if last = 1 then (slots, .running (.dropMeta i k)) else (slots, k.resume)
  | dropMeta i k => (setMeta slots i false, .running (.retire i k))
  | retire i k => (setRefCount slots i REF_COUNT_UNUSED, k.resume)
  | close i => (setRefCount slots i 0, .running (.dropMeta i .nothing))
  | repurpose i => (setMeta slots i false, .running (.rewrite i))
  | rewrite i => (setMeta slots i true, .returns [.unique i] none)
  | fromUnique i => (setRefCount slots i 1, .returns [.frame i] none)
  | tryFromShared i =>
      if (slots i).refCount = 1 then
        (setRefCount slots i REF_COUNT_UNIQUE, .returns [.unique i] none)
      else (slots, .returns [.frame i] none)

/-! ## The operations -/

/-- The operations.  `into_raw` and `from_raw` are steps of their own. -/
inductive Op
  | frameFromUnused (paddr : ℕ)
  | uniqueFromUnused (paddr : ℕ)
  | segmentFromUnused (range : AddrRange)
  | fromInUse (paddr : ℕ)
  | cloneFrame (i : ℕ)
  | cloneSegment (range : AddrRange)
  | slice (range sub : AddrRange)
  | dropFrame (i : ℕ)
  | dropSegment (range : AddrRange)
  | dropUnique (i : ℕ)
  | resetAsUnused (i : ℕ)
  | repurpose (i : ℕ)
  | fromUnique (i : ℕ)
  | tryFromShared (i : ℕ)
  | split (range : AddrRange) (offset : ℕ)
  | next (range : AddrRange)
  | segmentFrom (i : ℕ)
  deriving DecidableEq, Repr

/-- The handle that an operation takes by value or by `&mut`. -/
def Op.takes : Op → Option Handle
  | dropFrame i | tryFromShared i | segmentFrom i => some (.frame i)
  | dropUnique i | resetAsUnused i | repurpose i | fromUnique i => some (.unique i)
  | dropSegment range | split range _ | next range => some (.segment range)
  | frameFromUnused _ | uniqueFromUnused _ | segmentFromUnused _ | fromInUse _ => none
  | cloneFrame _ | cloneSegment _ | slice _ _ => none

/-- The handle that it takes by `&`. -/
def Op.borrows : Op → Option Handle
  | cloneFrame i => some (.frame i)
  | cloneSegment range | slice range _ => some (.segment range)
  | _ => none

/-- The handle that an operation in progress borrows. -/
def Pending.borrows : Pending → Option Handle
  | cloneFrame i => some (.frame i)
  | incRefCount a _ => some (.segment a.source)
  | _ => none

/-- The beginning of `Frame::from_unused` and `UniqueFrame::from_unused`. -/
def getFromUnused (paddr : ℕ) (k : ℕ → Creator) : Outcome :=
  match getSlot paddr with
  | .error e => .returns [] (some e)
  | .ok i => .running (.acquire (k i))

/-- An operation up to its first access. -/
def Op.start : Op → Outcome
  | frameFromUnused paddr => getFromUnused paddr .frame
  | uniqueFromUnused paddr => getFromUnused paddr .unique
  | segmentFromUnused range =>
      if range.start % PAGE_SIZE ≠ 0 ∨ range.stop % PAGE_SIZE ≠ 0 then
        .returns [] (some .notAligned)
      else if range.stop > MAX_PADDR then .returns [] (some .outOfBound)
      else if range.start < range.stop then
        Filling.resume ⟨range, 0, range.start, by simp⟩
      else .aborts
  | fromInUse paddr =>
      match getSlot paddr with
      | .error e => .returns [] (some e)
      | .ok i => .running (.load i)
  | cloneFrame i => .running (.cloneFrame i)
  | cloneSegment range =>
      Adding.resume ⟨range, range, range.start, by simp, by simp⟩
  | slice range sub =>
      -- `range.end <= self.size()` without the subtraction
      if h : sub.start % PAGE_SIZE = 0 ∧ sub.stop % PAGE_SIZE = 0 ∧ sub.start ≤ sub.stop ∧
          range.start + sub.stop ≤ range.stop then
        Adding.resume ⟨range, ⟨range.start + sub.start, range.start + sub.stop⟩,
          range.start + sub.start,
          by simpa using ⟨h.2.2.2, Nat.dvd_of_mod_eq_zero h.1⟩, by simp⟩
      else .aborts
  | dropFrame i => .running (.release i .nothing)
  | dropSegment range => FrameHandles.dropSegment range.start range.stop
  | dropUnique i | resetAsUnused i => .running (.close i)
  | repurpose i => .running (.repurpose i)
  | fromUnique i => .running (.fromUnique i)
  | tryFromShared i => .running (.tryFromShared i)
  | split range offset =>
      if offset % PAGE_SIZE = 0 ∧ 0 < offset ∧ range.start + offset < range.stop then
        .returns [.segment ⟨range.start, range.start + offset⟩,
          .segment ⟨range.start + offset, range.stop⟩] none
      else .aborts
  | next range =>
      if range.start < range.stop then
        .returns [.frame (range.start / PAGE_SIZE),
          .segment ⟨range.start + PAGE_SIZE, range.stop⟩] none
      else .returns [.segment range] none
  | segmentFrom i => .returns [.segment ⟨i * PAGE_SIZE, i * PAGE_SIZE + PAGE_SIZE⟩] none

/-! ## All threads -/

/-- The slots, the handles, and the operation that each thread is in. -/
structure State (ι : Type) where
  slots : ℕ → MetaSlot
  live : Multiset Handle
  forgotten : Multiset RawHandle
  threads : ι → Option Pending

namespace State

variable {ι : Type} [DecidableEq ι]

/-- All frames are unused. -/
def init : State ι := ⟨fun _ => ⟨REF_COUNT_UNUSED, false⟩, 0, 0, fun _ => none⟩

/-- The outcome of thread `t`.  After an abort there are no more steps. -/
def settle (s : State ι) (t : ι) : Outcome → Option (State ι)
  | .running p => some { s with threads := Function.update s.threads t (some p) }
  | .returns hs _ =>
      some { s with live := s.live + hs, threads := Function.update s.threads t none }
  | .aborts => none

/-- The handle can be taken: it is not lent to an operation in progress, or there is another
one like it that can be. -/
def Takes (s : State ι) (h : Handle) : Prop :=
  h ∈ s.live ∧ ∀ t, (s.threads t).bind Pending.borrows = some h → h ∈ s.live.erase h

instance decidableTakes [Fintype ι] (s : State ι) (h : Handle) : Decidable (s.Takes h) :=
  inferInstanceAs (Decidable (_ ∧ _))

end State

/-- The steps: a thread begins an operation or makes its next access, or a handle is
forgotten or restored. -/
inductive Label (ι : Type)
  | start (t : ι) (op : Op)
  | access (t : ι) (weak : Bool)
  | intoRaw (h : Handle)
  | fromRaw (r : RawHandle)

namespace State

variable {ι : Type} [DecidableEq ι] [Fintype ι]

/-- The state after a step, if it can be taken. -/
def next (s : State ι) : Label ι → Option (State ι)
  | .start t op =>
      if (s.threads t).isNone ∧ (∀ h ∈ op.takes, s.Takes h) ∧ (∀ h ∈ op.borrows, h ∈ s.live) then
        { s with live := op.takes.elim s.live s.live.erase }.settle t op.start
      else none
  | .access t weak =>
      (s.threads t).bind fun p =>
        { s with slots := (p.access s.slots weak).1 }.settle t (p.access s.slots weak).2
  | .intoRaw h =>
      if s.Takes h then
        some { s with live := s.live.erase h, forgotten := h.intoRaw ::ₘ s.forgotten }
      else none
  | .fromRaw r =>
      if r ∈ s.forgotten then
        some { s with live := r.fromRaw ::ₘ s.live, forgotten := s.forgotten.erase r }
      else none

end State

end FrameHandles

end Vostd
