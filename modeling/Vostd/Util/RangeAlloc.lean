/-
# The range allocator

`RangeAllocator` of `util/range_alloc.rs`: a first-fit allocator of address ranges.  The free
blocks are kept in a `BTreeMap` under their first addresses; `free` joins a block with the
free blocks before and behind it.  The map is made by the first call that looks at it.

The blocks and the ranges in use share out the full range (`Partition`), so what a call can
get is what fits into the gaps between the ranges in use.  This needs that nobody asks for
zero bytes: `alloc(0)` returns an empty range, and giving that back may replace a free block
that begins there; and without debug assertions `alloc_specific` accepts an empty range and
cuts a block in two there.
-/
import Vostd.Lib.Exec
import Vostd.Lib.System
import Vostd.Lib.Spans
import Vostd.Lib.SortedMap

namespace Vostd

open Exec

/-! ## The code -/

/-- `RangeAllocator`; a `FreeRange` is the block that it holds. -/
structure RangeAllocator where
  fullrange : Span ℕ
  freelist : Option (SortedMap ℕ (Span ℕ))
  deriving DecidableEq

namespace RangeAllocator

/-- `new` -/
def new (fullrange : Span ℕ) : RangeAllocator := ⟨fullrange, none⟩

/-- `get_freelist_guard` -/
def getFreelist (a : RangeAllocator) : SortedMap ℕ (Span ℕ) :=
  match a.freelist with
  | none => .single a.fullrange.start a.fullrange
  | some freelist => freelist

/-- `alloc_specific`; the answer is whether it is `Ok`.  `debug` says whether debug assertions
are compiled. -/
def allocSpecific (debug : Bool) (a : RangeAllocator) (range : Span ℕ) :
    Exec (Bool × RangeAllocator) := do
  Exec.debugAssert debug (range.start < range.stop)
  let freelist := a.getFreelist
  match freelist.entries.find?
      (fun e => decide (range.stop ≤ e.2.stop ∧ e.2.start ≤ range.start)) with
  | none => .ok (false, { a with freelist := some freelist })
  | some (key, block) => do
      let leftLength ← Exec.sub range.start block.start
      let rightLength ← Exec.sub block.stop range.stop
      let freelist := if leftLength = 0 then freelist.erase key
        else freelist.modify key (fun node => { node with stop := range.start })
      if rightLength ≠ 0 then do
        let stop ← Exec.add range.stop rightLength
        .ok (true, { a with freelist := some (freelist.insert range.stop ⟨range.stop, stop⟩) })
      else .ok (true, { a with freelist := some freelist })

/-- The loop of `alloc`: the key of the first block that is large enough, and its end. -/
def firstFit (size : ℕ) : List (ℕ × Span ℕ) → Exec (Option (ℕ × Span ℕ))
  | [] => .ok none
  | (key, block) :: rest => do
      let length ← Exec.sub block.stop block.start
      if size ≤ length then do
        let start ← Exec.sub block.stop size
        .ok (some (key, ⟨start, block.stop⟩))
      else firstFit size rest

/-- `alloc` -/
def alloc (a : RangeAllocator) (size : ℕ) : Exec (Option (Span ℕ) × RangeAllocator) := do
  let freelist := a.getFreelist
  match ← firstFit size freelist.entries with
  | none => .ok (none, { a with freelist := some freelist })
  | some (key, range) =>
      match freelist.get? key with
      | none => .ok (some range, { a with freelist := some freelist })
      | some freenode => do
          let stop ← Exec.sub freenode.stop size
          if stop = freenode.start then
            .ok (some range, { a with freelist := some (freelist.erase key) })
          else
            .ok (some range, { a with
              freelist := some (freelist.modify key (fun node => { node with stop := stop })) })

/-- The first part of `free`: the block before the range, if they touch, is taken out. -/
def mergePrev (freelist : SortedMap ℕ (Span ℕ)) (range : Span ℕ) :
    Span ℕ × SortedMap ℕ (Span ℕ) :=
  match freelist.below range.start with
  | some (prevVa, prev) =>
      if prev.stop = range.start then (⟨prev.start, range.stop⟩, freelist.erase prevVa)
      else (range, freelist)
  | none => (range, freelist)

/-- The second part: the block behind the range, if they touch, is joined with it. -/
def mergeNext (freelist : SortedMap ℕ (Span ℕ)) (range : Span ℕ) :
    Exec (SortedMap ℕ (Span ℕ)) :=
  match freelist.above range.start with
  | some (nextVa, next) =>
      if range.stop = next.start then do
        let freelist := freelist.erase nextVa
        let _ ← Exec.unwrap (freelist.get? range.start)
        .ok (freelist.modify range.start (fun node => { node with stop := next.stop }))
      else .ok freelist
  | none => .ok freelist

/-- `free` -/
def free (a : RangeAllocator) (range : Span ℕ) : Exec RangeAllocator := do
  let freelist ← Exec.unwrap a.freelist
  let (range, freelist) := mergePrev freelist range
  let freelist ← mergeNext (freelist.insert range.start range) range
  .ok { a with freelist := some freelist }

/-- The free blocks. -/
def blocks (a : RangeAllocator) : Set (Span ℕ) := {b | ∃ e ∈ a.getFreelist.entries, e.2 = b}

end RangeAllocator

/-! ## The allocator in use -/

/-- The calls. -/
inductive RangeOp : Type where
  | alloc (size : ℕ)
  | allocSpecific (range : Span ℕ)
  | free (range : Span ℕ)
  deriving DecidableEq, Repr

/-- An allocator, and the ranges that have been returned or accepted and not been freed. -/
structure RangeState where
  allocator : RangeAllocator
  live : List (Span ℕ)
  deriving DecidableEq

/-- A call that returns. -/
def RangeState.next (debug : Bool) (s : RangeState) : RangeOp → Option RangeState
  | .alloc size =>
      match s.allocator.alloc size with
      | .ok (some range, a) => some ⟨a, range :: s.live⟩
      | .ok (none, a) => some ⟨a, s.live⟩
      | .error _ => none
  | .allocSpecific range =>
      match s.allocator.allocSpecific debug range with
      | .ok (true, a) => some ⟨a, range :: s.live⟩
      | .ok (false, a) => some ⟨a, s.live⟩
      | .error _ => none
  | .free range =>
      if range ∈ s.live then
        match s.allocator.free range with
        | .ok a => some ⟨a, s.live.erase range⟩
        | .error _ => none
      else none

/-- All sequences of calls. -/
def rangeSystem (debug : Bool) (fullrange : Span ℕ) : System RangeState RangeOp where
  init := fun s => s = ⟨RangeAllocator.new fullrange, []⟩
  step := fun s op s' => s.next debug op = some s'

/-- A call that does not ask for zero bytes, or is stopped by the debug assertion. -/
def RangeOp.Asks (debug : Bool) (_ : RangeState) : RangeOp → Prop
  | .alloc size => 0 < size
  | .allocSpecific range => debug = true ∨ range.start < range.stop
  | .free _ => True

instance RangeOp.decidableAsks (debug : Bool) (s : RangeState) :
    (op : RangeOp) → Decidable (op.Asks debug s)
  | .alloc size => inferInstanceAs (Decidable (0 < size))
  | .allocSpecific range => inferInstanceAs (Decidable (debug = true ∨ range.start < range.stop))
  | .free _ => inferInstanceAs (Decidable True)

/-! ## The invariant -/

/-- **The invariant of the allocator.** -/
structure RangeOK (full : Span ℕ) (a : RangeAllocator) (live : List (Span ℕ)) : Prop where
  fullrange : a.fullrange = full
  word : full.stop < 2 ^ 64
  keys : ∀ e ∈ a.getFreelist.entries, e.1 = e.2.start
  partition : Partition full a.blocks live
  /-- the map is there once a range is in use -/
  made : live ≠ [] → a.freelist ≠ none

section

variable {a a' : RangeAllocator} {live : List (Span ℕ)} {full r block : Span ℕ} {key : ℕ}
  {A : Fault → Prop}

theorem RangeOK.key_eq (h : RangeOK full a live) (hb : (key, block) ∈ a.getFreelist.entries) :
    key = block.start :=
  h.keys _ hb

theorem RangeOK.entry_pos (h : RangeOK full a live) (e : ℕ × Span ℕ)
    (he : e ∈ a.getFreelist.entries) : e.2.start < e.2.stop :=
  h.partition.free_pos e.2 ⟨e, he, rfl⟩

/-- The other entries are the other blocks. -/
theorem RangeOK.ne_iff (h : RangeOK full a live) {e : ℕ × Span ℕ}
    (hb : (key, block) ∈ a.getFreelist.entries) (he : e ∈ a.getFreelist.entries) :
    e.1 ≠ key ↔ e.2 ≠ block := by
  rw [not_iff_not]
  constructor
  · intro hk
    rw [SortedMap.eq_of_mem he hb hk]
  · intro hv
    rw [h.keys e he, hv, h.key_eq hb]

theorem RangeOK.stop_lt (h : RangeOK full a live) {b : Span ℕ} (hb : b ∈ a.blocks) :
    full.start ≤ b.start ∧ b.start < b.stop ∧ b.stop ≤ full.stop := by
  have hpos := h.partition.free_pos b hb
  have hsub := (Span.set_subset_iff hpos).mp (h.partition.subset hb)
  exact ⟨hsub.1, hpos, hsub.2⟩

theorem RangeOK.of_made (h : RangeOK full a live) :
    RangeOK full { a with freelist := some a.getFreelist } live :=
  ⟨h.fullrange, h.word, h.keys, h.partition, fun _ => Option.some_ne_none _⟩

/-- A range has been taken out of a block. -/
theorem RangeOK.carve (h : RangeOK full a live) (hb : (key, block) ∈ a.getFreelist.entries)
    (hpos : r.start < r.stop) (hstart : block.start ≤ r.start) (hstop : r.stop ≤ block.stop)
    (hfull : a'.fullrange = a.fullrange) (hmade : a'.freelist ≠ none)
    (hmem : ∀ e, e ∈ a'.getFreelist.entries ↔ (e ∈ a.getFreelist.entries ∧ e.1 ≠ key) ∨
      (e = (block.start, ⟨block.start, r.start⟩) ∧ block.start < r.start) ∨
      (e = (r.stop, ⟨r.stop, block.stop⟩) ∧ r.stop < block.stop)) :
    RangeOK full a' (r :: live) := by
  have hkeys : ∀ e ∈ a'.getFreelist.entries, e.1 = e.2.start := by
    intro e he
    rcases (hmem e).mp he with ⟨he, -⟩ | ⟨rfl, -⟩ | ⟨rfl, -⟩
    · exact h.keys e he
    · rfl
    · rfl
  refine ⟨hfull.trans h.fullrange, h.word, hkeys, ?_, fun _ => hmade⟩
  refine h.partition.carve ⟨_, hb, rfl⟩ hpos hstart hstop ?_
  intro c
  constructor
  · rintro ⟨e, he, rfl⟩
    rcases (hmem e).mp he with ⟨he, hne⟩ | ⟨rfl, hlt⟩ | ⟨rfl, hlt⟩
    · exact Or.inl ⟨⟨e, he, rfl⟩, (h.ne_iff hb he).mp hne⟩
    · exact Or.inr (Or.inl ⟨rfl, hlt⟩)
    · exact Or.inr (Or.inr ⟨rfl, hlt⟩)
  · rintro (⟨⟨e, he, rfl⟩, hne⟩ | ⟨rfl, hlt⟩ | ⟨rfl, hlt⟩)
    · exact ⟨e, (hmem e).mpr (Or.inl ⟨he, (h.ne_iff hb he).mpr hne⟩), rfl⟩
    · exact ⟨_, (hmem _).mpr (Or.inr (Or.inl ⟨rfl, hlt⟩)), rfl⟩
    · exact ⟨_, (hmem _).mpr (Or.inr (Or.inr ⟨rfl, hlt⟩)), rfl⟩

/-! ## `alloc_specific` -/

/-- What is left of the block before the range. -/
theorem RangeOK.mem_left (h : RangeOK full a live) (hb : (key, block) ∈ a.getFreelist.entries)
    (hstart : block.start ≤ r.start) (e : ℕ × Span ℕ) :
    e ∈ (if r.start - block.start = 0 then a.getFreelist.erase key
        else a.getFreelist.modify key (fun node => { node with stop := r.start })).entries ↔
      (e ∈ a.getFreelist.entries ∧ e.1 ≠ key) ∨
        (e = (block.start, ⟨block.start, r.start⟩) ∧ block.start < r.start) := by
  have hkey := h.key_eq hb
  by_cases hzero : r.start - block.start = 0
  · rw [if_pos hzero, SortedMap.mem_erase]
    constructor
    · exact Or.inl
    · rintro (he | ⟨-, hlt⟩)
      · exact he
      · omega
  · rw [if_neg hzero, SortedMap.mem_modify]
    constructor
    · rintro (he | ⟨v, hv, rfl⟩)
      · exact Or.inl he
      · obtain rfl : v = block := congrArg Prod.snd (SortedMap.eq_of_mem hv hb rfl)
        exact Or.inr ⟨by rw [hkey], by omega⟩
    · rintro (he | ⟨rfl, -⟩)
      · exact Or.inl he
      · exact Or.inr ⟨block, hb, by rw [hkey]⟩

/-- No block begins inside another one. -/
theorem RangeOK.start_not_mem (h : RangeOK full a live) (hb : (key, block) ∈ a.getFreelist.entries)
    {e : ℕ × Span ℕ} (he : e ∈ a.getFreelist.entries) (hne : e.1 ≠ key) {x : ℕ}
    (hx : block.start ≤ x) (hx' : x ≤ block.stop) : e.1 ≠ x := by
  have hpos := h.entry_pos e he
  have hsep := h.partition.separated block ⟨_, hb, rfl⟩ e.2 ⟨e, he, rfl⟩
    (fun heq => (h.ne_iff hb he).mp hne heq.symm)
  rw [h.keys e he]
  omega

/-- The range meets no range in use and is inside the full range. -/
def RangeFits (full : Span ℕ) (live : List (Span ℕ)) (r : Span ℕ) : Prop :=
  r.set ⊆ full.set ∧ ∀ l ∈ live, r.Apart l

theorem RangeOK.fits (h : RangeOK full a live) (hb : (key, block) ∈ a.getFreelist.entries)
    (hstart : block.start ≤ r.start) (hstop : r.stop ≤ block.stop) :
    RangeFits full live r := by
  have hmem : block ∈ a.blocks := ⟨_, hb, rfl⟩
  constructor
  · exact (Set.Ico_subset_Ico hstart hstop).trans (h.partition.subset hmem)
  · intro l hl
    have happ := h.partition.apart block hmem l hl
    unfold Span.Apart at happ ⊢
    omega

/-- **`alloc_specific`** of a range that is not empty. -/
theorem RangeOK.post_allocSpecific (h : RangeOK full a live) (debug : Bool)
    (hpos : r.start < r.stop) :
    Post A (a.allocSpecific debug r) (fun res =>
      (res.1 = true ∧ RangeFits full live r ∧ RangeOK full res.2 (r :: live)) ∨
      (res.1 = false ∧ ¬RangeFits full live r ∧
        res.2 = { a with freelist := some a.getFreelist })) := by
  unfold RangeAllocator.allocSpecific
  refine Post.bind (post_debugAssert (fun hn => absurd hpos hn)) ?_
  intro _ _
  cases hfind : a.getFreelist.entries.find?
      (fun e => decide (r.stop ≤ e.2.stop ∧ e.2.start ≤ r.start)) with
  | none =>
      simp only [hfind]
      refine Or.inr ⟨rfl, ?_, rfl⟩
      rintro ⟨hin, happ⟩
      obtain ⟨b, ⟨e, he, rfl⟩, hstart, hstop⟩ := h.partition.exists_block hpos hin happ
      exact List.find?_eq_none.mp hfind e he (decide_eq_true ⟨hstop, hstart⟩)
  | some e =>
      obtain ⟨key, block⟩ := e
      have hb := List.mem_of_find?_eq_some hfind
      obtain ⟨hstop, hstart⟩ : r.stop ≤ block.stop ∧ block.start ≤ r.start := by
        simpa using List.find?_some hfind
      have hword := h.word
      have hblock := h.stop_lt (b := block) ⟨_, hb, rfl⟩
      simp only [hfind]
      refine Post.bind (post_sub (fun hlt => absurd hstart (not_le.mpr hlt))) ?_
      rintro _ ⟨rfl, -⟩
      refine Post.bind (post_sub (fun hlt => absurd hstop (not_le.mpr hlt))) ?_
      rintro _ ⟨rfl, -⟩
      refine post_ite ?_ ?_
      · intro hright
        refine Post.bind (post_add (fun hov => by omega)) ?_
        rintro _ ⟨rfl, -⟩
        refine Or.inl ⟨rfl, h.fits hb hstart hstop, ?_⟩
        refine h.carve hb hpos hstart hstop rfl (Option.some_ne_none _) ?_
        intro e
        show e ∈ (SortedMap.insert _ _ _).entries ↔ _
        rw [SortedMap.mem_insert, h.mem_left hb hstart,
          show r.stop + (block.stop - r.stop) = block.stop from by omega]
        constructor
        · rintro (rfl | ⟨he | he, -⟩)
          · exact Or.inr (Or.inr ⟨rfl, by omega⟩)
          · exact Or.inl he
          · exact Or.inr (Or.inl he)
        · rintro (⟨he, hne⟩ | ⟨rfl, hlt⟩ | ⟨rfl, -⟩)
          · exact Or.inr ⟨Or.inl ⟨he, hne⟩, h.start_not_mem hb he hne (by omega) hstop⟩
          · exact Or.inr ⟨Or.inr ⟨rfl, hlt⟩, by simp only; omega⟩
          · exact Or.inl rfl
      · intro hright
        refine Or.inl ⟨rfl, h.fits hb hstart hstop, ?_⟩
        refine h.carve hb hpos hstart hstop rfl (Option.some_ne_none _) ?_
        intro e
        show e ∈ (SortedMap.entries (if r.start - block.start = 0 then _ else _)) ↔ _
        rw [h.mem_left hb hstart]
        constructor
        · rintro (he | he)
          · exact Or.inl he
          · exact Or.inr (Or.inl he)
        · rintro (he | he | ⟨-, hlt⟩)
          · exact Or.inl he
          · exact Or.inr he
          · omega

/-! ## `alloc` -/

/-- The loop finds a block if there is one that is large enough. -/
theorem post_firstFit {size : ℕ} : ∀ {entries : List (ℕ × Span ℕ)},
    (∀ e ∈ entries, e.2.start ≤ e.2.stop) →
    Post A (RangeAllocator.firstFit size entries) (fun found =>
      (found = none ∧ ∀ e ∈ entries, e.2.stop - e.2.start < size) ∨
      ∃ key block, found = some (key, ⟨block.stop - size, block.stop⟩) ∧
        (key, block) ∈ entries ∧ size ≤ block.stop - block.start)
  | [], _ => Or.inl ⟨rfl, fun e he => absurd he List.not_mem_nil⟩
  | (key, block) :: rest, hle => by
      rw [RangeAllocator.firstFit]
      have hblock : block.start ≤ block.stop := hle (key, block) List.mem_cons_self
      refine Post.bind (post_sub (fun hlt => absurd hblock (not_le.mpr hlt))) ?_
      rintro _ ⟨rfl, -⟩
      refine post_ite ?_ ?_
      · intro hsize
        refine Post.bind (post_sub (fun hlt => by omega)) ?_
        rintro _ ⟨rfl, -⟩
        exact Or.inr ⟨key, block, rfl, List.mem_cons_self, hsize⟩
      · intro hsmall
        refine (post_firstFit (fun e he => hle e (List.mem_cons_of_mem _ he))).mono ?_
        rintro found (⟨rfl, hall⟩ | ⟨k, b, rfl, hb, hsize⟩)
        · refine Or.inl ⟨rfl, ?_⟩
          intro e he
          rcases List.mem_cons.mp he with rfl | he
          · exact not_le.mp hsmall
          · exact hall e he
        · exact Or.inr ⟨k, b, rfl, List.mem_cons_of_mem _ hb, hsize⟩

/-- **`alloc`** of a size that is not zero. -/
theorem RangeOK.post_alloc (h : RangeOK full a live) {size : ℕ} (hsize : 0 < size) :
    Post A (a.alloc size) (fun res =>
      (∃ r g, res.1 = some r ∧ g ∈ a.blocks ∧ r.set ⊆ g.set ∧ r.stop = r.start + size ∧
        RangeOK full res.2 (r :: live)) ∨
      (res.1 = none ∧ (∀ g ∈ a.blocks, g.stop < g.start + size) ∧
        res.2 = { a with freelist := some a.getFreelist })) := by
  unfold RangeAllocator.alloc
  refine Post.bind (post_firstFit (fun e he => (h.entry_pos e he).le)) ?_
  rintro _ (⟨rfl, hsmall⟩ | ⟨key, block, rfl, hb, hlarge⟩)
  · refine Or.inr ⟨rfl, ?_, rfl⟩
    rintro g ⟨e, he, rfl⟩
    have := hsmall e he
    omega
  · have hblock : block.start < block.stop := h.entry_pos _ hb
    have hkey := h.key_eq hb
    have hin : (⟨block.stop - size, block.stop⟩ : Span ℕ).set ⊆ block.set :=
      Set.Ico_subset_Ico (by simp only; omega) le_rfl
    have hlen : block.stop = block.stop - size + size := by omega
    simp only [SortedMap.get?_eq_some.mpr hb]
    refine Post.bind (post_sub (fun hlt => by omega)) ?_
    rintro _ ⟨rfl, -⟩
    -- the rest of the block is what `alloc_specific` leaves to the left of the range
    have hleft := h.mem_left (r := ⟨block.stop - size, block.stop⟩) hb (by simp only; omega)
    refine post_ite ?_ ?_
    · intro hall
      refine Or.inl ⟨_, block, rfl, ⟨_, hb, rfl⟩, hin, hlen, ?_⟩
      refine h.carve hb (by simp only; omega) (by simp only; omega) le_rfl rfl
        (Option.some_ne_none _) ?_
      intro e
      have he := hleft e
      rw [if_pos (by simp only; omega)] at he
      rw [← or_assoc, ← he]
      simp [RangeAllocator.getFreelist]
    · intro hsome
      refine Or.inl ⟨_, block, rfl, ⟨_, hb, rfl⟩, hin, hlen, ?_⟩
      refine h.carve hb (by simp only; omega) (by simp only; omega) le_rfl rfl
        (Option.some_ne_none _) ?_
      intro e
      have he := hleft e
      rw [if_neg (by simp only; omega)] at he
      rw [← or_assoc, ← he]
      simp [RangeAllocator.getFreelist]

/-! ## `free` -/

/-- **The first part of `free`.** -/
theorem RangeOK.mergePrev (h : RangeOK full a live) :
    ∃ lo, Partition.Left a.blocks r lo ∧
      (RangeAllocator.mergePrev a.getFreelist r).1 = ⟨lo, r.stop⟩ ∧
      ∀ e, e ∈ (RangeAllocator.mergePrev a.getFreelist r).2.entries ↔
        e ∈ a.getFreelist.entries ∧ e.2.stop ≠ r.start := by
  unfold RangeAllocator.mergePrev
  cases hbelow : a.getFreelist.below r.start with
  | none =>
      have hnone : ∀ e ∈ a.getFreelist.entries, e.2.stop ≠ r.start := by
        intro e he heq
        have hlt := SortedMap.below_eq_none.mp hbelow e he
        have := h.entry_pos e he
        rw [h.keys e he] at hlt
        omega
      refine ⟨r.start, Or.inl ⟨rfl, ?_⟩, rfl, fun e => ⟨fun he => ⟨he, hnone e he⟩, And.left⟩⟩
      rintro b ⟨e, he, rfl⟩
      exact hnone e he
  | some p =>
      obtain ⟨prevVa, prev⟩ := p
      obtain ⟨hprev, hlt, hlast⟩ := SortedMap.below_eq_some.mp hbelow
      have hkey : prevVa = prev.start := h.key_eq hprev
      have hmem : prev ∈ a.blocks := ⟨_, hprev, rfl⟩
      simp only
      by_cases htouch : prev.stop = r.start
      · rw [if_pos htouch]
        have hleft : Partition.Left a.blocks r prev.start := Or.inr (htouch ▸ hmem)
        refine ⟨prev.start, hleft, rfl, ?_⟩
        intro e
        rw [SortedMap.mem_erase]
        apply and_congr_right
        intro he
        rw [h.ne_iff hprev he, not_iff_not]
        constructor
        · intro heq
          rw [heq, htouch]
        · intro heq
          rw [hleft.eq_of_stop h.partition ⟨e, he, rfl⟩ heq, ← htouch]
      · rw [if_neg htouch]
        -- a block that touches the range would be the last one that begins before it
        have hnone : ∀ e ∈ a.getFreelist.entries, e.2.stop ≠ r.start := by
          intro e he heq
          have hestart := h.entry_pos e he
          have hppos := h.entry_pos _ hprev
          have hle := hlast e he (by rw [h.keys e he]; omega)
          rw [h.keys e he] at hle
          simp only at hle hlt hppos
          rcases h.partition.separated prev hmem e.2 ⟨e, he, rfl⟩
            (fun hpe => htouch (by rw [hpe, heq])) with hs | hs
          · omega
          · omega
        refine ⟨r.start, Or.inl ⟨rfl, ?_⟩, rfl, fun e => ⟨fun he => ⟨he, hnone e he⟩, And.left⟩⟩
        rintro b ⟨e, he, rfl⟩
        exact hnone e he

section

variable {lo : ℕ} {m : SortedMap ℕ (Span ℕ)}

/-- The blocks that `mergePrev` has left are before the joined block or behind it. -/
theorem RangeOK.left_of_merge (h : RangeOK full a live) (hr : r ∈ live)
    (hlo : Partition.Left a.blocks r lo)
    (hm : ∀ e, e ∈ m.entries ↔ e ∈ a.getFreelist.entries ∧ e.2.stop ≠ r.start) {e : ℕ × Span ℕ}
    (he : e ∈ m.entries) : e.1 = e.2.start ∧ e.2.start < e.2.stop ∧
      (e.2.stop < lo ∨ r.stop ≤ e.2.start) := by
  obtain ⟨hold, hstop⟩ := (hm e).mp he
  exact ⟨h.keys e hold, h.entry_pos e hold,
    hlo.before_or_behind h.partition hr ⟨e, hold, rfl⟩ hstop⟩

/-- The joined block beside them. -/
theorem RangeOK.mem_insert_joined (h : RangeOK full a live) (hr : r ∈ live)
    (hlo : Partition.Left a.blocks r lo)
    (hm : ∀ e, e ∈ m.entries ↔ e ∈ a.getFreelist.entries ∧ e.2.stop ≠ r.start)
    (e : ℕ × Span ℕ) : e ∈ (m.insert lo ⟨lo, r.stop⟩).entries ↔
      e = (lo, ⟨lo, r.stop⟩) ∨ e ∈ m.entries := by
  have hrpos := h.partition.live_pos r hr
  have hle := hlo.le h.partition
  rw [SortedMap.mem_insert]
  apply or_congr_right
  refine ⟨And.left, fun he => ⟨he, ?_⟩⟩
  obtain ⟨hkey, hpos, hwhere⟩ := h.left_of_merge hr hlo hm he
  omega

/-- Without a block behind the range nothing else is done. -/
theorem RangeOK.mergeNext_keep (h : RangeOK full a live) (hr : r ∈ live)
    (hlo : Partition.Left a.blocks r lo)
    (hm : ∀ e, e ∈ m.entries ↔ e ∈ a.getFreelist.entries ∧ e.2.stop ≠ r.start)
    (hnone : ∀ e ∈ m.entries, e.2.start ≠ r.stop) :
    ∃ hi, Partition.Right a.blocks r hi ∧
      ∀ e, e ∈ (m.insert lo ⟨lo, r.stop⟩).entries ↔
        (e ∈ a.getFreelist.entries ∧ e.2.stop ≠ r.start ∧ e.2.start ≠ r.stop) ∨
          e = (lo, ⟨lo, hi⟩) := by
  have hrpos := h.partition.live_pos r hr
  refine ⟨r.stop, Or.inl ⟨rfl, ?_⟩, ?_⟩
  · rintro b ⟨e, he, rfl⟩ heq
    have hpos := h.entry_pos e he
    exact hnone e ((hm e).mpr ⟨he, by omega⟩) heq
  · intro e
    rw [h.mem_insert_joined hr hlo hm e]
    constructor
    · rintro (rfl | he)
      · exact Or.inr rfl
      · obtain ⟨hold, hstop⟩ := (hm e).mp he
        exact Or.inl ⟨hold, hstop, hnone e he⟩
    · rintro (⟨he, hstop, -⟩ | rfl)
      · exact Or.inr ((hm e).mpr ⟨he, hstop⟩)
      · exact Or.inl rfl

/-- A block that touches the range from behind is joined too. -/
theorem RangeOK.mergeNext_join (h : RangeOK full a live) (hr : r ∈ live)
    (hlo : Partition.Left a.blocks r lo)
    (hm : ∀ e, e ∈ m.entries ↔ e ∈ a.getFreelist.entries ∧ e.2.stop ≠ r.start)
    (next : Span ℕ) (e : ℕ × Span ℕ) :
    e ∈ (((m.insert lo ⟨lo, r.stop⟩).erase r.stop).modify lo
        (fun block => ⟨block.start, next.stop⟩)).entries ↔
      (e ∈ a.getFreelist.entries ∧ e.2.stop ≠ r.start ∧ e.2.start ≠ r.stop) ∨
        e = (lo, ⟨lo, next.stop⟩) := by
  have hrpos := h.partition.live_pos r hr
  have hle := hlo.le h.partition
  have hjoined : (lo, (⟨lo, r.stop⟩ : Span ℕ)) ∈ (m.insert lo ⟨lo, r.stop⟩).entries :=
    (h.mem_insert_joined hr hlo hm _).mpr (Or.inl rfl)
  rw [SortedMap.mem_modify]
  constructor
  · rintro (⟨he, hnelo⟩ | ⟨v, hv, rfl⟩)
    · obtain ⟨he, hnenext⟩ := SortedMap.mem_erase.mp he
      rcases (h.mem_insert_joined hr hlo hm e).mp he with rfl | he
      · exact absurd rfl hnelo
      · obtain ⟨hold, hstop⟩ := (hm e).mp he
        have hkey := h.keys e hold
        exact Or.inl ⟨hold, hstop, by omega⟩
    · obtain ⟨hv, -⟩ := SortedMap.mem_erase.mp hv
      have heq : (lo, v) = (lo, (⟨lo, r.stop⟩ : Span ℕ)) := SortedMap.eq_of_mem hv hjoined rfl
      obtain rfl : v = ⟨lo, r.stop⟩ := congrArg Prod.snd heq
      exact Or.inr rfl
  · rintro (⟨hold, hstop, hstart⟩ | rfl)
    · have he := (hm e).mpr ⟨hold, hstop⟩
      obtain ⟨hkey, hpos, hwhere⟩ := h.left_of_merge hr hlo hm he
      refine Or.inl ⟨SortedMap.mem_erase.mpr
        ⟨(h.mem_insert_joined hr hlo hm e).mpr (Or.inr he), ?_⟩, ?_⟩
      · rw [hkey]
        exact hstart
      · omega
    · exact Or.inr ⟨_, SortedMap.mem_erase.mpr ⟨hjoined, by omega⟩, rfl⟩

/-- **The second part of `free`.** -/
theorem RangeOK.post_mergeNext (h : RangeOK full a live) (hr : r ∈ live)
    (hlo : Partition.Left a.blocks r lo)
    (hm : ∀ e, e ∈ m.entries ↔ e ∈ a.getFreelist.entries ∧ e.2.stop ≠ r.start) :
    Post A (RangeAllocator.mergeNext (m.insert lo ⟨lo, r.stop⟩) ⟨lo, r.stop⟩) (fun m' =>
      ∃ hi, Partition.Right a.blocks r hi ∧
        ∀ e, e ∈ m'.entries ↔ (e ∈ a.getFreelist.entries ∧ e.2.stop ≠ r.start ∧
          e.2.start ≠ r.stop) ∨ e = (lo, ⟨lo, hi⟩)) := by
  have hrpos := h.partition.live_pos r hr
  have hle := hlo.le h.partition
  have hins := h.mem_insert_joined hr hlo hm
  unfold RangeAllocator.mergeNext
  cases habove : (m.insert lo ⟨lo, r.stop⟩).above lo with
  | none =>
      refine h.mergeNext_keep hr hlo hm ?_
      intro e he heq
      have hlast := SortedMap.above_eq_none.mp habove e ((hins e).mpr (Or.inr he))
      rw [(h.left_of_merge hr hlo hm he).1] at hlast
      omega
  | some n =>
      obtain ⟨nextVa, next⟩ := n
      obtain ⟨hnext, hlt, hfirst⟩ := SortedMap.above_eq_some.mp habove
      have hnextm : (nextVa, next) ∈ m.entries := by
        rcases (hins _).mp hnext with heq | he
        · exact absurd (congrArg Prod.fst heq) hlt.ne'
        · exact he
      obtain ⟨hkey, hnpos, hn⟩ := h.left_of_merge hr hlo hm hnextm
      simp only at hkey hnpos hn
      simp only
      refine post_ite ?_ ?_
      · intro htouch
        obtain rfl : nextVa = r.stop := by rw [hkey, ← htouch]
        refine Post.bind (post_unwrap ?_) ?_
        · intro hnone
          have hget : ((m.insert lo ⟨lo, r.stop⟩).erase r.stop).get? lo = some ⟨lo, r.stop⟩ :=
            SortedMap.get?_eq_some.mpr
              (SortedMap.mem_erase.mpr ⟨(hins _).mpr (Or.inl rfl), hlt.ne⟩)
          rw [hget] at hnone
          cases hnone
        · intro _ _
          exact ⟨next.stop, Or.inr (htouch ▸ ⟨_, ((hm _).mp hnextm).1, rfl⟩),
            h.mergeNext_join hr hlo hm next⟩
      · intro hgap
        -- a block that touches the range would be the first one behind it
        refine h.mergeNext_keep hr hlo hm ?_
        intro e he heq
        have hkeye := (h.left_of_merge hr hlo hm he).1
        have hle' := hfirst e ((hins e).mpr (Or.inr he)) (by rw [hkeye]; omega)
        rw [hkeye] at hle'
        simp only at hle' hlt hgap
        omega

end

/-- **`free`** of a range in use. -/
theorem RangeOK.post_free (h : RangeOK full a live) (hr : r ∈ live) :
    Post A (a.free r) (fun a' => RangeOK full a' (live.erase r)) := by
  unfold RangeAllocator.free
  have hmade := h.made (List.ne_nil_of_mem hr)
  refine Post.bind (post_unwrap (fun hnone => absurd hnone hmade)) ?_
  intro m hm
  have hget : a.getFreelist = m := by
    unfold RangeAllocator.getFreelist
    rw [hm]
  obtain ⟨lo, hlo, hfst, hsnd⟩ := h.mergePrev (r := r)
  rw [hget] at hfst hsnd
  simp only [hfst]
  refine Post.bind (h.post_mergeNext hr hlo (fun e => by rw [hsnd e, hget])) ?_
  rintro m' ⟨hi, hhi, hmem⟩
  have hkeys : ∀ e ∈ m'.entries, e.1 = e.2.start := by
    intro e he
    rcases (hmem e).mp he with ⟨he, -⟩ | rfl
    · exact h.keys e he
    · rfl
  refine ⟨h.fullrange, h.word, hkeys, ?_, fun _ => Option.some_ne_none _⟩
  refine h.partition.merge hr hlo hhi ?_
  intro c
  constructor
  · rintro ⟨e, he, rfl⟩
    rcases (hmem e).mp he with ⟨he, hstop, hstart⟩ | rfl
    · exact Or.inl ⟨⟨e, he, rfl⟩, hstop, hstart⟩
    · exact Or.inr rfl
  · rintro (⟨⟨e, he, rfl⟩, hstop, hstart⟩ | rfl)
    · exact ⟨e, (hmem e).mpr (Or.inl ⟨he, hstop, hstart⟩), rfl⟩
    · exact ⟨_, (hmem _).mpr (Or.inr rfl), rfl⟩

end

/-! ## All sequences of calls -/

section

variable {full : Span ℕ} {s s' : RangeState} {debug : Bool}

theorem rangeOK_new (hpos : full.start < full.stop) (hword : full.stop < 2 ^ 64) :
    RangeOK full (RangeAllocator.new full) [] := by
  have hblocks : (RangeAllocator.new full).blocks = {full} := by
    ext b
    constructor
    · rintro ⟨e, he, rfl⟩
      rw [SortedMap.mem_single.mp he]
      rfl
    · rintro rfl
      exact ⟨_, SortedMap.mem_single.mpr rfl, rfl⟩
  refine ⟨rfl, hword, ?_, ?_, fun h => absurd rfl h⟩
  · intro e he
    rw [SortedMap.mem_single.mp he]
  · rw [hblocks]
    exact Partition.single hpos

/-- The debug assertion of `alloc_specific`. -/
theorem allocSpecific_empty {a : RangeAllocator} {r : Span ℕ} (h : ¬r.start < r.stop) :
    a.allocSpecific true r = .error .assertion := by
  have hcheck : Exec.debugAssert true (r.start < r.stop) = .error .assertion := if_neg h
  unfold RangeAllocator.allocSpecific
  rw [hcheck]
  rfl

/-- **A call keeps the invariant.** -/
theorem RangeOK.step (h : RangeOK full s.allocator s.live) {op : RangeOp} (hop : op.Asks debug s)
    (hs : s.next debug op = some s') : RangeOK full s'.allocator s'.live := by
  cases op with
  | alloc size =>
      obtain ⟨⟨o, a⟩, hok, hpost⟩ := (h.post_alloc (A := fun _ => False) hop).exists_ok
      simp only [RangeState.next, hok] at hs
      rcases hpost with ⟨r, g, rfl, -, -, -, hOK⟩ | ⟨rfl, -, rfl⟩
      · obtain rfl := Option.some.inj hs
        exact hOK
      · obtain rfl := Option.some.inj hs
        exact h.of_made
  | allocSpecific r =>
      by_cases hpos : r.start < r.stop
      · obtain ⟨⟨o, a⟩, hok, hpost⟩ :=
          (h.post_allocSpecific (A := fun _ => False) debug hpos).exists_ok
        simp only [RangeState.next, hok] at hs
        rcases hpost with ⟨rfl, -, hOK⟩ | ⟨rfl, -, rfl⟩
        · obtain rfl := Option.some.inj hs
          exact hOK
        · obtain rfl := Option.some.inj hs
          exact h.of_made
      · obtain rfl := hop.resolve_right hpos
        rw [RangeState.next, allocSpecific_empty hpos] at hs
        cases hs
  | free r =>
      by_cases hr : r ∈ s.live
      · obtain ⟨a, hok, hOK⟩ := (h.post_free (A := fun _ => False) hr).exists_ok
        simp only [RangeState.next, hok, if_pos hr] at hs
        obtain rfl := Option.some.inj hs
        exact hOK
      · simp only [RangeState.next, if_neg hr] at hs
        cases hs

theorem rangeOK_reachable (hpos : full.start < full.stop) (hword : full.stop < 2 ^ 64)
    (h : ((rangeSystem debug full).restrict (RangeOp.Asks debug)).Reachable s) :
    RangeOK full s.allocator s.live := by
  refine System.invariant (I := fun s => RangeOK full s.allocator s.live) ?_ ?_ h
  · rintro s rfl
    exact rangeOK_new hpos hword
  · rintro s op s' - hOK ⟨hop, hs⟩
    exact hOK.step hop hs

/-- **All ranges in use can be given back**, in any order. -/
theorem RangeOK.freeAll : ∀ {order : List (Span ℕ)} {s : RangeState}, s.live.Perm order →
    RangeOK full s.allocator s.live →
    ∃ s', System.runAll (RangeState.next debug) s (order.map RangeOp.free) = some s' ∧
      RangeOK full s'.allocator [] ∧ s'.live = []
  | [], s, hperm, h => by
      have hnil := List.perm_nil.mp hperm
      exact ⟨s, rfl, hnil ▸ h, hnil⟩
  | r :: rest, s, hperm, h => by
      have hr : r ∈ s.live := hperm.mem_iff.mpr List.mem_cons_self
      obtain ⟨a, hok, hOK⟩ := (h.post_free (A := fun _ => False) hr).exists_ok
      have hnext : s.next debug (.free r) = some ⟨a, s.live.erase r⟩ := by
        simp only [RangeState.next, hok, if_pos hr]
      have hrest : (s.live.erase r).Perm rest := by
        simpa using hperm.erase r
      obtain ⟨s', hrun, hOK', hnil⟩ :=
        RangeOK.freeAll (s := ⟨a, s.live.erase r⟩) hrest hOK
      refine ⟨s', ?_, hOK', hnil⟩
      rw [List.map_cons, System.runAll, hnext, Option.bind_some]
      exact hrun

/-- A call of `alloc_specific` that fails keeps the map. -/
theorem allocSpecific_fails {a a' : RangeAllocator} {r : Span ℕ}
    (h : a.allocSpecific debug r = .ok (false, a')) :
    a' = { a with freelist := some a.getFreelist } := by
  unfold RangeAllocator.allocSpecific at h
  obtain ⟨-, -, h⟩ := bind_eq_ok.mp h
  simp only at h
  split at h
  · simp only [Except.ok.injEq, Prod.mk.injEq, true_and] at h
    exact h.symm
  · obtain ⟨left, -, h⟩ := bind_eq_ok.mp h
    obtain ⟨right, -, h⟩ := bind_eq_ok.mp h
    split at h
    · obtain ⟨stop, -, h⟩ := bind_eq_ok.mp h
      simp at h
    · simp at h

/-- A call of `alloc` that fails keeps the map. -/
theorem alloc_fails {a a' : RangeAllocator} {size : ℕ} (h : a.alloc size = .ok (none, a')) :
    a' = { a with freelist := some a.getFreelist } := by
  unfold RangeAllocator.alloc at h
  obtain ⟨found, -, h⟩ := bind_eq_ok.mp h
  cases found with
  | none =>
      simp only [Except.ok.injEq, Prod.mk.injEq, true_and] at h
      exact h.symm
  | some found =>
      simp only at h
      split at h
      · simp at h
      · obtain ⟨stop, -, h⟩ := bind_eq_ok.mp h
        split at h
        · simp at h
        · simp at h

/-- **What the allocator is for.** -/
structure RangeContract (debug : Bool) (full : Span ℕ) (s : RangeState) : Prop where
  /-- the blocks and the ranges in use share out the full range, and blocks do not touch -/
  shared : Partition full s.allocator.blocks s.live
  allocSpecific : ∀ r : Span ℕ, debug = true ∨ r.start < r.stop →
    ((∃ a, s.allocator.allocSpecific debug r = .ok (true, a)) ↔
      r.start < r.stop ∧ r.set ⊆ full.set ∧ ∀ l ∈ s.live, Disjoint r.set l.set)
  alloc : ∀ size, 0 < size → ((∃ r a, s.allocator.alloc size = .ok (some r, a)) ↔
    ∃ g, IsGap full s.live g ∧ g.start + size ≤ g.stop)
  alloc_range : ∀ size r a, 0 < size → s.allocator.alloc size = .ok (some r, a) →
    r.stop = r.start + size ∧ ∃ g, IsGap full s.live g ∧ r.set ⊆ g.set
  /-- a call that fails changes nothing -/
  allocSpecific_fails : ∀ r a, s.allocator.allocSpecific debug r = .ok (false, a) →
    a.fullrange = full ∧ a.getFreelist = s.allocator.getFreelist
  alloc_fails : ∀ size a, s.allocator.alloc size = .ok (none, a) →
    a.fullrange = full ∧ a.getFreelist = s.allocator.getFreelist
  /-- the ranges in use can be freed in any order, after which all is one block -/
  free_all : ∀ order : List (Span ℕ), s.live.Perm order →
    ∃ s', System.runAll (RangeState.next debug) s (order.map RangeOp.free) = some s' ∧
      s'.live = [] ∧ s'.allocator.blocks = {full}

theorem RangeOK.allocSpecific_iff {a : RangeAllocator} {live : List (Span ℕ)}
    (h : RangeOK full a live) (r : Span ℕ) (hr : debug = true ∨ r.start < r.stop) :
    (∃ a', a.allocSpecific debug r = .ok (true, a')) ↔
      r.start < r.stop ∧ r.set ⊆ full.set ∧ ∀ l ∈ live, Disjoint r.set l.set := by
  by_cases hpos : r.start < r.stop
  · obtain ⟨⟨ok, a'⟩, hok, hpost⟩ :=
      (h.post_allocSpecific (A := fun _ => False) debug hpos).exists_ok
    have hfits : RangeFits full live r ↔
        r.start < r.stop ∧ r.set ⊆ full.set ∧ ∀ l ∈ live, Disjoint r.set l.set := by
      constructor
      · rintro ⟨hin, happ⟩
        exact ⟨hpos, hin, fun l hl => Set.disjoint_left.mpr fun x hx => (happ l hl).not_mem hx⟩
      · rintro ⟨-, hin, hdis⟩
        exact ⟨hin, fun l hl =>
          Span.apart_of_disjoint hpos (h.partition.live_pos l hl) (hdis l hl)⟩
    rw [← hfits]
    rcases hpost with ⟨rfl, hfit, -⟩ | ⟨rfl, hfit, -⟩
    · exact ⟨fun _ => hfit, fun _ => ⟨a', hok⟩⟩
    · constructor
      · rintro ⟨b, hb⟩
        rw [hok] at hb
        simp at hb
      · intro hf
        exact absurd hf hfit
  · obtain rfl := hr.resolve_right hpos
    constructor
    · rintro ⟨b, hb⟩
      rw [allocSpecific_empty hpos] at hb
      cases hb
    · rintro ⟨hlt, -⟩
      exact absurd hlt hpos

theorem RangeOK.alloc_iff {a : RangeAllocator} {live : List (Span ℕ)}
    (h : RangeOK full a live) {size : ℕ} (hsize : 0 < size) :
    (∃ r a', a.alloc size = .ok (some r, a')) ↔
      ∃ g, IsGap full live g ∧ g.start + size ≤ g.stop := by
  obtain ⟨⟨o, a'⟩, hok, hpost⟩ := (h.post_alloc (A := fun _ => False) hsize).exists_ok
  rcases hpost with ⟨r, g, rfl, hg, hin, hlen, -⟩ | ⟨rfl, hsmall, -⟩
  · have hgpos := h.partition.free_pos g hg
    have hle := (Span.set_subset_iff (by omega)).mp hin
    exact ⟨fun _ => ⟨g, h.partition.mem_free_iff.mp hg, by omega⟩, fun _ => ⟨r, a', hok⟩⟩
  · constructor
    · rintro ⟨r, b, hb⟩
      rw [hok] at hb
      simp at hb
    · rintro ⟨g, hg, hle⟩
      have := hsmall g (h.partition.mem_free_iff.mpr hg)
      omega

/-- **The range allocator** keeps its contract, if no call asks for zero bytes. -/
theorem rangeAllocator_contract (debug : Bool) (full : Span ℕ) (hpos : full.start < full.stop)
    (hword : full.stop < 2 ^ 64) (s : RangeState)
    (h : ((rangeSystem debug full).restrict (RangeOp.Asks debug)).Reachable s) :
    RangeContract debug full s := by
  have hOK := rangeOK_reachable hpos hword h
  refine ⟨hOK.partition, hOK.allocSpecific_iff, fun size => hOK.alloc_iff, ?_, ?_, ?_, ?_⟩
  · intro size r a hsize hok
    rcases (hOK.post_alloc (A := fun _ => True) hsize).of_ok hok with
      ⟨r', g, heq, hg, hin, hlen, -⟩ | ⟨hnone, -⟩
    · obtain rfl : r = r' := Option.some.inj heq
      exact ⟨hlen, g, hOK.partition.mem_free_iff.mp hg, hin⟩
    · cases hnone
  · intro r a hok
    rw [allocSpecific_fails hok]
    exact ⟨hOK.fullrange, rfl⟩
  · intro size a hok
    rw [alloc_fails hok]
    exact ⟨hOK.fullrange, rfl⟩
  · intro order hperm
    obtain ⟨s', hrun, hOK', hnil⟩ := hOK.freeAll hperm
    exact ⟨s', hrun, hnil, hOK'.partition.free_of_nil hpos⟩

/-- A run that takes a range out of the middle of a block and another one by its size. -/
theorem rangeAllocator_contract_sample : ∃ s : RangeState,
    s.live = [⟨12, 20⟩, ⟨5, 10⟩] ∧ RangeContract false ⟨0, 20⟩ s := by
  have hreach := System.exists_of_runAll
    ((rangeSystem false ⟨0, 20⟩).restrict (RangeOp.Asks false))
    (fun s op => if op.Asks false s then s.next false op else none)
    [.allocSpecific ⟨5, 10⟩, .alloc 8]
    (fun s => decide (s.live = [⟨12, 20⟩, ⟨5, 10⟩])) ?_ rfl (by decide)
  · obtain ⟨s, hs, hlive⟩ := hreach
    exact ⟨s, of_decide_eq_true hlive,
      rangeAllocator_contract false ⟨0, 20⟩ (by decide) (by decide) s hs⟩
  · intro s op s' hs
    by_cases hop : op.Asks false s
    · rw [if_pos hop] at hs
      exact ⟨hop, hs⟩
    · rw [if_neg hop] at hs
      cases hs

/-- The blocks, from the entries of the map. -/
theorem blocks_eq_of_entries {a : RangeAllocator} {bs : List (Span ℕ)}
    (h : a.getFreelist.entries.map Prod.snd = bs) : a.blocks = {b | b ∈ bs} := by
  ext b
  rw [← h]
  exact List.mem_map.symm

/-- **Empty ranges.**  In every build, after `alloc(0)` all ranges have been freed and half of
the full range is lost: the empty range that is freed replaces a block.  Without debug assertions
`alloc_specific` accepts an empty range, and there are two blocks that touch. -/
theorem rangeAllocator_loses_block :
    (∀ debug, ∃ s : RangeState, (rangeSystem debug ⟨0, 20⟩).Reachable s ∧ s.live = [] ∧
      s.allocator.blocks = {b | b ∈ [⟨0, 10⟩]}) ∧
    ∃ s : RangeState, (rangeSystem false ⟨0, 10⟩).Reachable s ∧ s.live = [⟨5, 5⟩] ∧
      s.allocator.blocks = {b | b ∈ [⟨0, 5⟩, ⟨5, 10⟩]} := by
  constructor
  · intro debug
    obtain ⟨s, hs, hend⟩ := System.exists_of_runAll (rangeSystem debug ⟨0, 20⟩)
      (RangeState.next debug)
      [.allocSpecific ⟨10, 20⟩, .alloc 0, .allocSpecific ⟨0, 10⟩, .free ⟨10, 20⟩, .free ⟨10, 10⟩,
        .free ⟨0, 10⟩]
      (fun s => decide (s.live = [] ∧ s.allocator.getFreelist.entries.map Prod.snd = [⟨0, 10⟩]))
      (fun _ _ _ h => h) rfl (by cases debug <;> decide)
    obtain ⟨hlive, hblocks⟩ := of_decide_eq_true hend
    exact ⟨s, hs, hlive, blocks_eq_of_entries hblocks⟩
  · obtain ⟨s, hs, hend⟩ := System.exists_of_runAll (rangeSystem false ⟨0, 10⟩)
      (RangeState.next false) [.allocSpecific ⟨5, 5⟩]
      (fun s => decide (s.live = [⟨5, 5⟩] ∧
        s.allocator.getFreelist.entries.map Prod.snd = [⟨0, 5⟩, ⟨5, 10⟩]))
      (fun _ _ _ h => h) rfl (by decide)
    obtain ⟨hlive, hblocks⟩ := of_decide_eq_true hend
    exact ⟨s, hs, hlive, blocks_eq_of_entries hblocks⟩

end

end Vostd
