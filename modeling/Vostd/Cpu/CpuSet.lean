/-
# CPU sets

`CpuSet` and `AtomicCpuSet` of `cpu/set.rs`: a set of CPUs as a growable vector of 64-bit
words, and the same with atomic words.

The summaries of a set (`count`, `is_empty`, `is_full`, `iter`) read all bits of all words,
so they are right only if there are no bits behind the last CPU, and `is_full`, `add_all`
and the atomic set also need the vector to have a word for every CPU.  `new_full` and
`new_empty` create such vectors and all operations keep them (`SetOK`).  The derived
`Default` does not: its vector has no words at all.  The result is therefore about the
constructors that a program uses: all its sets behave as mathematical sets exactly when
`Default` is not among them.
-/
import Vostd.Lib.Collect
import Vostd.Lib.WordBitmap

namespace Vostd

open Exec

/-! ## The code -/

/-- `BITS_PER_PART`. -/
abbrev bitsPerPart : ℕ := 64

/-- `InnerPart`. -/
abbrev InnerPart : Type := BitVec bitsPerPart

/-- `part_idx`. -/
def partIdx (cpuId : ℕ) : ℕ := cpuId / bitsPerPart

/-- `bit_idx`. -/
def bitIdx (cpuId : ℕ) : ℕ := cpuId % bitsPerPart

/-- `parts_for_cpus`: division that rounds up. -/
def partsForCpus (numCpus : ℕ) : ℕ := (numCpus + (bitsPerPart - 1)) / bitsPerPart

/-- `1 << bit_idx`. -/
def bitMask (bit : ℕ) : InnerPart := BitVec.ofNat bitsPerPart 1 <<< bit

/-- `bits.resize(len, value)`. -/
def resize (bits : List InnerPart) (len : ℕ) (value : InnerPart) : List InnerPart :=
  bits.take len ++ List.replicate (len - bits.length) value

/-- `CpuSet`. -/
structure CpuSet where
  bits : List InnerPart
  deriving DecidableEq, Repr

namespace CpuSet

/-- `with_capacity_val`. -/
def withCapacityVal (numCpus : ℕ) (val : InnerPart) : CpuSet :=
  ⟨resize [] (partsForCpus numCpus) val⟩

/-- `clear_nonexistent_cpu_bits`. -/
def clearNonexistentCpuBits (numCpus : ℕ) (s : CpuSet) : Exec CpuSet :=
  if numCpus % bitsPerPart ≠ 0 then do
    let last ← Exec.sub (partsForCpus numCpus) 1
    let part ← Exec.unwrap s.bits[last]?
    .ok ⟨s.bits.set last
      (part &&& (bitMask (numCpus % bitsPerPart) - BitVec.ofNat bitsPerPart 1))⟩
  else .ok s

/-- `new_full`. -/
def newFull (numCpus : ℕ) : Exec CpuSet :=
  clearNonexistentCpuBits numCpus (withCapacityVal numCpus (~~~(BitVec.ofNat bitsPerPart 0)))

/-- `new_empty`. -/
def newEmpty (numCpus : ℕ) : CpuSet := withCapacityVal numCpus (BitVec.ofNat bitsPerPart 0)

/-- The derived `Default::default`. -/
def default : CpuSet := ⟨[]⟩

/-- `add`. -/
def add (s : CpuSet) (cpuId : ℕ) : Exec CpuSet := do
  let bits := if s.bits.length ≤ partIdx cpuId
    then resize s.bits (partIdx cpuId + 1) (BitVec.ofNat bitsPerPart 0)
    else s.bits
  let part ← Exec.unwrap bits[partIdx cpuId]?
  .ok ⟨bits.set (partIdx cpuId) (part ||| bitMask (bitIdx cpuId))⟩

/-- `remove`. -/
def remove (s : CpuSet) (cpuId : ℕ) : Exec CpuSet :=
  if partIdx cpuId < s.bits.length then do
    let part ← Exec.unwrap s.bits[partIdx cpuId]?
    .ok ⟨s.bits.set (partIdx cpuId) (part &&& ~~~bitMask (bitIdx cpuId))⟩
  else .ok s

/-- `contains`. -/
def contains (s : CpuSet) (cpuId : ℕ) : Exec Bool :=
  if partIdx cpuId < s.bits.length then do
    let part ← Exec.unwrap s.bits[partIdx cpuId]?
    .ok (decide (part &&& bitMask (bitIdx cpuId) ≠ BitVec.ofNat bitsPerPart 0))
  else .ok false

/-- `count`. -/
def count (s : CpuSet) : Exec ℕ :=
  Exec.forRange (fun idx count => do
    let part ← Exec.unwrap s.bits[idx]?
    Exec.add count part.cpop.toNat) 0 s.bits.length 0

/-- `is_empty`. -/
def isEmpty (s : CpuSet) : Bool := s.bits.all (fun part => part == BitVec.ofNat bitsPerPart 0)

/-- The loop of `is_full` with `n` words to go. -/
def isFullLoop (numCpus : ℕ) (s : CpuSet) : ℕ → ℕ → Exec Bool
  | 0, _ => .ok true
  | n + 1, idx => do
      let last ← Exec.sub s.bits.length 1
      let expected := if idx = last ∧ numCpus % bitsPerPart ≠ 0
        then bitMask (numCpus % bitsPerPart) - BitVec.ofNat bitsPerPart 1
        else ~~~(BitVec.ofNat bitsPerPart 0)
      let part ← Exec.unwrap s.bits[idx]?
      if part ≠ expected then .ok false else isFullLoop numCpus s n (idx + 1)

/-- `is_full`. -/
def isFull (numCpus : ℕ) (s : CpuSet) : Exec Bool := isFullLoop numCpus s s.bits.length 0

/-- `add_all`. -/
def addAll (numCpus : ℕ) (s : CpuSet) : Exec CpuSet :=
  clearNonexistentCpuBits numCpus ⟨s.bits.map (fun _ => ~~~(BitVec.ofNat bitsPerPart 0))⟩

/-- `clear`. -/
def clear (s : CpuSet) : CpuSet := ⟨s.bits.map (fun _ => BitVec.ofNat bitsPerPart 0)⟩

/-- `iter`: what the iterator yields.  An id is a `u32`. -/
def iter (s : CpuSet) : Exec (List ℕ) :=
  Exec.forRange (fun id acc => do
    let part ← Exec.unwrap s.bits[id / bitsPerPart]?
    if part &&& bitMask (id % bitsPerPart) ≠ BitVec.ofNat bitsPerPart 0 then
      .ok (acc ++ [id % 2 ^ 32])
    else .ok acc) 0 (s.bits.length * bitsPerPart) []

end CpuSet

/-- `Ordering` of the atomic operations. -/
inductive AtomicOrdering : Type where
  | relaxed
  | release
  | acquire
  | acqRel
  | seqCst
  deriving DecidableEq, Repr

/-- The load of an atomic word: the standard library panics on `AcqRel`, and the set uses
`fetch_or(0)` for `Release`. -/
def loadPart (ordering : AtomicOrdering) (part : InnerPart) : Exec InnerPart :=
  match ordering with
  | .release => .ok part
  | .acqRel => .error .assertion
  | .relaxed | .acquire | .seqCst => .ok part

/-- The store to an atomic word: the standard library panics on `Acquire` and `AcqRel`. -/
def storePart (ordering : AtomicOrdering) (new : InnerPart) : Exec InnerPart :=
  match ordering with
  | .acquire | .acqRel => .error .assertion
  | .relaxed | .release | .seqCst => .ok new

/-- `AtomicCpuSet`. -/
structure AtomicCpuSet where
  bits : List InnerPart
  deriving DecidableEq, Repr

namespace AtomicCpuSet

/-- `new`. -/
def new (value : CpuSet) : AtomicCpuSet := ⟨value.bits⟩

/-- The words that `load` collects. -/
def loadParts (ordering : AtomicOrdering) : List InnerPart → Exec (List InnerPart)
  | [] => .ok []
  | part :: parts => do
      let part ← loadPart ordering part
      let rest ← loadParts ordering parts
      .ok (part :: rest)

/-- `load`. -/
def load (a : AtomicCpuSet) (ordering : AtomicOrdering) : Exec CpuSet := do
  let bits ← loadParts ordering a.bits
  .ok ⟨bits⟩

/-- The loop of `store`: it ends with the shorter of the two vectors. -/
def storeParts (ordering : AtomicOrdering) :
    List InnerPart → List InnerPart → Exec (List InnerPart)
  | _ :: parts, new :: news => do
      let part ← storePart ordering new
      let rest ← storeParts ordering parts news
      .ok (part :: rest)
  | parts, _ => .ok parts

/-- `store`. -/
def store (a : AtomicCpuSet) (value : CpuSet) (ordering : AtomicOrdering) :
    Exec AtomicCpuSet := do
  let bits ← storeParts ordering a.bits value.bits
  .ok ⟨bits⟩

/-- `add`.  `fetch_or` takes every ordering. -/
def add (a : AtomicCpuSet) (cpuId : ℕ) : Exec AtomicCpuSet :=
  if partIdx cpuId < a.bits.length then do
    let part ← Exec.unwrap a.bits[partIdx cpuId]?
    .ok ⟨a.bits.set (partIdx cpuId) (part ||| bitMask (bitIdx cpuId))⟩
  else .ok a

/-- `remove`. -/
def remove (a : AtomicCpuSet) (cpuId : ℕ) : Exec AtomicCpuSet :=
  if partIdx cpuId < a.bits.length then do
    let part ← Exec.unwrap a.bits[partIdx cpuId]?
    .ok ⟨a.bits.set (partIdx cpuId) (part &&& ~~~bitMask (bitIdx cpuId))⟩
  else .ok a

end AtomicCpuSet

/-! ## How sets are made and changed -/

/-- The public constructors. -/
inductive CpuSetCtor : Type where
  | newFull
  | newEmpty
  | default
  deriving DecidableEq, Repr

/-- The operations that change a set. -/
inductive CpuSetOp : Type where
  | add (cpuId : ℕ)
  | remove (cpuId : ℕ)
  | addAll
  | clear
  deriving DecidableEq, Repr

/-- A set as a program makes it: a constructor, then operations. -/
structure CpuSetRecipe where
  ctor : CpuSetCtor
  ops : List CpuSetOp
  deriving DecidableEq, Repr

/-- The operations on an atomic set; a store is given with the making of its argument. -/
inductive AtomicOp : Type where
  | store (value : CpuSetRecipe) (ordering : AtomicOrdering)
  | add (cpuId : ℕ)
  | remove (cpuId : ℕ)
  deriving DecidableEq, Repr

def CpuSetCtor.make (numCpus : ℕ) : CpuSetCtor → Exec CpuSet
  | .newFull => CpuSet.newFull numCpus
  | .newEmpty => .ok (CpuSet.newEmpty numCpus)
  | .default => .ok CpuSet.default

def CpuSet.perform (numCpus : ℕ) (s : CpuSet) : CpuSetOp → Exec CpuSet
  | .add id => s.add id
  | .remove id => s.remove id
  | .addAll => s.addAll numCpus
  | .clear => .ok s.clear

def CpuSet.performAll (numCpus : ℕ) : CpuSet → List CpuSetOp → Exec CpuSet
  | s, [] => .ok s
  | s, op :: ops => do
      let s ← s.perform numCpus op
      performAll numCpus s ops

def CpuSetRecipe.build (numCpus : ℕ) (r : CpuSetRecipe) : Exec CpuSet := do
  let s ← r.ctor.make numCpus
  s.performAll numCpus r.ops

def AtomicCpuSet.perform (numCpus : ℕ) (a : AtomicCpuSet) : AtomicOp → Exec AtomicCpuSet
  | .store r ordering => do
      let value ← r.build numCpus
      a.store value ordering
  | .add id => a.add id
  | .remove id => a.remove id

def AtomicCpuSet.performAll (numCpus : ℕ) : AtomicCpuSet → List AtomicOp → Exec AtomicCpuSet
  | a, [] => .ok a
  | a, op :: ops => do
      let a ← a.perform numCpus op
      performAll numCpus a ops

/-- An atomic set that is created, used and loaded. -/
def loadAfter (numCpus : ℕ) (r : CpuSetRecipe) (ops : List AtomicOp) (ordering : AtomicOrdering) :
    Exec CpuSet := do
  let value ← r.build numCpus
  let a ← (AtomicCpuSet.new value).performAll numCpus ops
  a.load ordering

/-! ## Mathematical sets

The same constructors and operations on subsets of the CPUs. -/

def CpuSetCtor.members (numCpus : ℕ) : CpuSetCtor → Finset ℕ
  | .newFull => Finset.range numCpus
  | .newEmpty => ∅
  | .default => ∅

def CpuSetOp.apply (numCpus : ℕ) (S : Finset ℕ) : CpuSetOp → Finset ℕ
  | .add id => insert id S
  | .remove id => S.erase id
  | .addAll => Finset.range numCpus
  | .clear => ∅

def CpuSetRecipe.members (numCpus : ℕ) (r : CpuSetRecipe) : Finset ℕ :=
  r.ops.foldl (CpuSetOp.apply numCpus) (r.ctor.members numCpus)

def AtomicOp.apply (numCpus : ℕ) (S : Finset ℕ) : AtomicOp → Finset ℕ
  | .store r _ => r.members numCpus
  | .add id => insert id S
  | .remove id => S.erase id

/-- The ids of the operations are ids of CPUs. -/
def CpuSetOp.Valid (numCpus : ℕ) : CpuSetOp → Prop
  | .add id => id < numCpus
  | .remove id => id < numCpus
  | .addAll => True
  | .clear => True

/-- The recipes of a program that uses the constructors `K`. -/
structure CpuSetRecipe.Valid (K : CpuSetCtor → Prop) (numCpus : ℕ) (r : CpuSetRecipe) : Prop where
  ctor : K r.ctor
  ops : ∀ op ∈ r.ops, op.Valid numCpus

/-- The operations on atomic sets in such a program; the orderings are those that `store`
takes. -/
def AtomicOp.Valid (K : CpuSetCtor → Prop) (numCpus : ℕ) : AtomicOp → Prop
  | .store r ordering => r.Valid K numCpus ∧ ordering ≠ .acquire ∧ ordering ≠ .acqRel
  | .add id => id < numCpus
  | .remove id => id < numCpus

/-- **A set behaves as the set `S` of CPUs**: every question has the answer that `S` gives. -/
structure CpuSet.BehavesAs (numCpus : ℕ) (s : CpuSet) (S : Finset ℕ) : Prop where
  contains : ∀ id, id < numCpus → s.contains id = .ok (decide (id ∈ S))
  count : s.count = .ok S.card
  isEmpty : s.isEmpty = decide (S = ∅)
  isFull : s.isFull numCpus = .ok (decide (S = Finset.range numCpus))
  iter : s.iter = .ok (S.sort (· ≤ ·))

/-! ## The invariant -/

/-- **The invariant**: one word for every 64 CPUs, and the bits are those of `S`. -/
structure SetOK (numCpus : ℕ) (bits : List InnerPart) (S : Finset ℕ) : Prop where
  length : bits.length = partsForCpus numCpus
  bit : ∀ i, bitAt bits i = decide (i ∈ S)
  lt : ∀ i ∈ S, i < numCpus

section

variable {A : Fault → Prop} {n id : ℕ} {s : CpuSet} {bits : List InnerPart} {S : Finset ℕ}
  {K : CpuSetCtor → Prop} {ordering : AtomicOrdering}

theorem bitsPerPart_pos : 0 < bitsPerPart := by decide

theorem le_partsForCpus_mul (n : ℕ) : n ≤ partsForCpus n * bitsPerPart := by
  unfold partsForCpus bitsPerPart
  omega

theorem partIdx_lt_partsForCpus (h : id < n) : partIdx id < partsForCpus n := by
  unfold partIdx partsForCpus bitsPerPart
  omega

theorem getLsbD_ones (i : ℕ) :
    (~~~(BitVec.ofNat bitsPerPart 0)).getLsbD i = decide (i < bitsPerPart) := by
  rw [BitVec.getLsbD_not, BitVec.getLsbD_zero, Bool.not_false, Bool.and_true]

theorem post_getPart (h : partIdx id < bits.length) :
    Post A (Exec.unwrap bits[partIdx id]?) (fun part => bits[partIdx id]? = some part) := by
  apply post_unwrap
  intro hnone
  rw [List.getElem?_eq_getElem h] at hnone
  cases hnone

/-- The bit test of `contains` and `iter`. -/
theorem testBit_iff {part : InnerPart} (hpart : bits[partIdx id]? = some part) :
    part &&& bitMask (bitIdx id) ≠ BitVec.ofNat bitsPerPart 0 ↔ bitAt bits id = true := by
  rw [bitMask, bitIdx, and_one_shiftLeft_ne_zero (Nat.mod_lt _ bitsPerPart_pos),
    bitAt_of_getElem? hpart]

/-! ## The operations keep it -/

/-- `add`, whatever the length of the vector: it grows when it has to. -/
theorem post_setAdd (s : CpuSet) (id : ℕ) : Post A (s.add id) (fun s' =>
    s'.bits.length = max s.bits.length (partIdx id + 1) ∧
      ∀ i, bitAt s'.bits i = (bitAt s.bits i || decide (i = id))) := by
  unfold CpuSet.add
  by_cases h : s.bits.length ≤ partIdx id
  · have hresize : resize s.bits (partIdx id + 1) (BitVec.ofNat bitsPerPart 0) =
        s.bits ++ List.replicate (partIdx id + 1 - s.bits.length) (BitVec.ofNat bitsPerPart 0) := by
      rw [resize, List.take_of_length_le (by omega)]
    have hlen : (resize s.bits (partIdx id + 1) (BitVec.ofNat bitsPerPart 0)).length =
        partIdx id + 1 := by
      rw [hresize, List.length_append, List.length_replicate]
      omega
    simp only [if_pos h]
    refine Post.bind (post_getPart (by rw [hlen]; exact Nat.lt_succ_self _)) ?_
    intro part hpart
    refine ⟨?_, ?_⟩
    · show (List.set _ _ _).length = _
      rw [List.length_set, hlen]
      omega
    · intro i
      have hsame : bitAt (resize s.bits (partIdx id + 1) (BitVec.ofNat bitsPerPart 0)) i =
          bitAt s.bits i := by
        rw [hresize, bitAt_append_zero]
      rw [← hsame]
      exact bitAt_set_or bitsPerPart_pos hpart i
  · simp only [if_neg h]
    refine Post.bind (post_getPart (by omega)) ?_
    intro part hpart
    refine ⟨?_, fun i => bitAt_set_or bitsPerPart_pos hpart i⟩
    show (List.set _ _ _).length = _
    rw [List.length_set]
    omega

theorem SetOK.insert (h : SetOK n bits S) (hid : id < n) {bits' : List InnerPart}
    (hlen : bits'.length = bits.length)
    (hbits : ∀ i, bitAt bits' i = (bitAt bits i || decide (i = id))) :
    SetOK n bits' (insert id S) := by
  refine ⟨by rw [hlen, h.length], ?_, ?_⟩
  · intro i
    rw [hbits, h.bit, ← Bool.decide_or, decide_eq_decide, Finset.mem_insert, or_comm]
  · intro i hi
    rcases Finset.mem_insert.mp hi with rfl | hi
    · exact hid
    · exact h.lt i hi

theorem SetOK.erase (h : SetOK n bits S) {bits' : List InnerPart}
    (hlen : bits'.length = bits.length)
    (hbits : ∀ i, bitAt bits' i = (bitAt bits i && !decide (i = id))) :
    SetOK n bits' (S.erase id) := by
  refine ⟨by rw [hlen, h.length], ?_, ?_⟩
  · intro i
    rw [hbits, h.bit, ← decide_not, ← Bool.decide_and, decide_eq_decide, Finset.mem_erase, and_comm]
  · intro i hi
    exact h.lt i (Finset.mem_of_mem_erase hi)

/-- The words of a full vector, cut off behind the last CPU. -/
theorem post_clearNonexistentCpuBits (hlen : s.bits.length = partsForCpus n) :
    Post A (s.clearNonexistentCpuBits n) (fun s' => s'.bits.length = s.bits.length ∧
      ∀ i, bitAt s'.bits i = (bitAt s.bits i && decide (i < n))) := by
  -- bits behind the last word are zero before and after
  have hfalse : ∀ i, s.bits.length * bitsPerPart ≤ i → bitAt s.bits i = false :=
    fun i hi => bitAt_of_le bitsPerPart_pos hi
  rw [hlen] at hfalse
  unfold CpuSet.clearNonexistentCpuBits
  refine post_ite ?_ ?_
  · intro hmod
    have hlast : partsForCpus n - 1 = partIdx n := by
      unfold partsForCpus partIdx bitsPerPart at *
      omega
    have hin : partIdx n < s.bits.length := by
      rw [hlen]
      unfold partsForCpus partIdx bitsPerPart at *
      omega
    refine Post.bind (post_sub (fun hz => ?_)) ?_
    · omega
    rintro _ ⟨rfl, -⟩
    rw [hlast]
    refine Post.bind (post_getPart hin) ?_
    intro part hpart
    refine ⟨List.length_set, ?_⟩
    intro i
    show bitAt (s.bits.set (partIdx n) _) i = _
    rw [bitAt_set hin]
    by_cases hi : i / bitsPerPart = partIdx n
    · rw [if_pos hi, BitVec.getLsbD_and, bitMask, getLsbD_lowMask (Nat.mod_lt _ bitsPerPart_pos),
        bitAt_of_getElem? (by rw [hi]; exact hpart)]
      congr 1
      rw [decide_eq_decide]
      unfold partIdx bitsPerPart at *
      omega
    · rw [if_neg hi]
      by_cases hin' : i < n
      · rw [decide_eq_true hin', Bool.and_true]
      · rw [hfalse i ?_, Bool.false_and]
        unfold partsForCpus partIdx bitsPerPart at *
        omega
  · intro hmod
    refine ⟨rfl, ?_⟩
    intro i
    by_cases hin : i < n
    · rw [decide_eq_true hin, Bool.and_true]
    · rw [hfalse i ?_, Bool.false_and]
      unfold partsForCpus bitsPerPart at *
      omega

/-- All ones, cut off: the set of all CPUs. -/
theorem post_fullSet
    (hbits : bits = List.replicate (partsForCpus n) (~~~(BitVec.ofNat bitsPerPart 0))) :
    Post A (CpuSet.clearNonexistentCpuBits n ⟨bits⟩)
      (fun s' => SetOK n s'.bits (Finset.range n)) := by
  have hlen : bits.length = partsForCpus n := by
    rw [hbits, List.length_replicate]
  refine (post_clearNonexistentCpuBits (s := ⟨bits⟩) hlen).mono ?_
  rintro s' ⟨hlen', hbit⟩
  refine ⟨hlen'.trans hlen, ?_, fun i hi => Finset.mem_range.mp hi⟩
  intro i
  have hmul := le_partsForCpus_mul n
  rw [hbit, hbits, bitAt_replicate bitsPerPart_pos, getLsbD_ones,
    decide_eq_true (Nat.mod_lt i bitsPerPart_pos), Bool.and_true, ← Bool.decide_and,
    decide_eq_decide, Finset.mem_range]
  omega

theorem setOK_zero (hbits : bits = List.replicate (partsForCpus n) (BitVec.ofNat bitsPerPart 0)) :
    SetOK n bits ∅ := by
  refine ⟨by rw [hbits, List.length_replicate], ?_, fun i hi => absurd hi (Finset.notMem_empty i)⟩
  intro i
  rw [hbits, bitAt_replicate bitsPerPart_pos, BitVec.getLsbD_zero, Bool.and_false]
  rfl

/-- The constructors that know the number of CPUs. -/
theorem post_make {c : CpuSetCtor} (hc : c ≠ .default) :
    Post A (c.make n) (fun s => SetOK n s.bits (c.members n)) := by
  cases c with
  | newFull =>
      apply post_fullSet
      show resize [] _ _ = _
      simp [resize]
  | newEmpty =>
      apply setOK_zero
      show resize [] _ _ = _
      simp [resize]
  | default => exact absurd rfl hc

theorem post_setPerform (h : SetOK n s.bits S) {op : CpuSetOp} (hop : op.Valid n) :
    Post A (s.perform n op) (fun s' => SetOK n s'.bits (op.apply n S)) := by
  cases op with
  | add id =>
      refine (post_setAdd s id).mono ?_
      rintro s' ⟨hlen, hbits⟩
      refine h.insert hop ?_ hbits
      have hlt := partIdx_lt_partsForCpus hop
      rw [hlen, h.length]
      omega
  | remove id =>
      show Post A (s.remove id) _
      unfold CpuSet.remove
      have hlt : partIdx id < s.bits.length := by
        rw [h.length]
        exact partIdx_lt_partsForCpus hop
      rw [if_pos hlt]
      refine Post.bind (post_getPart hlt) ?_
      intro part hpart
      exact h.erase List.length_set (fun i => bitAt_set_andNot bitsPerPart_pos hpart i)
  | addAll =>
      apply post_fullSet
      rw [List.map_const', h.length]
  | clear =>
      apply setOK_zero
      show s.bits.map _ = _
      rw [List.map_const', h.length]

theorem post_setPerformAll {ops : List CpuSetOp} : ∀ {s : CpuSet} {S : Finset ℕ},
    SetOK n s.bits S → (∀ op ∈ ops, op.Valid n) →
    Post A (s.performAll n ops) (fun s' => SetOK n s'.bits (ops.foldl (CpuSetOp.apply n) S)) := by
  induction ops with
  | nil =>
      intro s S h _
      exact h
  | cons op ops ih =>
      intro s S h hops
      refine Post.bind (post_setPerform h (hops op List.mem_cons_self)) ?_
      intro s' h'
      exact ih h' (fun op hop => hops op (List.mem_cons_of_mem _ hop))

/-- A set that is made without `Default`. -/
theorem post_build (hK : ¬K .default) {r : CpuSetRecipe}
    (hr : r.Valid K n) : Post A (r.build n) (fun s => SetOK n s.bits (r.members n)) := by
  refine Post.bind (post_make (fun hc => hK (hc ▸ hr.ctor))) ?_
  intro s h
  exact post_setPerformAll h hr.ops

/-! ## Atomic sets -/

theorem post_loadParts (ho : ordering ≠ .acqRel) :
    Post A (AtomicCpuSet.loadParts ordering bits) (fun bits' => bits' = bits) := by
  have hpart : ∀ part, loadPart ordering part = .ok part := by
    intro part
    cases ordering <;> first | rfl | exact absurd rfl ho
  induction bits with
  | nil => rfl
  | cons part parts ih =>
      rw [AtomicCpuSet.loadParts, hpart]
      show Post A (AtomicCpuSet.loadParts ordering parts >>= _) _
      refine Post.bind ih ?_
      rintro _ rfl
      rfl

theorem post_storeParts (ho : ordering ≠ .acquire)
    (ho' : ordering ≠ .acqRel) : ∀ {parts news : List InnerPart}, parts.length = news.length →
    Post A (AtomicCpuSet.storeParts ordering parts news) (fun bits' => bits' = news) := by
  have hpart : ∀ new, storePart ordering new = .ok new := by
    intro new
    cases ordering <;> first | rfl | exact absurd rfl ho | exact absurd rfl ho'
  intro parts
  induction parts with
  | nil =>
      intro news hlen
      exact (List.length_eq_zero_iff.mp hlen.symm).symm
  | cons part parts ih =>
      intro news hlen
      cases news with
      | nil => cases hlen
      | cons new news =>
          rw [AtomicCpuSet.storeParts, hpart]
          show Post A (AtomicCpuSet.storeParts ordering parts news >>= _) _
          refine Post.bind (ih (Nat.succ.inj hlen)) ?_
          rintro _ rfl
          rfl

theorem post_atomicPerform (hK : ¬K .default) {a : AtomicCpuSet}
    (h : SetOK n a.bits S) {op : AtomicOp} (hop : op.Valid K n) :
    Post A (a.perform n op) (fun a' => SetOK n a'.bits (op.apply n S)) := by
  cases op with
  | store r ordering =>
      obtain ⟨hr, ho, ho'⟩ := hop
      refine Post.bind (post_build hK hr) ?_
      intro value hvalue
      refine Post.bind (post_storeParts ho ho' (h.length.trans hvalue.length.symm)) ?_
      rintro _ rfl
      exact hvalue
  | add id =>
      show Post A (a.add id) _
      unfold AtomicCpuSet.add
      have hlt : partIdx id < a.bits.length := by
        rw [h.length]
        exact partIdx_lt_partsForCpus hop
      rw [if_pos hlt]
      refine Post.bind (post_getPart hlt) ?_
      intro part hpart
      exact h.insert hop List.length_set (fun i => bitAt_set_or bitsPerPart_pos hpart i)
  | remove id =>
      show Post A (a.remove id) _
      unfold AtomicCpuSet.remove
      have hlt : partIdx id < a.bits.length := by
        rw [h.length]
        exact partIdx_lt_partsForCpus hop
      rw [if_pos hlt]
      refine Post.bind (post_getPart hlt) ?_
      intro part hpart
      exact h.erase List.length_set (fun i => bitAt_set_andNot bitsPerPart_pos hpart i)

theorem post_atomicPerformAll (hK : ¬K .default) {ops : List AtomicOp} :
    ∀ {a : AtomicCpuSet} {S : Finset ℕ}, SetOK n a.bits S → (∀ op ∈ ops, op.Valid K n) →
    Post A (a.performAll n ops) (fun a' => SetOK n a'.bits (ops.foldl (AtomicOp.apply n) S)) := by
  induction ops with
  | nil =>
      intro a S h _
      exact h
  | cons op ops ih =>
      intro a S h hops
      refine Post.bind (post_atomicPerform hK h (hops op List.mem_cons_self)) ?_
      intro a' h'
      exact ih h' (fun op hop => hops op (List.mem_cons_of_mem _ hop))

theorem post_loadAfter (hK : ¬K .default) {r : CpuSetRecipe}
    (hr : r.Valid K n) {ops : List AtomicOp} (hops : ∀ op ∈ ops, op.Valid K n)
    (ho : ordering ≠ .acqRel) :
    Post A (loadAfter n r ops ordering) (fun s =>
      SetOK n s.bits (ops.foldl (AtomicOp.apply n) (r.members n))) := by
  refine Post.bind (post_build hK hr) ?_
  intro value hvalue
  refine Post.bind (post_atomicPerformAll hK (a := AtomicCpuSet.new value) hvalue hops) ?_
  intro a ha
  refine Post.bind (post_loadParts ho) ?_
  rintro _ rfl
  exact ha

/-! ## The questions -/

theorem SetOK.decide_test (h : SetOK n bits S) (hlt : partIdx id < bits.length) :
    decide (bits[partIdx id] &&& bitMask (bitIdx id) ≠ BitVec.ofNat bitsPerPart 0) =
      decide (id ∈ S) := by
  rw [decide_eq_decide, testBit_iff (List.getElem?_eq_getElem hlt), h.bit, decide_eq_true_iff]

theorem SetOK.notMem_of_le (h : SetOK n bits S) (hle : ¬partIdx id < bits.length) : id ∉ S := by
  have hbit := h.bit id
  rw [bitAt_of_le bitsPerPart_pos] at hbit
  · exact decide_eq_false_iff_not.mp hbit.symm
  · unfold partIdx bitsPerPart at hle
    unfold bitsPerPart
    omega

theorem SetOK.contains (h : SetOK n s.bits S) (id : ℕ) :
    s.contains id = .ok (decide (id ∈ S)) := by
  unfold CpuSet.contains
  by_cases hlt : partIdx id < s.bits.length
  · rw [if_pos hlt, List.getElem?_eq_getElem hlt]
    show Except.ok (decide _) = _
    rw [h.decide_test hlt]
  · rw [if_neg hlt, decide_eq_false (h.notMem_of_le hlt)]

/-- The members in increasing order are the set bits of the vector. -/
theorem SetOK.filter_eq (h : SetOK n bits S) :
    (List.range (bits.length * bitsPerPart)).filter (bitAt bits) = S.sort (· ≤ ·) := by
  apply eq_of_increasing
  · exact List.Pairwise.filter _ List.pairwise_lt_range
  · exact S.sortedLT_sort.pairwise
  · intro i
    rw [List.mem_filter, List.mem_range, Finset.mem_sort, h.bit, decide_eq_true_iff]
    constructor
    · exact fun hi => hi.2
    · intro hi
      refine ⟨?_, hi⟩
      have hlt := h.lt i hi
      have hmul := le_partsForCpus_mul n
      rw [h.length]
      omega

/-- A partial sum of the population counts. -/
theorem sum_take_succ {idx : ℕ} {part : InnerPart} (hpart : bits[idx]? = some part) :
    ((bits.take (idx + 1)).map (fun v => v.cpop.toNat)).sum =
      ((bits.take idx).map (fun v => v.cpop.toNat)).sum + part.cpop.toNat := by
  rw [List.take_add_one, hpart, List.map_append, List.sum_append]
  simp

theorem SetOK.count (h : SetOK n s.bits S) (hn : n < 2 ^ 32) : s.count = .ok S.card := by
  have htotal : (s.bits.map (fun v => v.cpop.toNat)).sum = S.card := by
    rw [sum_cpop_eq_countP bitsPerPart_pos, List.countP_eq_length_filter, h.filter_eq,
      Finset.length_sort]
  have hcard : S.card ≤ n := by
    have hsub : S ⊆ Finset.range n := fun i hi => Finset.mem_range.mpr (h.lt i hi)
    simpa using Finset.card_le_card hsub
  have hpost : Post (fun _ => False) s.count (fun c => c =
      ((s.bits.take (0 + s.bits.length)).map (fun v => v.cpop.toNat)).sum) := by
    refine post_forRange (fun idx c => c =
      ((s.bits.take idx).map (fun v => v.cpop.toNat)).sum) _ 0 0 rfl ?_
    rintro idx _ - hidx rfl
    rw [zero_add] at hidx
    refine Post.bind (post_unwrap (fun hnone => ?_)) ?_
    · rw [List.getElem?_eq_getElem hidx] at hnone
      cases hnone
    intro part hpart
    refine (post_add (fun hov => ?_)).mono ?_
    · -- the partial sums are bounded by the number of CPUs
      have hle : ((s.bits.take (idx + 1)).map (fun v => v.cpop.toNat)).sum ≤
          (s.bits.map (fun v => v.cpop.toNat)).sum :=
        List.Sublist.sum_le_sum ((List.take_sublist _ _).map _) (fun _ _ => Nat.zero_le _)
      rw [sum_take_succ hpart, htotal] at hle
      omega
    · rintro _ ⟨rfl, -⟩
      exact (sum_take_succ hpart).symm
  obtain ⟨c, hc, hsum⟩ := hpost.exists_ok
  rw [hc, hsum, zero_add, List.take_length, htotal]

theorem SetOK.isEmpty (h : SetOK n s.bits S) : s.isEmpty = decide (S = ∅) := by
  rw [Bool.eq_iff_iff, decide_eq_true_iff, CpuSet.isEmpty, List.all_eq_true]
  simp only [beq_iff_eq]
  rw [all_zero_iff bitsPerPart_pos, Finset.eq_empty_iff_forall_notMem]
  constructor
  · intro hz i hi
    have hbit := hz i
    rw [h.bit, decide_eq_false_iff_not] at hbit
    exact hbit hi
  · intro hempty i
    rw [h.bit, decide_eq_false_iff_not]
    exact hempty i

/-- The word that `is_full` expects at an index. -/
def expectedPart (numCpus len idx : ℕ) : InnerPart :=
  if idx = len - 1 ∧ numCpus % bitsPerPart ≠ 0
  then bitMask (numCpus % bitsPerPart) - BitVec.ofNat bitsPerPart 1
  else ~~~(BitVec.ofNat bitsPerPart 0)

theorem getLsbD_expectedPart {idx j : ℕ} (hidx : idx < partsForCpus n) (hj : j < bitsPerPart) :
    (expectedPart n (partsForCpus n) idx).getLsbD j = decide (idx * bitsPerPart + j < n) := by
  unfold expectedPart
  by_cases hlast : idx = partsForCpus n - 1 ∧ n % bitsPerPart ≠ 0
  · rw [if_pos hlast, bitMask, getLsbD_lowMask (Nat.mod_lt _ bitsPerPart_pos), decide_eq_decide]
    unfold partsForCpus bitsPerPart at *
    omega
  · rw [if_neg hlast, getLsbD_ones, decide_eq_decide]
    unfold partsForCpus bitsPerPart at *
    omega

theorem isFullLoop_eq (s : CpuSet) (k : ℕ) : ∀ idx, idx + k = s.bits.length →
    s.isFullLoop n k idx = .ok (decide (∀ j (hj : j < s.bits.length), idx ≤ j →
      s.bits[j] = expectedPart n s.bits.length j)) := by
  induction k with
  | zero =>
      intro idx hidx
      rw [CpuSet.isFullLoop]
      congr 1
      rw [eq_comm, decide_eq_true_iff]
      intro j hj hle
      omega
  | succ k ih =>
      intro idx hidx
      have hlt : idx < s.bits.length := by omega
      have hsub : Exec.sub s.bits.length 1 = .ok (s.bits.length - 1) := if_pos (by omega)
      rw [CpuSet.isFullLoop, hsub, List.getElem?_eq_getElem hlt]
      show (if s.bits[idx] ≠ expectedPart n s.bits.length idx then _ else _) = _
      by_cases hpart : s.bits[idx] = expectedPart n s.bits.length idx
      · rw [if_neg (not_not.mpr hpart), ih (idx + 1) (by omega)]
        congr 1
        rw [decide_eq_decide]
        constructor
        · intro hall j hj hle
          rcases Nat.eq_or_lt_of_le hle with rfl | hle
          · exact hpart
          · exact hall j hj hle
        · intro hall j hj hle
          exact hall j hj (by omega)
      · rw [if_pos hpart]
        congr 1
        rw [eq_comm, decide_eq_false_iff_not]
        intro hall
        exact hpart (hall idx hlt le_rfl)

theorem SetOK.isFull (h : SetOK n s.bits S) :
    s.isFull n = .ok (decide (S = Finset.range n)) := by
  have hlen := h.length
  rw [CpuSet.isFull, isFullLoop_eq s _ 0 (Nat.zero_add _)]
  congr 1
  rw [decide_eq_decide]
  constructor
  · -- each bit of each word is as expected
    intro hall
    ext i
    rw [Finset.mem_range]
    by_cases hi : i < s.bits.length * bitsPerPart
    · have hidx := div_lt_length hi
      have hword := hall (i / bitsPerPart) hidx (Nat.zero_le _)
      have hbit := h.bit i
      rw [bitAt_of_getElem? (List.getElem?_eq_getElem hidx), hword, hlen,
        getLsbD_expectedPart (hlen ▸ hidx) (Nat.mod_lt _ bitsPerPart_pos), Nat.mul_comm,
        Nat.div_add_mod, decide_eq_decide] at hbit
      exact hbit.symm
    · have hmul := le_partsForCpus_mul n
      rw [← hlen] at hmul
      constructor
      · exact fun hmem => h.lt i hmem
      · intro hlt
        omega
  · rintro rfl j hj -
    apply BitVec.eq_of_getLsbD_eq
    intro b hb
    have hbit := h.bit (j * bitsPerPart + b)
    rw [bitAt_mul_add (List.getElem?_eq_getElem hj) hb] at hbit
    rw [hbit, hlen, getLsbD_expectedPart (hlen ▸ hj) hb, decide_eq_decide, Finset.mem_range]

theorem SetOK.iter (h : SetOK n s.bits S) (hn : n < 2 ^ 32) :
    s.iter = .ok (S.sort (· ≤ ·)) := by
  have hpost : Post (fun _ => False) s.iter (fun l => l =
      (List.range (0 + s.bits.length * bitsPerPart)).filter (bitAt s.bits)) := by
    refine post_forRange (fun i l => l = (List.range i).filter (bitAt s.bits)) _ 0 [] rfl ?_
    rintro i _ - hi rfl
    rw [zero_add] at hi
    refine Post.bind (post_getPart (div_lt_length hi)) ?_
    intro part hpart
    rw [List.range_succ, List.filter_append]
    refine post_ite ?_ ?_
    · intro hbit
      have hset := (testBit_iff hpart).mp hbit
      have hmem : i ∈ S := by
        rw [h.bit, decide_eq_true_iff] at hset
        exact hset
      have hlt := h.lt i hmem
      show _ ++ [i % 2 ^ 32] = _
      rw [Nat.mod_eq_of_lt (by omega), List.filter_cons_of_pos hset, List.filter_nil]
    · intro hbit
      have hunset : ¬bitAt s.bits i = true := fun hset => hbit ((testBit_iff hpart).mpr hset)
      show _ = _
      rw [List.filter_cons_of_neg hunset, List.filter_nil, List.append_nil]
  obtain ⟨l, hl, hfilter⟩ := hpost.exists_ok
  rw [hl, hfilter, zero_add, h.filter_eq]

/-- **A vector with the invariant answers as its set.** -/
theorem SetOK.behavesAs (h : SetOK n s.bits S) (hn : n < 2 ^ 32) : s.BehavesAs n S where
  contains := fun id _ => h.contains id
  count := h.count hn
  isEmpty := h.isEmpty
  isFull := h.isFull
  iter := h.iter hn

end

/-! ## Programs -/

/-- All sets, atomic or not, that a program with the constructors `K` makes, behave as the
mathematical sets. -/
structure SetsBehave (K : CpuSetCtor → Prop) (numCpus : ℕ) : Prop where
  sets : ∀ r : CpuSetRecipe, r.Valid K numCpus →
    ∃ s, r.build numCpus = .ok s ∧ s.BehavesAs numCpus (r.members numCpus)
  atomicSets : ∀ (r : CpuSetRecipe) (ops : List AtomicOp) (ordering : AtomicOrdering),
    r.Valid K numCpus → (∀ op ∈ ops, op.Valid K numCpus) → ordering ≠ .acqRel →
    ∃ s, loadAfter numCpus r ops ordering = .ok s ∧
      s.BehavesAs numCpus (ops.foldl (AtomicOp.apply numCpus) (r.members numCpus))

/-- The set of `Default` is empty, and `is_full` takes it for the full one. -/
theorem not_behavesAs_default {n : ℕ} (hn : 0 < n) : ¬CpuSet.default.BehavesAs n ∅ := by
  intro h
  have hfull : (Except.ok true : Except Fault Bool) = .ok (decide (∅ = Finset.range n)) := h.isFull
  have hempty : ∅ = Finset.range n := decide_eq_true_iff.mp (Except.ok.inj hfull).symm
  have hmem : 0 ∈ Finset.range n := Finset.mem_range.mpr hn
  rw [← hempty] at hmem
  exact Finset.notMem_empty 0 hmem

/-- **CPU sets.**  Whatever the number of CPUs, the sets of a program behave as
mathematical sets exactly when the program does not use `Default`. -/
theorem sets_behave_iff {n : ℕ} (hn : 0 < n) (hn32 : n < 2 ^ 32) (K : CpuSetCtor → Prop) :
    SetsBehave K n ↔ ¬K .default := by
  constructor
  · intro h hK
    obtain ⟨s, hs, hbehaves⟩ := h.sets ⟨.default, []⟩
      ⟨hK, fun op hop => absurd hop List.not_mem_nil⟩
    cases hs
    exact not_behavesAs_default hn hbehaves
  · intro hK
    constructor
    · intro r hr
      obtain ⟨s, hs, hok⟩ := (post_build hK hr).exists_ok
      exact ⟨s, hs, hok.behavesAs hn32⟩
    · intro r ops ordering hr hops ho
      obtain ⟨s, hs, hok⟩ := (post_loadAfter hK hr hops ho).exists_ok
      exact ⟨s, hs, hok.behavesAs hn32⟩

/-- A machine with 99 CPUs, and a program that uses `new_full` and `new_empty`. -/
theorem sets_behave_sample : SetsBehave (fun c => c ≠ .default) 99 :=
  (sets_behave_iff (by decide) (by decide) _).mpr (fun h => h rfl)

/-- With four CPUs, the default set is empty and yet full, and adding all CPUs to it
panics; an atomic set that is made from it does not take up the CPU that is added. -/
theorem default_set_fails :
    CpuSet.default.count = .ok 0 ∧ CpuSet.default.isFull 4 = .ok true ∧
    CpuSet.default.addAll 4 = .error .assertion ∧
    loadAfter 4 ⟨.default, []⟩ [.add 1] .relaxed = .ok ⟨[]⟩ ∧
    ¬SetsBehave (fun _ => True) 4 := by
  refine ⟨rfl, rfl, rfl, rfl, ?_⟩
  intro h
  obtain ⟨s, hs, hbehaves⟩ := h.sets ⟨.default, []⟩
    ⟨trivial, fun op hop => absurd hop List.not_mem_nil⟩
  cases hs
  exact not_behavesAs_default (by decide) hbehaves

end Vostd
