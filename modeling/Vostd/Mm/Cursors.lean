/-
# Readers and writers of memory

`VmReader` and `VmWriter` of `mm/io.rs` are ranges of memory with a cursor: what was read or
written lies before the cursor.  The infallible operations are for kernel memory.  The fallible
ones also work on user memory, where a page may be missing; they stop there, and report how far
they came.  An operation on one value puts the cursor back in that case.

A machine is a memory together with the addresses that can be accessed without a page fault.  The
copy routines of the architecture are assembly on x86 and plain copies on RISC-V and LoongArch.
They are a parameter of the model, and `CopyRoutines.Documented` is what is said about them where
they are declared.
-/
import Vostd.Lib.Memory
import Vostd.Mm.WriteVals

namespace Vostd.MemIo

open Exec VmIo

/-! ## The code -/

inductive Error
  | invalidArgs
  | accessDenied
  | pageFault
  deriving DecidableEq, Repr

/-- `MAX_USERSPACE_VADDR`. -/
def MAX_USERSPACE_VADDR : ℕ := 0x0000800000000000 - PAGE_SIZE

def wrappingAdd (a n : ℕ) : ℕ := (a + n) % 2 ^ 64

/-- The memory, and where it can be accessed. -/
structure Machine where
  mem : Memory
  accessible : ℕ → Bool

/-- The routines of the architecture, `__memcpy_fallible` and `__memset_fallible`: what they leave
behind, and the number of bytes that failed.  A local value of the kernel is not in the memory of
the model, so the copy stands here by which side of it is: both, the destination, or the source. -/
structure CopyRoutines where
  memcpy : Machine → ℕ → ℕ → ℕ → Memory × ℕ
  memcpyFrom : Machine → ℕ → List UInt8 → Memory × ℕ
  memcpyTo : Machine → ℕ → ℕ → List UInt8 × ℕ
  memset : Machine → ℕ → UInt8 → ℕ → Memory × ℕ

namespace CopyRoutines

/-- `memcpy_fallible`; it returns the number of bytes that were copied. -/
def memcpyFallible (A : CopyRoutines) (m : Machine) (dst src len : ℕ) : Memory × ℕ :=
  let r := A.memcpy m dst src len
  (r.1, len - r.2)

/-- `memcpy_fallible` from a local value. -/
def memcpyFallibleFrom (A : CopyRoutines) (m : Machine) (dst : ℕ) (val : List UInt8) : Memory × ℕ :=
  let r := A.memcpyFrom m dst val
  (r.1, val.length - r.2)

/-- `memcpy_fallible` to a local buffer. -/
def memcpyFallibleTo (A : CopyRoutines) (m : Machine) (src len : ℕ) : List UInt8 × ℕ :=
  let r := A.memcpyTo m src len
  (r.1, len - r.2)

/-- `memset_fallible`. -/
def memsetFallible (A : CopyRoutines) (m : Machine) (dst : ℕ) (value : UInt8) (len : ℕ) :
    Memory × ℕ :=
  let r := A.memset m dst value len
  (r.1, len - r.2)

end CopyRoutines

/-- What readers and writers have in common: a range of memory with a cursor. -/
structure Window where
  cursor : ℕ
  stop : ℕ
  deriving DecidableEq, Repr

namespace Window

/-- `from_kernel_space`, `from_user_space`. -/
def fromSpace (ptr len : ℕ) : Window := ⟨ptr, wrappingAdd ptr len⟩

/-- `remain` of a reader, `avail` of a writer. -/
def left (v : Window) : ℕ := v.stop - v.cursor

def limit (v : Window) (max : ℕ) : Window :=
  if max < v.left then { v with stop := wrappingAdd v.cursor max } else v

def skip (v : Window) (nbytes : ℕ) : Exec Window := do
  check (nbytes ≤ v.left)
  .ok { v with cursor := wrappingAdd v.cursor nbytes }

end Window

structure VmReader extends Window
  deriving DecidableEq, Repr

structure VmWriter extends Window
  deriving DecidableEq, Repr

namespace VmWriter

def fromSpace (ptr len : ℕ) : VmWriter := ⟨.fromSpace ptr len⟩

def avail (w : VmWriter) : ℕ := w.left

def limit (w : VmWriter) (maxAvail : ℕ) : VmWriter := ⟨w.toWindow.limit maxAvail⟩

def skip (w : VmWriter) (nbytes : ℕ) : Exec VmWriter := do
  let v ← w.toWindow.skip nbytes
  .ok ⟨v⟩

/-- `write_val` of an infallible writer. -/
def writeVal (mem : Memory) (w : VmWriter) (val : List UInt8) :
    Except Error Unit × Memory × VmWriter :=
  if w.avail < val.length then (.error .invalidArgs, mem, w)
  else (.ok (), mem.store w.cursor val, { w with cursor := wrappingAdd w.cursor val.length })

/-- The loop of `fill`. -/
def fillLoop (val : List UInt8) : ℕ → Memory → ℕ → Memory
  | 0, mem, _ => mem
  | n + 1, mem, cursor => fillLoop val n (mem.store cursor val) (wrappingAdd cursor val.length)

/-- `fill`; `align` is the alignment of the value's type. -/
def fill (mem : Memory) (w : VmWriter) (align : ℕ) (val : List UInt8) :
    Exec (ℕ × Memory × VmWriter) := do
  check (w.cursor % align = 0)
  -- the remainder by zero is a panic, too
  check (val.length ≠ 0 ∧ w.avail % val.length = 0)
  .ok (w.avail / val.length, fillLoop val (w.avail / val.length) mem w.cursor,
    { w with cursor := w.stop })

/-- `write_once`; `align` is the alignment of the value's type. -/
def writeOnce (mem : Memory) (w : VmWriter) (align : ℕ) (val : List UInt8) :
    Exec (Except Error Unit × Memory × VmWriter) :=
  if w.avail < val.length then .ok (.error .invalidArgs, mem, w)
  else do
    check (w.cursor % align = 0)
    .ok (.ok (), mem.store w.cursor val, { w with cursor := wrappingAdd w.cursor val.length })

/-- `write_val` of a fallible writer. -/
def writeValFallible (A : CopyRoutines) (m : Machine) (w : VmWriter) (val : List UInt8) :
    Except Error Unit × Memory × VmWriter :=
  if w.avail < val.length then (.error .invalidArgs, m.mem, w)
  else
    let r := A.memcpyFallibleFrom m w.cursor val
    let w' : VmWriter := { w with cursor := wrappingAdd w.cursor r.2 }
    if r.2 < val.length then (.error .pageFault, r.1, { w' with cursor := w'.cursor - r.2 })
    else (.ok (), r.1, w')

def fillZeros (A : CopyRoutines) (m : Machine) (w : VmWriter) (len : ℕ) :
    Except (Error × ℕ) ℕ × Memory × VmWriter :=
  let lenToSet := min w.avail len
  if lenToSet = 0 then (.ok 0, m.mem, w)
  else
    let r := A.memsetFallible m w.cursor 0 lenToSet
    let w' : VmWriter := { w with cursor := wrappingAdd w.cursor r.2 }
    if r.2 < lenToSet then (.error (.pageFault, r.2), r.1, w') else (.ok lenToSet, r.1, w')

end VmWriter

namespace VmReader

def fromSpace (ptr len : ℕ) : VmReader := ⟨.fromSpace ptr len⟩

def remain (r : VmReader) : ℕ := r.left

def limit (r : VmReader) (maxRemain : ℕ) : VmReader := ⟨r.toWindow.limit maxRemain⟩

def skip (r : VmReader) (nbytes : ℕ) : Exec VmReader := do
  let v ← r.toWindow.skip nbytes
  .ok ⟨v⟩

/-- `read` of an infallible reader, which is also `VmWriter::write`. -/
def read (mem : Memory) (r : VmReader) (w : VmWriter) : ℕ × Memory × VmReader × VmWriter :=
  let copyLen := min r.remain w.avail
  if copyLen = 0 then (0, mem, r, w)
  else
    (copyLen, mem.store w.cursor (mem.load r.cursor copyLen),
      { r with cursor := wrappingAdd r.cursor copyLen },
      { w with cursor := wrappingAdd w.cursor copyLen })

/-- `read_fallible`, which is also `write_fallible`. -/
def readFallible (A : CopyRoutines) (m : Machine) (r : VmReader) (w : VmWriter) :
    Except (Error × ℕ) ℕ × Memory × VmReader × VmWriter :=
  let copyLen := min r.remain w.avail
  if copyLen = 0 then (.ok 0, m.mem, r, w)
  else
    let c := A.memcpyFallible m w.cursor r.cursor copyLen
    let r' : VmReader := { r with cursor := wrappingAdd r.cursor c.2 }
    let w' : VmWriter := { w with cursor := wrappingAdd w.cursor c.2 }
    if c.2 < copyLen then (.error (.pageFault, c.2), c.1, r', w') else (.ok c.2, c.1, r', w')

/-- `read_val` of an infallible reader. -/
def readVal (mem : Memory) (r : VmReader) (len : ℕ) : Except Error (List UInt8) × VmReader :=
  if r.remain < len then (.error .invalidArgs, r)
  else (.ok (mem.load r.cursor len), { r with cursor := wrappingAdd r.cursor len })

/-- `read_once`; `align` is the alignment of the value's type. -/
def readOnce (mem : Memory) (r : VmReader) (align len : ℕ) :
    Exec (Except Error (List UInt8) × VmReader) :=
  if r.remain < len then .ok (.error .invalidArgs, r)
  else do
    check (r.cursor % align = 0)
    .ok (.ok (mem.load r.cursor len), { r with cursor := wrappingAdd r.cursor len })

/-- The copy of `len` bytes into a buffer, and the cursor put back when it fails. -/
def readOut (A : CopyRoutines) (m : Machine) (r : VmReader) (len : ℕ) :
    Except Error (List UInt8) × VmReader :=
  let c := A.memcpyFallibleTo m r.cursor len
  let r' : VmReader := { r with cursor := wrappingAdd r.cursor c.2 }
  if c.2 < len then (.error .pageFault, { r' with cursor := r'.cursor - c.2 }) else (.ok c.1, r')

/-- `read_val` of a fallible reader. -/
def readValFallible (A : CopyRoutines) (m : Machine) (r : VmReader) (len : ℕ) :
    Except Error (List UInt8) × VmReader :=
  if r.remain < len then (.error .invalidArgs, r) else readOut A m r len

def collect (A : CopyRoutines) (m : Machine) (r : VmReader) :
    Except Error (List UInt8) × VmReader :=
  readOut A m r r.remain

end VmReader

/-- The checks of `VmSpace::reader` and `VmSpace::writer`: the page table is the active one, and
the range is in user space. -/
def checkUserRange (current root vaddr len : ℕ) : Except Error Unit :=
  if current ≠ root then .error .accessDenied
  else if (if vaddr + len < 2 ^ 64 then vaddr + len else 2 ^ 64 - 1) > MAX_USERSPACE_VADDR then
    .error .accessDenied
  else .ok ()

/-- `VmSpace::reader`. -/
def userReader (current root vaddr len : ℕ) : Except Error VmReader := do
  checkUserRange current root vaddr len
  .ok (VmReader.fromSpace vaddr len)

/-- `VmSpace::writer`. -/
def userWriter (current root vaddr len : ℕ) : Except Error VmWriter := do
  checkUserRange current root vaddr len
  .ok (VmWriter.fromSpace vaddr len)

/-! ## What the operations do -/

theorem wrappingAdd_eq {a n b : ℕ} (h : a + n ≤ b) (hb : b < 2 ^ 64) : wrappingAdd a n = a + n :=
  Nat.mod_eq_of_lt (Nat.lt_of_le_of_lt h hb)

/-- **What is documented of a routine** for `len` bytes at `dst`: it leaves the rest of the memory
alone, and all bytes but those it reports as failed, which are the last ones, are as they should
be. -/
structure Fills (mem : Memory) (dst len : ℕ) (good : ℕ → UInt8 → Prop) (res : Memory × ℕ) :
    Prop where
  failed_le : res.2 ≤ len
  outside : ∀ x, x < dst ∨ dst + len ≤ x → res.1 x = mem x
  inside : ∀ j, j < len - res.2 → good j (res.1 (dst + j))

/-- The routines do what is documented; nothing is said about the bytes of ranges that overlap. -/
structure CopyRoutines.Documented (A : CopyRoutines) : Prop where
  memcpy : ∀ m dst src len, Fills m.mem dst len
    (fun j b => Memory.Apart dst len src len → b = m.mem (src + j)) (A.memcpy m dst src len)
  memcpyFrom : ∀ m dst val, Fills m.mem dst val.length (fun j b => val[j]? = some b)
    (A.memcpyFrom m dst val)
  memcpyTo_failed_le : ∀ m src len, (A.memcpyTo m src len).2 ≤ len
  memcpyTo_length : ∀ m src len, (A.memcpyTo m src len).1.length = len
  memcpyTo : ∀ m src len j, j < len - (A.memcpyTo m src len).2 →
    (A.memcpyTo m src len).1[j]? = some (m.mem (src + j))
  memset : ∀ m dst value len, Fills m.mem dst len (fun _ b => b = value) (A.memset m dst value len)

/-- A copy without a failed byte is a store. -/
theorem Fills.eq_store {mem : Memory} {dst : ℕ} {val : List UInt8} {res : Memory × ℕ}
    (h : Fills mem dst val.length (fun j b => val[j]? = some b) res) (hres : res.2 = 0) :
    res.1 = mem.store dst val := by
  funext x
  by_cases hx : x < dst ∨ dst + val.length ≤ x
  · rw [h.outside x hx, Memory.store_of_not_mem hx]
  · obtain ⟨j, rfl⟩ : ∃ j, x = dst + j := ⟨x - dst, by omega⟩
    have hj : j < val.length := by omega
    have hbyte := h.inside j (by omega)
    rw [List.getElem?_eq_getElem hj] at hbyte
    rw [Memory.store_add hj]
    exact (Option.some.inj hbyte).symm

/-- A range that is checked lies in user space. -/
theorem checkUserRange_eq_ok {current root vaddr len : ℕ} {u : Unit}
    (h : checkUserRange current root vaddr len = .ok u) : vaddr + len ≤ MAX_USERSPACE_VADDR := by
  unfold checkUserRange at h
  by_cases hroot : current ≠ root
  · rw [if_pos hroot] at h
    cases h
  rw [if_neg hroot] at h
  by_cases hgt : (if vaddr + len < 2 ^ 64 then vaddr + len else 2 ^ 64 - 1) > MAX_USERSPACE_VADDR
  · rw [if_pos hgt] at h
    cases h
  by_cases hlt : vaddr + len < 2 ^ 64
  · rw [if_pos hlt] at hgt
    omega
  · rw [if_neg hlt] at hgt
    exact absurd (by decide : 2 ^ 64 - 1 > MAX_USERSPACE_VADDR) hgt

namespace Window

variable {v v' : Window}

/-- The cursor is in the range, and the range is one of machine addresses. -/
structure Valid (v : Window) : Prop where
  cursor_le : v.cursor ≤ v.stop
  stop_lt : v.stop < 2 ^ 64

/-- The cursor has moved on by `n` bytes. -/
structure Moves (v : Window) (n : ℕ) (v' : Window) : Prop where
  le : v.cursor + n ≤ v.stop
  cursor_eq : v'.cursor = v.cursor + n
  stop_eq : v'.stop = v.stop

/-- Memory changes only between the cursor and the end. -/
def WritesIn (v : Window) (mem mem' : Memory) : Prop :=
  ∀ x, x < v.cursor ∨ v.stop ≤ x → mem' x = mem x

theorem Valid.moves (h : v.Valid) {n : ℕ} (hn : n ≤ v.left) :
    v.Moves n { v with cursor := wrappingAdd v.cursor n } := by
  have hle : v.cursor + n ≤ v.stop := by
    have := h.cursor_le
    unfold left at hn
    omega
  exact ⟨hle, wrappingAdd_eq hle h.stop_lt, rfl⟩

theorem Valid.stays (h : v.Valid) : v.Moves 0 v := ⟨h.cursor_le, rfl, rfl⟩

theorem Valid.limit (h : v.Valid) (n : ℕ) :
    (v.limit n).cursor = v.cursor ∧ v.cursor ≤ (v.limit n).stop ∧ (v.limit n).stop ≤ v.stop := by
  unfold Window.limit
  by_cases hn : n < v.left
  · rw [if_pos hn]
    have hmoves := (h.moves hn.le).cursor_eq
    have hle := (h.moves hn.le).le
    refine ⟨rfl, ?_, ?_⟩
    · show v.cursor ≤ wrappingAdd v.cursor n
      rw [show wrappingAdd v.cursor n = _ from hmoves]
      exact Nat.le_add_right _ _
    · show wrappingAdd v.cursor n ≤ v.stop
      rw [show wrappingAdd v.cursor n = _ from hmoves]
      exact hle
  · rw [if_neg hn]
    exact ⟨rfl, h.cursor_le, le_rfl⟩

theorem Valid.skip (h : v.Valid) {n : ℕ} (hskip : v.skip n = .ok v') : v.Moves n v' := by
  obtain ⟨_, hcheck, hv'⟩ := bind_eq_ok.mp hskip
  cases hv'
  exact h.moves (check_eq_ok.mp hcheck)

end Window

namespace VmReader

variable {r : VmReader}

/-- An operation on one value returns the bytes and moves on, or fails with the reader where it
was. -/
def ReadsOne (mem : Memory) (r : VmReader) (len : ℕ) (res : Except Error (List UInt8) × VmReader) :
    Prop :=
  (∃ e, res = (.error e, r)) ∨
    ∃ r', res = (.ok (mem.load r.cursor len), r') ∧ r.Moves len r'.toWindow

theorem readsOne_readVal (h : r.Valid) (mem : Memory) (len : ℕ) :
    ReadsOne mem r len (r.readVal mem len) := by
  unfold readVal
  by_cases hlen : r.remain < len
  · rw [if_pos hlen]
    exact Or.inl ⟨_, rfl⟩
  · rw [if_neg hlen]
    exact Or.inr ⟨_, rfl, h.moves (not_lt.mp hlen)⟩

/-- A copy into a buffer is made as a whole, or the reader is left where it was. -/
theorem readsOne_readOut (h : r.Valid) {A : CopyRoutines} (hA : A.Documented)
    (m : Machine) {len : ℕ}
    (hlen : len ≤ r.remain) : ReadsOne m.mem r len (r.readOut A m len) := by
  have hle := hA.memcpyTo_failed_le m r.cursor len
  have hlength := hA.memcpyTo_length m r.cursor len
  have hbytes := hA.memcpyTo m r.cursor len
  unfold readOut CopyRoutines.memcpyFallibleTo
  generalize A.memcpyTo m r.cursor len = c at *
  obtain ⟨bytes, failed⟩ := c
  simp only at hle hlength hbytes ⊢
  have hmoves := h.moves (show len - failed ≤ r.left from (Nat.sub_le _ _).trans hlen)
  by_cases hn : len - failed < len
  · left
    rw [if_pos hn, show wrappingAdd r.cursor (len - failed) = _ from hmoves.cursor_eq,
      Nat.add_sub_cancel]
    exact ⟨_, rfl⟩
  · right
    rw [show len - failed = len by omega] at hmoves hbytes
    have heq : bytes = m.mem.load r.cursor len := by
      apply List.ext_getElem?
      intro j
      by_cases hj : j < len
      · rw [hbytes j hj, Memory.getElem?_load hj]
      · rw [List.getElem?_eq_none (by omega),
          List.getElem?_eq_none (by rw [Memory.length_load]; omega)]
    rw [if_neg hn, heq, show len - failed = len by omega]
    exact ⟨_, rfl, hmoves⟩

theorem readsOne_readValFallible (h : r.Valid) {A : CopyRoutines} (hA : A.Documented) (m : Machine)
    (len : ℕ) : ReadsOne m.mem r len (r.readValFallible A m len) := by
  unfold readValFallible
  by_cases hlen : r.remain < len
  · rw [if_pos hlen]
    exact Or.inl ⟨_, rfl⟩
  · rw [if_neg hlen]
    exact readsOne_readOut h hA m (not_lt.mp hlen)

theorem readsOne_readOnce (h : r.Valid) {mem : Memory} {align len : ℕ}
    {res : Except Error (List UInt8) × VmReader} (hread : r.readOnce mem align len = .ok res) :
    ReadsOne mem r len res := by
  unfold readOnce at hread
  by_cases hlen : r.remain < len
  · rw [if_pos hlen] at hread
    cases hread
    exact Or.inl ⟨_, rfl⟩
  · rw [if_neg hlen] at hread
    obtain ⟨_, -, hres⟩ := bind_eq_ok.mp hread
    cases hres
    exact Or.inr ⟨_, rfl, h.moves (not_lt.mp hlen)⟩

end VmReader

theorem store_nil (mem : Memory) (a : ℕ) : mem.store a [] = mem := by
  funext x
  exact Memory.store_of_not_mem (by rw [List.length_nil]; omega)

namespace VmWriter

variable {w : VmWriter}

/-- An operation on one value writes it as a whole and moves on, or fails with the writer where it
was; what was written of the value before a fault stays in memory. -/
def WritesOne (mem : Memory) (w : VmWriter) (val : List UInt8)
    (res : Except Error Unit × Memory × VmWriter) : Prop :=
  (∃ e mem', res = (.error e, mem', w) ∧ w.WritesIn mem mem') ∨
    ∃ w', res = (.ok (), mem.store w.cursor val, w') ∧ w.Moves val.length w'.toWindow

theorem writesOne_writeVal (h : w.Valid) (mem : Memory) (val : List UInt8) :
    WritesOne mem w val (w.writeVal mem val) := by
  unfold writeVal
  by_cases hlen : w.avail < val.length
  · rw [if_pos hlen]
    exact Or.inl ⟨_, _, rfl, fun _ _ => rfl⟩
  · rw [if_neg hlen]
    exact Or.inr ⟨_, rfl, h.moves (not_lt.mp hlen)⟩

theorem writesOne_writeOnce (h : w.Valid) {mem : Memory} {align : ℕ} {val : List UInt8}
    {res : Except Error Unit × Memory × VmWriter} (hwrite : w.writeOnce mem align val = .ok res) :
    WritesOne mem w val res := by
  unfold writeOnce at hwrite
  by_cases hlen : w.avail < val.length
  · rw [if_pos hlen] at hwrite
    cases hwrite
    exact Or.inl ⟨_, _, rfl, fun _ _ => rfl⟩
  · rw [if_neg hlen] at hwrite
    obtain ⟨_, -, hres⟩ := bind_eq_ok.mp hwrite
    cases hres
    exact Or.inr ⟨_, rfl, h.moves (not_lt.mp hlen)⟩

theorem writesOne_writeValFallible (h : w.Valid) {A : CopyRoutines}
    (hA : A.Documented) (m : Machine)
    (val : List UInt8) : WritesOne m.mem w val (w.writeValFallible A m val) := by
  have hfills := hA.memcpyFrom m w.cursor val
  unfold writeValFallible CopyRoutines.memcpyFallibleFrom
  by_cases hlen : w.avail < val.length
  · rw [if_pos hlen]
    exact Or.inl ⟨_, _, rfl, fun _ _ => rfl⟩
  · rw [if_neg hlen]
    have hfits : val.length ≤ w.left := not_lt.mp hlen
    generalize A.memcpyFrom m w.cursor val = c at *
    obtain ⟨mem, failed⟩ := c
    have hle := hfills.failed_le
    have hall := (h.moves hfits).le
    simp only at hle ⊢
    have hmoves := h.moves ((Nat.sub_le val.length failed).trans hfits)
    by_cases hn : val.length - failed < val.length
    · left
      rw [if_pos hn, show wrappingAdd w.cursor (val.length - failed) = _ from hmoves.cursor_eq,
        Nat.add_sub_cancel]
      exact ⟨.pageFault, mem, rfl, fun x hx => hfills.outside x (by omega)⟩
    · right
      have hstore : mem = m.mem.store w.cursor val := hfills.eq_store (by simp only; omega)
      rw [show val.length - failed = val.length by omega] at hmoves
      rw [if_neg hn, hstore, show val.length - failed = val.length by omega]
      exact ⟨_, rfl, hmoves⟩

theorem fillZeros_spec (h : w.Valid) {A : CopyRoutines} (hA : A.Documented)
    (m : Machine) (len : ℕ) :
    ∃ res n mem w', w.fillZeros A m len = (res, mem, w') ∧ w.Moves n w'.toWindow ∧
      w.WritesIn m.mem mem ∧ (∀ j, j < n → mem (w.cursor + j) = 0) ∧
      (res = .ok n ∨ res = .error (.pageFault, n)) := by
  have hfills := hA.memset m w.cursor 0 (min w.avail len)
  unfold fillZeros CopyRoutines.memsetFallible
  by_cases hzero : min w.avail len = 0
  · simp only [if_pos hzero]
    exact ⟨_, 0, m.mem, w, rfl, h.stays, fun _ _ => rfl, fun j hj => absurd hj (Nat.not_lt_zero j),
      Or.inl rfl⟩
  · simp only [if_neg hzero]
    generalize A.memset m w.cursor 0 (min w.avail len) = c at *
    obtain ⟨mem, failed⟩ := c
    have hle := hfills.failed_le
    have hfits : min w.avail len ≤ w.left := Nat.min_le_left w.avail len
    have hall := (h.moves hfits).le
    simp only at hle ⊢
    have hmoves := h.moves ((Nat.sub_le _ failed).trans hfits)
    by_cases hn : min w.avail len - failed < min w.avail len
    · rw [if_pos hn]
      exact ⟨_, _, mem, _, rfl, hmoves, fun x hx => hfills.outside x (by omega), hfills.inside,
        Or.inr rfl⟩
    · rw [if_neg hn]
      exact ⟨_, _, mem, _, rfl, hmoves, fun x hx => hfills.outside x (by omega), hfills.inside,
        Or.inl (by rw [show min w.avail len - failed = min w.avail len by omega])⟩

theorem fillLoop_eq (val : List UInt8) {stop : ℕ} (hstop : stop < 2 ^ 64) (n : ℕ) (mem : Memory)
    (cursor : ℕ) (h : cursor + n * val.length ≤ stop) :
    fillLoop val n mem cursor = mem.store cursor (List.replicate n val).flatten := by
  induction n generalizing mem cursor with
  | zero => exact (store_nil mem cursor).symm
  | succ n ih =>
    rw [Nat.succ_mul] at h
    have hwrap : wrappingAdd cursor val.length = cursor + val.length :=
      wrappingAdd_eq (b := stop) (by omega) hstop
    rw [fillLoop, hwrap, ih _ _ (by omega), List.replicate_succ, List.flatten_cons,
      Memory.store_append]

theorem fill_spec (h : w.Valid) {mem : Memory} {align : ℕ} {val : List UInt8}
    {res : ℕ × Memory × VmWriter} (hfill : w.fill mem align val = .ok res) :
    ∃ w', res = (w.avail / val.length,
        mem.store w.cursor (List.replicate (w.avail / val.length) val).flatten, w') ∧
      w.Moves (w.avail / val.length * val.length) w'.toWindow := by
  obtain ⟨_, -, hfill⟩ := bind_eq_ok.mp hfill
  obtain ⟨_, hdvd, hres⟩ := bind_eq_ok.mp hfill
  cases hres
  have hmul : w.avail / val.length * val.length = w.avail :=
    Nat.div_mul_cancel (Nat.dvd_of_mod_eq_zero (check_eq_ok.mp hdvd).2)
  have hle := h.cursor_le
  have hend : w.cursor + w.avail = w.stop := by
    unfold avail Window.left
    omega
  refine ⟨_, by rw [fillLoop_eq val h.stop_lt _ _ _ (by omega)], ?_⟩
  rw [hmul]
  exact ⟨hend.le, hend.symm, rfl⟩

end VmWriter

/-! ## Copies between a reader and a writer -/

theorem store_load_zero (mem : Memory) (a b : ℕ) : mem.store a (mem.load b 0) = mem :=
    store_nil mem a

theorem read_spec {r : VmReader} {w : VmWriter} (hr : r.Valid) (hw : w.Valid) (mem : Memory) :
    ∃ n r' w', r.read mem w = (n, mem.store w.cursor (mem.load r.cursor n), r', w') ∧
      r.Moves n r'.toWindow ∧ w.Moves n w'.toWindow := by
  unfold VmReader.read
  by_cases hzero : min r.remain w.avail = 0
  · simp only [if_pos hzero]
    exact ⟨0, r, w, by rw [store_load_zero], hr.stays, hw.stays⟩
  · simp only [if_neg hzero]
    exact ⟨_, _, _, rfl, hr.moves (Nat.min_le_left _ _), hw.moves (Nat.min_le_right _ _)⟩

theorem readFallible_spec {r : VmReader} {w : VmWriter} (hr : r.Valid) (hw : w.Valid)
    {A : CopyRoutines} (hA : A.Documented) (m : Machine) :
    ∃ res n mem r' w', r.readFallible A m w = (res, mem, r', w') ∧ r.Moves n r'.toWindow ∧
      w.Moves n w'.toWindow ∧ w.WritesIn m.mem mem ∧
      (Memory.Apart w.cursor w.avail r.cursor r.remain →
        ∀ j, j < n → mem (w.cursor + j) = m.mem (r.cursor + j)) ∧
      (res = .ok n ∨ res = .error (.pageFault, n)) := by
  have hfills := hA.memcpy m w.cursor r.cursor (min r.remain w.avail)
  unfold VmReader.readFallible CopyRoutines.memcpyFallible
  by_cases hzero : min r.remain w.avail = 0
  · simp only [if_pos hzero]
    exact ⟨_, 0, m.mem, r, w, rfl, hr.stays, hw.stays, fun _ _ => rfl,
      fun _ j hj => absurd hj (Nat.not_lt_zero j), Or.inl rfl⟩
  · simp only [if_neg hzero]
    generalize A.memcpy m w.cursor r.cursor (min r.remain w.avail) = c at *
    obtain ⟨mem, failed⟩ := c
    have hle := hfills.failed_le
    have hall := (hw.moves (Nat.min_le_right r.remain w.avail)).le
    have hcopied : Memory.Apart w.cursor w.avail r.cursor r.remain →
        ∀ j, j < min r.remain w.avail - failed → mem (w.cursor + j) = m.mem (r.cursor + j) := by
      intro hapart j hj
      exact hfills.inside j hj (hapart.mono le_rfl (by omega) le_rfl (by omega))
    simp only at hle ⊢
    have hr' := hr.moves ((Nat.sub_le _ failed).trans (Nat.min_le_left r.remain w.avail))
    have hw' := hw.moves ((Nat.sub_le _ failed).trans (Nat.min_le_right r.remain w.avail))
    by_cases hn : min r.remain w.avail - failed < min r.remain w.avail
    · rw [if_pos hn]
      exact ⟨_, _, mem, _, _, rfl, hr', hw', fun x hx => hfills.outside x (by omega), hcopied,
        Or.inr rfl⟩
    · rw [if_neg hn]
      exact ⟨_, _, mem, _, _, rfl, hr', hw', fun x hx => hfills.outside x (by omega), hcopied,
        Or.inl rfl⟩

/-! ## Routines that do what is documented -/

namespace CopyRoutines

/-- The routines that stop at the first byte that they must not access. -/
def stopAt (fine : Machine → ℕ → Bool) : CopyRoutines where
  memcpy m dst src len :=
    let n := leading len fun i => fine m (dst + i) && fine m (src + i)
    (m.mem.store dst (m.mem.load src n), len - n)
  memcpyFrom m dst val :=
    let n := leading val.length fun i => fine m (dst + i)
    (m.mem.store dst (val.take n), val.length - n)
  memcpyTo m src len :=
    let n := leading len fun i => fine m (src + i)
    (m.mem.load src n ++ List.replicate (len - n) 0, len - n)
  memset m dst value len :=
    let n := leading len fun i => fine m (dst + i)
    (m.mem.store dst (List.replicate n value), len - n)

/-- The routines of x86: they recover from a page fault. -/
def recovering : CopyRoutines := stopAt Machine.accessible

/-- The routines of RISC-V and LoongArch: they copy without looking, and report no failed byte. -/
def unchecked : CopyRoutines := stopAt fun _ _ => true

theorem leading_le (k : ℕ) (p : ℕ → Bool) : leading k p ≤ k := by
  have h := (List.takeWhile_sublist p (l := List.range k)).length_le
  rwa [List.length_range] at h

/-- A store of the first `n` bytes. -/
theorem fills_store {mem : Memory} {dst len n : ℕ} {good : ℕ → UInt8 → Prop} {bytes : List UInt8}
    (hn : n ≤ len) (hlen : bytes.length = n) (hgood : ∀ j b, bytes[j]? = some b → good j b) :
    Fills mem dst len good (mem.store dst bytes, len - n) := by
  refine ⟨Nat.sub_le _ _, fun x hx => Memory.store_of_not_mem (by omega), fun j hj => ?_⟩
  have hj' : j < bytes.length := by
    simp only at hj
    omega
  have hstore : mem.store dst bytes (dst + j) = _ := Memory.store_add hj'
  exact hgood j _ ((List.getElem?_eq_getElem hj').trans (congrArg some hstore.symm))

theorem stopAt_documented (fine : Machine → ℕ → Bool) : (stopAt fine).Documented where
  memcpy m dst src len := by
    refine fills_store (leading_le _ _) (Memory.length_load ..) fun j b hj _ => ?_
    obtain ⟨hlt, -⟩ := List.getElem?_eq_some_iff.mp hj
    rw [Memory.length_load] at hlt
    rw [Memory.getElem?_load hlt] at hj
    exact (Option.some.inj hj).symm
  memcpyFrom m dst val := by
    refine fills_store (leading_le _ _) ?_ fun j b hj => ?_
    · rw [List.length_take, Nat.min_eq_left (leading_le _ _)]
    · rw [List.getElem?_take] at hj
      split at hj
      · exact hj
      · cases hj
  memcpyTo_failed_le m src len := Nat.sub_le _ _
  memcpyTo_length m src len := by
    have hle := leading_le len fun i => fine m (src + i)
    show (_ ++ _ : List UInt8).length = len
    rw [List.length_append, Memory.length_load, List.length_replicate]
    omega
  memcpyTo m src len j hj := by
    have hle := leading_le len fun i => fine m (src + i)
    change j < len - (len - leading len fun i => fine m (src + i)) at hj
    show (_ ++ _ : List UInt8)[j]? = _
    rw [List.getElem?_append_left (by rw [Memory.length_load]; omega),
      Memory.getElem?_load (by omega)]
  memset m dst value len := by
    refine fills_store (leading_le _ _) List.length_replicate fun j b hj => ?_
    obtain ⟨hlt, hget⟩ := List.getElem?_eq_some_iff.mp hj
    rw [List.getElem_replicate] at hget
    exact hget.symm

end CopyRoutines

end Vostd.MemIo
