/-
# Streams through memory

Readers and writers in use: any number of them, on kernel buffers and on user memory, in any order
of operations, while user programs change user memory and its pages come and go.

Beside each reader stands what it has read, and beside each writer what it was given: a byte, or
nothing where the position was skipped, for every address from the start of its range to its
cursor.  What a reader of a kernel buffer has read is what was in the buffer when the reader was
made, and what a writer of a kernel buffer was given stands in the buffer.  So a stream of bytes
is neither torn nor repeated by page faults, by the sizes in which it is moved, or by operations
that fail halfway and put their cursor back.

Two things are assumed: that the copy routines do what is documented, and that a kernel buffer
that is written is used by its one writer alone.  The second is what the language asks of a
mutable borrow; `Segment::writer`, which takes a shared reference, does not ask it of its caller.
-/
import Vostd.Mm.Cursors
import Vostd.Lib.System

namespace Vostd.MemIo

open Exec

variable {ι κ : Type}

/-! ## The model -/

/-- A range that is read or written, in the kernel or in user space. -/
structure Borrow where
  kernel : Bool
  first : ℕ
  last : ℕ

def Borrow.Apart (b b' : Borrow) : Prop := b.last ≤ b'.first ∨ b'.last ≤ b.first

/-- A reader, the range that it was made for with its bytes at that time, and what it has read. -/
structure ReaderState extends Borrow where
  reader : VmReader
  content : List UInt8
  out : List (Option UInt8)

/-- A writer, the range that it was made for, and what it was given. -/
structure WriterState extends Borrow where
  writer : VmWriter
  inp : List (Option UInt8)

structure World (ι κ : Type) where
  machine : Machine
  readers : ι → Option ReaderState
  writers : κ → Option WriterState

inductive Op (ι κ : Type)
  | kernelReader (i : ι) (ptr len : ℕ)
  | kernelWriter (k : κ) (ptr len : ℕ)
  | userReader (i : ι) (current root vaddr len : ℕ)
  | userWriter (k : κ) (current root vaddr len : ℕ)
  | cloneReader (i j : ι)
  | dropReader (i : ι)
  | dropWriter (k : κ)
  | limitReader (i : ι) (n : ℕ)
  | limitWriter (k : κ) (n : ℕ)
  | skipReader (i : ι) (n : ℕ)
  | skipWriter (k : κ) (n : ℕ)
  | read (i : ι) (k : κ)
  | readFallible (i : ι) (k : κ)
  | readVal (i : ι) (len : ℕ)
  | readOnce (i : ι) (align len : ℕ)
  | readValFallible (i : ι) (len : ℕ)
  | collect (i : ι)
  | writeVal (k : κ) (val : List UInt8)
  | writeOnce (k : κ) (align : ℕ) (val : List UInt8)
  | writeValFallible (k : κ) (val : List UInt8)
  | fill (k : κ) (align : ℕ) (val : List UInt8)
  | fillZeros (k : κ) (len : ℕ)
  | env (m : Machine)

/-- The reader after a read of `seen`. -/
def ReaderState.take (s : ReaderState) (r : VmReader) (seen : List (Option UInt8)) : ReaderState :=
  { s with reader := r, out := s.out ++ seen }

/-- The writer after it was given `given`. -/
def WriterState.put (s : WriterState) (w : VmWriter) (given : List (Option UInt8)) : WriterState :=
  { s with writer := w, inp := s.inp ++ given }

/-- What an operation on one value returned. -/
def seenOf (res : Except Error (List UInt8)) : List (Option UInt8) :=
  match res with
  | .ok bytes => bytes.map some
  | .error _ => []

/-- What an operation on one value has taken. -/
def givenOf (res : Except Error Unit) (val : List UInt8) : List (Option UInt8) :=
  match res with
  | .ok _ => val.map some
  | .error _ => []

/-- The number of bytes that a fallible operation reports, also with an error. -/
def countOf (res : Except (Error × ℕ) ℕ) : ℕ :=
  match res with
  | .ok n => n
  | .error e => e.2

namespace World

variable [DecidableEq ι] [DecidableEq κ]

def setMem (w : World ι κ) (mem : Memory) : World ι κ :=
  { w with machine := { w.machine with mem := mem } }

def setReader (w : World ι κ) (i : ι) (s : Option ReaderState) : World ι κ :=
  { w with readers := Function.update w.readers i s }

def setWriter (w : World ι κ) (k : κ) (s : Option WriterState) : World ι κ :=
  { w with writers := Function.update w.writers k s }

/-- A new reader of the range. -/
def newReader (w : World ι κ) (i : ι) (kernel : Bool) (r : VmReader) (ptr len : ℕ) : World ι κ :=
  w.setReader i (some ⟨⟨kernel, ptr, ptr + len⟩, r, w.machine.mem.load ptr len, []⟩)

/-- A new writer of the range. -/
def newWriter (w : World ι κ) (k : κ) (kernel : Bool) (r : VmWriter) (ptr len : ℕ) : World ι κ :=
  w.setWriter k (some ⟨⟨kernel, ptr, ptr + len⟩, r, []⟩)

/-- A reader of user memory is asked for. -/
def openReader (w : World ι κ) (i : ι) (current root vaddr len : ℕ) : World ι κ :=
  match userReader current root vaddr len with
  | .ok r => w.newReader i false r vaddr len
  | .error _ => w

/-- A writer of user memory is asked for. -/
def openWriter (w : World ι κ) (k : κ) (current root vaddr len : ℕ) : World ι κ :=
  match userWriter current root vaddr len with
  | .ok u => w.newWriter k false u vaddr len
  | .error _ => w

/-- An operation of a reader, if there is one. -/
def withReader (w : World ι κ) (i : ι) (f : ReaderState → Exec (World ι κ)) : Exec (World ι κ) :=
  match w.readers i with
  | none => .ok w
  | some s => f s

/-- An operation of a writer, if there is one. -/
def withWriter (w : World ι κ) (k : κ) (f : WriterState → Exec (World ι κ)) : Exec (World ι κ) :=
  match w.writers k with
  | none => .ok w
  | some s => f s

/-- The world after a reader has read `seen`. -/
def took (w : World ι κ) (i : ι) (s : ReaderState) (seen : List (Option UInt8)) (r : VmReader) :
    World ι κ :=
  w.setReader i (some (s.take r seen))

/-- The world after a writer was given `given`, with the memory and the writer that are left. -/
def wrote (w : World ι κ) (k : κ) (t : WriterState) (given : List (Option UInt8))
    (res : Memory × VmWriter) : World ι κ :=
  (w.setMem res.1).setWriter k (some (t.put res.2 given))

/-- The world after a copy of `n` bytes from the reader to the writer. -/
def copied (w : World ι κ) (i : ι) (k : κ) (s : ReaderState) (t : WriterState) (n : ℕ)
    (res : Memory × VmReader × VmWriter) : World ι κ :=
  ((w.setMem res.1).setReader i
    (some (s.take res.2.1 ((res.1.load t.writer.cursor n).map some)))).setWriter k
    (some (t.put res.2.2 ((w.machine.mem.load s.reader.cursor n).map some)))

/-- One operation. -/
def exec (A : CopyRoutines) (w : World ι κ) : Op ι κ → Exec (World ι κ)
  | .kernelReader i ptr len => .ok (w.newReader i true (.fromSpace ptr len) ptr len)
  | .kernelWriter k ptr len => .ok (w.newWriter k true (.fromSpace ptr len) ptr len)
  | .userReader i current root vaddr len => .ok (w.openReader i current root vaddr len)
  | .userWriter k current root vaddr len => .ok (w.openWriter k current root vaddr len)
  | .cloneReader i j => .ok (w.setReader j (w.readers i))
  | .dropReader i => .ok (w.setReader i none)
  | .dropWriter k => .ok (w.setWriter k none)
  | .limitReader i n => w.withReader i fun s =>
    .ok (w.setReader i (some { s with reader := s.reader.limit n }))
  | .limitWriter k n => w.withWriter k fun t =>
    .ok (w.setWriter k (some { t with writer := t.writer.limit n }))
  | .skipReader i n => w.withReader i fun s => do
    let r ← s.reader.skip n
    .ok (w.took i s (List.replicate n none) r)
  | .skipWriter k n => w.withWriter k fun t => do
    let u ← t.writer.skip n
    .ok (w.setWriter k (some (t.put u (List.replicate n none))))
  | .read i k => w.withReader i fun s => w.withWriter k fun t =>
    let res := s.reader.read w.machine.mem t.writer
    .ok (w.copied i k s t res.1 res.2)
  | .readFallible i k => w.withReader i fun s => w.withWriter k fun t =>
    let res := s.reader.readFallible A w.machine t.writer
    .ok (w.copied i k s t (countOf res.1) res.2)
  | .readVal i len => w.withReader i fun s =>
    let res := s.reader.readVal w.machine.mem len
    .ok (w.took i s (seenOf res.1) res.2)
  | .readOnce i align len => w.withReader i fun s => do
    let res ← s.reader.readOnce w.machine.mem align len
    .ok (w.took i s (seenOf res.1) res.2)
  | .readValFallible i len => w.withReader i fun s =>
    let res := s.reader.readValFallible A w.machine len
    .ok (w.took i s (seenOf res.1) res.2)
  | .collect i => w.withReader i fun s =>
    let res := s.reader.collect A w.machine
    .ok (w.took i s (seenOf res.1) res.2)
  | .writeVal k val => w.withWriter k fun t =>
    let res := t.writer.writeVal w.machine.mem val
    .ok (w.wrote k t (givenOf res.1 val) res.2)
  | .writeOnce k align val => w.withWriter k fun t => do
    let res ← t.writer.writeOnce w.machine.mem align val
    .ok (w.wrote k t (givenOf res.1 val) res.2)
  | .writeValFallible k val => w.withWriter k fun t =>
    let res := t.writer.writeValFallible A w.machine val
    .ok (w.wrote k t (givenOf res.1 val) res.2)
  | .fill k align val => w.withWriter k fun t => do
    let res ← t.writer.fill w.machine.mem align val
    .ok (w.wrote k t ((List.replicate res.1 val).flatten.map some) res.2)
  | .fillZeros k len => w.withWriter k fun t =>
    let res := t.writer.fillZeros A w.machine len
    .ok (w.wrote k t (List.replicate (countOf res.1) (some 0)) res.2)
  | .env m => .ok { w with machine := m }

/-- The address is in a kernel buffer that someone reads or writes. -/
def Borrowed (w : World ι κ) (x : ℕ) : Prop :=
  (∃ i s, w.readers i = some s ∧ s.kernel = true ∧ s.first ≤ x ∧ x < s.last) ∨
    ∃ k t, w.writers k = some t ∧ t.kernel = true ∧ t.first ≤ x ∧ x < t.last

/-- The range is apart from the kernel buffers that are written. -/
def Unwritten (w : World ι κ) (b : Borrow) : Prop :=
  ∀ k t, w.writers k = some t → t.kernel = true → b.Apart t.toBorrow

/-- The range is apart from the kernel buffers that are read. -/
def Unread (w : World ι κ) (b : Borrow) : Prop :=
  ∀ i s, w.readers i = some s → s.kernel = true → b.Apart s.toBorrow

/-- What can be asked for.  A kernel buffer has one writer or any number of readers, infallible
operations are those on kernel buffers, and the rest of the system leaves borrowed buffers
alone. -/
def Possible (w : World ι κ) : Op ι κ → Prop
  | .kernelReader _ ptr len => MAX_USERSPACE_VADDR ≤ ptr ∧ ptr + len < 2 ^ 64 ∧
    w.Unwritten ⟨true, ptr, ptr + len⟩
  | .kernelWriter k ptr len => MAX_USERSPACE_VADDR ≤ ptr ∧ ptr + len < 2 ^ 64 ∧
    w.Unread ⟨true, ptr, ptr + len⟩ ∧ (w.setWriter k none).Unwritten ⟨true, ptr, ptr + len⟩
  | .read i k => (∀ s, w.readers i = some s → s.kernel = true) ∧
    ∀ t, w.writers k = some t → t.kernel = true
  | .readVal i _ | .readOnce i _ _ => ∀ s, w.readers i = some s → s.kernel = true
  | .writeVal k _ | .writeOnce k _ _ | .fill k _ _ => ∀ t, w.writers k = some t → t.kernel = true
  | .env m => ∀ x, w.Borrowed x → m.mem x = w.machine.mem x
  | _ => True

/-- The runs of readers and writers. -/
def system (A : CopyRoutines) (ι κ : Type) [DecidableEq ι] [DecidableEq κ] :
    System (World ι κ) (Op ι κ) where
  init := fun w => (∀ i, w.readers i = none) ∧ ∀ k, w.writers k = none
  step := fun w op w' => w.Possible op ∧ w.exec A op = .ok w'

end World

/-! ## The invariant -/

/-- A window in the range, `n` bytes behind its start. -/
structure Within (b : Borrow) (v : Window) (n : ℕ) : Prop where
  cursor_eq : v.cursor = b.first + n
  cursor_le : v.cursor ≤ v.stop
  stop_le : v.stop ≤ b.last
  last_lt : b.last < 2 ^ 64
  user : b.kernel = false → b.last ≤ MAX_USERSPACE_VADDR
  above : b.kernel = true → MAX_USERSPACE_VADDR ≤ b.first

/-- A reader in its range, and what it has read. -/
structure ReaderOk (mem : Memory) (s : ReaderState) : Prop where
  within : Within s.toBorrow s.reader.toWindow s.out.length
  content : s.kernel = true → mem.load s.first (s.last - s.first) = s.content
  seen : s.kernel = true → ∀ (j : ℕ) (b : UInt8), s.out[j]? = some (some b) → s.content[j]? = some b

/-- A writer in its range, and what it was given. -/
structure WriterOk (mem : Memory) (t : WriterState) : Prop where
  within : Within t.toBorrow t.writer.toWindow t.inp.length
  given : t.kernel = true → ∀ (j : ℕ) (b : UInt8), t.inp[j]? = some (some b) → mem (t.first + j) = b

structure Inv (w : World ι κ) : Prop where
  reader : ∀ i s, w.readers i = some s → ReaderOk w.machine.mem s
  writer : ∀ k t, w.writers k = some t → WriterOk w.machine.mem t
  unread : ∀ i s, w.readers i = some s → s.kernel = true → w.Unwritten s.toBorrow
  unwritten : ∀ k t k' t', w.writers k = some t → t.kernel = true → w.writers k' = some t' →
    t'.kernel = true → k ≠ k' → t.Apart t'.toBorrow

theorem Borrow.Apart.symm {b b' : Borrow} (h : b.Apart b') : b'.Apart b := Or.symm h

namespace Within

variable {b b' : Borrow} {v v' : Window} {n n' : ℕ}

theorem valid (h : Within b v n) : v.Valid := ⟨h.cursor_le, Nat.lt_of_le_of_lt h.stop_le h.last_lt⟩

theorem first_le (h : Within b v n) : b.first ≤ v.cursor := by
  rw [h.cursor_eq]
  exact Nat.le_add_right _ _

theorem moves (h : Within b v n) {k : ℕ} (hmoves : v.Moves k v') : Within b v' (n + k) where
  cursor_eq := by rw [hmoves.cursor_eq, h.cursor_eq, Nat.add_assoc]
  cursor_le := by
    rw [hmoves.cursor_eq, hmoves.stop_eq]
    exact hmoves.le
  stop_le := hmoves.stop_eq.le.trans h.stop_le
  last_lt := h.last_lt
  user := h.user
  above := h.above

theorem limit (h : Within b v n) (k : ℕ) : Within b (v.limit k) n := by
  obtain ⟨hcursor, hle, hstop⟩ := h.valid.limit k
  exact ⟨hcursor.trans h.cursor_eq, hcursor.le.trans hle, hstop.trans h.stop_le, h.last_lt, h.user,
    h.above⟩

theorem new {kernel : Bool} {ptr len : ℕ} (hlt : ptr + len < 2 ^ 64)
    (huser : kernel = false → ptr + len ≤ MAX_USERSPACE_VADDR)
    (habove : kernel = true → MAX_USERSPACE_VADDR ≤ ptr) :
    Within ⟨kernel, ptr, ptr + len⟩ (.fromSpace ptr len) 0 := by
  have hstop : wrappingAdd ptr len = ptr + len := wrappingAdd_eq le_rfl hlt
  exact ⟨rfl, (Nat.le_add_right _ _).trans hstop.ge, hstop.le, hlt, huser, habove⟩

/-- A kernel buffer is apart from every range of user memory. -/
theorem apart (h : Within b v n) (h' : Within b' v' n')
    (hapart : b.kernel = true → b'.kernel = true → b.Apart b')
    (hkernel : b.kernel = true ∨ b'.kernel = true) : b.Apart b' := by
  have huser := h.user
  have huser' := h'.user
  have habove := h.above
  have habove' := h'.above
  unfold Borrow.Apart at *
  cases hb : b.kernel with
  | true =>
    cases hb' : b'.kernel with
    | true => exact hapart hb hb'
    | false => exact Or.inr ((huser' hb').trans (habove hb))
  | false =>
    rw [hb] at hkernel
    exact Or.inl ((huser hb).trans (habove' (hkernel.resolve_left nofun)))

end Within

theorem ReaderOk.congr {mem mem' : Memory} {s : ReaderState} (h : ReaderOk mem s)
    (hmem : s.kernel = true → ∀ x, s.first ≤ x → x < s.last → mem' x = mem x) : ReaderOk mem' s :=
  { h with
    content := fun hk => by
      rw [← h.content hk]
      have hle := h.within.first_le.trans (h.within.cursor_le.trans h.within.stop_le)
      exact Memory.load_congr fun x hx hx' => hmem hk x hx (by omega) }

theorem WriterOk.congr {mem mem' : Memory} {t : WriterState} (h : WriterOk mem t)
    (hmem : t.kernel = true → ∀ x, t.first ≤ x → x < t.writer.cursor → mem' x = mem x) :
    WriterOk mem' t :=
  { h with
    given := fun hk j b hj => by
      obtain ⟨hlt, -⟩ := List.getElem?_eq_some_iff.mp hj
      have hcur := h.within.cursor_eq
      rw [hmem hk _ (by omega) (by omega)]
      exact h.given hk j b hj }

/-- A byte of a stream that goes on is an old one, or one behind the cursor. -/
theorem Within.of_getElem?_append {b : Borrow} {v : Window} {old new : List (Option UInt8)}
    (h : Within b v old.length) {j : ℕ} {c : UInt8} (hj : (old ++ new)[j]? = some (some c)) :
    old[j]? = some (some c) ∨
      ∃ i, j = old.length + i ∧ b.first + j = v.cursor + i ∧ new[i]? = some (some c) := by
  by_cases hlt : j < old.length
  · rw [List.getElem?_append_left hlt] at hj
    exact Or.inl hj
  · rw [List.getElem?_append_right (by omega)] at hj
    have hcur := h.cursor_eq
    exact Or.inr ⟨j - old.length, by omega, by omega, hj⟩

/-- A reader moves on over `seen`, the bytes in memory as far as they were looked at. -/
theorem ReaderOk.take {mem : Memory} {s : ReaderState} (h : ReaderOk mem s) {r : VmReader}
    {seen : List (Option UInt8)} (hmoves : s.reader.Moves seen.length r.toWindow)
    (hseen : s.kernel = true → ∀ (j : ℕ) (b : UInt8), seen[j]? = some (some b) →
      mem (s.reader.cursor + j) = b) :
    ReaderOk mem (s.take r seen) := by
  refine ⟨?_, h.content, fun hk j b hj => ?_⟩
  · show Within _ _ (s.out ++ seen).length
    rw [List.length_append]
    exact h.within.moves hmoves
  · rcases h.within.of_getElem?_append hj with hold | ⟨i, hi, hadd, hnew⟩
    · exact h.seen hk j b hold
    · have hlt := (List.getElem?_eq_some_iff.mp hnew).1
      have hle := hmoves.le
      have hstop := h.within.stop_le
      show s.content[j]? = some b
      rw [← h.content hk, ← hseen hk i b hnew, ← hadd, Memory.getElem?_load (by omega)]

/-- A writer moves on over `given`, which stands in memory. -/
theorem WriterOk.put {mem : Memory} {t : WriterState} (h : WriterOk mem t) {u : VmWriter}
    {given : List (Option UInt8)} (hmoves : t.writer.Moves given.length u.toWindow)
    (hgiven : t.kernel = true → ∀ (j : ℕ) (b : UInt8), given[j]? = some (some b) →
      mem (t.writer.cursor + j) = b) :
    WriterOk mem (t.put u given) := by
  refine ⟨?_, fun hk j b hj => ?_⟩
  · show Within _ _ (t.inp ++ given).length
    rw [List.length_append]
    exact h.within.moves hmoves
  · rcases h.within.of_getElem?_append hj with hold | ⟨i, -, hadd, hnew⟩
    · exact h.given hk j b hold
    · exact (congrArg mem hadd).trans (hgiven hk i b hnew)

/-! ## Changes of the world -/

namespace Inv

variable {w : World ι κ} {i : ι} {k : κ} {s : ReaderState} {t : WriterState}

/-- **A write behind the cursor of a writer** is not seen by any reader of a kernel buffer, and
changes nothing that a writer was given. -/
theorem setMem (h : Inv w) (hk : w.writers k = some t) {mem : Memory}
    (hmem : t.writer.WritesIn w.machine.mem mem) : Inv (w.setMem mem) := by
  have ht := (h.writer k t hk).within
  have hcur := ht.first_le
  have hstop := ht.stop_le
  refine ⟨fun i s hi => ?_, fun k' t' hk' => ?_, h.unread, h.unwritten⟩
  · refine (h.reader i s hi).congr fun hkernel x hx hx' => hmem x ?_
    rcases (h.reader i s hi).within.apart ht (fun hs => h.unread i s hi hs k t hk) (Or.inl hkernel)
      with hle | hle <;> omega
  · have ht' := (h.writer k' t' hk').within
    refine (h.writer k' t' hk').congr fun hkernel x hx hx' => hmem x ?_
    by_cases hkk : k' = k
    · subst hkk
      obtain rfl : t = t' := Option.some.inj (hk.symm.trans hk')
      exact Or.inl hx'
    · have hcur' := ht'.cursor_le
      have hstop' := ht'.stop_le
      rcases ht'.apart ht (fun h' h'' => h.unwritten k' t' k t hk' h' hk h'' hkk) (Or.inl hkernel)
        with hle | hle <;> omega

theorem setReader [DecidableEq ι] (h : Inv w) (i : ι) (hs : ReaderOk w.machine.mem s)
    (hunwritten : s.kernel = true → w.Unwritten s.toBorrow) : Inv (w.setReader i (some s)) := by
  refine ⟨fun j s' hj => ?_, h.writer, fun j s' hj => ?_, h.unwritten⟩
  · rcases update_eq_cases hj with ⟨-, heq⟩ | ⟨-, hj⟩
    · cases heq
      exact hs
    · exact h.reader j s' hj
  · rcases update_eq_cases hj with ⟨-, heq⟩ | ⟨-, hj⟩
    · cases heq
      exact hunwritten
    · exact h.unread j s' hj

theorem setWriter [DecidableEq κ] (h : Inv w) (k : κ) (ht : WriterOk w.machine.mem t)
    (hunread : t.kernel = true → w.Unread t.toBorrow)
    (hunwritten : t.kernel = true → (w.setWriter k none).Unwritten t.toBorrow) :
    Inv (w.setWriter k (some t)) := by
  have hother : ∀ {j t'}, j ≠ k → w.writers j = some t' →
    (w.setWriter k none).writers j = some t' :=
    fun hjk hj => (Function.update_of_ne hjk ..).trans hj
  refine ⟨h.reader, fun j t' hj => ?_, fun i s hi hkernel j t' hj hkernel' => ?_,
    fun j t₁ j' t₂ hj hkernel hj' hkernel' hne => ?_⟩
  · rcases update_eq_cases hj with ⟨-, heq⟩ | ⟨-, hj⟩
    · cases heq
      exact ht
    · exact h.writer j t' hj
  · rcases update_eq_cases hj with ⟨-, heq⟩ | ⟨-, hj⟩
    · cases heq
      exact (hunread hkernel' i s hi hkernel).symm
    · exact h.unread i s hi hkernel j t' hj hkernel'
  · rcases update_eq_cases hj with ⟨rfl, heq⟩ | ⟨hjk, hold⟩
    · cases heq
      rcases update_eq_cases hj' with ⟨rfl, -⟩ | ⟨hjk', hold'⟩
      · exact (hne rfl).elim
      · exact hunwritten hkernel j' t₂ (hother hjk' hold') hkernel'
    · rcases update_eq_cases hj' with ⟨rfl, heq⟩ | ⟨hjk', hold'⟩
      · cases heq
        exact (hunwritten hkernel' j t₁ (hother hjk hold) hkernel).symm
      · exact h.unwritten j t₁ j' t₂ hold hkernel hold' hkernel' hne

theorem unread_of (h : Inv w) (hk : w.writers k = some t) (hkernel : t.kernel = true) :
    w.Unread t.toBorrow :=
  fun i s hi hs => (h.unread i s hi hs k t hk hkernel).symm

/-- A writer that was there before. -/
theorem kept_of_update [DecidableEq κ] {k' : κ} {t' : WriterState}
    (h : (w.setWriter k none).writers k' = some t') : k' ≠ k ∧ w.writers k' = some t' := by
  rcases update_eq_cases h with ⟨-, heq⟩ | hkept
  · cases heq
  · exact hkept

theorem unwritten_of [DecidableEq κ] (h : Inv w) (hk : w.writers k = some t)
    (hkernel : t.kernel = true) : (w.setWriter k none).Unwritten t.toBorrow := by
  intro k' t' hk' hkernel'
  obtain ⟨hne, hold⟩ := kept_of_update hk'
  exact h.unwritten k t k' t' hk hkernel hold hkernel' hne.symm

theorem dropReader [DecidableEq ι] (h : Inv w) (i : ι) : Inv (w.setReader i none) := by
  have hkept : ∀ {j s'}, (w.setReader i none).readers j = some s' → w.readers j = some s' := by
    intro j s' hj
    rcases update_eq_cases hj with ⟨-, heq⟩ | ⟨-, hj⟩
    · cases heq
    · exact hj
  exact ⟨fun j s' hj => h.reader j s' (hkept hj), h.writer, fun j s' hj => h.unread j s' (hkept hj),
    h.unwritten⟩

theorem dropWriter [DecidableEq κ] (h : Inv w) (k : κ) : Inv (w.setWriter k none) :=
  ⟨h.reader, fun j t' hj => h.writer j t' (kept_of_update hj).2,
    fun i s hi hkernel j t' hj => h.unread i s hi hkernel j t' (kept_of_update hj).2,
    fun j t₁ j' t₂ hj hkernel hj' =>
      h.unwritten j t₁ j' t₂ (kept_of_update hj).2 hkernel (kept_of_update hj').2⟩

/-- The rest of the system changes what nobody has borrowed. -/
theorem env (h : Inv w) {m : Machine} (hm : ∀ x, w.Borrowed x → m.mem x = w.machine.mem x) :
    Inv { w with machine := m } := by
  refine ⟨fun i s hi => (h.reader i s hi).congr fun hkernel x hx hx' => ?_,
    fun k t hk => (h.writer k t hk).congr fun hkernel x hx hx' => ?_, h.unread, h.unwritten⟩
  · exact hm x (Or.inl ⟨i, s, hi, hkernel, hx, hx'⟩)
  · have ht := (h.writer k t hk).within
    have := ht.cursor_le
    have := ht.stop_le
    exact hm x (Or.inr ⟨k, t, hk, hkernel, hx, by omega⟩)

/-- What is left of a kernel buffer is apart from what is left of any other range. -/
theorem apart (h : Inv w) (hi : w.readers i = some s) (hk : w.writers k = some t)
    (hkernel : s.kernel = true ∨ t.kernel = true) :
    Memory.Apart t.writer.cursor t.writer.avail s.reader.cursor s.reader.remain := by
  have hs := (h.reader i s hi).within
  have ht := (h.writer k t hk).within
  have hapart := hs.apart ht (fun hsk => h.unread i s hi hsk k t hk) hkernel
  have := hs.first_le
  have := hs.cursor_le
  have := hs.stop_le
  have := ht.first_le
  have := ht.cursor_le
  have := ht.stop_le
  unfold Borrow.Apart at hapart
  unfold Memory.Apart VmWriter.avail VmReader.remain Window.left
  omega

end Inv

/-! ## What an operation does -/

theorem getElem?_map_some {bytes : List UInt8} {j : ℕ} {b : UInt8}
    (h : (bytes.map some)[j]? = some (some b)) : bytes[j]? = some b := by
  rw [List.getElem?_map] at h
  obtain ⟨b', hb', heq⟩ := Option.map_eq_some_iff.mp h
  cases heq
  exact hb'

/-- A byte of a load. -/
theorem of_getElem?_load {mem : Memory} {a n j : ℕ} {b : UInt8}
    (h : ((mem.load a n).map some)[j]? = some (some b)) : j < n ∧ mem (a + j) = b := by
  have hj := getElem?_map_some h
  obtain ⟨hlt, -⟩ := List.getElem?_eq_some_iff.mp hj
  rw [Memory.length_load] at hlt
  rw [Memory.getElem?_load hlt] at hj
  exact ⟨hlt, Option.some.inj hj⟩

section Effects

variable [DecidableEq ι] [DecidableEq κ] {w w' : World ι κ}

/-- **The changes that operations make**: a reader or a writer is made, moved or dropped, a writer
stores something behind its cursor, or bytes go from a reader to a writer. -/
inductive Effect (w : World ι κ) : World ι κ → Prop
  | same : Effect w w
  | reader {i : ι} {s : ReaderState} (hs : ReaderOk w.machine.mem s)
      (hunwritten : s.kernel = true → w.Unwritten s.toBorrow) : Effect w (w.setReader i (some s))
  | writer {k : κ} {t : WriterState} (ht : WriterOk w.machine.mem t)
      (hunread : t.kernel = true → w.Unread t.toBorrow)
      (hunwritten : t.kernel = true → (w.setWriter k none).Unwritten t.toBorrow) :
      Effect w (w.setWriter k (some t))
  | dropReader (i : ι) : Effect w (w.setReader i none)
  | dropWriter (k : κ) : Effect w (w.setWriter k none)
  | wrote {k : κ} {t : WriterState} {given : List (Option UInt8)} {res : Memory × VmWriter}
      (hk : w.writers k = some t) (hmem : t.writer.WritesIn w.machine.mem res.1)
      (hmoves : t.writer.Moves given.length res.2.toWindow)
      (hgiven : ∀ (j : ℕ) (b : UInt8), given[j]? = some (some b) →
        res.1 (t.writer.cursor + j) = b) :
      Effect w (w.wrote k t given res)
  | copied {i : ι} {k : κ} {s : ReaderState} {t : WriterState} {n : ℕ}
      {res : Memory × VmReader × VmWriter} (hi : w.readers i = some s) (hk : w.writers k = some t)
      (hmem : t.writer.WritesIn w.machine.mem res.1)
      (hr : s.reader.Moves n res.2.1.toWindow) (hu : t.writer.Moves n res.2.2.toWindow)
      (hbytes : s.kernel = true ∨ t.kernel = true →
        ∀ j, j < n → res.1 (t.writer.cursor + j) = w.machine.mem (s.reader.cursor + j)) :
      Effect w (w.copied i k s t n res)

namespace Effect

/-- **Every change keeps the invariant.** -/
theorem inv (he : Effect w w') (h : Inv w) : Inv w' := by
  -- the writer moves on over what stands in memory
  have hput : ∀ {w : World ι κ} {k t u given}, Inv w → w.writers k = some t →
      WriterOk w.machine.mem (t.put u given) → Inv (w.setWriter k (some (t.put u given))) := by
    intro w k t u given h hk ht
    have hunread := h.unread_of hk
    have hunwritten := h.unwritten_of hk
    exact h.setWriter k ht hunread hunwritten
  cases he with
  | same => exact h
  | reader hs hunwritten => exact h.setReader _ hs hunwritten
  | writer ht hunread hunwritten => exact h.setWriter _ ht hunread hunwritten
  | dropReader i => exact h.dropReader i
  | dropWriter k => exact h.dropWriter k
  | wrote hk hmem hmoves hgiven =>
    have hstored := h.setMem hk hmem
    exact hput hstored hk ((hstored.writer _ _ hk).put hmoves fun _ => hgiven)
  | @copied i k s t n res hi hk hmem hr hu hbytes =>
    -- the reader takes what arrives, and the writer was given what was there
    have htake : Inv (w.setReader i
        (some (s.take res.2.1 ((res.1.load t.writer.cursor n).map some)))) := by
      refine h.setReader i ((h.reader i s hi).take (by rwa [List.length_map, Memory.length_load])
        fun hkernel j b hj => ?_) (h.unread i s hi)
      obtain ⟨hlt, rfl⟩ := of_getElem?_load hj
      exact (hbytes (Or.inl hkernel) j hlt).symm
    have hstored := htake.setMem hk hmem
    refine hput hstored hk ((hstored.writer k t hk).put
      (by rwa [List.length_map, Memory.length_load])
      fun hkernel j b hj => ?_)
    obtain ⟨hlt, rfl⟩ := of_getElem?_load hj
    exact hbytes (Or.inr hkernel) j hlt

/-- **Memory changes between the cursor and the end of a writer.** -/
theorem mem_ne (he : Effect w w') {x : ℕ} (hx : w'.machine.mem x ≠ w.machine.mem x) :
    ∃ k t, w.writers k = some t ∧ t.writer.cursor ≤ x ∧ x < t.writer.stop := by
  cases he with
  | same | reader | writer | dropReader | dropWriter => exact (hx rfl).elim
  | wrote hk hmem hmoves hgiven =>
    refine ⟨_, _, hk, ?_⟩
    by_contra hout
    exact hx (hmem x (by omega))
  | copied hi hk hmem hr hu hbytes =>
    refine ⟨_, _, hk, ?_⟩
    by_contra hout
    exact hx (hmem x (by omega))

theorem withReader {i : ι} {f : ReaderState → Exec (World ι κ)} (h : w.withReader i f = .ok w')
    (hf : ∀ s, w.readers i = some s → f s = .ok w' → Effect w w') : Effect w w' := by
  unfold World.withReader at h
  cases hi : w.readers i with
  | none =>
    rw [hi] at h
    cases h
    exact .same
  | some s =>
    rw [hi] at h
    exact hf s hi h

theorem withWriter {k : κ} {f : WriterState → Exec (World ι κ)} (h : w.withWriter k f = .ok w')
    (hf : ∀ t, w.writers k = some t → f t = .ok w' → Effect w w') : Effect w w' := by
  unfold World.withWriter at h
  cases hk : w.writers k with
  | none =>
    rw [hk] at h
    cases h
    exact .same
  | some t =>
    rw [hk] at h
    exact hf t hk h

theorem newReader (i : ι) {kernel : Bool} {ptr len : ℕ}
    (hlt : ptr + len < 2 ^ 64) (huser : kernel = false → ptr + len ≤ MAX_USERSPACE_VADDR)
    (habove : kernel = true → MAX_USERSPACE_VADDR ≤ ptr)
    (hunwritten : kernel = true → w.Unwritten ⟨kernel, ptr, ptr + len⟩) :
    Effect w (w.newReader i kernel (.fromSpace ptr len) ptr len) := by
  refine .reader ⟨.new hlt huser habove, fun _ => ?_, fun _ j b hj => nomatch hj⟩ hunwritten
  show w.machine.mem.load ptr (ptr + len - ptr) = _
  rw [Nat.add_sub_cancel_left]

theorem newWriter (k : κ) {kernel : Bool} {ptr len : ℕ}
    (hlt : ptr + len < 2 ^ 64) (huser : kernel = false → ptr + len ≤ MAX_USERSPACE_VADDR)
    (habove : kernel = true → MAX_USERSPACE_VADDR ≤ ptr)
    (hunread : kernel = true → w.Unread ⟨kernel, ptr, ptr + len⟩)
    (hunwritten : kernel = true → (w.setWriter k none).Unwritten ⟨kernel, ptr, ptr + len⟩) :
    Effect w (w.newWriter k kernel (.fromSpace ptr len) ptr len) :=
  .writer ⟨.new hlt huser habove, fun _ _ _ hj => nomatch hj⟩ hunread hunwritten

theorem openReader (i : ι) (current root vaddr len : ℕ) :
    Effect w (w.openReader i current root vaddr len) := by
  unfold World.openReader userReader
  cases hcheck : checkUserRange current root vaddr len with
  | error e => exact .same
  | ok u =>
    have hle := checkUserRange_eq_ok hcheck
    exact newReader i (Nat.lt_of_le_of_lt hle (by decide)) (fun _ => hle) nofun nofun

theorem openWriter (k : κ) (current root vaddr len : ℕ) :
    Effect w (w.openWriter k current root vaddr len) := by
  unfold World.openWriter userWriter
  cases hcheck : checkUserRange current root vaddr len with
  | error e => exact .same
  | ok u =>
    have hle := checkUserRange_eq_ok hcheck
    exact newWriter k (Nat.lt_of_le_of_lt hle (by decide)) (fun _ => hle) nofun nofun nofun

end Effect

namespace Inv

/-! ### Moving cursors -/

variable {i : ι} {k : κ} {s : ReaderState} {t : WriterState}

theorem limitReader (h : Inv w) (hi : w.readers i = some s) (n : ℕ) :
    Effect w (w.setReader i (some { s with reader := s.reader.limit n })) := by
  have hs := h.reader i s hi
  exact .reader ⟨hs.within.limit n, hs.content, hs.seen⟩ (h.unread i s hi)

theorem limitWriter (h : Inv w) (hk : w.writers k = some t) (n : ℕ) :
    Effect w (w.setWriter k (some { t with writer := t.writer.limit n })) := by
  have ht := h.writer k t hk
  have hunread := h.unread_of hk
  have hunwritten := h.unwritten_of hk
  exact .writer ⟨ht.within.limit n, ht.given⟩ hunread hunwritten

theorem getElem?_replicate_none {n j : ℕ} {b : UInt8} :
    (List.replicate n (none : Option UInt8))[j]? ≠ some (some b) := by
  intro hj
  obtain ⟨hlt, hget⟩ := List.getElem?_eq_some_iff.mp hj
  rw [List.getElem_replicate] at hget
  cases hget

theorem skipReader (h : Inv w) (hi : w.readers i = some s) {n : ℕ} {r : VmReader}
    (hskip : s.reader.skip n = .ok r) : Effect w (w.took i s (List.replicate n none) r) := by
  obtain ⟨v, hv, hr⟩ := bind_eq_ok.mp hskip
  cases hr
  have hmoves := (h.reader i s hi).within.valid.skip hv
  exact .reader ((h.reader i s hi).take (by rwa [List.length_replicate])
    fun _ j b hj => (getElem?_replicate_none hj).elim) (h.unread i s hi)

theorem skipWriter (h : Inv w) (hk : w.writers k = some t) {n : ℕ} {u : VmWriter}
    (hskip : t.writer.skip n = .ok u) :
    Effect w (w.setWriter k (some (t.put u (List.replicate n none)))) := by
  obtain ⟨v, hv, hu⟩ := bind_eq_ok.mp hskip
  cases hu
  have hmoves := (h.writer k t hk).within.valid.skip hv
  have hunread := h.unread_of hk
  have hunwritten := h.unwritten_of hk
  exact .writer ((h.writer k t hk).put (by rwa [List.length_replicate])
    fun _ j b hj => (getElem?_replicate_none hj).elim) hunread hunwritten

/-! ### Copies -/

theorem read (h : Inv w) (hi : w.readers i = some s) (hk : w.writers k = some t) :
    Effect w (w.copied i k s t (s.reader.read w.machine.mem t.writer).1
      (s.reader.read w.machine.mem t.writer).2) := by
  obtain ⟨n, r, u, hread, hr, hu⟩ :=
    read_spec (h.reader i s hi).within.valid (h.writer k t hk).within.valid w.machine.mem
  rw [hread]
  have hle := hu.le
  refine .copied hi hk (fun x hx => Memory.store_of_not_mem ?_) hr hu fun _ j hj => ?_
  · rw [Memory.length_load]
    omega
  · have hstore := Memory.load_store w.machine.mem t.writer.cursor
      (w.machine.mem.load s.reader.cursor n)
    rw [Memory.length_load] at hstore
    have hbyte := congrArg (·[j]?) hstore
    simp only [Memory.getElem?_load hj] at hbyte
    exact Option.some.inj hbyte

theorem countOf_eq {res : Except (Error × ℕ) ℕ} {n : ℕ}
    (h : res = .ok n ∨ res = .error (.pageFault, n)) : countOf res = n := by
  rcases h with rfl | rfl
  · rfl
  · rfl

theorem readFallible {A : CopyRoutines} (hA : A.Documented) (h : Inv w)
    (hi : w.readers i = some s) (hk : w.writers k = some t) :
    Effect w (w.copied i k s t (countOf (s.reader.readFallible A w.machine t.writer).1)
      (s.reader.readFallible A w.machine t.writer).2) := by
  obtain ⟨res, n, mem, r, u, hread, hr, hu, hmem, hbytes, hres⟩ := readFallible_spec
    (h.reader i s hi).within.valid (h.writer k t hk).within.valid hA w.machine
  rw [hread, countOf_eq hres]
  exact .copied hi hk hmem hr hu fun hkernel => hbytes (h.apart hi hk hkernel)

/-! ### Single values -/

theorem readOne (h : Inv w) (hi : w.readers i = some s) {len : ℕ}
    {res : Except Error (List UInt8) × VmReader}
    (hres : VmReader.ReadsOne w.machine.mem s.reader len res) :
    Effect w (w.took i s (seenOf res.1) res.2) := by
  have hs := h.reader i s hi
  rcases hres with ⟨e, rfl⟩ | ⟨r, rfl, hmoves⟩
  · exact .reader (hs.take hs.within.valid.stays fun _ j b hj => nomatch hj) (h.unread i s hi)
  · refine .reader (hs.take ?_ fun _ j b hj => (of_getElem?_load hj).2) (h.unread i s hi)
    show s.reader.Moves ((w.machine.mem.load s.reader.cursor len).map some).length r.toWindow
    rwa [List.length_map, Memory.length_load]

/-- Bytes are stored. -/
theorem stored (hk : w.writers k = some t) {bytes : List UInt8} {u : VmWriter}
    (hmoves : t.writer.Moves bytes.length u.toWindow) :
    Effect w (w.wrote k t (bytes.map some) (w.machine.mem.store t.writer.cursor bytes, u)) := by
  have hle := hmoves.le
  refine .wrote hk (fun x hx => Memory.store_of_not_mem (by omega)) (by rwa [List.length_map])
    fun j b hj => ?_
  obtain ⟨hlt, hget⟩ := List.getElem?_eq_some_iff.mp (getElem?_map_some hj)
  exact (Memory.store_add hlt).trans hget

theorem writeOne (h : Inv w) (hk : w.writers k = some t) {val : List UInt8}
    {res : Except Error Unit × Memory × VmWriter}
    (hres : VmWriter.WritesOne w.machine.mem t.writer val res) :
    Effect w (w.wrote k t (givenOf res.1 val) res.2) := by
  rcases hres with ⟨e, mem, rfl, hmem⟩ | ⟨u, rfl, hmoves⟩
  · exact .wrote hk hmem (h.writer k t hk).within.valid.stays fun j b hj => nomatch hj
  · exact stored hk hmoves

/-! ### Filling -/

theorem fill (h : Inv w) (hk : w.writers k = some t) {align : ℕ} {val : List UInt8}
    {res : ℕ × Memory × VmWriter} (hfill : t.writer.fill w.machine.mem align val = .ok res) :
    Effect w (w.wrote k t ((List.replicate res.1 val).flatten.map some) res.2) := by
  obtain ⟨u, rfl, hu⟩ := VmWriter.fill_spec (h.writer k t hk).within.valid hfill
  refine stored hk ?_
  rwa [List.length_flatten, List.map_replicate, List.sum_replicate, smul_eq_mul]

theorem fillZeros {A : CopyRoutines} (hA : A.Documented) (h : Inv w) (hk : w.writers k = some t)
    (len : ℕ) :
    Effect w (w.wrote k t (List.replicate (countOf (t.writer.fillZeros A w.machine len).1) (some 0))
      (t.writer.fillZeros A w.machine len).2) := by
  obtain ⟨res, n, mem, u, hfill, hu, hmem, hzero, hres⟩ :=
    VmWriter.fillZeros_spec (h.writer k t hk).within.valid hA w.machine len
  rw [hfill, countOf_eq hres]
  refine .wrote hk hmem (by rwa [List.length_replicate]) fun j b hj => ?_
  obtain ⟨hlt, hget⟩ := List.getElem?_eq_some_iff.mp hj
  rw [List.length_replicate] at hlt
  rw [List.getElem_replicate] at hget
  cases hget
  exact hzero j hlt

/-! ### All operations -/

/-- **What one operation does**, if it is not one of the environment. -/
theorem effect {A : CopyRoutines} (hA : A.Documented) (h : Inv w) {op : Op ι κ}
    (hop : ∀ m, op ≠ .env m) (hpossible : w.Possible op) (hexec : w.exec A op = .ok w') :
    Effect w w' := by
  cases op with
  | kernelReader i ptr len =>
    cases hexec
    obtain ⟨habove, hlt, hunwritten⟩ := hpossible
    exact .newReader i hlt nofun (fun _ => habove) fun _ => hunwritten
  | kernelWriter k ptr len =>
    cases hexec
    obtain ⟨habove, hlt, hunread, hunwritten⟩ := hpossible
    exact .newWriter k hlt nofun (fun _ => habove) (fun _ => hunread) fun _ => hunwritten
  | userReader i current root vaddr len =>
    cases hexec
    exact .openReader i current root vaddr len
  | userWriter k current root vaddr len =>
    cases hexec
    exact .openWriter k current root vaddr len
  | cloneReader i j =>
    cases hexec
    cases hi : w.readers i with
    | none => exact .dropReader j
    | some s => exact .reader (h.reader i s hi) (h.unread i s hi)
  | dropReader i =>
    cases hexec
    exact .dropReader i
  | dropWriter k =>
    cases hexec
    exact .dropWriter k
  | limitReader i n =>
    exact .withReader hexec fun s hi hw' => by cases hw'; exact h.limitReader hi n
  | limitWriter k n =>
    exact .withWriter hexec fun t hk hw' => by cases hw'; exact h.limitWriter hk n
  | skipReader i n =>
    refine .withReader hexec fun s hi hw' => ?_
    obtain ⟨r, hr, hw'⟩ := bind_eq_ok.mp hw'
    cases hw'
    exact h.skipReader hi hr
  | skipWriter k n =>
    refine .withWriter hexec fun t hk hw' => ?_
    obtain ⟨u, hu, hw'⟩ := bind_eq_ok.mp hw'
    cases hw'
    exact h.skipWriter hk hu
  | read i k =>
    refine .withReader hexec fun s hi hexec => .withWriter hexec fun t hk hw' => ?_
    cases hw'
    exact h.read hi hk
  | readFallible i k =>
    refine .withReader hexec fun s hi hexec => .withWriter hexec fun t hk hw' => ?_
    cases hw'
    exact h.readFallible hA hi hk
  | readVal i len =>
    refine .withReader hexec fun s hi hw' => ?_
    cases hw'
    exact h.readOne hi (VmReader.readsOne_readVal (h.reader i s hi).within.valid _ len)
  | readOnce i align len =>
    refine .withReader hexec fun s hi hw' => ?_
    obtain ⟨res, hres, hw'⟩ := bind_eq_ok.mp hw'
    cases hw'
    exact h.readOne hi (VmReader.readsOne_readOnce (h.reader i s hi).within.valid hres)
  | readValFallible i len =>
    refine .withReader hexec fun s hi hw' => ?_
    cases hw'
    exact h.readOne hi (VmReader.readsOne_readValFallible (h.reader i s hi).within.valid hA _ len)
  | collect i =>
    refine .withReader hexec fun s hi hw' => ?_
    cases hw'
    exact h.readOne hi (VmReader.readsOne_readOut (h.reader i s hi).within.valid hA _ le_rfl)
  | writeVal k val =>
    refine .withWriter hexec fun t hk hw' => ?_
    cases hw'
    exact h.writeOne hk (VmWriter.writesOne_writeVal (h.writer k t hk).within.valid _ val)
  | writeOnce k align val =>
    refine .withWriter hexec fun t hk hw' => ?_
    obtain ⟨res, hres, hw'⟩ := bind_eq_ok.mp hw'
    cases hw'
    exact h.writeOne hk (VmWriter.writesOne_writeOnce (h.writer k t hk).within.valid hres)
  | writeValFallible k val =>
    refine .withWriter hexec fun t hk hw' => ?_
    cases hw'
    exact h.writeOne hk (VmWriter.writesOne_writeValFallible
      (h.writer k t hk).within.valid hA _ val)
  | fill k align val =>
    refine .withWriter hexec fun t hk hw' => ?_
    obtain ⟨res, hres, hw'⟩ := bind_eq_ok.mp hw'
    cases hw'
    exact h.fill hk hres
  | fillZeros k len =>
    exact .withWriter hexec fun t hk hw' => by cases hw'; exact h.fillZeros hA hk len
  | env m => exact (hop m rfl).elim

/-- **One step keeps the invariant.** -/
theorem step {A : CopyRoutines} (hA : A.Documented) (h : Inv w) {op : Op ι κ}
    (hstep : (World.system A ι κ).step w op w') : Inv w' := by
  by_cases hop : ∃ m, op = .env m
  · obtain ⟨m, rfl⟩ := hop
    obtain ⟨hborrowed, hexec⟩ := hstep
    cases hexec
    exact h.env hborrowed
  · exact (h.effect hA (fun m hm => hop ⟨m, hm⟩) hstep.1 hstep.2).inv h

theorem of_reachable {A : CopyRoutines} (hA : A.Documented)
    (h : (World.system A ι κ).Reachable w) : Inv w := by
  refine System.invariant (I := Inv) (fun w hw => ?_)
    (fun w op w' _ hinv hstep => hinv.step hA hstep) h
  refine ⟨fun i s hi => ?_, fun k t hk => ?_, fun i s hi => ?_, fun k t k' t' hk => ?_⟩
  · rw [hw.1 i] at hi
    cases hi
  · rw [hw.2 k] at hk
    cases hk
  · rw [hw.1 i] at hi
    cases hi
  · rw [hw.2 k] at hk
    cases hk

end Inv

end Effects

/-! ## What holds in every run -/

namespace World

variable [DecidableEq ι] [DecidableEq κ] {A : CopyRoutines} {w w' : World ι κ}

theorem exec_readFallible {i : ι} {k : κ} {s : ReaderState} {t : WriterState}
    (hi : w.readers i = some s) (hk : w.writers k = some t) :
    w.exec A (.readFallible i k) = .ok (w.copied i k s t
      (countOf (s.reader.readFallible A w.machine t.writer).1)
      (s.reader.readFallible A w.machine t.writer).2) := by
  rw [exec, withReader, hi]
  show w.withWriter k _ = _
  rw [withWriter, hk]

theorem exec_writeValFallible {k : κ} {t : WriterState} {val : List UInt8}
    {res : Except Error Unit × Memory × VmWriter} (hk : w.writers k = some t)
    (hres : t.writer.writeValFallible A w.machine val = res) :
    w.exec A (.writeValFallible k val) = .ok (w.wrote k t (givenOf res.1 val) res.2) := by
  rw [exec, withWriter, hk, ← hres]

/-- **No byte of a stream is lost, repeated or torn.**  With routines that do what is documented,
in every run in which kernel buffers have one writer or any number of readers, what a reader of a
kernel buffer has read up to its cursor is what was in the buffer when the reader was made, and
what a writer of a kernel buffer was given up to its cursor stands there. -/
theorem streams_intact (hA : A.Documented) (h : (system A ι κ).Reachable w) :
    (∀ i s, w.readers i = some s → s.kernel = true →
      s.reader.cursor = s.first + s.out.length ∧
        ∀ (j : ℕ) (b : UInt8), s.out[j]? = some (some b) → s.content[j]? = some b) ∧
    ∀ k t, w.writers k = some t → t.kernel = true →
      t.writer.cursor = t.first + t.inp.length ∧
        ∀ (j : ℕ) (b : UInt8), t.inp[j]? = some (some b) → w.machine.mem (t.first + j) = b := by
  have hinv := Inv.of_reachable hA h
  refine ⟨fun i s hi hkernel => ?_, fun k t hk hkernel => ?_⟩
  · have hs := hinv.reader i s hi
    exact ⟨hs.within.cursor_eq, hs.seen hkernel⟩
  · have ht := hinv.writer k t hk
    exact ⟨ht.within.cursor_eq, ht.given hkernel⟩

/-- A machine whose user memory ends after the fourth byte of a page. -/
def shortPage : Machine :=
  ⟨fun _ => 7, fun x => decide (x < 4100) || decide (MAX_USERSPACE_VADDR ≤ x)⟩

/-- A kernel buffer of eight bytes is filled from user memory, as far as the page goes. -/
theorem streams_intact_page_fault :
    ∃ w t, (system .recovering Unit Unit).Reachable w ∧ w.writers () = some t ∧ t.kernel = true ∧
      t.writer.cursor = MAX_USERSPACE_VADDR + 4 ∧ w.machine.mem (MAX_USERSPACE_VADDR + 3) = 7 := by
  have h₁ : (system .recovering Unit Unit).Reachable (newWriter
      ⟨shortPage, fun _ => none, fun _ => none⟩ () true (.fromSpace MAX_USERSPACE_VADDR 8)
      MAX_USERSPACE_VADDR 8) :=
    .step (l := .kernelWriter () MAX_USERSPACE_VADDR 8) (.init ⟨fun _ => rfl, fun _ => rfl⟩)
      ⟨⟨le_rfl, by decide, (fun _ _ h => by cases h), fun _ _ h => by cases h⟩, rfl⟩
  have h₂ : (system .recovering Unit Unit).Reachable (newReader (newWriter
      ⟨shortPage, fun _ => none, fun _ => none⟩ () true (.fromSpace MAX_USERSPACE_VADDR 8)
      MAX_USERSPACE_VADDR 8) () false ⟨4096, 4104⟩ 4096 8) :=
    .step (l := .userReader () 0 0 4096 8) h₁ ⟨trivial, rfl⟩
  have h₃ : (system .recovering Unit Unit).Reachable _ :=
    .step (l := .readFallible () ()) h₂ ⟨trivial, exec_readFallible rfl rfl⟩
  have hcount : countOf (VmReader.readFallible .recovering shortPage ⟨4096, 4104⟩
      (.fromSpace MAX_USERSPACE_VADDR 8)).1 = 4 := by decide
  obtain ⟨hcursor, hbytes⟩ :=
    (streams_intact (CopyRoutines.stopAt_documented _) h₃).2 () _ rfl rfl
  refine ⟨_, _, h₃, rfl, rfl, hcursor.trans ?_, hbytes 3 7 ?_⟩
  · show MAX_USERSPACE_VADDR + (List.map some (Memory.load (fun _ => 7) 4096 _)).length = _
    rw [List.length_map, Memory.length_load]
    exact congrArg (MAX_USERSPACE_VADDR + ·) hcount
  · exact (congrArg (fun n => (List.map some (Memory.load (fun _ => 7) 4096 n))[3]?)
      hcount).trans rfl

/-- **Nothing is written outside of the writers' ranges**, and through a writer of user memory
nothing outside of user space: an operation changes memory only in the range of a writer that
there is. -/
theorem writes_contained (hA : A.Documented) (h : (system A ι κ).Reachable w) {op : Op ι κ}
    (hstep : (system A ι κ).step w op w') (hop : ∀ m, op ≠ .env m) {x : ℕ}
    (hx : w'.machine.mem x ≠ w.machine.mem x) :
    ∃ k t, w.writers k = some t ∧ t.first ≤ x ∧ x < t.last ∧
      (t.kernel = false → x < MAX_USERSPACE_VADDR) := by
  have hinv := Inv.of_reachable hA h
  obtain ⟨k, t, hk, hle, hlt⟩ := (hinv.effect hA hop hstep.1 hstep.2).mem_ne hx
  have ht := (hinv.writer k t hk).within
  have hcur := ht.first_le
  have hstop := ht.stop_le
  refine ⟨k, t, hk, by omega, by omega, fun hkernel => ?_⟩
  have := ht.user hkernel
  omega

/-- A byte is written to user memory. -/
theorem writes_contained_user_byte :
    ∃ w w', (system .unchecked Unit Unit).Reachable w ∧
      (system .unchecked Unit Unit).step w (.writeValFallible () [1]) w' ∧
      w'.machine.mem 4096 ≠ w.machine.mem 4096 ∧ ∃ t, w.writers () = some t ∧ t.first ≤ 4096 := by
  have h₁ : (system .unchecked Unit Unit).Reachable (newWriter
      ⟨⟨fun _ => 0, fun _ => true⟩, fun _ => none, fun _ => none⟩ () false ⟨4096, 4104⟩ 4096 8) :=
    .step (l := .userWriter () 0 0 4096 8) (.init ⟨fun _ => rfl, fun _ => rfl⟩) ⟨trivial, rfl⟩
  have hwrite : VmWriter.writeValFallible .unchecked ⟨fun _ => 0, fun _ => true⟩ ⟨4096, 4104⟩ [1] =
      (.ok (), Memory.store (fun _ => 0) 4096 [1], ⟨4097, 4104⟩) := rfl
  have hexec := exec_writeValFallible (w := (newWriter
    ⟨⟨fun _ => 0, fun _ => true⟩, fun _ => none, fun _ => none⟩ () false ⟨4096, 4104⟩ 4096 8 :
      World Unit Unit)) (k := ()) rfl hwrite
  have hx : Memory.store (fun _ => 0) 4096 [1] 4096 ≠ 0 := by decide
  have hstep : (system .unchecked Unit Unit).step _ (.writeValFallible () [1]) _ := ⟨trivial, hexec⟩
  obtain ⟨k, t, hk, hle, -⟩ := writes_contained (CopyRoutines.stopAt_documented _) h₁ hstep
    (fun _ => nofun) (x := 4096) hx
  exact ⟨_, _, h₁, hstep, hx, t, hk, hle⟩

end World

end Vostd.MemIo
