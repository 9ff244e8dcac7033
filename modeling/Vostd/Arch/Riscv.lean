/-
# Page table entries on RISC-V

`PageTableEntry` of `arch/riscv/mm/mod.rs`.  `prop` reads the ACCESSED and DIRTY bits of the
word; `set_prop`, which rebuilds all bits next to the address, has no line for them.  A
property is read back without them, and so is exactly kept if it has neither.
-/
import Vostd.Arch.Entry

namespace Vostd

open Exec

namespace Riscv

/-! ## The code -/

/-- The mapped frame or page table is valid. -/
def VALID : BitVec 64 := BitVec.twoPow 64 0
/-- Reads are allowed. -/
def READABLE : BitVec 64 := BitVec.twoPow 64 1
/-- Writes are allowed. -/
def WRITABLE : BitVec 64 := BitVec.twoPow 64 2
/-- Execution is allowed. -/
def EXECUTABLE : BitVec 64 := BitVec.twoPow 64 3
/-- Accesses from userspace are permitted. -/
def USER : BitVec 64 := BitVec.twoPow 64 4
/-- The mapping is present in all address spaces. -/
def GLOBAL : BitVec 64 := BitVec.twoPow 64 5
/-- The memory area is accessed. -/
def ACCESSED : BitVec 64 := BitVec.twoPow 64 6
/-- The memory area is modified. -/
def DIRTY : BitVec 64 := BitVec.twoPow 64 7
/-- First bit ignored by MMU. -/
def RSV1 : BitVec 64 := BitVec.twoPow 64 8
/-- Second bit ignored by MMU. -/
def RSV2 : BitVec 64 := BitVec.twoPow 64 9
/-- I/O memory. -/
def PBMT_IO : BitVec 64 := BitVec.twoPow 64 62

/-- `PHYS_ADDR_MASK` -/
def PHYS_ADDR_MASK : BitVec 64 := BitVec.ofNat 64 0x003FFFFFFFFFFC00

/-- `new_paddr` -/
def newPaddr (pa : BitVec 64) : PageTableEntry := ⟨pa >>> 12 <<< 10⟩

/-- `is_present` -/
def isPresent (e : PageTableEntry) : Bool := decide (e.raw &&& VALID ≠ 0)

/-- `is_last` -/
def isLast (e : PageTableEntry) (level : ℕ) : Bool :=
  decide (level = 1) || decide (e.raw &&& (READABLE ||| WRITABLE ||| EXECUTABLE) ≠ 0)

/-- `paddr` -/
def paddr (e : PageTableEntry) : BitVec 64 := (e.raw &&& PHYS_ADDR_MASK) >>> 10 <<< 12

/-- The flags that `prop` reads. -/
def readFlags (raw : BitVec 64) : BitVec 64 :=
  parseFlags raw READABLE PageFlags.R ||| parseFlags raw WRITABLE PageFlags.W |||
    parseFlags raw EXECUTABLE PageFlags.X ||| parseFlags raw ACCESSED PageFlags.ACCESSED |||
    parseFlags raw DIRTY PageFlags.DIRTY ||| parseFlags raw RSV1 PageFlags.AVAIL1 |||
    parseFlags raw RSV2 PageFlags.AVAIL2

/-- The privileged flags that `prop` reads. -/
def readPrivFlags (raw : BitVec 64) : BitVec 64 :=
  parseFlags raw USER PrivFlags.USER ||| parseFlags raw GLOBAL PrivFlags.GLOBAL

/-- The cache policy that `prop` reads. -/
def readCache (raw : BitVec 64) : CachePolicy :=
  if raw &&& PBMT_IO ≠ 0 then .uncacheable else .writeback

/-- `prop` -/
def prop (e : PageTableEntry) : Exec (PageProperty false) := do
  let flags ← Exec.unwrap (Flags.fromBits ((readFlags e.raw).setWidth 8))
  let privFlags ← Exec.unwrap (Flags.fromBits ((readPrivFlags e.raw).setWidth 8))
  .ok ⟨flags, readCache e.raw, privFlags⟩

/-- The flags that `set_prop` writes. -/
def writeFlags (p : PageProperty false) : BitVec 64 :=
  VALID ||| parseFlags p.flags.bits PageFlags.R READABLE |||
    parseFlags p.flags.bits PageFlags.W WRITABLE |||
    parseFlags p.flags.bits PageFlags.X EXECUTABLE |||
    parseFlags p.privFlags.bits PrivFlags.USER USER |||
    parseFlags p.privFlags.bits PrivFlags.GLOBAL GLOBAL |||
    parseFlags p.flags.bits PageFlags.AVAIL1 RSV1 |||
    parseFlags p.flags.bits PageFlags.AVAIL2 RSV2

/-- The bits for a cache policy that `set_prop` writes; it panics on the others. -/
def writeCache : CachePolicy → Exec (BitVec 64)
  | .writeback => .ok 0
  | .uncacheable => .ok PBMT_IO
  | .writethrough | .writeCombining | .writeProtected => .error .assertion

/-- `set_prop` -/
def setProp (e : PageTableEntry) (p : PageProperty false) : Exec PageTableEntry :=
  if !isPresent e then .ok e
  else do
    let cache ← writeCache p.cache
    .ok ⟨e.raw &&& PHYS_ADDR_MASK ||| (writeFlags p ||| cache)⟩

/-- `new_page` -/
def newPage (pa : BitVec 64) (_level : ℕ) (p : PageProperty false) : Exec PageTableEntry :=
  setProp ⟨(newPaddr pa).raw ||| VALID⟩ p

/-- `new_pt` -/
def newPt (pa : BitVec 64) : PageTableEntry := ⟨(newPaddr pa).raw ||| VALID⟩

/-- The entries of RISC-V. -/
def entry : PageTableEntryTrait (PageProperty false) where
  newAbsent := ⟨0⟩
  isPresent := isPresent
  newPage := newPage
  newPt := newPt
  paddr := paddr
  prop := prop
  setProp := setProp
  isLast := isLast

/-! ## The bits of the words -/

theorem getLsbD_readFlags (raw : BitVec 64) (k : ℕ) : (readFlags raw).getLsbD k =
    ((decide (k = 0) && raw.getLsbD 1) || (decide (k = 1) && raw.getLsbD 2) ||
      (decide (k = 2) && raw.getLsbD 3) || (decide (k = 3) && raw.getLsbD 6) ||
      (decide (k = 4) && raw.getLsbD 7) || (decide (k = 6) && raw.getLsbD 8) ||
      (decide (k = 7) && raw.getLsbD 9)) := by
  unfold readFlags READABLE WRITABLE EXECUTABLE ACCESSED DIRTY RSV1 RSV2 PageFlags.R
    PageFlags.W PageFlags.X PageFlags.ACCESSED PageFlags.DIRTY PageFlags.AVAIL1 PageFlags.AVAIL2
  simp (disch := omega) only [BitVec.getLsbD_or, getLsbD_parseFlags]

theorem getLsbD_readPrivFlags (raw : BitVec 64) (k : ℕ) : (readPrivFlags raw).getLsbD k =
    ((decide (k = 0) && raw.getLsbD 4) || (decide (k = 1) && raw.getLsbD 5)) := by
  unfold readPrivFlags USER GLOBAL PrivFlags.USER PrivFlags.GLOBAL
  simp (disch := omega) only [BitVec.getLsbD_or, getLsbD_parseFlags]

theorem getLsbD_writeFlags (p : PageProperty false) (k : ℕ) : (writeFlags p).getLsbD k =
    (decide (k = 0) || (decide (k = 1) && p.flags.bits.getLsbD 0) ||
      (decide (k = 2) && p.flags.bits.getLsbD 1) || (decide (k = 3) && p.flags.bits.getLsbD 2) ||
      (decide (k = 4) && p.privFlags.bits.getLsbD 0) ||
      (decide (k = 5) && p.privFlags.bits.getLsbD 1) ||
      (decide (k = 8) && p.flags.bits.getLsbD 6) ||
        (decide (k = 9) && p.flags.bits.getLsbD 7)) := by
  unfold writeFlags VALID READABLE WRITABLE EXECUTABLE USER GLOBAL RSV1 RSV2 PageFlags.R
    PageFlags.W PageFlags.X PageFlags.AVAIL1 PageFlags.AVAIL2 PrivFlags.USER PrivFlags.GLOBAL
  simp (disch := omega) only [BitVec.getLsbD_or, getLsbD_parseFlags]
  rw [BitVec.getLsbD_twoPow]
  simp [eq_comm]

/-- The properties of a page that `set_prop` accepts. -/
def Accepted (p : PageProperty false) : Prop :=
  (p.cache = .writeback ∨ p.cache = .uncacheable) ∧
    (p.flags.contains PageFlags.R = true ∨ p.flags.contains PageFlags.W = true ∨
      p.flags.contains PageFlags.X = true)

instance decidableAccepted (p : PageProperty false) : Decidable (Accepted p) :=
  inferInstanceAs (Decidable (_ ∧ _))

/-- The bits for an accepted cache policy. -/
def cacheWord (c : CachePolicy) : BitVec 64 := if c = .uncacheable then PBMT_IO else 0

/-- The part of the word that `set_prop` writes. -/
def flagWord (p : PageProperty false) : BitVec 64 := writeFlags p ||| cacheWord p.cache

theorem writeCache_eq {p : PageProperty false} (h : Accepted p) :
    writeCache p.cache = .ok (cacheWord p.cache) := by
  rcases h.1 with h | h <;> rw [h] <;> rfl

theorem getLsbD_flagWord (p : PageProperty false) (k : ℕ) : (flagWord p).getLsbD k =
    ((writeFlags p).getLsbD k || (decide (k = 62) && decide (p.cache = .uncacheable))) := by
  unfold flagWord cacheWord PBMT_IO
  rw [BitVec.getLsbD_or]
  by_cases hc : p.cache = .uncacheable
  · rw [if_pos hc, BitVec.getLsbD_twoPow]
    simp [hc, eq_comm]
  · simp [hc]

/-- Where the flags are. -/
theorem mem_of_getLsbD_flagWord {p : PageProperty false} {k : ℕ}
    (hk : (flagWord p).getLsbD k = true) : k ∈ [0, 1, 2, 3, 4, 5, 8, 9, 62] := by
  rw [getLsbD_flagWord, getLsbD_writeFlags] at hk
  simp only [Bool.or_eq_true, Bool.and_eq_true, decide_eq_true_eq] at hk
  simp only [List.mem_cons, List.not_mem_nil, or_false]
  tauto

/-- The two parts of the word do not overlap. -/
theorem flagWord_and (p : PageProperty false) : flagWord p &&& PHYS_ADDR_MASK = 0 := by
  apply and_eq_zero_of_forall
  intro k hk
  have hall : ∀ k ∈ [0, 1, 2, 3, 4, 5, 8, 9, 62], PHYS_ADDR_MASK.getLsbD k = false := by decide
  exact hall k (mem_of_getLsbD_flagWord hk)

theorem getLsbD_newPaddr (pa : BitVec 64) (k : ℕ) : (newPaddr pa).raw.getLsbD k =
    (decide (k < 64) && (!decide (k < 10) && pa.getLsbD (12 + (k - 10)))) := by
  unfold newPaddr
  rw [BitVec.getLsbD_shiftLeft, BitVec.getLsbD_ushiftRight, Bool.and_assoc]

theorem newPaddr_and {pa : BitVec 64} (hpa : FrameAddr 56 pa) :
    (newPaddr pa).raw &&& PHYS_ADDR_MASK = (newPaddr pa).raw := by
  apply and_eq_self_of_forall
  intro k hk
  rw [getLsbD_newPaddr] at hk
  simp only [Bool.and_eq_true, Bool.not_eq_true', decide_eq_true_eq, decide_eq_false_iff_not] at hk
  have hbits := hpa.of_getLsbD hk.2.2
  have hmask : ∀ k < 54, 10 ≤ k → PHYS_ADDR_MASK.getLsbD k = true := by decide
  exact hmask k (by omega) (by omega)

/-! ## What an entry reads -/

/-- The word of an entry for a page. -/
def Represents (pa : BitVec 64) (e : PageTableEntry) (p : PageProperty false) : Prop :=
  e.raw = (newPaddr pa).raw ||| flagWord p

/-- The property that is read back: ACCESSED and DIRTY are lost. -/
def readBack (p : PageProperty false) : PageProperty false where
  flags := ⟨p.flags.bits &&& BitVec.ofNat 8 0b11100111, by
    rw [BitVec.and_assoc, BitVec.and_comm _ pageFlagsAll, ← BitVec.and_assoc, p.flags.declared]⟩
  cache := p.cache
  privFlags := p.privFlags

section

variable {pa : BitVec 64} {e : PageTableEntry} {p q : PageProperty false}

theorem isPresent_of_getLsbD (h : e.raw.getLsbD 0 = true) : isPresent e = true := by
  have hvalid : e.raw &&& VALID ≠ 0 := (and_twoPow_ne_zero (by omega)).mpr h
  exact decide_eq_true hvalid

theorem setProp_eq (h : e.raw.getLsbD 0 = true) (hq : Accepted q) :
    setProp e q = .ok ⟨e.raw &&& PHYS_ADDR_MASK ||| flagWord q⟩ := by
  unfold setProp
  rw [isPresent_of_getLsbD h, writeCache_eq hq]
  rfl

theorem newPage_eq (hpa : FrameAddr 56 pa) (level : ℕ) (hq : Accepted q) :
    newPage pa level q = .ok ⟨(newPaddr pa).raw ||| flagWord q⟩ := by
  have hvalid : ((newPaddr pa).raw ||| VALID).getLsbD 0 = true := by
    unfold VALID
    rw [BitVec.getLsbD_or, BitVec.getLsbD_twoPow]
    simp
  unfold newPage
  rw [setProp_eq hvalid hq]
  show Except.ok (⟨((newPaddr pa).raw ||| VALID) &&& PHYS_ADDR_MASK ||| flagWord q⟩ :
    PageTableEntry) = _
  rw [or_and_of_disjoint (newPaddr_and hpa) (by decide)]

namespace Represents

theorem valid (h : Represents pa e p) : e.raw.getLsbD 0 = true := by
  rw [h, BitVec.getLsbD_or, getLsbD_flagWord, getLsbD_writeFlags]
  simp

theorem setProp (h : Represents pa e p) (hpa : FrameAddr 56 pa) (hq : Accepted q) :
    ∃ e', setProp e q = .ok e' ∧ Represents pa e' q := by
  refine ⟨_, setProp_eq h.valid hq, ?_⟩
  show e.raw &&& PHYS_ADDR_MASK ||| flagWord q = _
  rw [h, or_and_of_disjoint (newPaddr_and hpa) (flagWord_and p)]

/-- The bits next to the address. -/
theorem getLsbD_raw (h : Represents pa e p) (hpa : FrameAddr 56 pa) {k : ℕ}
    (hk : PHYS_ADDR_MASK.getLsbD k = false) : e.raw.getLsbD k = (flagWord p).getLsbD k := by
  rw [h, getLsbD_or_of_field (newPaddr_and hpa) hk]

theorem paddr (h : Represents pa e p) (hpa : FrameAddr 56 pa) : paddr e = pa := by
  unfold Riscv.paddr
  rw [h, or_and_of_disjoint (newPaddr_and hpa) (flagWord_and p)]
  apply BitVec.eq_of_getLsbD_eq
  intro k hk
  rw [BitVec.getLsbD_shiftLeft, BitVec.getLsbD_ushiftRight, getLsbD_newPaddr]
  by_cases h12 : k < 12
  · have hlow : pa.getLsbD k = false := by
      rw [Bool.eq_false_iff]
      intro hbit
      exact absurd (hpa.of_getLsbD hbit).1 (by omega)
    simp [h12, hlow]
  · have hidx : 12 + (10 + (k - 12) - 10) = k := by omega
    have h10 : ¬10 + (k - 12) < 10 := by omega
    have h64 : 10 + (k - 12) < 64 := by omega
    rw [hidx]
    simp [hk, h12, h10, h64]

theorem isLast (h : Represents pa e p) (hp : Accepted p) (level : ℕ) : isLast e level = true := by
  have hbit : ∀ i, p.flags.contains (BitVec.twoPow 8 i) = true → i < 3 →
      e.raw.getLsbD (i + 1) = true := by
    intro i hi hlt
    rw [Flags.contains_twoPow _ (by omega)] at hi
    rw [h, BitVec.getLsbD_or, getLsbD_flagWord, getLsbD_writeFlags]
    interval_cases i <;> simp_all
  have hrwx : e.raw &&& (READABLE ||| WRITABLE ||| EXECUTABLE) ≠ 0 := by
    rcases hp.2 with h0 | h1 | h2
    · exact and_ne_zero_of_getLsbD (hbit 0 h0 (by omega)) (by decide)
    · exact and_ne_zero_of_getLsbD (hbit 1 h1 (by omega)) (by decide)
    · exact and_ne_zero_of_getLsbD (hbit 2 h2 (by omega)) (by decide)
  unfold Riscv.isLast
  rw [decide_eq_true hrwx, Bool.or_true]

theorem readFlags (h : Represents pa e p) (hpa : FrameAddr 56 pa) :
    (readFlags e.raw).setWidth 8 = (readBack p).flags.bits := by
  have hundeclared : p.flags.bits.getLsbD 5 = false :=
    p.flags.getLsbD_of_not_declared (by decide)
  apply BitVec.eq_of_getLsbD_eq
  intro k hk
  show _ = (p.flags.bits &&& BitVec.ofNat 8 0b11100111).getLsbD k
  rw [BitVec.getLsbD_setWidth, getLsbD_readFlags, BitVec.getLsbD_and]
  iterate 7 rw [h.getLsbD_raw hpa (by decide)]
  simp only [getLsbD_flagWord, getLsbD_writeFlags]
  interval_cases k <;> simp [hundeclared, -BitVec.getLsbD_eq_getElem]

theorem readPrivFlags (h : Represents pa e p) (hpa : FrameAddr 56 pa) :
    (readPrivFlags e.raw).setWidth 8 = p.privFlags.bits := by
  have h4 := h.getLsbD_raw hpa (k := 4) (by decide)
  have h5 := h.getLsbD_raw hpa (k := 5) (by decide)
  apply BitVec.eq_of_getLsbD_eq
  intro k hk
  rw [BitVec.getLsbD_setWidth, getLsbD_readPrivFlags, h4, h5]
  simp only [getLsbD_flagWord, getLsbD_writeFlags]
  by_cases hlow : k < 2
  · interval_cases k <;> simp
  · have hall : ∀ k < 8, ¬k < 2 → (privFlagsAll false).getLsbD k = false := by decide
    have h0 : k ≠ 0 := by omega
    have h1 : k ≠ 1 := by omega
    rw [p.privFlags.getLsbD_of_not_declared (hall k hk hlow)]
    simp [h0, h1]

theorem readCache (h : Represents pa e p) (hpa : FrameAddr 56 pa) (hp : Accepted p) :
    readCache e.raw = p.cache := by
  have hio : e.raw &&& PBMT_IO ≠ 0 ↔ p.cache = .uncacheable := by
    refine and_twoPow_ne_zero_iff (by omega) ?_
    rw [h.getLsbD_raw hpa (by decide), getLsbD_flagWord, getLsbD_writeFlags]
    simp
  unfold Riscv.readCache
  simp only [hio]
  rcases hp.1 with hc | hc <;> rw [hc] <;> rfl

/-- **The word describes the page**, but for the two bits. -/
theorem describes (h : Represents pa e p) (hpa : FrameAddr 56 pa) (hp : Accepted p) (level : ℕ) :
    entry.Describes e level pa (readBack p) := by
  refine ⟨isPresent_of_getLsbD h.valid, h.isLast hp level, h.paddr hpa, ?_⟩
  show prop e = .ok (readBack p)
  unfold prop
  rw [h.readFlags hpa, h.readPrivFlags hpa, h.readCache hpa hp, Flags.fromBits_bits,
    Flags.fromBits_bits]
  rfl

end Represents

theorem readBack_eq_iff : readBack p = p ↔ p.flags.contains PageFlags.ACCESSED = false ∧
    p.flags.contains PageFlags.DIRTY = false := by
  rw [show PageFlags.ACCESSED = BitVec.twoPow 8 3 from rfl,
    show PageFlags.DIRTY = BitVec.twoPow 8 4 from rfl, Flags.contains_twoPow _ (by omega),
    Flags.contains_twoPow _ (by omega)]
  have hbits : readBack p = p ↔ p.flags.bits &&& BitVec.ofNat 8 0b11100111 = p.flags.bits := by
    obtain ⟨⟨bits, hdecl⟩, cache, priv⟩ := p
    simp [readBack]
  rw [hbits]
  constructor
  · intro heq
    rw [← heq, BitVec.getLsbD_and, BitVec.getLsbD_and]
    simp
  · rintro ⟨h3, h4⟩
    apply and_eq_self_of_forall
    intro k hk
    have hlt := BitVec.lt_of_getLsbD hk
    have hne : k ≠ 3 ∧ k ≠ 4 := by
      constructor
      · rintro rfl
        rw [h3] at hk
        cases hk
      · rintro rfl
        rw [h4] at hk
        cases hk
    have hall : ∀ k < 8, k ≠ 3 ∧ k ≠ 4 → (BitVec.ofNat 8 0b11100111).getLsbD k = true := by decide
    exact hall k hlt hne

end

/-- **The RISC-V codec** keeps what it is given, at every moment of a sequence of `set_prop`,
exactly if none of the properties has ACCESSED or DIRTY. -/
theorem riscv_records_iff (pa : BitVec 64) (hpa : FrameAddr 56 pa) (level : ℕ)
    (p : PageProperty false) (ps : List (PageProperty false)) (hps : ∀ q ∈ p :: ps, Accepted q) :
    (∀ qs, qs <+: ps → entry.Records pa level p qs) ↔
      ∀ q ∈ p :: ps, q.flags.contains PageFlags.ACCESSED = false ∧
        q.flags.contains PageFlags.DIRTY = false := by
  rw [PageTableEntryTrait.records_iff_of_read (I := Accepted) (Represents pa) readBack ?_ ?_ ?_ hps]
  · simp only [readBack_eq_iff]
  · intro q hq
    exact ⟨_, newPage_eq hpa level hq, rfl⟩
  · intro e q q' hR hq'
    exact hR.setProp hpa hq'
  · intro e q hR hq
    exact hR.describes hpa hq level

/-- A readable user page made writable, and then executable. -/
theorem riscv_records_iff_sample :
    entry.Records 4096 1 ⟨⟨1, by decide⟩, .writeback, ⟨1, by decide⟩⟩
      [⟨⟨3, by decide⟩, .writeback, ⟨1, by decide⟩⟩,
        ⟨⟨5, by decide⟩, .writeback, ⟨1, by decide⟩⟩] :=
  (riscv_records_iff 4096 (by decide) 1 ⟨⟨1, by decide⟩, .writeback, ⟨1, by decide⟩⟩
    [⟨⟨3, by decide⟩, .writeback, ⟨1, by decide⟩⟩, ⟨⟨5, by decide⟩, .writeback, ⟨1, by decide⟩⟩]
    (by decide)).mpr (by decide) _ List.prefix_rfl

/-- **A page that is accessed and dirty is read back as neither.** -/
theorem riscv_loses_accessed :
    ∃ e, newPage 4096 1 ⟨⟨27, by decide⟩, .writeback, ⟨1, by decide⟩⟩ = .ok e ∧
    prop e = .ok ⟨⟨3, by decide⟩, .writeback, ⟨1, by decide⟩⟩ := by
  refine ⟨_, newPage_eq (by decide) 1 (by decide), ?_⟩
  decide

end Riscv

end Vostd
