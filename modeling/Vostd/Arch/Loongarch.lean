/-
# Page table entries on LoongArch

`PageTableEntry` of `arch/loongarch/mm/mod.rs`.  The memory access type of a page is in two bits
of the word: `set_prop` writes one of them for write-back, the other one for write-combining
and none for uncacheable pages.  `prop` has write-back in its last branch too, so an uncacheable
page is read back as a write-back page.
-/
import Vostd.Arch.Entry

namespace Vostd

open Exec

namespace Loongarch

/-! ## The code -/

/-- The mapped frame is valid. -/
def VALID : BitVec 64 := BitVec.twoPow 64 0
/-- The memory area is modified. -/
def DIRTY : BitVec 64 := BitVec.twoPow 64 1
/-- Low bit of the privilege level. -/
def PLVL : BitVec 64 := BitVec.twoPow 64 2
/-- High bit of the privilege level. -/
def PLVH : BitVec 64 := BitVec.twoPow 64 3
/-- Low bit of the memory access type. -/
def MATL : BitVec 64 := BitVec.twoPow 64 4
/-- High bit of the memory access type. -/
def MATH : BitVec 64 := BitVec.twoPow 64 5
/-- `GLOBAL` in an entry for a basic page, `HUGE` in one for a huge page. -/
def GLOBAL_OR_HUGE : BitVec 64 := BitVec.twoPow 64 6
/-- The mapped frame or page table is loaded in memory. -/
def PRESENT : BitVec 64 := BitVec.twoPow 64 7
/-- Writes are allowed. -/
def WRITABLE : BitVec 64 := BitVec.twoPow 64 8
/-- The entry is one for a basic page. -/
def IS_BASIC : BitVec 64 := BitVec.twoPow 64 9
/-- First bit ignored by MMU. -/
def RSV1 : BitVec 64 := BitVec.twoPow 64 10
/-- Second bit ignored by MMU. -/
def RSV2 : BitVec 64 := BitVec.twoPow 64 11
/-- `GLOBAL` in an entry for a huge page. -/
def GLOBAL_IN_HUGE : BitVec 64 := BitVec.twoPow 64 12
/-- Reads are not allowed. -/
def NOT_READABLE : BitVec 64 := BitVec.twoPow 64 61
/-- Execution is not allowed. -/
def NOT_EXECUTABLE : BitVec 64 := BitVec.twoPow 64 62

/-- `PHYS_ADDR_MASK` -/
def PHYS_ADDR_MASK : BitVec 64 := BitVec.ofNat 64 0x0000FFFFFFFFF000

/-- `is_huge` -/
def isHuge (e : PageTableEntry) : Bool :=
  if e.raw &&& IS_BASIC ≠ 0 then false else decide (e.raw &&& GLOBAL_OR_HUGE ≠ 0)

/-- `is_global` -/
def isGlobal (e : PageTableEntry) : Bool :=
  if e.raw &&& IS_BASIC ≠ 0 then decide (e.raw &&& GLOBAL_OR_HUGE ≠ 0)
  else decide (e.raw &&& GLOBAL_IN_HUGE ≠ 0)

/-- `is_user` -/
def isUser (e : PageTableEntry) : Bool :=
  decide (e.raw &&& PLVL ≠ 0) && decide (e.raw &&& PLVH ≠ 0)

/-- `is_present` -/
def isPresent (e : PageTableEntry) : Bool := decide (e.raw &&& VALID ≠ 0)

/-- `is_last` -/
def isLast (e : PageTableEntry) (level : ℕ) : Bool := decide (level = 1) || isHuge e

/-- `paddr` -/
def paddr (e : PageTableEntry) : BitVec 64 :=
  if isHuge e then (e.raw &&& PHYS_ADDR_MASK &&& ~~~GLOBAL_IN_HUGE) >>> 12 <<< 12
  else (e.raw &&& PHYS_ADDR_MASK) >>> 12 <<< 12

/-- The flags that `prop` reads. -/
def readFlags (raw : BitVec 64) : BitVec 64 :=
  parseFlags (~~~raw) NOT_READABLE PageFlags.R ||| parseFlags raw WRITABLE PageFlags.W |||
    parseFlags (~~~raw) NOT_EXECUTABLE PageFlags.X ||| parseFlags raw PRESENT PageFlags.ACCESSED |||
    parseFlags raw DIRTY PageFlags.DIRTY ||| parseFlags raw RSV1 PageFlags.AVAIL1 |||
    parseFlags raw RSV2 PageFlags.AVAIL2

/-- The privileged flags that `prop` reads. -/
def readPrivFlags (e : PageTableEntry) : BitVec 8 :=
  (if isUser e then PrivFlags.USER else 0) ||| (if isGlobal e then PrivFlags.GLOBAL else 0)

/-- The cache policy that `prop` reads. -/
def readCache (raw : BitVec 64) : CachePolicy :=
  if raw &&& MATL ≠ 0 then .writeback
  else if raw &&& MATH ≠ 0 then .writeCombining
  else .writeback

/-- `prop` -/
def prop (e : PageTableEntry) : Exec (PageProperty false) := do
  let flags ← Exec.unwrap (Flags.fromBits ((readFlags e.raw).setWidth 8))
  let privFlags ← Exec.unwrap (Flags.fromBits (readPrivFlags e))
  .ok ⟨flags, readCache e.raw, privFlags⟩

/-- The flags that `set_prop` writes. -/
def writeFlags (p : PageProperty false) : BitVec 64 :=
  VALID ||| DIRTY ||| parseFlags (~~~p.flags.bits) PageFlags.R NOT_READABLE |||
    parseFlags p.flags.bits PageFlags.W WRITABLE |||
    parseFlags (~~~p.flags.bits) PageFlags.X NOT_EXECUTABLE |||
    parseFlags p.flags.bits PageFlags.DIRTY DIRTY |||
    parseFlags p.flags.bits PageFlags.ACCESSED PRESENT |||
    parseFlags p.flags.bits PageFlags.AVAIL1 RSV1 |||
    parseFlags p.flags.bits PageFlags.AVAIL2 RSV2

/-- The privileged flags that `set_prop` writes. -/
def writePrivFlags (huge : Bool) (p : PageProperty false) : BitVec 64 :=
  (if p.privFlags.contains PrivFlags.USER then PLVL ||| PLVH else 0) |||
    (if p.privFlags.contains PrivFlags.GLOBAL then
      if huge then GLOBAL_IN_HUGE else GLOBAL_OR_HUGE
    else 0)

/-- The bits for a cache policy that `set_prop` writes; it panics on the others. -/
def writeCache : CachePolicy → Exec (BitVec 64)
  | .writeback => .ok MATL
  | .uncacheable => .ok 0
  | .writeCombining => .ok MATH
  | .writethrough | .writeProtected => .error .assertion

/-- `set_prop` -/
def setProp (e : PageTableEntry) (p : PageProperty false) : Exec PageTableEntry :=
  if !isPresent e then .ok e
  else do
    let cache ← writeCache p.cache
    .ok ⟨e.raw &&& (PHYS_ADDR_MASK ||| IS_BASIC) |||
      (writeFlags p ||| writePrivFlags (isHuge e) p ||| cache)⟩

/-- `new_page` -/
def newPage (pa : BitVec 64) (level : ℕ) (p : PageProperty false) : Exec PageTableEntry := do
  let flags := if level = 1 then IS_BASIC else GLOBAL_OR_HUGE
  let pte ← setProp ⟨pa &&& PHYS_ADDR_MASK ||| VALID ||| flags⟩ p
  .ok ⟨pte.raw ||| flags⟩

/-- `new_pt` -/
def newPt (pa : BitVec 64) : PageTableEntry := ⟨pa &&& PHYS_ADDR_MASK ||| VALID⟩

/-- The entries of LoongArch. -/
def entry : PageTableEntryTrait (PageProperty false) where
  newAbsent := ⟨0⟩
  isPresent := isPresent
  newPage := newPage
  newPt := newPt
  paddr := paddr
  prop := prop
  setProp := setProp
  isLast := isLast

/-! ## The bits of the words -/

theorem getLsbD_readFlags (raw : BitVec 64) (k : ℕ) : (readFlags raw).getLsbD k =
    ((decide (k = 0) && !raw.getLsbD 61) || (decide (k = 1) && raw.getLsbD 8) ||
      (decide (k = 2) && !raw.getLsbD 62) || (decide (k = 3) && raw.getLsbD 7) ||
      (decide (k = 4) && raw.getLsbD 1) || (decide (k = 6) && raw.getLsbD 10) ||
      (decide (k = 7) && raw.getLsbD 11)) := by
  unfold readFlags NOT_READABLE WRITABLE NOT_EXECUTABLE PRESENT DIRTY RSV1 RSV2 PageFlags.R
    PageFlags.W PageFlags.X PageFlags.ACCESSED PageFlags.DIRTY PageFlags.AVAIL1 PageFlags.AVAIL2
  simp (disch := omega) only [BitVec.getLsbD_or, getLsbD_parseFlags]
  simp

theorem getLsbD_writeFlags (p : PageProperty false) (k : ℕ) : (writeFlags p).getLsbD k =
    (decide (k = 0) || decide (k = 1) || (decide (k = 61) && !p.flags.bits.getLsbD 0) ||
      (decide (k = 8) && p.flags.bits.getLsbD 1) || (decide (k = 62) && !p.flags.bits.getLsbD 2) ||
      (decide (k = 1) && p.flags.bits.getLsbD 4) || (decide (k = 7) && p.flags.bits.getLsbD 3) ||
      (decide (k = 10) && p.flags.bits.getLsbD 6) ||
      (decide (k = 11) && p.flags.bits.getLsbD 7)) := by
  unfold writeFlags VALID NOT_READABLE WRITABLE NOT_EXECUTABLE PRESENT DIRTY RSV1 RSV2 PageFlags.R
    PageFlags.W PageFlags.X PageFlags.ACCESSED PageFlags.DIRTY PageFlags.AVAIL1 PageFlags.AVAIL2
  simp (disch := omega) only [BitVec.getLsbD_or, getLsbD_parseFlags]
  rw [BitVec.getLsbD_twoPow, BitVec.getLsbD_twoPow]
  simp [eq_comm]

theorem getLsbD_writePrivFlags (p : PageProperty false) (k : ℕ) :
    (writePrivFlags false p).getLsbD k =
      (((decide (k = 2) || decide (k = 3)) && p.privFlags.bits.getLsbD 0) ||
        (decide (k = 6) && p.privFlags.bits.getLsbD 1)) := by
  unfold writePrivFlags PLVL PLVH GLOBAL_OR_HUGE
  rw [show PrivFlags.USER = BitVec.twoPow 8 0 from rfl,
    show PrivFlags.GLOBAL = BitVec.twoPow 8 1 from rfl, Flags.contains_twoPow _ (by omega),
    Flags.contains_twoPow _ (by omega)]
  cases p.privFlags.bits.getLsbD 0 <;> cases p.privFlags.bits.getLsbD 1 <;>
    simp [BitVec.getLsbD_twoPow, eq_comm]

/-- The properties of a page that `set_prop` accepts and that have the DIRTY bit, which it
always sets. -/
def Accepted (p : PageProperty false) : Prop :=
  (p.cache = .writeback ∨ p.cache = .uncacheable ∨ p.cache = .writeCombining) ∧
    p.flags.contains PageFlags.DIRTY = true

instance decidableAccepted (p : PageProperty false) : Decidable (Accepted p) :=
  inferInstanceAs (Decidable (_ ∧ _))

/-- The bits for an accepted cache policy. -/
def cacheWord (c : CachePolicy) : BitVec 64 :=
  if c = .writeback then MATL else if c = .writeCombining then MATH else 0

/-- The part of the word that `set_prop` writes in an entry for a basic page. -/
def flagWord (p : PageProperty false) : BitVec 64 :=
  writeFlags p ||| writePrivFlags false p ||| cacheWord p.cache

/-- The part of the word that `set_prop` keeps. -/
def pageWord (pa : BitVec 64) : BitVec 64 := pa &&& PHYS_ADDR_MASK ||| IS_BASIC

theorem writeCache_eq {p : PageProperty false} (h : Accepted p) :
    writeCache p.cache = .ok (cacheWord p.cache) := by
  rcases h.1 with h | h | h <;> rw [h] <;> rfl

theorem getLsbD_cacheWord (c : CachePolicy) (k : ℕ) : (cacheWord c).getLsbD k =
    ((decide (k = 4) && decide (c = .writeback)) ||
      (decide (k = 5) && decide (c = .writeCombining))) := by
  unfold cacheWord MATL MATH
  cases c with
  | writeback => simp [BitVec.getLsbD_twoPow, eq_comm]
  | writeCombining => simp [BitVec.getLsbD_twoPow, eq_comm]
  | uncacheable => simp
  | writethrough => simp
  | writeProtected => simp

theorem getLsbD_flagWord (p : PageProperty false) (k : ℕ) : (flagWord p).getLsbD k =
    ((writeFlags p).getLsbD k || (writePrivFlags false p).getLsbD k ||
      (cacheWord p.cache).getLsbD k) := by
  unfold flagWord
  rw [BitVec.getLsbD_or, BitVec.getLsbD_or]

/-- Where the flags are. -/
theorem mem_of_getLsbD_flagWord {p : PageProperty false} {k : ℕ}
    (hk : (flagWord p).getLsbD k = true) : k ∈ [0, 1, 2, 3, 4, 5, 6, 7, 8, 10, 11, 61, 62] := by
  rw [getLsbD_flagWord, getLsbD_writeFlags, getLsbD_writePrivFlags, getLsbD_cacheWord] at hk
  simp only [Bool.or_eq_true, Bool.and_eq_true, decide_eq_true_eq] at hk
  simp only [List.mem_cons, List.not_mem_nil, or_false]
  tauto

/-- The two parts of the word do not overlap. -/
theorem flagWord_and (p : PageProperty false) :
    flagWord p &&& (PHYS_ADDR_MASK ||| IS_BASIC) = 0 := by
  apply and_eq_zero_of_forall
  intro k hk
  have hall : ∀ k ∈ [0, 1, 2, 3, 4, 5, 6, 7, 8, 10, 11, 61, 62],
      (PHYS_ADDR_MASK ||| IS_BASIC).getLsbD k = false := by
    decide
  exact hall k (mem_of_getLsbD_flagWord hk)

theorem pageWord_and (pa : BitVec 64) :
    pageWord pa &&& (PHYS_ADDR_MASK ||| IS_BASIC) = pageWord pa := by
  apply and_eq_self_of_forall
  intro k hk
  unfold pageWord at hk
  rw [BitVec.getLsbD_or, BitVec.getLsbD_and] at hk
  rw [BitVec.getLsbD_or]
  cases hm : PHYS_ADDR_MASK.getLsbD k with
  | true => rfl
  | false =>
      rw [hm, Bool.and_false] at hk
      exact hk

/-! ## What an entry reads -/

/-- The word of an entry for a basic page. -/
def Represents (pa : BitVec 64) (e : PageTableEntry) (p : PageProperty false) : Prop :=
  e.raw = pageWord pa ||| flagWord p

/-- The property that is read back. -/
def readBack (p : PageProperty false) : PageProperty false :=
  { p with cache := if p.cache = .uncacheable then .writeback else p.cache }

section

variable {pa : BitVec 64} {e : PageTableEntry} {p q : PageProperty false}

theorem isPresent_of_getLsbD (h : e.raw.getLsbD 0 = true) : isPresent e = true := by
  have hvalid : e.raw &&& VALID ≠ 0 := (and_twoPow_ne_zero (by omega)).mpr h
  exact decide_eq_true hvalid

theorem isHuge_of_basic (h : e.raw.getLsbD 9 = true) : isHuge e = false := by
  have hbasic : e.raw &&& IS_BASIC ≠ 0 := (and_twoPow_ne_zero (by omega)).mpr h
  unfold isHuge
  rw [if_pos hbasic]

theorem setProp_eq (h : e.raw.getLsbD 0 = true) (hbasic : e.raw.getLsbD 9 = true)
    (hq : Accepted q) :
    setProp e q = .ok ⟨e.raw &&& (PHYS_ADDR_MASK ||| IS_BASIC) ||| flagWord q⟩ := by
  unfold setProp
  rw [isPresent_of_getLsbD h, writeCache_eq hq, isHuge_of_basic hbasic]
  rfl

theorem getLsbD_pageWord_nine (pa : BitVec 64) : (pageWord pa).getLsbD 9 = true := by
  unfold pageWord IS_BASIC
  rw [BitVec.getLsbD_or, BitVec.getLsbD_twoPow]
  simp

theorem newPage_eq (hq : Accepted q) : newPage pa 1 q = .ok ⟨pageWord pa ||| flagWord q⟩ := by
  have hraw : pa &&& PHYS_ADDR_MASK ||| VALID ||| IS_BASIC = pageWord pa ||| VALID := by
    unfold pageWord
    rw [BitVec.or_assoc, BitVec.or_assoc, BitVec.or_comm VALID]
  have hvalid : (pageWord pa ||| VALID).getLsbD 0 = true := by
    unfold VALID
    rw [BitVec.getLsbD_or, BitVec.getLsbD_twoPow]
    simp
  have hbasic : (pageWord pa ||| VALID).getLsbD 9 = true := by
    rw [BitVec.getLsbD_or, getLsbD_pageWord_nine, Bool.true_or]
  have hidem : pageWord pa ||| flagWord q ||| IS_BASIC = pageWord pa ||| flagWord q := by
    unfold pageWord
    rw [BitVec.or_assoc, BitVec.or_assoc, BitVec.or_comm (flagWord q), ← BitVec.or_assoc IS_BASIC,
      BitVec.or_self, ← BitVec.or_assoc]
  unfold newPage
  rw [if_pos rfl]
  show (do
    let pte ← setProp ⟨pa &&& PHYS_ADDR_MASK ||| VALID ||| IS_BASIC⟩ q
    Except.ok (⟨pte.raw ||| IS_BASIC⟩ : PageTableEntry)) = _
  rw [hraw, setProp_eq hvalid hbasic hq]
  show Except.ok (⟨(pageWord pa ||| VALID) &&& (PHYS_ADDR_MASK ||| IS_BASIC) ||| flagWord q |||
    IS_BASIC⟩ : PageTableEntry) = _
  rw [or_and_of_disjoint (pageWord_and pa) (by decide), hidem]

namespace Represents

theorem valid (h : Represents pa e p) : e.raw.getLsbD 0 = true := by
  rw [h, BitVec.getLsbD_or, getLsbD_flagWord, getLsbD_writeFlags]
  simp

theorem basic (h : Represents pa e p) : e.raw.getLsbD 9 = true := by
  rw [h, BitVec.getLsbD_or, getLsbD_pageWord_nine, Bool.true_or]

theorem setProp (h : Represents pa e p) (hq : Accepted q) :
    ∃ e', setProp e q = .ok e' ∧ Represents pa e' q := by
  refine ⟨_, setProp_eq h.valid h.basic hq, ?_⟩
  show e.raw &&& (PHYS_ADDR_MASK ||| IS_BASIC) ||| flagWord q = _
  rw [h, or_and_of_disjoint (pageWord_and pa) (flagWord_and p)]

/-- The bits that `set_prop` writes. -/
theorem getLsbD_raw (h : Represents pa e p) {k : ℕ}
    (hk : (PHYS_ADDR_MASK ||| IS_BASIC).getLsbD k = false) :
    e.raw.getLsbD k = (flagWord p).getLsbD k := by
  rw [h, getLsbD_or_of_field (pageWord_and pa) hk]

theorem paddr (h : Represents pa e p) (hpa : FrameAddr 48 pa) : paddr e = pa := by
  have hself : pa &&& PHYS_ADDR_MASK = pa := by
    apply and_eq_self_of_forall
    intro k hk
    have hbits := hpa.of_getLsbD hk
    have hmask : ∀ k < 48, 12 ≤ k → PHYS_ADDR_MASK.getLsbD k = true := by decide
    exact hmask k hbits.2 hbits.1
  have hmask : e.raw &&& PHYS_ADDR_MASK = pa := by
    have hsub : PHYS_ADDR_MASK = (PHYS_ADDR_MASK ||| IS_BASIC) &&& PHYS_ADDR_MASK := by decide
    rw [h, hsub, ← BitVec.and_assoc, or_and_of_disjoint (pageWord_and pa)
      (flagWord_and p), pageWord,
      hself, or_and_of_disjoint hself (by decide)]
  unfold Loongarch.paddr
  rw [isHuge_of_basic h.basic, hmask]
  show pa >>> 12 <<< 12 = pa
  apply BitVec.eq_of_getLsbD_eq
  intro k hk
  rw [BitVec.getLsbD_shiftLeft, BitVec.getLsbD_ushiftRight]
  by_cases h12 : k < 12
  · have hlow : pa.getLsbD k = false := by
      rw [Bool.eq_false_iff]
      intro hbit
      exact absurd (hpa.of_getLsbD hbit).1 (by omega)
    simp [h12, hlow]
  · have hidx : 12 + (k - 12) = k := by omega
    rw [hidx]
    simp [hk, h12]

theorem readFlags (h : Represents pa e p) (hp : Accepted p) :
    (readFlags e.raw).setWidth 8 = p.flags.bits := by
  have hundeclared : p.flags.bits.getLsbD 5 = false :=
    p.flags.getLsbD_of_not_declared (by decide)
  have hdirty : p.flags.bits.getLsbD 4 = true := by
    rw [← Flags.contains_twoPow _ (by omega)]
    exact hp.2
  apply BitVec.eq_of_getLsbD_eq
  intro k hk
  rw [BitVec.getLsbD_setWidth, getLsbD_readFlags]
  iterate 7 rw [h.getLsbD_raw (by decide)]
  simp only [getLsbD_flagWord, getLsbD_writeFlags, getLsbD_writePrivFlags, getLsbD_cacheWord]
  interval_cases k <;> simp [hundeclared, hdirty, -BitVec.getLsbD_eq_getElem]

theorem readPrivFlags (h : Represents pa e p) : readPrivFlags e = p.privFlags.bits := by
  have hbit : ∀ k, (PHYS_ADDR_MASK ||| IS_BASIC).getLsbD k = false →
      e.raw.getLsbD k = (flagWord p).getLsbD k := fun k hk => h.getLsbD_raw hk
  have huser : isUser e = p.privFlags.bits.getLsbD 0 := by
    unfold isUser
    rw [show PLVL = BitVec.twoPow 64 2 from rfl, show PLVH = BitVec.twoPow 64 3 from rfl]
    simp only [and_twoPow_ne_zero (show 2 < 64 by omega), and_twoPow_ne_zero (show 3 < 64 by omega)]
    rw [hbit 2 (by decide), hbit 3 (by decide), getLsbD_flagWord, getLsbD_flagWord,
      getLsbD_writeFlags, getLsbD_writeFlags, getLsbD_writePrivFlags, getLsbD_writePrivFlags,
      getLsbD_cacheWord, getLsbD_cacheWord]
    simp
  have hglobal : isGlobal e = p.privFlags.bits.getLsbD 1 := by
    have hbasic : e.raw &&& IS_BASIC ≠ 0 := (and_twoPow_ne_zero (by omega)).mpr h.basic
    unfold isGlobal
    rw [if_pos hbasic, show GLOBAL_OR_HUGE = BitVec.twoPow 64 6 from rfl]
    simp only [and_twoPow_ne_zero (show 6 < 64 by omega)]
    rw [hbit 6 (by decide), getLsbD_flagWord, getLsbD_writeFlags, getLsbD_writePrivFlags,
      getLsbD_cacheWord]
    simp
  unfold Loongarch.readPrivFlags PrivFlags.USER PrivFlags.GLOBAL
  rw [huser, hglobal]
  apply BitVec.eq_of_getLsbD_eq
  intro k hk
  by_cases hlow : k < 2
  · interval_cases k <;> cases p.privFlags.bits.getLsbD 0 <;>
      cases p.privFlags.bits.getLsbD 1 <;> rfl
  · have hall : ∀ k < 8, ¬k < 2 → (privFlagsAll false).getLsbD k = false := by decide
    rw [p.privFlags.getLsbD_of_not_declared (hall k hk hlow)]
    have h0 : ¬0 = k := by omega
    have h1 : ¬1 = k := by omega
    cases p.privFlags.bits.getLsbD 0 <;> cases p.privFlags.bits.getLsbD 1 <;>
      simp [BitVec.getLsbD_twoPow, h0, h1]

theorem readCache (h : Represents pa e p) (hp : Accepted p) :
    readCache e.raw = (readBack p).cache := by
  have hlow : e.raw &&& MATL ≠ 0 ↔ p.cache = .writeback := by
    refine and_twoPow_ne_zero_iff (by omega) ?_
    rw [h.getLsbD_raw (by decide), getLsbD_flagWord, getLsbD_writeFlags, getLsbD_writePrivFlags,
      getLsbD_cacheWord]
    simp
  have hhigh : e.raw &&& MATH ≠ 0 ↔ p.cache = .writeCombining := by
    refine and_twoPow_ne_zero_iff (by omega) ?_
    rw [h.getLsbD_raw (by decide), getLsbD_flagWord, getLsbD_writeFlags, getLsbD_writePrivFlags,
      getLsbD_cacheWord]
    simp
  unfold Loongarch.readCache readBack
  simp only [hlow, hhigh]
  rcases hp.1 with hc | hc | hc <;> rw [hc] <;> rfl

/-- **The word describes the page**, but for the cache policy of an uncacheable one. -/
theorem describes (h : Represents pa e p) (hpa : FrameAddr 48 pa) (hp : Accepted p) :
    entry.Describes e 1 pa (readBack p) := by
  refine ⟨isPresent_of_getLsbD h.valid, rfl, h.paddr hpa, ?_⟩
  show prop e = .ok (readBack p)
  unfold prop
  rw [h.readFlags hp, h.readPrivFlags, h.readCache hp, Flags.fromBits_bits, Flags.fromBits_bits]
  rfl

end Represents

theorem readBack_eq_iff : readBack p = p ↔ p.cache ≠ .uncacheable := by
  obtain ⟨flags, cache, priv⟩ := p
  unfold readBack
  cases cache <;> simp

end

/-- **The LoongArch codec** keeps what it is given, at every moment of a sequence of `set_prop`,
exactly if none of the properties is uncacheable. -/
theorem loongarch_records_iff (pa : BitVec 64) (hpa : FrameAddr 48 pa) (p : PageProperty false)
    (ps : List (PageProperty false)) (hps : ∀ q ∈ p :: ps, Accepted q) :
    (∀ qs, qs <+: ps → entry.Records pa 1 p qs) ↔ ∀ q ∈ p :: ps, q.cache ≠ .uncacheable := by
  rw [PageTableEntryTrait.records_iff_of_read (I := Accepted) (Represents pa) readBack ?_ ?_ ?_ hps]
  · simp only [readBack_eq_iff]
  · intro q hq
    exact ⟨_, newPage_eq hq, rfl⟩
  · intro e q q' hR hq'
    exact hR.setProp hq'
  · intro e q hR hq
    exact hR.describes hpa hq

/-- A write-combining page made a write-back page. -/
theorem loongarch_records_iff_sample :
    entry.Records 4096 1 ⟨⟨19, by decide⟩, .writeCombining, ⟨1, by decide⟩⟩
      [⟨⟨17, by decide⟩, .writeback, ⟨1, by decide⟩⟩] :=
  (loongarch_records_iff 4096 (by decide) ⟨⟨19, by decide⟩, .writeCombining, ⟨1, by decide⟩⟩
    [⟨⟨17, by decide⟩, .writeback, ⟨1, by decide⟩⟩] (by decide)).mpr (by decide) _ List.prefix_rfl

/-- An uncacheable page of I/O memory. -/
def ioPage : PageProperty false := ⟨⟨19, by decide⟩, .uncacheable, ⟨0, by decide⟩⟩

/-- **An uncacheable page is read back as a write-back page**, and setting the property that has
been read makes it one. -/
theorem loongarch_caches_io : ∃ e p e', newPage 4096 1 ioPage = .ok e ∧ prop e = .ok p ∧
    p.cache = .writeback ∧ e.raw.getLsbD 4 = false ∧ setProp e p = .ok e' ∧
    e'.raw.getLsbD 4 = true := by
  refine ⟨_, readBack ioPage, _, newPage_eq (by decide), by decide, by decide, by decide,
    setProp_eq (by decide) (by decide) (by decide), by decide⟩

end Loongarch

end Vostd
