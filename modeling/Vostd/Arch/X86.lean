/-
# Page table entries on x86

`PageTableEntry` of `arch/x86/mm/mod.rs`.  An entry for a page keeps the address and the HUGE
bit; all other bits are rewritten by `set_prop`.  Without SHARED these two parts of the word do
not overlap, and an entry follows its properties.

With the feature `cvm_guest` the SHARED flag is bit 51 of the word, and `PHYS_ADDR_MASK`, whose
narrower value for that feature is commented out, has the same bit.  A shared page therefore
has another address, and it cannot be made private again.
-/
import Vostd.Arch.Entry

namespace Vostd

open Exec

namespace X86

/-! ## The code -/

/-- The mapped frame or page table is loaded in memory. -/
def PRESENT : BitVec 64 := BitVec.twoPow 64 0
/-- Writes to the mapped frames are allowed. -/
def WRITABLE : BitVec 64 := BitVec.twoPow 64 1
/-- Accesses from userspace are permitted. -/
def USER : BitVec 64 := BitVec.twoPow 64 2
/-- A write-through policy is used for the cache. -/
def WRITE_THROUGH : BitVec 64 := BitVec.twoPow 64 3
/-- Disables caching. -/
def NO_CACHE : BitVec 64 := BitVec.twoPow 64 4
/-- The entry has been used for translation. -/
def ACCESSED : BitVec 64 := BitVec.twoPow 64 5
/-- The memory area is modified. -/
def DIRTY : BitVec 64 := BitVec.twoPow 64 6
/-- A huge page above level 1; on level 1 it marks the entry as valid. -/
def HUGE : BitVec 64 := BitVec.twoPow 64 7
/-- The mapping is present in all address spaces. -/
def GLOBAL : BitVec 64 := BitVec.twoPow 64 8
/-- TDX shared bit. -/
def SHARED : BitVec 64 := BitVec.twoPow 64 51
/-- Ignored by the hardware. -/
def HIGH_IGN1 : BitVec 64 := BitVec.twoPow 64 52
/-- Ignored by the hardware. -/
def HIGH_IGN2 : BitVec 64 := BitVec.twoPow 64 53
/-- Forbid execute codes on the page. -/
def NO_EXECUTE : BitVec 64 := BitVec.twoPow 64 63

/-- `PHYS_ADDR_MASK` -/
def PHYS_ADDR_MASK : BitVec 64 := BitVec.ofNat 64 0xFFFFFFFFFF000

/-- `PROP_MASK` -/
def PROP_MASK : BitVec 64 := ~~~PHYS_ADDR_MASK &&& ~~~(BitVec.ofNat 64 0x80)

variable {cvm : Bool}

/-- `is_present` -/
def isPresent (e : PageTableEntry) : Bool :=
  decide (e.raw &&& PRESENT ≠ 0) || decide (e.raw &&& HUGE ≠ 0)

/-- `is_last` -/
def isLast (e : PageTableEntry) (_level : ℕ) : Bool := decide (e.raw &&& HUGE ≠ 0)

/-- `paddr` -/
def paddr (e : PageTableEntry) : BitVec 64 := e.raw &&& PHYS_ADDR_MASK

/-- The flags that `prop` reads. -/
def readFlags (raw : BitVec 64) : BitVec 64 :=
  parseFlags raw PRESENT PageFlags.R ||| parseFlags raw WRITABLE PageFlags.W |||
    parseFlags (~~~raw) NO_EXECUTE PageFlags.X ||| parseFlags raw ACCESSED PageFlags.ACCESSED |||
    parseFlags raw DIRTY PageFlags.DIRTY ||| parseFlags raw HIGH_IGN1 PageFlags.AVAIL1 |||
    parseFlags raw HIGH_IGN2 PageFlags.AVAIL2

/-- The privileged flags that `prop` reads. -/
def readPrivFlags (cvm : Bool) (raw : BitVec 64) : BitVec 64 :=
  let privFlags := parseFlags raw USER PrivFlags.USER ||| parseFlags raw GLOBAL PrivFlags.GLOBAL
  if cvm then privFlags ||| parseFlags raw SHARED PrivFlags.SHARED else privFlags

/-- The cache policy that `prop` reads. -/
def readCache (raw : BitVec 64) : CachePolicy :=
  if raw &&& NO_CACHE ≠ 0 then .uncacheable
  else if raw &&& WRITE_THROUGH ≠ 0 then .writethrough
  else .writeback

/-- `prop` -/
def prop (e : PageTableEntry) : Exec (PageProperty cvm) := do
  let flags ← Exec.unwrap (Flags.fromBits ((readFlags e.raw).setWidth 8))
  let privFlags ← Exec.unwrap (Flags.fromBits ((readPrivFlags cvm e.raw).setWidth 8))
  .ok ⟨flags, readCache e.raw, privFlags⟩

/-- The flags that `set_prop` writes. -/
def writeFlags (p : PageProperty cvm) : BitVec 64 :=
  let flags := parseFlags p.flags.bits PageFlags.R PRESENT |||
    parseFlags p.flags.bits PageFlags.W WRITABLE |||
    parseFlags (~~~p.flags.bits) PageFlags.X NO_EXECUTE |||
    parseFlags p.flags.bits PageFlags.ACCESSED ACCESSED |||
    parseFlags p.flags.bits PageFlags.DIRTY DIRTY |||
    parseFlags p.flags.bits PageFlags.AVAIL1 HIGH_IGN1 |||
    parseFlags p.flags.bits PageFlags.AVAIL2 HIGH_IGN2 |||
    parseFlags p.privFlags.bits PrivFlags.USER USER |||
    parseFlags p.privFlags.bits PrivFlags.GLOBAL GLOBAL
  if cvm then flags ||| parseFlags p.privFlags.bits PrivFlags.SHARED SHARED else flags

/-- The bits for a cache policy that `set_prop` writes; it panics on the others. -/
def writeCache : CachePolicy → Exec (BitVec 64)
  | .writeback => .ok 0
  | .writethrough => .ok WRITE_THROUGH
  | .uncacheable => .ok NO_CACHE
  | .writeCombining | .writeProtected => .error .assertion

/-- `set_prop` -/
def setProp (e : PageTableEntry) (p : PageProperty cvm) : Exec PageTableEntry :=
  if !isPresent e then .ok e
  else do
    let cache ← writeCache p.cache
    .ok ⟨e.raw &&& ~~~PROP_MASK ||| (writeFlags p ||| cache)⟩

/-- `new_page` -/
def newPage (pa : BitVec 64) (_level : ℕ) (p : PageProperty cvm) : Exec PageTableEntry :=
  setProp ⟨pa &&& PHYS_ADDR_MASK ||| HUGE⟩ p

/-- `new_pt` -/
def newPt (pa : BitVec 64) : PageTableEntry :=
  ⟨pa &&& PHYS_ADDR_MASK ||| (PRESENT ||| WRITABLE ||| USER)⟩

/-- The entries of x86. -/
def entry (cvm : Bool) : PageTableEntryTrait (PageProperty cvm) where
  newAbsent := ⟨0⟩
  isPresent := isPresent
  newPage := newPage
  newPt := newPt
  paddr := paddr
  prop := prop
  setProp := setProp
  isLast := isLast

/-! ## The bits of the words -/

theorem getLsbD_readFlags (raw : BitVec 64) (k : ℕ) : (readFlags raw).getLsbD k =
    ((decide (k = 0) && raw.getLsbD 0) || (decide (k = 1) && raw.getLsbD 1) ||
      (decide (k = 2) && !raw.getLsbD 63) || (decide (k = 3) && raw.getLsbD 5) ||
      (decide (k = 4) && raw.getLsbD 6) || (decide (k = 6) && raw.getLsbD 52) ||
      (decide (k = 7) && raw.getLsbD 53)) := by
  unfold readFlags PRESENT WRITABLE NO_EXECUTE ACCESSED DIRTY HIGH_IGN1 HIGH_IGN2 PageFlags.R
    PageFlags.W PageFlags.X PageFlags.ACCESSED PageFlags.DIRTY PageFlags.AVAIL1 PageFlags.AVAIL2
  simp (disch := omega) only [BitVec.getLsbD_or, getLsbD_parseFlags]
  simp

theorem getLsbD_readPrivFlags (raw : BitVec 64) (k : ℕ) : (readPrivFlags cvm raw).getLsbD k =
    ((decide (k = 0) && raw.getLsbD 2) || (decide (k = 1) && raw.getLsbD 8) ||
      (decide (k = 7) && (cvm && raw.getLsbD 51))) := by
  unfold readPrivFlags USER GLOBAL SHARED PrivFlags.USER PrivFlags.GLOBAL PrivFlags.SHARED
  cases cvm with
  | false =>
      simp (disch := omega) only [BitVec.getLsbD_or, getLsbD_parseFlags, if_false,
        Bool.false_eq_true]
      simp
  | true =>
      simp (disch := omega) only [BitVec.getLsbD_or, getLsbD_parseFlags, if_true]
      simp

theorem getLsbD_writeFlags (p : PageProperty cvm) (k : ℕ) : (writeFlags p).getLsbD k =
    ((decide (k = 0) && p.flags.bits.getLsbD 0) || (decide (k = 1) && p.flags.bits.getLsbD 1) ||
      (decide (k = 63) && !p.flags.bits.getLsbD 2) || (decide (k = 5) && p.flags.bits.getLsbD 3) ||
      (decide (k = 6) && p.flags.bits.getLsbD 4) || (decide (k = 52) && p.flags.bits.getLsbD 6) ||
      (decide (k = 53) && p.flags.bits.getLsbD 7) ||
      (decide (k = 2) && p.privFlags.bits.getLsbD 0) ||
      (decide (k = 8) && p.privFlags.bits.getLsbD 1) ||
      (decide (k = 51) && (cvm && p.privFlags.bits.getLsbD 7))) := by
  unfold writeFlags PRESENT WRITABLE NO_EXECUTE ACCESSED DIRTY HIGH_IGN1 HIGH_IGN2 USER GLOBAL
    SHARED PageFlags.R PageFlags.W PageFlags.X PageFlags.ACCESSED PageFlags.DIRTY
    PageFlags.AVAIL1 PageFlags.AVAIL2 PrivFlags.USER PrivFlags.GLOBAL PrivFlags.SHARED
  cases cvm with
  | false =>
      simp (disch := omega) only [BitVec.getLsbD_or, getLsbD_parseFlags, if_false,
        Bool.false_eq_true]
      simp
  | true =>
      simp (disch := omega) only [BitVec.getLsbD_or, getLsbD_parseFlags, if_true]
      simp

/-- The cache policies that `set_prop` accepts. -/
def Supported (p : PageProperty cvm) : Prop :=
  p.cache = .writeback ∨ p.cache = .writethrough ∨ p.cache = .uncacheable

instance decidableSupported (p : PageProperty cvm) : Decidable (Supported p) :=
  inferInstanceAs (Decidable (_ ∨ _))

/-- The page is marked as shared with the host. -/
def Shared (p : PageProperty cvm) : Prop :=
  cvm = true ∧ p.privFlags.contains PrivFlags.SHARED = true

instance decidableShared (p : PageProperty cvm) : Decidable (Shared p) :=
  inferInstanceAs (Decidable (_ ∧ _))

theorem shared_iff {p : PageProperty cvm} :
    Shared p ↔ cvm = true ∧ p.privFlags.bits.getLsbD 7 = true := by
  unfold Shared
  rw [show PrivFlags.SHARED = BitVec.twoPow 8 7 from rfl, Flags.contains_twoPow _ (by omega)]

/-- The bits for an accepted cache policy. -/
def cacheWord (c : CachePolicy) : BitVec 64 :=
  if c = .writethrough then WRITE_THROUGH else if c = .uncacheable then NO_CACHE else 0

/-- The part of the word that `set_prop` writes. -/
def flagWord (p : PageProperty cvm) : BitVec 64 := writeFlags p ||| cacheWord p.cache

/-- The part of the word that `set_prop` keeps. -/
def pageWord (pa : BitVec 64) : BitVec 64 := pa &&& PHYS_ADDR_MASK ||| HUGE

theorem writeCache_eq {p : PageProperty cvm} (h : Supported p) :
    writeCache p.cache = .ok (cacheWord p.cache) := by
  rcases h with h | h | h <;> rw [h] <;> rfl

theorem getLsbD_cacheWord (c : CachePolicy) (k : ℕ) : (cacheWord c).getLsbD k =
    ((decide (k = 3) && decide (c = .writethrough)) ||
      (decide (k = 4) && decide (c = .uncacheable))) := by
  unfold cacheWord WRITE_THROUGH NO_CACHE
  cases c with
  | uncacheable => simp [BitVec.getLsbD_twoPow, eq_comm]
  | writethrough => simp [BitVec.getLsbD_twoPow, eq_comm]
  | writeCombining => simp
  | writeProtected => simp
  | writeback => simp

theorem getLsbD_flagWord (p : PageProperty cvm) (k : ℕ) :
    (flagWord p).getLsbD k = ((writeFlags p).getLsbD k || (cacheWord p.cache).getLsbD k) :=
  BitVec.getLsbD_or

/-- Where the flags are. -/
theorem mem_of_getLsbD_flagWord {p : PageProperty cvm} (h : ¬Shared p) {k : ℕ}
    (hk : (flagWord p).getLsbD k = true) : k ∈ [0, 1, 2, 3, 4, 5, 6, 8, 52, 53, 63] := by
  have hshared : (cvm && p.privFlags.bits.getLsbD 7) = false := by
    rw [Bool.eq_false_iff]
    intro hs
    exact h (shared_iff.mpr (Bool.and_eq_true_iff.mp hs))
  rw [getLsbD_flagWord, getLsbD_writeFlags, getLsbD_cacheWord, hshared] at hk
  simp only [Bool.or_eq_true, Bool.and_eq_true, decide_eq_true_eq] at hk
  simp only [List.mem_cons, List.not_mem_nil, or_false]
  tauto

/-- The two parts of the word do not overlap. -/
theorem flagWord_and {p : PageProperty cvm} (h : ¬Shared p) :
    flagWord p &&& ~~~PROP_MASK = 0 := by
  apply and_eq_zero_of_forall
  intro k hk
  have hmem := mem_of_getLsbD_flagWord h hk
  have hall : ∀ k ∈ [0, 1, 2, 3, 4, 5, 6, 8, 52, 53, 63], (~~~PROP_MASK).getLsbD k = false := by
    decide
  exact hall k hmem

theorem pageWord_and (pa : BitVec 64) : pageWord pa &&& ~~~PROP_MASK = pageWord pa := by
  apply and_eq_self_of_forall
  intro k hk
  have hlt := BitVec.lt_of_getLsbD hk
  have hmask : ∀ k < 64, PHYS_ADDR_MASK.getLsbD k = true ∨ HUGE.getLsbD k = true →
      (~~~PROP_MASK).getLsbD k = true := by
    decide
  unfold pageWord at hk
  rw [BitVec.getLsbD_or, BitVec.getLsbD_and, Bool.or_eq_true, Bool.and_eq_true] at hk
  apply hmask k hlt
  rcases hk with ⟨-, hk⟩ | hk
  · exact Or.inl hk
  · exact Or.inr hk

theorem and_physAddrMask {pa : BitVec 64} (hpa : FrameAddr 52 pa) : pa &&& PHYS_ADDR_MASK = pa := by
  apply and_eq_self_of_forall
  intro k hk
  have hbits := hpa.of_getLsbD hk
  have hmask : ∀ k < 52, 12 ≤ k → PHYS_ADDR_MASK.getLsbD k = true := by decide
  exact hmask k hbits.2 hbits.1

/-! ## Entries that are not shared -/

/-- The word of an entry for a page. -/
def Represents (pa : BitVec 64) (e : PageTableEntry) (p : PageProperty cvm) : Prop :=
  e.raw = pageWord pa ||| flagWord p

section

variable {pa : BitVec 64} {e : PageTableEntry} {p q : PageProperty cvm}

theorem isPresent_of_huge (h : e.raw.getLsbD 7 = true) : isPresent e = true := by
  have hhuge : e.raw &&& HUGE ≠ 0 := (and_twoPow_ne_zero (by omega)).mpr h
  unfold isPresent
  rw [decide_eq_true hhuge, Bool.or_true]

theorem isLast_of_huge (h : e.raw.getLsbD 7 = true) (level : ℕ) : isLast e level = true := by
  have hhuge : e.raw &&& HUGE ≠ 0 := (and_twoPow_ne_zero (by omega)).mpr h
  exact decide_eq_true hhuge

theorem getLsbD_pageWord_seven (pa : BitVec 64) : (pageWord pa).getLsbD 7 = true := by
  unfold pageWord HUGE
  rw [BitVec.getLsbD_or, BitVec.getLsbD_twoPow]
  simp

/-- `set_prop` on an entry that has the HUGE bit. -/
theorem setProp_eq (h : e.raw.getLsbD 7 = true) (hq : Supported q) :
    setProp e q = .ok ⟨e.raw &&& ~~~PROP_MASK ||| flagWord q⟩ := by
  unfold setProp
  rw [isPresent_of_huge h, writeCache_eq hq]
  rfl

theorem newPage_eq (level : ℕ) (hq : Supported q) :
    newPage pa level q = .ok ⟨pageWord pa ||| flagWord q⟩ := by
  unfold newPage
  rw [setProp_eq (getLsbD_pageWord_seven pa) hq]
  show Except.ok (⟨pageWord pa &&& ~~~PROP_MASK ||| flagWord q⟩ : PageTableEntry) = _
  rw [pageWord_and]

namespace Represents

theorem huge (h : Represents pa e p) : e.raw.getLsbD 7 = true := by
  rw [h, BitVec.getLsbD_or, getLsbD_pageWord_seven, Bool.true_or]

theorem setProp (h : Represents pa e p) (hp : ¬Shared p) (hq : Supported q) :
    ∃ e', setProp e q = .ok e' ∧ Represents pa e' q := by
  refine ⟨_, setProp_eq h.huge hq, ?_⟩
  show e.raw &&& ~~~PROP_MASK ||| flagWord q = pageWord pa ||| flagWord q
  rw [h, or_and_of_disjoint (pageWord_and pa) (flagWord_and hp)]

/-- The bits that `set_prop` writes. -/
theorem getLsbD_raw (h : Represents pa e p) {k : ℕ} (hk : (~~~PROP_MASK).getLsbD k = false) :
    e.raw.getLsbD k = (flagWord p).getLsbD k := by
  rw [h, getLsbD_or_of_field (pageWord_and pa) hk]

theorem paddr (h : Represents pa e p) (hpa : FrameAddr 52 pa) (hp : ¬Shared p) :
    paddr e = pa := by
  have hself := and_physAddrMask hpa
  have hsub : PHYS_ADDR_MASK = ~~~PROP_MASK &&& PHYS_ADDR_MASK := by decide
  unfold X86.paddr
  rw [h, hsub, ← BitVec.and_assoc, or_and_of_disjoint (pageWord_and pa) (flagWord_and hp), pageWord,
    hself, or_and_of_disjoint hself (by decide)]

theorem readFlags (h : Represents pa e p) : (readFlags e.raw).setWidth 8 = p.flags.bits := by
  have hundeclared : p.flags.bits.getLsbD 5 = false :=
    p.flags.getLsbD_of_not_declared (by decide)
  apply BitVec.eq_of_getLsbD_eq
  intro k hk
  rw [BitVec.getLsbD_setWidth, getLsbD_readFlags]
  iterate 7 rw [h.getLsbD_raw (by decide)]
  simp only [getLsbD_flagWord, getLsbD_writeFlags, getLsbD_cacheWord]
  interval_cases k <;> simp [hundeclared, -BitVec.getLsbD_eq_getElem]

theorem readPrivFlags (h : Represents pa e p) (hp : ¬Shared p)
    (hhigh : cvm = true → pa.getLsbD 51 = false) :
    (readPrivFlags cvm e.raw).setWidth 8 = p.privFlags.bits := by
  have h2 := h.getLsbD_raw (k := 2) (by decide)
  have h8 := h.getLsbD_raw (k := 8) (by decide)
  have h51 : (cvm && e.raw.getLsbD 51) = false := by
    cases hc : cvm with
    | false => rfl
    | true =>
        have hflag : (flagWord p).getLsbD 51 = false := by
          rw [Bool.eq_false_iff]
          intro hbit
          exact absurd (mem_of_getLsbD_flagWord hp hbit) (by decide)
        rw [h, BitVec.getLsbD_or, hflag, pageWord, BitVec.getLsbD_or, BitVec.getLsbD_and,
          hhigh hc]
        rfl
  have hseven : p.privFlags.bits.getLsbD 7 = false := by
    by_cases hc : cvm = true
    · rw [Bool.eq_false_iff]
      intro hbit
      exact hp (shared_iff.mpr ⟨hc, hbit⟩)
    · apply p.privFlags.getLsbD_of_not_declared
      rw [Bool.eq_false_iff.mpr hc]
      rfl
  have hrest : ∀ k, 2 ≤ k → k < 7 → p.privFlags.bits.getLsbD k = false := by
    intro k hk hk'
    apply p.privFlags.getLsbD_of_not_declared
    have hall : ∀ cvm, ∀ k < 7, 2 ≤ k → (privFlagsAll cvm).getLsbD k = false := by decide
    exact hall cvm k hk' hk
  apply BitVec.eq_of_getLsbD_eq
  intro k hk
  rw [BitVec.getLsbD_setWidth, getLsbD_readPrivFlags, h2, h8, h51]
  simp only [getLsbD_flagWord, getLsbD_writeFlags, getLsbD_cacheWord]
  by_cases hmid : 2 ≤ k ∧ k < 7
  · rw [hrest k hmid.1 hmid.2]
    have h0 : k ≠ 0 := by omega
    have h1 : k ≠ 1 := by omega
    simp [h0, h1]
  · obtain rfl | rfl | rfl : k = 0 ∨ k = 1 ∨ k = 7 := by omega
    · simp
    · simp
    · rw [hseven]
      simp

theorem readCache (h : Represents pa e p) (hp : Supported p) : readCache e.raw = p.cache := by
  have hno : e.raw &&& NO_CACHE ≠ 0 ↔ p.cache = .uncacheable := by
    refine and_twoPow_ne_zero_iff (by omega) ?_
    rw [h.getLsbD_raw (by decide), getLsbD_flagWord, getLsbD_writeFlags, getLsbD_cacheWord]
    simp
  have hthrough : e.raw &&& WRITE_THROUGH ≠ 0 ↔ p.cache = .writethrough := by
    refine and_twoPow_ne_zero_iff (by omega) ?_
    rw [h.getLsbD_raw (by decide), getLsbD_flagWord, getLsbD_writeFlags, getLsbD_cacheWord]
    simp
  unfold X86.readCache
  simp only [hno, hthrough]
  rcases hp with hc | hc | hc <;> rw [hc] <;> rfl

/-- **The word describes the page.** -/
theorem describes (h : Represents pa e p) (hpa : FrameAddr 52 pa) (hp : ¬Shared p)
    (hsup : Supported p) (hhigh : cvm = true → pa.getLsbD 51 = false) (level : ℕ) :
    (entry cvm).Describes e level pa p := by
  refine ⟨isPresent_of_huge h.huge, isLast_of_huge h.huge level, h.paddr hpa hp, ?_⟩
  show prop e = .ok p
  unfold prop
  rw [h.readFlags, h.readPrivFlags hp hhigh, h.readCache hsup, Flags.fromBits_bits,
    Flags.fromBits_bits]
  rfl

end Represents

/-- **Entries follow their properties**, as long as none of them is shared. -/
theorem records (hpa : FrameAddr 52 pa) (hhigh : cvm = true → pa.getLsbD 51 = false) (level : ℕ)
    {ps : List (PageProperty cvm)} (hp : Supported p ∧ ¬Shared p)
    (hps : ∀ q ∈ ps, Supported q ∧ ¬Shared q) : (entry cvm).Records pa level p ps := by
  refine PageTableEntryTrait.records_of_step (I := fun q => Supported q ∧ ¬Shared q)
    (fun e q => Represents pa e q ∧ ¬Shared q) ?_ ?_ ?_ hp hps
  · rintro q ⟨hsup, hns⟩
    exact ⟨_, newPage_eq level hsup, rfl, hns⟩
  · rintro e q q' ⟨hR, hns⟩ ⟨hsup', hns'⟩
    obtain ⟨e', he', hR'⟩ := hR.setProp hns hsup'
    exact ⟨e', he', hR', hns'⟩
  · rintro e q ⟨hR, hns⟩ ⟨hsup, -⟩
    exact hR.describes hpa hns hsup hhigh level

end

/-! ## Entries for nodes, and children -/

theorem isPresent_newPt (pa : BitVec 64) : isPresent (newPt pa) = true := by
  have hbit : (newPt pa).raw.getLsbD 0 = true := by
    unfold newPt PRESENT
    simp only [BitVec.getLsbD_or, BitVec.getLsbD_twoPow]
    simp
  have hpresent : (newPt pa).raw &&& PRESENT ≠ 0 := (and_twoPow_ne_zero (by omega)).mpr hbit
  unfold isPresent
  rw [decide_eq_true hpresent, Bool.true_or]

theorem isLast_newPt (pa : BitVec 64) (level : ℕ) : isLast (newPt pa) level = false := by
  have hbit : (newPt pa).raw.getLsbD 7 = false := by
    have hmask : PHYS_ADDR_MASK.getLsbD 7 = false := by decide
    have hflags : (PRESENT ||| WRITABLE ||| USER).getLsbD 7 = false := by decide
    unfold newPt
    rw [BitVec.getLsbD_or, BitVec.getLsbD_and, hmask, hflags, Bool.and_false, Bool.or_false]
  have hhuge : ¬(newPt pa).raw &&& HUGE ≠ 0 := by
    intro hne
    rw [show HUGE = BitVec.twoPow 64 7 from rfl, and_twoPow_ne_zero (by omega), hbit] at hne
    cases hne
  exact decide_eq_false hhuge

theorem paddr_newPt {pa : BitVec 64} (hpa : FrameAddr 52 pa) : paddr (newPt pa) = pa := by
  have hself := and_physAddrMask hpa
  unfold paddr newPt
  rw [hself]
  exact or_and_of_disjoint hself (by decide)

/-- A child that can stand in an entry of a node of the given level. -/
def ValidChild (level : ℕ) : RawChild (PageProperty false) → Prop
  | .pageTable ptr => IsMetaSlot ptr
  | .frame pa l p => FrameAddr 52 pa ∧ l = level ∧ Supported p
  | .none => True

/-- **A child is read back from its entry.** -/
theorem fromPte_intoPte {level : ℕ} {c : RawChild (PageProperty false)} (h : ValidChild level c) :
    ∃ pte, c.intoPte (entry false) = .ok pte ∧
      RawChild.fromPte (entry false) pte level = .ok c := by
  cases c with
  | none => exact ⟨_, rfl, rfl⟩
  | pageTable ptr =>
      obtain ⟨hpa, hnat⟩ := IsMetaSlot.frameAddr h
      refine ⟨_, rfl, ?_⟩
      unfold RawChild.fromPte
      show (if !isPresent (newPt _) then _ else if !isLast (newPt _) level then
        Except.ok (RawChild.pageTable (frameToMeta (paddr (newPt _)).toNat)) else _) = _
      rw [isPresent_newPt, isLast_newPt, paddr_newPt hpa, hnat, frameToMeta_metaToFrame h]
      rfl
  | frame pa l p =>
      obtain ⟨hpa, rfl, hsup⟩ := h
      have hns : ¬Shared p := fun hs => by cases hs.1
      have hd := Represents.describes (e := ⟨pageWord pa ||| flagWord p⟩) rfl hpa hns
        hsup (fun hc => by cases hc) l
      refine ⟨_, newPage_eq l hsup, ?_⟩
      unfold RawChild.fromPte
      rw [hd.present, hd.last, hd.paddr, hd.prop]
      rfl

/-- **The x86 codec** without the feature `cvm_guest`. -/
theorem x86_codec_correct :
    (∀ (pa : BitVec 64) (level : ℕ) (p : PageProperty false) (ps : List (PageProperty false)),
      FrameAddr 52 pa → (∀ q ∈ p :: ps, Supported q) → (entry false).Records pa level p ps) ∧
    (∀ pa level, FrameAddr 52 pa → isPresent (newPt pa) = true ∧
      isLast (newPt pa) level = false ∧ paddr (newPt pa) = pa) ∧
    (∀ e (p : PageProperty false), isPresent e = false → setProp e p = .ok e) ∧
    ∀ level c, ValidChild level c → ∃ pte, c.intoPte (entry false) = .ok pte ∧
      RawChild.fromPte (entry false) pte level = .ok c := by
  refine ⟨?_, ?_, ?_, fun level c h => fromPte_intoPte h⟩
  · intro pa level p ps hpa hps
    have hns : ∀ q : PageProperty false, ¬Shared q := fun q hs => by cases hs.1
    exact records hpa (fun hc => by cases hc) level ⟨hps p List.mem_cons_self, hns p⟩
      (fun q hq => ⟨hps q (List.mem_cons_of_mem p hq), hns q⟩)
  · intro pa level hpa
    exact ⟨isPresent_newPt pa, isLast_newPt pa level, paddr_newPt hpa⟩
  · intro e p habsent
    unfold setProp
    rw [habsent]
    rfl

/-- A page that is only executable, made readable and uncacheable. -/
theorem x86_codec_correct_sample :
    (entry false).Records (BitVec.ofNat 64 0xABCDEF000) 2
      ⟨⟨4, by decide⟩, .writeback, ⟨1, by decide⟩⟩
      [⟨⟨5, by decide⟩, .uncacheable, ⟨2, by decide⟩⟩] :=
  x86_codec_correct.1 _ _ _ _ (by decide) (by decide)

/-! ## Shared pages -/

/-- The HUGE bit stays. -/
theorem huge_of_setProps {pa : BitVec 64} {level : ℕ} {p : PageProperty cvm}
    {ps : List (PageProperty cvm)} (hsup : ∀ q ∈ p :: ps, Supported q) {e : PageTableEntry}
    (h : (entry cvm).setProps pa level p ps = .ok e) : e.raw.getLsbD 7 = true := by
  induction ps using List.reverseRecOn generalizing e with
  | nil =>
      have hnew : (entry cvm).setProps pa level p [] = newPage pa level p :=
        bind_pure (newPage pa level p)
      rw [hnew, newPage_eq level (hsup p List.mem_cons_self)] at h
      obtain rfl := Except.ok.inj h
      rw [BitVec.getLsbD_or, getLsbD_pageWord_seven, Bool.true_or]
  | append_singleton ps q ih =>
      rw [PageTableEntryTrait.setProps_concat] at h
      obtain ⟨e₀, h₀, hset⟩ := bind_eq_ok.mp h
      have hold := ih (fun r hr => hsup r
        (by simp only [List.mem_cons, List.mem_append] at *; tauto))
        h₀
      have hmask : (~~~PROP_MASK).getLsbD 7 = true := by decide
      rw [show (entry cvm).setProp e₀ q = setProp e₀ q from rfl,
        setProp_eq hold (hsup q (by simp))] at hset
      obtain rfl := Except.ok.inj hset
      rw [BitVec.getLsbD_or, BitVec.getLsbD_and, hold, hmask]
      rfl

/-- A word that SHARED has been written to has another address. -/
theorem paddr_ne_of_shared {pa : BitVec 64} (hpa : FrameAddr 51 pa) {p : PageProperty true}
    (hp : Shared p) (w : BitVec 64) : paddr ⟨w ||| flagWord p⟩ ≠ pa := by
  intro heq
  have hbit : (flagWord p).getLsbD 51 = true := by
    have hseven : p.privFlags.bits.getLsbD 7 = true := (shared_iff.mp hp).2
    rw [getLsbD_flagWord, getLsbD_writeFlags, hseven]
    simp
  have hmask : PHYS_ADDR_MASK.getLsbD 51 = true := by decide
  have hpa51 : pa.getLsbD 51 = true := by
    rw [← heq]
    unfold paddr
    rw [BitVec.getLsbD_and, BitVec.getLsbD_or, hbit, hmask, Bool.or_true]
    rfl
  exact absurd (hpa.of_getLsbD hpa51).2 (by omega)

/-- The entry has the address and the property that was set last. -/
def Keeps (pa : BitVec 64) (level : ℕ) (p : PageProperty true) (ps : List (PageProperty true)) :
    Prop :=
  ∃ e, (entry true).setProps pa level p ps = .ok e ∧ paddr e = pa ∧ prop e = .ok (ps.getLastD p)

/-- A property that is shared is not kept. -/
theorem not_keeps_of_shared {pa : BitVec 64} (hpa : FrameAddr 51 pa) {level : ℕ}
    {p : PageProperty true} {ps : List (PageProperty true)} (hsup : ∀ q ∈ p :: ps, Supported q)
    (hshared : Shared (ps.getLastD p)) : ¬Keeps pa level p ps := by
  rintro ⟨e, he, hpaddr, -⟩
  rcases List.eq_nil_or_concat ps with rfl | ⟨qs, q, rfl⟩
  · have hnew : (entry true).setProps pa level p [] = newPage pa level p :=
      bind_pure (newPage pa level p)
    rw [hnew, newPage_eq level (hsup p List.mem_cons_self)] at he
    obtain rfl := Except.ok.inj he
    exact paddr_ne_of_shared hpa hshared _ hpaddr
  · rw [List.concat_eq_append] at he hsup hshared
    rw [List.getLastD_concat] at hshared
    rw [PageTableEntryTrait.setProps_concat] at he
    obtain ⟨e₀, h₀, hset⟩ := bind_eq_ok.mp he
    have hold := huge_of_setProps
      (fun r hr => hsup r (by simp only [List.mem_cons, List.mem_append] at *; tauto)) h₀
    rw [show (entry true).setProp e₀ q = setProp e₀ q from rfl,
      setProp_eq hold (hsup q (by simp))] at hset
    obtain rfl := Except.ok.inj hset
    exact paddr_ne_of_shared hpa hshared _ hpaddr

/-- **With `cvm_guest`** an entry keeps its address and its property, at every moment of a
sequence of `set_prop`, exactly if none of the properties is shared. -/
theorem keeps_iff_not_shared (pa : BitVec 64) (hpa : FrameAddr 51 pa) (level : ℕ)
    (p : PageProperty true) (ps : List (PageProperty true)) (hsup : ∀ q ∈ p :: ps, Supported q) :
    (∀ qs, qs <+: ps → Keeps pa level p qs) ↔ ∀ q ∈ p :: ps, ¬Shared q := by
  constructor
  · intro hkeeps q hq hshared
    rcases List.mem_cons.mp hq with rfl | hq
    · exact not_keeps_of_shared hpa
        (fun r hr => hsup r (by rw [List.mem_singleton.mp hr]; exact List.mem_cons_self))
        (show Shared ([].getLastD q) from hshared) (hkeeps [] List.nil_prefix)
    · obtain ⟨before, behind, rfl⟩ := List.append_of_mem hq
      have hprefix : before ++ [q] <+: before ++ q :: behind := ⟨behind, by simp⟩
      refine not_keeps_of_shared hpa (fun r hr => hsup r ?_) ?_ (hkeeps _ hprefix)
      · simp only [List.mem_cons, List.mem_append] at *
        tauto
      · rw [List.getLastD_concat]
        exact hshared
  · rintro hns qs ⟨rest, rfl⟩
    have hpa52 : FrameAddr 52 pa := ⟨hpa.dvd, hpa.lt.trans (by norm_num)⟩
    have hhigh : pa.getLsbD 51 = false := by
      rw [Bool.eq_false_iff]
      intro hbit
      exact absurd (hpa.of_getLsbD hbit).2 (by omega)
    have hall : ∀ q ∈ p :: qs, Supported q ∧ ¬Shared q := by
      intro q hq
      have hmem : q ∈ p :: (qs ++ rest) := by
        simp only [List.mem_cons, List.mem_append] at *
        tauto
      exact ⟨hsup q hmem, hns q hmem⟩
    obtain ⟨e, he, hd⟩ := records hpa52 (fun _ => hhigh) level (hall p List.mem_cons_self)
      (fun q hq => hall q (List.mem_cons_of_mem p hq))
    exact ⟨e, he, hd.paddr, hd.prop⟩

/-- A readable page that is shared with the host. -/
def sharedPage : PageProperty true := ⟨⟨1, by decide⟩, .writeback, ⟨128, by decide⟩⟩

/-- The page without the mark. -/
def privatePage : PageProperty true := ⟨⟨1, by decide⟩, .writeback, ⟨0, by decide⟩⟩

/-- A private page made writable. -/
theorem keeps_iff_not_shared_sample :
    Keeps 0x5000 1 privatePage [⟨⟨3, by decide⟩, .writeback, ⟨0, by decide⟩⟩] :=
  (keeps_iff_not_shared 0x5000 (by decide) 1 privatePage
    [⟨⟨3, by decide⟩, .writeback, ⟨0, by decide⟩⟩] (by decide)).mpr (by decide) _ List.prefix_rfl

/-- **A shared page has another address, and making it private again does nothing.** -/
theorem shared_page_moves : ∃ e e', newPage 0 1 sharedPage = .ok e ∧ paddr e = BitVec.twoPow 64 51 ∧
    setProp e privatePage = .ok e' ∧ paddr e' = BitVec.twoPow 64 51 ∧
    prop e' = .ok sharedPage := by
  refine ⟨⟨pageWord 0 ||| flagWord sharedPage⟩, ⟨pageWord 0 ||| flagWord sharedPage⟩,
    ?_, ?_, ?_, ?_⟩
  · exact newPage_eq 1 (by decide)
  · decide
  · decide
  · decide

end X86

end Vostd
