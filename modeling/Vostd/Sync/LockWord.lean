/-
# The word of a read-write lock

`RwLock` (`sync/rwlock.rs`) and `RwMutex` (`sync/rwmutex.rs`) keep their state in one
word with the same layout: the top bits say that there is a writer, an upgradeable
reader, an upgradeable reader that is being upgraded, and the other bits count readers.

The word does not only tell which guards exist.  A failed attempt to read or to
upread has changed the word as well, until it takes its change back, and an upgrade
passes through states of its own.  Each of these is a claim on the word, and `WordOK`
says that the word is the sum of the claims.  The lemmas of this file are about one
atomic access each: which claims it adds or takes away, given what it found.
-/
import Vostd.Lib.WordBitmap

namespace Vostd

/-! ## The layout -/

/-- `READER`. -/
def reader : BitVec 64 := 1#64

/-- `WRITER`. -/
def writer : BitVec 64 := 1#64 <<< 63

/-- `UPGRADEABLE_READER`. -/
def upgradeableReader : BitVec 64 := 1#64 <<< 62

/-- `BEING_UPGRADED`. -/
def beingUpgraded : BitVec 64 := 1#64 <<< 61

/-- `MAX_READER`. -/
def maxReader : BitVec 64 := 1#64 <<< 60

/-- The kinds of claims on the word. -/
inductive Claim : Type where
  /-- a read guard -/
  | readGuard
  /-- a failed `try_read` that has not taken back its count -/
  | failedRead
  /-- a write guard -/
  | writeGuard
  /-- an upgradeable guard -/
  | upreadGuard
  /-- a failed `try_upread` that has not taken back its bit -/
  | failedUpread
  /-- an `upgrade` that waits for the readers -/
  | upgrading
  /-- an `upgrade` that has got the write lock and has not cleared the upgradeable bit -/
  | upgraded
  deriving DecidableEq, Repr

/-- How many claims of each kind there are. -/
abbrev Claims : Type := Claim → ℕ

/-- The claims on the upgradeable bit. -/
def Claims.upreads (c : Claims) : ℕ :=
  c .upreadGuard + c .failedUpread + c .upgrading + c .upgraded

/-- The claims on the writer bit. -/
def Claims.writes (c : Claims) : ℕ := c .writeGuard + c .upgraded

/-- The claims on the reader count. -/
def Claims.reads (c : Claims) : ℕ := c .readGuard + c .failedRead

/-- **The word is the sum of its claims.**  A writer excludes the other guards, and there
is at most one claim on each of the three bits. -/
structure WordOK (word : BitVec 64) (c : Claims) : Prop where
  sum : word.toNat = c.reads + 2 ^ 61 * c .upgrading + 2 ^ 62 * c.upreads + 2 ^ 63 * c.writes
  upreads_le : c.upreads ≤ 1
  writes_le : c.writes ≤ 1
  readGuards_le : c .readGuard ≤ 2 ^ 60
  failedReads_lt : c .failedRead < 2 ^ 60
  exclusive : c.writes = 0 ∨ c .readGuard = 0 ∧ c .upreadGuard = 0 ∧ c .upgrading = 0

/-- One more claim. -/
abbrev claim (k : Claim) : Claims := Pi.single k 1

theorem wordOK_zero : WordOK 0#64 0 := by
  constructor <;> simp [Claims.reads, Claims.upreads, Claims.writes]

section

variable {word : BitVec 64} {c : Claims}

theorem Claims.upgrading_le (c : Claims) : c .upgrading ≤ c.upreads := by
  unfold Claims.upreads
  omega

theorem WordOK.reads_lt (h : WordOK word c) : c.reads < 2 ^ 61 := by
  have h1 := h.readGuards_le
  have h2 := h.failedReads_lt
  unfold Claims.reads
  omega

/-! ## What the bits say -/

/-- The four flag bits. -/
structure FlagBits (word : BitVec 64) (c : Claims) : Prop where
  writer : word.getLsbD 63 = decide (c.writes = 1)
  upgradeableReader : word.getLsbD 62 = decide (c.upreads = 1)
  beingUpgraded : word.getLsbD 61 = decide (c .upgrading = 1)
  maxReader : word.getLsbD 60 = decide (2 ^ 60 ≤ c.reads)

theorem WordOK.bits (h : WordOK word c) : FlagBits word c := by
  have h1 := h.sum
  have h2 := h.upreads_le
  have h3 := h.writes_le
  have h4 := h.reads_lt
  have h5 := c.upgrading_le
  constructor <;> rw [getLsbD_eq_decide, decide_eq_decide] <;> omega

/-- The test of `try_read`. -/
theorem WordOK.readable_iff (h : WordOK word c) :
    word &&& (writer ||| maxReader ||| beingUpgraded) = 0#64 ↔
      c.writes = 0 ∧ c.reads < 2 ^ 60 ∧ c .upgrading = 0 := by
  have h2 := h.upreads_le
  have h3 := h.writes_le
  have h5 := c.upgrading_le
  have hbit : ∀ j, j < 64 → (word &&& 1#64 <<< j = 0#64 ↔ word.getLsbD j = false) := by
    intro j hj
    rw [← not_iff_not, ← ne_eq, and_one_shiftLeft_ne_zero hj, Bool.not_eq_false]
  rw [BitVec.and_or_distrib_left, BitVec.and_or_distrib_left, BitVec.or_eq_zero_iff,
    BitVec.or_eq_zero_iff, writer, maxReader, beingUpgraded, hbit 63 (by decide),
    hbit 60 (by decide), hbit 61 (by decide), h.bits.writer, h.bits.maxReader, h.bits.beingUpgraded,
    decide_eq_false_iff_not, decide_eq_false_iff_not, decide_eq_false_iff_not]
  omega

/-- The value that `try_upread` looks at. -/
theorem WordOK.and_upread (h : WordOK word c) :
    word &&& (writer ||| upgradeableReader) =
      (if c.writes = 1 then writer else 0#64) |||
        (if c.upreads = 1 then upgradeableReader else 0#64) := by
  rw [BitVec.and_or_distrib_left, writer, upgradeableReader, and_one_shiftLeft (by decide),
    and_one_shiftLeft (by decide), h.bits.writer, h.bits.upgradeableReader]
  simp only [decide_eq_true_eq]

/-! ## The atomic accesses

In each lemma the claims after the access are those before it, up to the one claim that
the access makes, gives up or turns into another. -/

@[simp] theorem add_claim_apply (c : Claims) (k x : Claim) :
    (c + claim k) x = c x + if x = k then 1 else 0 := by
  rw [Pi.add_apply, claim, Pi.single_apply]

/-- The conditions as one statement about the seven counts. -/
theorem wordOK_iff : WordOK word c ↔
    word.toNat = c .readGuard + c .failedRead + 2 ^ 61 * c .upgrading +
      2 ^ 62 * (c .upreadGuard + c .failedUpread + c .upgrading + c .upgraded) +
      2 ^ 63 * (c .writeGuard + c .upgraded) ∧
    c .upreadGuard + c .failedUpread + c .upgrading + c .upgraded ≤ 1 ∧
    c .writeGuard + c .upgraded ≤ 1 ∧ c .readGuard ≤ 2 ^ 60 ∧ c .failedRead < 2 ^ 60 ∧
    (c .writeGuard + c .upgraded = 0 ∨
      c .readGuard = 0 ∧ c .upreadGuard = 0 ∧ c .upgrading = 0) :=
  ⟨fun ⟨h1, h2, h3, h4, h5, h6⟩ => ⟨h1, h2, h3, h4, h5, h6⟩,
    fun ⟨h1, h2, h3, h4, h5, h6⟩ => ⟨h1, h2, h3, h4, h5, h6⟩⟩

theorem toNat_add_reader (h : word.toNat + 1 < 2 ^ 64) :
    (word + reader).toNat = word.toNat + 1 := by
  rw [BitVec.toNat_add, show reader.toNat = 1 from rfl]
  omega

theorem toNat_sub_reader (h : 1 ≤ word.toNat) : (word - reader).toNat = word.toNat - 1 := by
  have hlt := word.isLt
  rw [BitVec.toNat_sub, show reader.toNat = 1 from rfl]
  omega

theorem toNat_sub_upgradeableReader (h : 2 ^ 62 ≤ word.toNat) :
    (word - upgradeableReader).toNat = word.toNat - 2 ^ 62 := by
  have hlt := word.isLt
  rw [BitVec.toNat_sub, upgradeableReader, toNat_one_shiftLeft (by decide)]
  omega

/-- `fetch_add(READER)` of an attempt that succeeds. -/
theorem WordOK.add_readGuard (h : WordOK word c)
    (hread : word &&& (writer ||| maxReader ||| beingUpgraded) = 0#64) :
    WordOK (word + reader) (c + claim .readGuard) := by
  obtain ⟨hwrites, hreads, hupgrading⟩ := h.readable_iff.mp hread
  unfold Claims.writes at hwrites
  unfold Claims.reads at hreads
  rw [wordOK_iff] at h ⊢
  rw [toNat_add_reader (by omega)]
  simp only [add_claim_apply, reduceCtorEq, if_true, if_false]
  omega

/-- `fetch_add(READER)` of an attempt that fails. -/
theorem WordOK.add_failedRead (h : WordOK word c) (hfew : c .failedRead + 1 < 2 ^ 60) :
    WordOK (word + reader) (c + claim .failedRead) := by
  rw [wordOK_iff] at h ⊢
  rw [toNat_add_reader (by omega)]
  simp only [add_claim_apply, reduceCtorEq, if_true, if_false]
  omega

/-- `fetch_sub(READER)` of a failed attempt. -/
theorem WordOK.sub_failedRead (h : WordOK word (c + claim .failedRead)) :
    WordOK (word - reader) c := by
  rw [wordOK_iff] at h ⊢
  simp only [add_claim_apply, reduceCtorEq, if_true, if_false] at h
  rw [toNat_sub_reader (by omega)]
  omega

/-- `fetch_sub(READER)` of a guard. -/
theorem WordOK.sub_readGuard (h : WordOK word (c + claim .readGuard)) :
    WordOK (word - reader) c := by
  rw [wordOK_iff] at h ⊢
  simp only [add_claim_apply, reduceCtorEq, if_true, if_false, false_and, or_false] at h
  rw [toNat_sub_reader (by omega)]
  omega

/-- The compare-exchange of `try_write`. -/
theorem WordOK.add_writeGuard (h : WordOK 0#64 c) : WordOK writer (c + claim .writeGuard) := by
  rw [wordOK_iff] at h ⊢
  rw [show (0#64).toNat = 0 from rfl] at h
  rw [show writer.toNat = 2 ^ 63 from by decide]
  simp only [add_claim_apply, reduceCtorEq, if_true, if_false]
  omega

/-- `fetch_or(UPGRADEABLE_READER)` when the bit is clear. -/
theorem WordOK.toNat_or_upgradeableReader (h : WordOK word c) (hup : c.upreads = 0) :
    (word ||| upgradeableReader).toNat = word.toNat + 2 ^ 62 := by
  apply toNat_or_one_shiftLeft (by decide)
  rw [h.bits.upgradeableReader, hup]
  rfl

theorem WordOK.add_upreadGuard (h : WordOK word c) (hup : c.upreads = 0) (hw : c.writes = 0) :
    WordOK (word ||| upgradeableReader) (c + claim .upreadGuard) := by
  have hword := h.toNat_or_upgradeableReader hup
  unfold Claims.upreads at hup
  unfold Claims.writes at hw
  rw [wordOK_iff] at h ⊢
  simp only [add_claim_apply, reduceCtorEq, if_true, if_false]
  omega

theorem WordOK.add_failedUpread (h : WordOK word c) (hup : c.upreads = 0) :
    WordOK (word ||| upgradeableReader) (c + claim .failedUpread) := by
  have hword := h.toNat_or_upgradeableReader hup
  unfold Claims.upreads at hup
  rw [wordOK_iff] at h ⊢
  simp only [add_claim_apply, reduceCtorEq, if_true, if_false]
  omega

/-- `fetch_or(UPGRADEABLE_READER)` when the bit is set. -/
theorem WordOK.or_upgradeableReader (h : WordOK word c) (hup : c.upreads = 1) :
    word ||| upgradeableReader = word := by
  apply or_one_shiftLeft_of_set (by decide)
  rw [h.bits.upgradeableReader, hup]
  rfl

/-- `fetch_sub(UPGRADEABLE_READER)` of a failed attempt. -/
theorem WordOK.sub_failedUpread (h : WordOK word (c + claim .failedUpread)) :
    WordOK (word - upgradeableReader) c := by
  rw [wordOK_iff] at h ⊢
  simp only [add_claim_apply, reduceCtorEq, if_true, if_false] at h
  rw [toNat_sub_upgradeableReader (by omega)]
  omega

/-- `fetch_sub(UPGRADEABLE_READER)` of a guard. -/
theorem WordOK.sub_upreadGuard (h : WordOK word (c + claim .upreadGuard)) :
    WordOK (word - upgradeableReader) c := by
  rw [wordOK_iff] at h ⊢
  simp only [add_claim_apply, reduceCtorEq, if_true, if_false] at h
  rw [toNat_sub_upgradeableReader (by omega)]
  omega

/-- `fetch_or(BEING_UPGRADED)`. -/
theorem WordOK.upgrade (h : WordOK word (c + claim .upreadGuard)) :
    WordOK (word ||| beingUpgraded) (c + claim .upgrading) := by
  have hbit : word.getLsbD 61 = false := by
    have hup := h.upreads_le
    rw [h.bits.beingUpgraded, decide_eq_false_iff_not]
    simp only [Claims.upreads, add_claim_apply, reduceCtorEq, if_true, if_false] at hup ⊢
    omega
  have hword := toNat_or_one_shiftLeft (by decide) hbit
  rw [← beingUpgraded] at hword
  rw [wordOK_iff] at h ⊢
  simp only [add_claim_apply, reduceCtorEq, if_true, if_false, false_and,
    and_false, or_false] at h ⊢
  omega

/-- The compare-exchange of `try_upgrade`. -/
theorem WordOK.upgraded (h : WordOK (upgradeableReader ||| beingUpgraded) (c + claim .upgrading)) :
    WordOK (writer ||| upgradeableReader) (c + claim .upgraded) := by
  rw [wordOK_iff] at h ⊢
  rw [show (upgradeableReader ||| beingUpgraded).toNat = 2 ^ 62 + 2 ^ 61 from by decide] at h
  rw [show (writer ||| upgradeableReader).toNat = 2 ^ 63 + 2 ^ 62 from by decide]
  simp only [add_claim_apply, reduceCtorEq, if_true, if_false] at h ⊢
  omega

/-- `fetch_sub(UPGRADEABLE_READER)` at the end of an upgrade. -/
theorem WordOK.finish_upgrade (h : WordOK word (c + claim .upgraded)) :
    WordOK (word - upgradeableReader) (c + claim .writeGuard) := by
  rw [wordOK_iff] at h ⊢
  simp only [add_claim_apply, reduceCtorEq, if_true, if_false, false_or] at h ⊢
  rw [toNat_sub_upgradeableReader (by omega)]
  omega

/-- `fetch_and(!WRITER)` of a guard. -/
theorem WordOK.sub_writeGuard (h : WordOK word (c + claim .writeGuard)) :
    WordOK (word &&& ~~~writer) c := by
  have hbit : word.getLsbD 63 = true := by
    have hw := h.writes_le
    rw [h.bits.writer, decide_eq_true_iff]
    simp only [Claims.writes, add_claim_apply, reduceCtorEq, if_true, if_false] at hw ⊢
    omega
  have hword := toNat_andNot_one_shiftLeft (by decide) hbit
  rw [← writer] at hword
  rw [wordOK_iff] at h ⊢
  simp only [add_claim_apply, reduceCtorEq, if_true, if_false] at h
  omega

/-- The compare-exchange of `try_downgrade`. -/
theorem WordOK.downgrade (h : WordOK writer (c + claim .writeGuard)) :
    WordOK upgradeableReader (c + claim .upreadGuard) := by
  rw [wordOK_iff] at h ⊢
  rw [writer, toNat_one_shiftLeft (by decide)] at h
  rw [upgradeableReader, toNat_one_shiftLeft (by decide)]
  simp only [add_claim_apply, reduceCtorEq, if_true, if_false] at h ⊢
  omega

/-- `fetch_and(!WRITER)` after a downgrade. -/
theorem WordOK.andNot_writer (h : WordOK word (c + claim .upreadGuard)) :
    word &&& ~~~writer = word := by
  apply andNot_one_shiftLeft_of_unset (by decide)
  have hex := h.exclusive
  rw [h.bits.writer, decide_eq_false_iff_not]
  simp only [Claims.writes, add_claim_apply, reduceCtorEq, if_true, if_false, false_and,
    and_false, or_false] at hex ⊢
  omega

/-- A word without claims. -/
theorem WordOK.eq_zero (h : WordOK word 0) : word = 0#64 := by
  apply BitVec.eq_of_toNat_eq
  rw [h.sum]
  rfl

end

end Vostd
