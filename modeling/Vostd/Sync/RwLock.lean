/-
# The read-write spin lock

`RwLock` of `sync/rwlock.rs`, with `try_read`, `try_write`, `try_upread`, `upgrade` and
the drops of the three guards.  The spinning operations repeat these, so they add no
accesses of their own.

The result is that in every interleaving the lock word is the sum of the guards and of
the operations in progress, each counted where it stands: no access leaves a bit behind
that nobody claims, and no two guards exist that exclude each other.
-/
import Vostd.Sync.LockWord
import Vostd.Sync.LockOps

namespace Vostd

/-! ## The code -/

/-- The guards of a thread. -/
structure RwGuards where
  reads : ℕ
  writes : ℕ
  upreads : ℕ
  deriving DecidableEq, Repr

/-- No guards. -/
def RwGuards.none : RwGuards := ⟨0, 0, 0⟩

/-- The operations. -/
inductive RwOp : Type where
  | tryRead
  | tryWrite
  | tryUpread
  | upgrade
  | dropRead
  | dropWrite
  | dropUpread
  deriving DecidableEq, Repr

/-- The accesses of the operations after the first one. -/
inductive RwPending : Type where
  /-- a failed `try_read`, before its `fetch_sub(READER)` -/
  | retractRead
  /-- a failed `try_upread`, before its `fetch_sub(UPGRADEABLE_READER)` -/
  | retractUpread
  /-- `upgrade`, before the compare-exchange of `try_upgrade` -/
  | tryUpgrade
  /-- `try_upgrade`, before its `fetch_sub(UPGRADEABLE_READER)` -/
  | finishUpgrade
  deriving DecidableEq, Repr

/-- The operations that a thread can begin with its guards. -/
def RwOp.starts (g : RwGuards) : RwOp → Bool
  | .tryRead | .tryWrite | .tryUpread => true
  | .upgrade | .dropUpread => 0 < g.upreads
  | .dropRead => 0 < g.reads
  | .dropWrite => 0 < g.writes

/-- The first access of each operation.  `upgrade` takes the guard into the operation. -/
def RwOp.start (word : BitVec 64) (g : RwGuards) :
    RwOp → BitVec 64 × RwGuards × Outcome RwPending
  | .tryRead =>
      if word &&& (writer ||| maxReader ||| beingUpgraded) = 0#64 then
        (word + reader, { g with reads := g.reads + 1 }, .done)
      else (word + reader, g, .running .retractRead)
  | .tryWrite =>
      if word = 0#64 then (writer, { g with writes := g.writes + 1 }, .done)
      else (word, g, .failed)
  | .tryUpread =>
      let lock := word &&& (writer ||| upgradeableReader)
      if lock = 0#64 then
        (word ||| upgradeableReader, { g with upreads := g.upreads + 1 }, .done)
      else if lock = writer then (word ||| upgradeableReader, g, .running .retractUpread)
      else (word ||| upgradeableReader, g, .failed)
  | .upgrade =>
      (word ||| beingUpgraded, { g with upreads := g.upreads - 1 }, .running .tryUpgrade)
  | .dropRead => (word - reader, { g with reads := g.reads - 1 }, .done)
  | .dropWrite => (word &&& ~~~writer, { g with writes := g.writes - 1 }, .done)
  | .dropUpread => (word - upgradeableReader, { g with upreads := g.upreads - 1 }, .done)

/-- The later accesses. -/
def RwPending.resume (word : BitVec 64) (g : RwGuards) :
    RwPending → BitVec 64 × RwGuards × Outcome RwPending
  | .retractRead => (word - reader, g, .failed)
  | .retractUpread => (word - upgradeableReader, g, .failed)
  | .tryUpgrade =>
      if word = upgradeableReader ||| beingUpgraded then
        (writer ||| upgradeableReader, g, .running .finishUpgrade)
      else (word, g, .running .tryUpgrade)
  | .finishUpgrade => (word - upgradeableReader, { g with writes := g.writes + 1 }, .done)

/-- `RwLock`. -/
def rwLockOps : LockOps (BitVec 64) RwGuards RwOp RwPending :=
  ⟨RwOp.starts, RwOp.start, RwPending.resume⟩

/-! ## The claims of a thread -/

/-- The claim of an operation in progress. -/
def RwPending.claim : RwPending → Claim
  | .retractRead => .failedRead
  | .retractUpread => .failedUpread
  | .tryUpgrade => .upgrading
  | .finishUpgrade => .upgraded

/-- The claims of the guards. -/
def RwGuards.claims (g : RwGuards) : Claims :=
  Pi.single .readGuard g.reads + Pi.single .writeGuard g.writes +
    Pi.single .upreadGuard g.upreads

/-- The claims of a thread. -/
def rwClaims : RwGuards × Option RwPending → Claims
  | (g, none) => g.claims
  | (g, some p) => g.claims + claim p.claim

section

variable {word : BitVec 64} {d : Claims} {g : RwGuards}

theorem RwGuards.claims_addRead (g : RwGuards) :
    RwGuards.claims { g with reads := g.reads + 1 } = g.claims + claim .readGuard := by
  simp only [RwGuards.claims, claim, Pi.single_add]
  abel

theorem RwGuards.claims_addWrite (g : RwGuards) :
    RwGuards.claims { g with writes := g.writes + 1 } = g.claims + claim .writeGuard := by
  simp only [RwGuards.claims, claim, Pi.single_add]
  abel

theorem RwGuards.claims_addUpread (g : RwGuards) :
    RwGuards.claims { g with upreads := g.upreads + 1 } = g.claims + claim .upreadGuard := by
  simp only [RwGuards.claims, claim, Pi.single_add]
  abel

/-- A guard that is there is one of the claims. -/
theorem RwGuards.claims_dropRead (h : 0 < g.reads) :
    g.claims = RwGuards.claims { g with reads := g.reads - 1 } + claim .readGuard := by
  obtain ⟨reads, writes, upreads⟩ := g
  obtain ⟨n, rfl⟩ := Nat.exists_eq_add_of_lt h
  rw [← RwGuards.claims_addRead]
  simp

theorem RwGuards.claims_dropWrite (h : 0 < g.writes) :
    g.claims = RwGuards.claims { g with writes := g.writes - 1 } + claim .writeGuard := by
  obtain ⟨reads, writes, upreads⟩ := g
  obtain ⟨n, rfl⟩ := Nat.exists_eq_add_of_lt h
  rw [← RwGuards.claims_addWrite]
  simp

theorem RwGuards.claims_dropUpread (h : 0 < g.upreads) :
    g.claims = RwGuards.claims { g with upreads := g.upreads - 1 } + claim .upreadGuard := by
  obtain ⟨reads, writes, upreads⟩ := g
  obtain ⟨n, rfl⟩ := Nat.exists_eq_add_of_lt h
  rw [← RwGuards.claims_addUpread]
  simp

/-! ## Single accesses -/

/-- The claims after an access. -/
def claimsAfter (d : Claims) (r : BitVec 64 × RwGuards × Outcome RwPending) : Claims :=
  d + rwClaims (r.2.1, r.2.2.next)

theorem tryRead_ok (h : WordOK word (d + g.claims))
    (hfew : (d + g.claims) .failedRead + 1 < 2 ^ 60) :
    WordOK (RwOp.start word g .tryRead).1 (claimsAfter d (RwOp.start word g .tryRead)) := by
  rw [RwOp.start]
  by_cases hread : word &&& (writer ||| maxReader ||| beingUpgraded) = 0#64
  · rw [if_pos hread]
    show WordOK (word + reader) (d + RwGuards.claims { g with reads := g.reads + 1 })
    rw [RwGuards.claims_addRead, ← add_assoc]
    exact h.add_readGuard hread
  · rw [if_neg hread]
    show WordOK (word + reader) (d + (g.claims + claim .failedRead))
    rw [← add_assoc]
    exact h.add_failedRead hfew

theorem tryWrite_ok (h : WordOK word (d + g.claims)) :
    WordOK (RwOp.start word g .tryWrite).1 (claimsAfter d (RwOp.start word g .tryWrite)) := by
  rw [RwOp.start]
  by_cases hzero : word = 0#64
  · rw [if_pos hzero]
    show WordOK writer (d + RwGuards.claims { g with writes := g.writes + 1 })
    rw [RwGuards.claims_addWrite, ← add_assoc]
    exact (hzero ▸ h).add_writeGuard
  · rw [if_neg hzero]
    exact h

theorem tryUpread_ok (h : WordOK word (d + g.claims)) :
    WordOK (RwOp.start word g .tryUpread).1 (claimsAfter d (RwOp.start word g .tryUpread)) := by
  have hup := h.upreads_le
  have hw := h.writes_le
  rw [RwOp.start, h.and_upread]
  -- the bits that the access has found
  by_cases hup1 : (d + g.claims).upreads = 1
  · rw [if_pos hup1, h.or_upgradeableReader hup1]
    have hsome : ∀ b : BitVec 64, b ||| upgradeableReader = 0#64 → False := by
      intro b hb
      exact absurd (BitVec.or_eq_zero_iff.mp hb).2 (by decide)
    have hne : (if (d + g.claims).writes = 1 then writer else 0#64) ||| upgradeableReader ≠
        writer := by
      by_cases hw1 : (d + g.claims).writes = 1
      · rw [if_pos hw1]
        decide
      · rw [if_neg hw1]
        decide
    rw [if_neg (hsome _), if_neg hne]
    exact h
  · have hup0 : (d + g.claims).upreads = 0 := by omega
    rw [if_neg hup1]
    by_cases hw1 : (d + g.claims).writes = 1
    · rw [if_pos hw1, if_neg (by decide), if_pos (by decide)]
      show WordOK (word ||| upgradeableReader) (d + (g.claims + claim .failedUpread))
      rw [← add_assoc]
      exact h.add_failedUpread hup0
    · rw [if_neg hw1, if_pos (by decide)]
      show WordOK _ (d + RwGuards.claims { g with upreads := g.upreads + 1 })
      rw [RwGuards.claims_addUpread, ← add_assoc]
      exact h.add_upreadGuard hup0 (by omega)

/-- The first access of an operation keeps the word the sum of the claims. -/
theorem rwStart_ok {op : RwOp} (hstart : op.starts g = true) (h : WordOK word (d + g.claims))
    (hfew : op = .tryRead → (d + g.claims) .failedRead + 1 < 2 ^ 60) :
    WordOK (RwOp.start word g op).1 (claimsAfter d (RwOp.start word g op)) := by
  cases op with
  | tryRead => exact tryRead_ok h (hfew rfl)
  | tryWrite => exact tryWrite_ok h
  | tryUpread => exact tryUpread_ok h
  | upgrade =>
      rw [RwGuards.claims_dropUpread (of_decide_eq_true hstart), ← add_assoc] at h
      show WordOK (word ||| beingUpgraded) (d + (_ + claim .upgrading))
      rw [← add_assoc]
      exact h.upgrade
  | dropRead =>
      rw [RwGuards.claims_dropRead (of_decide_eq_true hstart), ← add_assoc] at h
      exact h.sub_readGuard
  | dropWrite =>
      rw [RwGuards.claims_dropWrite (of_decide_eq_true hstart), ← add_assoc] at h
      exact h.sub_writeGuard
  | dropUpread =>
      rw [RwGuards.claims_dropUpread (of_decide_eq_true hstart), ← add_assoc] at h
      exact h.sub_upreadGuard

/-- So do the later ones. -/
theorem rwResume_ok {p : RwPending} (h : WordOK word (d + (g.claims + claim p.claim))) :
    WordOK (RwPending.resume word g p).1 (claimsAfter d (RwPending.resume word g p)) := by
  rw [← add_assoc] at h
  cases p with
  | retractRead => exact h.sub_failedRead
  | retractUpread => exact h.sub_failedUpread
  | tryUpgrade =>
      rw [RwPending.resume]
      by_cases hword : word = upgradeableReader ||| beingUpgraded
      · rw [if_pos hword]
        show WordOK (writer ||| upgradeableReader) (d + (g.claims + claim .upgraded))
        rw [← add_assoc]
        exact (hword ▸ h).upgraded
      · rw [if_neg hword]
        show WordOK word (d + (g.claims + claim .upgrading))
        rw [← add_assoc]
        exact h
  | finishUpgrade =>
      show WordOK (word - upgradeableReader)
        (d + RwGuards.claims { g with writes := g.writes + 1 })
      rw [RwGuards.claims_addWrite, ← add_assoc]
      exact h.finish_upgrade

end

/-! ## All interleavings -/

section

variable {ι : Type} [Fintype ι]

/-- The states of a lock with threads `ι`. -/
abbrev RwLockState (ι : Type) : Type := LockState ι (BitVec 64) RwGuards RwPending

/-- How many guards of a kind there are. -/
def RwLockState.guards (f : RwGuards → ℕ) (s : RwLockState ι) : ℕ :=
  total (fun t => f t.1) s.threads

/-- How many operations are at an access. -/
def RwLockState.pending (p : RwPending) (s : RwLockState ι) : ℕ :=
  total (fun t => if t.2 = some p then 1 else 0) s.threads

/-- The lock in use: all interleavings in which fewer than `2 ^ 60` attempts to read are in
progress at once. -/
def rwLockSystem (ι : Type) [Fintype ι] [DecidableEq ι] :
    System (RwLockState ι) (ι × Option RwOp) :=
  (rwLockOps.system ι 0#64 RwGuards.none).restrict
    (fun (s : RwLockState ι) l => l.2 = some .tryRead → s.pending .retractRead + 1 < 2 ^ 60)

theorem rwClaims_guards (t : RwGuards × Option RwPending) :
    rwClaims t .readGuard = t.1.reads ∧ rwClaims t .writeGuard = t.1.writes ∧
      rwClaims t .upreadGuard = t.1.upreads := by
  obtain ⟨g, _ | p⟩ := t
  · simp [rwClaims, RwGuards.claims]
  · cases p <;> simp [rwClaims, RwGuards.claims, RwPending.claim]

theorem rwClaims_pending (p : RwPending) (t : RwGuards × Option RwPending) :
    rwClaims t p.claim = if t.2 = some p then 1 else 0 := by
  obtain ⟨g, _ | q⟩ := t
  · cases p <;> simp [rwClaims, RwGuards.claims, RwPending.claim]
  · cases p <;> cases q <;> simp [rwClaims, RwGuards.claims, RwPending.claim]

theorem total_rwClaims (s : RwLockState ι) (k : Claim) :
    total rwClaims s.threads k = total (fun t => rwClaims t k) s.threads :=
  Finset.sum_apply k Finset.univ (fun i => rwClaims (s.threads i))

theorem total_pending (s : RwLockState ι) (p : RwPending) :
    total rwClaims s.threads p.claim = s.pending p := by
  rw [total_rwClaims]
  unfold RwLockState.pending total
  exact Finset.sum_congr rfl (fun i _ => rwClaims_pending p (s.threads i))

theorem total_guards (s : RwLockState ι) :
    total rwClaims s.threads .readGuard = s.guards RwGuards.reads ∧
      total rwClaims s.threads .writeGuard = s.guards RwGuards.writes ∧
      total rwClaims s.threads .upreadGuard = s.guards RwGuards.upreads := by
  simp only [total_rwClaims]
  unfold RwLockState.guards total
  exact ⟨Finset.sum_congr rfl (fun i _ => (rwClaims_guards (s.threads i)).1),
    Finset.sum_congr rfl (fun i _ => (rwClaims_guards (s.threads i)).2.1),
    Finset.sum_congr rfl (fun i _ => (rwClaims_guards (s.threads i)).2.2)⟩

variable [DecidableEq ι]

theorem rwLock_wordOK {s : RwLockState ι} (hs : (rwLockSystem ι).Reachable s) :
    WordOK s.word (total rwClaims s.threads) := by
  refine LockOps.claims_invariant rwClaims WordOK ?_ ?_ hs
  · rw [total_eq_zero (fun _ => by simp [rwClaims, RwGuards.claims, RwGuards.none])]
    exact wordOK_zero
  · rintro s i op r d hr hok hd h
    generalize ht : s.threads i = t at hr h hd
    cases hr with
    | start hstart =>
        refine rwStart_ok hstart h ?_
        rintro rfl
        have hfew := hok rfl
        rw [← total_pending, hd] at hfew
        exact hfew
    | resume => exact rwResume_ok h

/-- **What the lock word means.** -/
structure RwLockWord (s : RwLockState ι) : Prop where
  /-- the writer bit: a write guard, from the compare-exchange on -/
  writer : s.word.getLsbD 63 = true ↔ 0 < s.guards RwGuards.writes + s.pending .finishUpgrade
  /-- the upgradeable bit: an upgradeable guard, or one operation between setting and
  clearing the bit -/
  upgradeableReader : s.word.getLsbD 62 = true ↔
    s.guards RwGuards.upreads + s.pending .retractUpread + s.pending .tryUpgrade +
      s.pending .finishUpgrade = 1
  /-- an upgrade that waits -/
  beingUpgraded : s.word.getLsbD 61 = true ↔ 0 < s.pending .tryUpgrade
  /-- the readers, and the attempts to read that have failed -/
  readers : s.word.toNat % 2 ^ 61 = s.guards RwGuards.reads + s.pending .retractRead
  /-- the word is the sum of all claims -/
  sum : s.word.toNat = s.guards RwGuards.reads + s.pending .retractRead +
    2 ^ 61 * s.pending .tryUpgrade +
    2 ^ 62 * (s.guards RwGuards.upreads + s.pending .retractUpread + s.pending .tryUpgrade +
      s.pending .finishUpgrade) +
    2 ^ 63 * (s.guards RwGuards.writes + s.pending .finishUpgrade)

/-- **Which guards exist together.**  The guard of an upgrade is an upgradeable guard until
the compare-exchange succeeds, and a write guard from then on. -/
structure RwLockGuards (s : RwLockState ι) : Prop where
  write_le : s.guards RwGuards.writes + s.pending .finishUpgrade ≤ 1
  upread_le : s.guards RwGuards.upreads + s.pending .tryUpgrade ≤ 1
  exclusive : 0 < s.guards RwGuards.writes + s.pending .finishUpgrade →
    s.guards RwGuards.reads = 0 ∧ s.guards RwGuards.upreads + s.pending .tryUpgrade = 0

/-- **The read-write lock.**  Whatever the number of threads and the interleaving, the
lock word is the sum of its claims, the guards exclude each other as they should, and the
word is zero when no guard is held and no operation is in progress. -/
theorem rwlock_word_is_sum {s : RwLockState ι} (hs : (rwLockSystem ι).Reachable s) :
    RwLockWord s ∧ RwLockGuards s ∧
      ((∀ i, s.threads i = (RwGuards.none, none)) → s.word = 0#64) := by
  have h := rwLock_wordOK hs
  have hbits := h.bits
  have hlt := h.reads_lt
  have hup := h.upreads_le
  have hw := h.writes_le
  have hex := h.exclusive
  have hsum := h.sum
  have hupg := (total rwClaims s.threads).upgrading_le
  obtain ⟨hreads, hwrites, hupreads⟩ := total_guards s
  have hp1 := total_pending s .retractRead
  have hp2 := total_pending s .retractUpread
  have hp3 := total_pending s .tryUpgrade
  have hp4 := total_pending s .finishUpgrade
  simp only [RwPending.claim] at hp1 hp2 hp3 hp4
  simp only [Claims.reads, Claims.upreads, Claims.writes, hreads, hwrites, hupreads, hp1, hp2, hp3,
    hp4] at hlt hup hw hex hsum hupg
  refine ⟨⟨?_, ?_, ?_, ?_, hsum⟩, ⟨hw, by omega, by omega⟩, ?_⟩
  · rw [hbits.writer, decide_eq_true_iff, Claims.writes, hwrites, hp4]
    omega
  · rw [hbits.upgradeableReader, decide_eq_true_iff, Claims.upreads, hupreads, hp2, hp3, hp4]
  · rw [hbits.beingUpgraded, decide_eq_true_iff, hp3]
    omega
  · omega
  · intro hidle
    rw [total_eq_zero (fun i => by rw [hidle i]; simp [rwClaims, RwGuards.claims, RwGuards.none])]
      at h
    exact h.eq_zero

end

/-- Two threads: while the first one holds the write lock, the second one tries to read and
has not yet taken back its count. -/
theorem rwlock_word_is_sum_sample : ∃ s : RwLockState (Fin 2),
    s.word = writer + reader ∧ s.pending .retractRead = 1 ∧ RwLockWord s := by
  have h0 : (rwLockSystem (Fin 2)).Reachable ⟨0#64, fun _ => (RwGuards.none, none)⟩ := .init rfl
  have h1 := h0.step (l := (0, some .tryWrite)) ⟨(fun h => nomatch h), _, .start rfl, rfl⟩
  have h2 := h1.step (l := (1, some .tryRead)) ⟨fun _ => by decide, _, .start rfl, rfl⟩
  exact ⟨_, by decide, by decide, (rwlock_word_is_sum h2).1⟩

end Vostd
