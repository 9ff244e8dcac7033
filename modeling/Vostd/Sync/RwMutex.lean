/-
# The read-write mutex

`RwMutex` of `sync/rwmutex.rs`: the lock word of `RwLock` with a wait queue.  The accesses to
the word are those of `RwLock`; in addition a write guard can be downgraded, and
the drops of the guards wake threads: `wake_all` for a write guard, and for the other two
only if the word says that nobody else is there.

The word is the sum of the claims again.  Wakeups are lost in some runs: a failed
`try_read` counts as a reader until it is taken back, so the drop of the last read guard does
not wake anybody then, and taking it back does not either (`rwMutex_sleeper`).
-/
import Vostd.Sync.RwLock
import Vostd.Sync.Progress

namespace Vostd

/-! ## The code -/

/-- The operations. -/
inductive RwMutexOp : Type where
  | lock (op : RwOp)
  | downgrade
  deriving DecidableEq, Repr

/-- The accesses of the operations after the first one. -/
inductive RwMutexPending : Type where
  | lock (p : RwPending)
  /-- `downgrade`, before the compare-exchange of `try_downgrade` -/
  | tryDowngrade
  /-- `try_downgrade`, before its `fetch_and(!WRITER)` -/
  | finishDowngrade
  deriving DecidableEq, Repr

/-- Whom an operation wakes when it has found `word`: nobody, one (`false`) or all. -/
def RwOp.wakes (word : BitVec 64) : RwOp → Option Bool
  | .dropRead => if word = reader then some false else none
  | .dropWrite => some true
  | .dropUpread => if word = upgradeableReader then some true else none
  | .tryRead | .tryWrite | .tryUpread | .upgrade => none

/-- The compare-exchange of `try_downgrade`; the operation has the guard. -/
def RwGuards.tryDowngrade (word : BitVec 64) (g : RwGuards) :
    BitVec 64 × RwGuards × Outcome RwMutexPending :=
  if word = writer then (upgradeableReader, g, .running .finishDowngrade)
  else (word, g, .running .tryDowngrade)

/-- The first access of each operation. -/
def RwMutexOp.start (word : BitVec 64) (g : RwGuards) :
    RwMutexOp → BitVec 64 × RwGuards × Outcome RwMutexPending
  | .lock op =>
      let r := op.start word g
      match op.wakes word with
      | some all => (r.1, r.2.1, .wake all)
      | none => (r.1, r.2.1, r.2.2.map .lock)
  | .downgrade => RwGuards.tryDowngrade word { g with writes := g.writes - 1 }

/-- The later accesses. -/
def RwMutexPending.resume (word : BitVec 64) (g : RwGuards) :
    RwMutexPending → BitVec 64 × RwGuards × Outcome RwMutexPending
  | .lock p =>
      let r := p.resume word g
      (r.1, r.2.1, r.2.2.map .lock)
  | .tryDowngrade => g.tryDowngrade word
  | .finishDowngrade => (word &&& ~~~writer, { g with upreads := g.upreads + 1 }, .wake true)

/-- The operations that a thread can begin with its guards. -/
def RwMutexOp.starts (g : RwGuards) : RwMutexOp → Bool
  | .lock op => op.starts g
  | .downgrade => 0 < g.writes

def rwMutexOps : LockOps (BitVec 64) RwGuards RwMutexOp RwMutexPending :=
  ⟨RwMutexOp.starts, RwMutexOp.start, RwMutexPending.resume⟩

/-- `read`, `write` and `upread` are `wait_until` with `try_read`, `try_write` and `try_upread`. -/
def rwMutexBlocks : RwMutexOp → Bool
  | .lock .tryRead | .lock .tryWrite | .lock .tryUpread => true
  | .lock .upgrade | .lock .dropRead | .lock .dropWrite | .lock .dropUpread | .downgrade => false

/-- The lock word, the queue and the threads. -/
abbrev RwMutexState (ι : Type) : Type :=
  WaitState ι (BitVec 64) RwGuards RwMutexOp RwMutexPending

/-- All interleavings. -/
def rwMutexSystem (ι : Type) [DecidableEq ι] : System (RwMutexState ι) (ι × WaitAct RwMutexOp) :=
  waitSystem ι rwMutexOps rwMutexBlocks 0#64 RwGuards.none

/-- A wakeup has been lost: no guard is held, every thread that does not sleep has finished
its operation, and some thread sleeps. -/
def RwMutexState.LostWakeup {ι : Type} (s : RwMutexState ι) : Prop :=
  (∀ i, (s.threads i).held = RwGuards.none) ∧ s.Stuck

instance RwMutexState.decidableLostWakeup {ι : Type} [DecidableEq ι] [Fintype ι]
    (s : RwMutexState ι) : Decidable s.LostWakeup :=
  inferInstanceAs (Decidable (_ ∧ _))

/-! ## The conditions -/

/-- A thread that has a guard, or is upgrading or downgrading one. -/
def rwMutexGuarded (t : RwGuards × Option RwMutexPending) : Prop :=
  t.1 ≠ RwGuards.none ∨ t.2 = some (.lock .tryUpgrade) ∨ t.2 = some (.lock .finishUpgrade) ∨
    t.2 = some .tryDowngrade ∨ t.2 = some .finishDowngrade

instance rwMutexGuarded.decidable (t : RwGuards × Option RwMutexPending) :
    Decidable (rwMutexGuarded t) :=
  inferInstanceAs (Decidable (_ ∨ _))

/-- An attempt that has failed and has not been taken back. -/
def rwMutexInFlight (p : RwMutexPending) : Prop :=
  p = .lock .retractRead ∨ p = .lock .retractUpread

instance rwMutexInFlight.decidable (p : RwMutexPending) : Decidable (rwMutexInFlight p) :=
  inferInstanceAs (Decidable (_ ∨ _))

/-- A failed attempt is taken back only while a guard is held or nobody waits. -/
def RwMutexState.retractInTime {ι : Type} [DecidableEq ι] [Fintype ι] (s : RwMutexState ι)
    (i : ι) : Bool :=
  match (s.threads i).pc.pending with
  | some p => !decide (rwMutexInFlight p) || decide (∃ j, rwMutexGuarded (s.view.threads j)) ||
      s.wakers.all fun w => !decide (s.Live w)
  | none => true

/-- How many attempts to read have failed and have not been taken back. -/
def RwMutexState.failedReads {ι : Type} [Fintype ι] (s : RwMutexState ι) : ℕ :=
  total (fun t => if t.pc.pending = some (.lock .retractRead) then 1 else 0) s.threads

/-- A step in which the queue is used in an orderly way, a failed attempt is taken back in
time, and the count of readers does not overflow. -/
structure RwMutexState.OrderlyStep {ι : Type} [DecidableEq ι] [Fintype ι] (s : RwMutexState ι)
    (l : ι × WaitAct RwMutexOp) : Prop where
  queue : s.orderly l.1 = true
  retract : s.retractInTime l.1 = true
  readers : s.failedReads + 1 < 2 ^ 60

instance RwMutexState.decidableOrderlyStep {ι : Type} [DecidableEq ι] [Fintype ι]
    (s : RwMutexState ι) (l : ι × WaitAct RwMutexOp) : Decidable (s.OrderlyStep l) :=
  decidable_of_iff
    (s.orderly l.1 = true ∧ s.retractInTime l.1 = true ∧ s.failedReads + 1 < 2 ^ 60)
    ⟨fun h => ⟨h.1, h.2.1, h.2.2⟩, fun h => ⟨h.queue, h.retract, h.readers⟩⟩

/-! ## The word is the sum of the claims -/

/-- The claims of a thread. -/
def rwMutexClaims : RwGuards × Option RwMutexPending → Claims
  | (g, none) => g.claims
  | (g, some (.lock p)) => g.claims + claim p.claim
  | (g, some .tryDowngrade) => g.claims + claim .writeGuard
  | (g, some .finishDowngrade) => g.claims + claim .upreadGuard

theorem rwMutexClaims_lock (g : RwGuards) (p : Option RwPending) :
    rwMutexClaims (g, p.map .lock) = rwClaims (g, p) := by
  cases p <;> rfl

/-- The drops end with their first access, whether they wake or not. -/
theorem rwMutexStart_next (word : BitVec 64) (g : RwGuards) (op : RwOp) :
    (RwMutexOp.start word g (.lock op)).1 = (op.start word g).1 ∧
      (RwMutexOp.start word g (.lock op)).2.1 = (op.start word g).2.1 ∧
      (RwMutexOp.start word g (.lock op)).2.2.next = (op.start word g).2.2.next.map .lock := by
  rw [RwMutexOp.start]
  cases hw : op.wakes word with
  | none => exact ⟨rfl, rfl, Outcome.next_map _ _⟩
  | some all =>
      refine ⟨rfl, rfl, ?_⟩
      cases op with
      | dropRead | dropWrite | dropUpread => rfl
      | tryRead | tryWrite | tryUpread | upgrade => cases hw

section

variable {word : BitVec 64} {d : Claims} {g : RwGuards}

theorem tryDowngrade_ok (h : WordOK word (d + (g.claims + claim .writeGuard))) :
    WordOK (g.tryDowngrade word).1
      (d + rwMutexClaims ((g.tryDowngrade word).2.1, (g.tryDowngrade word).2.2.next)) := by
  unfold RwGuards.tryDowngrade
  by_cases hword : word = writer
  · rw [if_pos hword]
    show WordOK upgradeableReader (d + (g.claims + claim .upreadGuard))
    rw [← add_assoc] at h ⊢
    exact (hword ▸ h).downgrade
  · rw [if_neg hword]
    exact h

/-- **Every access keeps the word the sum of the claims.** -/
theorem rwMutexAccess_ok {t : RwGuards × Option RwMutexPending} {op : Option RwMutexOp}
    {r : BitVec 64 × RwGuards × Outcome RwMutexPending} (hacc : rwMutexOps.Access word t op r)
    (h : WordOK word (d + rwMutexClaims t))
    (hfew : (d + rwMutexClaims t) .failedRead + 1 < 2 ^ 60) :
    WordOK r.1 (d + rwMutexClaims (r.2.1, r.2.2.next)) := by
  cases hacc with
  | @start g op hstart =>
      cases op with
      | lock op =>
          obtain ⟨h1, h2, h3⟩ := rwMutexStart_next word g op
          show WordOK (RwMutexOp.start word g (.lock op)).1 (d + rwMutexClaims
            ((RwMutexOp.start word g (.lock op)).2.1,
              (RwMutexOp.start word g (.lock op)).2.2.next))
          rw [h1, h2, h3, rwMutexClaims_lock]
          exact rwStart_ok hstart h (fun _ => hfew)
      | downgrade =>
          apply tryDowngrade_ok
          rw [← RwGuards.claims_dropWrite (of_decide_eq_true hstart)]
          exact h
  | @resume g p =>
      cases p with
      | lock p =>
          show WordOK (p.resume word g).1
            (d + rwMutexClaims ((p.resume word g).2.1, ((p.resume word g).2.2.map .lock).next))
          rw [Outcome.next_map, rwMutexClaims_lock]
          exact rwResume_ok h
      | tryDowngrade => exact tryDowngrade_ok h
      | finishDowngrade =>
          show WordOK (word &&& ~~~writer)
            (d + RwGuards.claims { g with upreads := g.upreads + 1 })
          have h' : WordOK word (d + g.claims + claim .upreadGuard) := by
            rw [add_assoc]
            exact h
          rw [RwGuards.claims_addUpread, h'.andNot_writer]
          exact h

end

section

variable {ι : Type} [Fintype ι]

theorem rwMutexClaims_failedRead (t : RwGuards × Option RwMutexPending) :
    rwMutexClaims t .failedRead = if t.2 = some (.lock .retractRead) then 1 else 0 := by
  obtain ⟨g, _ | p⟩ := t
  · simp [rwMutexClaims, RwGuards.claims]
  · cases p with
    | lock p => cases p <;> simp [rwMutexClaims, RwGuards.claims, RwPending.claim]
    | tryDowngrade | finishDowngrade => simp [rwMutexClaims, RwGuards.claims]

theorem total_failedReads (s : RwMutexState ι) :
    total rwMutexClaims s.view.threads .failedRead = s.failedReads := by
  unfold RwMutexState.failedReads total
  rw [Finset.sum_apply]
  exact Finset.sum_congr rfl (fun i _ => rwMutexClaims_failedRead (s.view.threads i))

variable [DecidableEq ι] {s : RwMutexState ι}

/-- The word is the sum of the claims in every run in which the count of readers does not
overflow. -/
theorem rwMutex_wordOK {ok : RwMutexState ι → ι × WaitAct RwMutexOp → Prop}
    (hfew : ∀ s l, ok s l → s.failedReads + 1 < 2 ^ 60)
    (hs : ((rwMutexSystem ι).restrict ok).Reachable s) :
    WordOK s.word (total rwMutexClaims s.view.threads) := by
  have hview := view_reachable
    (fun v _ => total rwMutexClaims v.threads .failedRead + 1 < 2 ^ 60)
    (fun s i a _ _ _ hok _ => by rw [total_failedReads]; exact hfew s (i, a) hok) hs
  refine LockOps.claims_invariant rwMutexClaims WordOK ?_ ?_ hview
  · rw [total_eq_zero (fun _ => by simp [rwMutexClaims, RwGuards.claims, RwGuards.none])]
    exact wordOK_zero
  · intro v i op r d hacc hok hd h
    refine rwMutexAccess_ok hacc h ?_
    rw [← hd]
    exact hok

end

/-! ## Wakeups -/

section

variable {ι : Type} {i : ι} {r : BitVec 64 × RwGuards × Outcome RwMutexPending} {g : RwGuards}

theorem unguarded_of_lost {s : RwMutexState ι} (h : s.LostWakeup) : s.Unguarded rwMutexGuarded := by
  obtain ⟨hheld, hsettled, -⟩ := h
  intro i hi
  have hpend : (s.threads i).pc.pending = none := by
    rcases hsettled i with hpc | hpc
    · rw [hpc]
      rfl
    · obtain ⟨_, _, hpc', -⟩ := WaitState.exists_of_asleep hpc
      rw [hpc']
      rfl
  rcases hi with hguard | hi
  · exact hguard (hheld i)
  · simp only [WaitState.view, hpend, reduceCtorEq, or_self] at hi

variable [DecidableEq ι] {s : RwMutexState ι}

/-- The operation ends with a guard. -/
theorem covered_of_guard (hnext : r.2.2.next = none) (hguard : r.2.1 ≠ RwGuards.none) :
    s.Covered rwMutexGuarded rwMutexInFlight i r := by
  apply WaitState.covered_of_end hnext
  refine Or.inl ⟨i, Or.inl ?_⟩
  simp only [LockOps.after, Function.update_self]
  exact hguard

theorem tryDowngrade_covered {word : BitVec 64} :
    s.Covered rwMutexGuarded rwMutexInFlight i (g.tryDowngrade word) := by
  unfold RwGuards.tryDowngrade
  by_cases hword : word = writer
  · rw [if_pos hword]
    exact Or.inl (Or.inr (Or.inr (Or.inr (Or.inr rfl))))
  · rw [if_neg hword]
    exact Or.inl (Or.inr (Or.inr (Or.inr (Or.inl rfl))))

/-- Taking back an attempt keeps the guards. -/
theorem retract_covered {p : RwMutexPending} (ht : s.view.threads i = (g, some p))
    (hp : rwMutexInFlight p) (hnext : r.2.2.next = none) (hheld : r.2.1 = g)
    (hok : (∃ i, rwMutexGuarded (s.view.threads i)) ∨ ∀ w ∈ s.wakers, ¬s.Live w) :
    s.Covered rwMutexGuarded rwMutexInFlight i r := by
  apply WaitState.covered_of_end hnext
  rcases hok with ⟨j, hj⟩ | hnone
  · refine Or.inl ⟨j, ?_⟩
    by_cases hji : j = i
    · subst hji
      left
      simp only [LockOps.after, Function.update_self]
      rw [hheld]
      rw [ht] at hj
      rcases hp with rfl | rfl
      · simpa [rwMutexGuarded] using hj
      · simpa [rwMutexGuarded] using hj
    · simp only [LockOps.after, Function.update_of_ne hji]
      exact hj
  · exact Or.inr (Or.inl hnone)

variable [Fintype ι]

theorem of_retractInTime {p : RwMutexPending} (h : s.retractInTime i = true)
    (hpend : (s.threads i).pc.pending = some p) (hp : rwMutexInFlight p) :
    (∃ j, rwMutexGuarded (s.view.threads j)) ∨ ∀ w ∈ s.wakers, ¬s.Live w := by
  unfold RwMutexState.retractInTime at h
  simp only [hpend, hp, decide_true, Bool.not_true, Bool.false_or, Bool.or_eq_true,
    decide_eq_true_eq, List.all_eq_true, Bool.not_eq_true', decide_eq_false_iff_not] at h
  exact h

/-- A thread with claims has a guard, or has an attempt to take back. -/
theorem guarded_of_claims {t : RwGuards × Option RwMutexPending} (h : rwMutexClaims t ≠ 0) :
    rwMutexGuarded t ∨ ∃ p, t.2 = some p ∧ rwMutexInFlight p := by
  obtain ⟨g, p⟩ := t
  by_cases hg : g = RwGuards.none
  · subst hg
    cases p with
    | none => exact absurd (by simp [rwMutexClaims, RwGuards.claims, RwGuards.none]) h
    | some p =>
        cases p with
        | lock p =>
            cases p with
            | retractRead => exact Or.inr ⟨_, rfl, Or.inl rfl⟩
            | retractUpread => exact Or.inr ⟨_, rfl, Or.inr rfl⟩
            | tryUpgrade => exact Or.inl (Or.inr (Or.inl rfl))
            | finishUpgrade => exact Or.inl (Or.inr (Or.inr (Or.inl rfl)))
        | tryDowngrade => exact Or.inl (Or.inr (Or.inr (Or.inr (Or.inl rfl))))
        | finishDowngrade => exact Or.inl (Or.inr (Or.inr (Or.inr (Or.inr rfl))))
  · exact Or.inl (Or.inl hg)

/-- **A word that is not zero after an operation**: somebody has a guard, or another thread
has an attempt to take back. -/
theorem exists_of_word_ne_zero
    (h : WordOK r.1 (total rwMutexClaims (LockOps.after s.view i r).threads)) (hne : r.1 ≠ 0#64)
    (hnext : r.2.2.next = none) :
    (∃ j, rwMutexGuarded ((LockOps.after s.view i r).threads j)) ∨
      ∃ j, j ≠ i ∧ ∃ p, (s.view.threads j).2 = some p ∧ rwMutexInFlight p := by
  obtain ⟨j, hj⟩ : ∃ j, rwMutexClaims ((LockOps.after s.view i r).threads j) ≠ 0 := by
    by_contra hall
    push Not at hall
    rw [total_eq_zero hall] at h
    exact hne h.eq_zero
  rcases guarded_of_claims hj with hguard | ⟨p, hp, hfly⟩
  · exact Or.inl ⟨j, hguard⟩
  · right
    by_cases hji : j = i
    · subst hji
      simp only [LockOps.after, Function.update_self, hnext] at hp
      cases hp
    · simp only [LockOps.after, Function.update_of_ne hji] at hp
      exact ⟨j, hji, p, hp, hfly⟩

/-- The operation ends and leaves a word that is not zero. -/
theorem covered_of_word (h : WordOK r.1 (total rwMutexClaims (LockOps.after s.view i r).threads))
    (hnext : r.2.2.next = none) (hne : r.1 ≠ 0#64) :
    s.Covered rwMutexGuarded rwMutexInFlight i r := by
  apply WaitState.covered_of_end hnext
  rcases exists_of_word_ne_zero h hne hnext with hguard | hfly
  · exact Or.inl hguard
  · exact Or.inr (Or.inr hfly)

theorem rwMutexStart_covered {op : RwOp}
    (h : WordOK (RwMutexOp.start s.word g (.lock op)).1 (total rwMutexClaims
      (LockOps.after s.view i (RwMutexOp.start s.word g (.lock op))).threads)) :
    s.Covered rwMutexGuarded rwMutexInFlight i (RwMutexOp.start s.word g (.lock op)) := by
  cases op with
  | tryRead =>
      by_cases hread : s.word &&& (writer ||| maxReader ||| beingUpgraded) = 0#64
      · apply covered_of_guard
        · simp only [RwMutexOp.start, RwOp.wakes, RwOp.start, if_pos hread]
          rfl
        · simp only [RwMutexOp.start, RwOp.wakes, RwOp.start, if_pos hread]
          exact fun hg => Nat.succ_ne_zero _ (congrArg RwGuards.reads hg)
      · apply WaitState.covered_of_running (p := .lock .retractRead)
        · simp only [RwMutexOp.start, RwOp.wakes, RwOp.start, if_neg hread]
          rfl
        · exact Or.inr (Or.inl rfl)
  | tryWrite =>
      by_cases hzero : s.word = 0#64
      · apply covered_of_guard
        · simp only [RwMutexOp.start, RwOp.wakes, RwOp.start, if_pos hzero]
          rfl
        · simp only [RwMutexOp.start, RwOp.wakes, RwOp.start, if_pos hzero]
          exact fun hg => Nat.succ_ne_zero _ (congrArg RwGuards.writes hg)
      · -- the compare-exchange has found something
        apply covered_of_word h
        · simp only [RwMutexOp.start, RwOp.wakes, RwOp.start, if_neg hzero]
          rfl
        · simp only [RwMutexOp.start, RwOp.wakes, RwOp.start, if_neg hzero]
          exact hzero
  | tryUpread =>
      by_cases hzero : s.word &&& (writer ||| upgradeableReader) = 0#64
      · apply covered_of_guard
        · simp only [RwMutexOp.start, RwOp.wakes, RwOp.start, if_pos hzero]
          rfl
        · simp only [RwMutexOp.start, RwOp.wakes, RwOp.start, if_pos hzero]
          exact fun hg => Nat.succ_ne_zero _ (congrArg RwGuards.upreads hg)
      · by_cases hwriter : s.word &&& (writer ||| upgradeableReader) = writer
        · apply WaitState.covered_of_running (p := .lock .retractUpread)
          · simp only [RwMutexOp.start, RwOp.wakes, RwOp.start, if_neg hzero, if_pos hwriter]
            rfl
          · exact Or.inr (Or.inr rfl)
        · apply covered_of_word h
          · simp only [RwMutexOp.start, RwOp.wakes, RwOp.start, if_neg hzero, if_neg hwriter]
            rfl
          · simp only [RwMutexOp.start, RwOp.wakes, RwOp.start, if_neg hzero, if_neg hwriter]
            exact fun hor => absurd (BitVec.or_eq_zero_iff.mp hor).2 (by decide)
  | upgrade =>
      exact WaitState.covered_of_running (p := .lock .tryUpgrade) rfl
        (Or.inl (Or.inr (Or.inl rfl)))
  | dropRead =>
      by_cases hlast : s.word = reader
      · apply WaitState.covered_of_wake (a := false)
        simp only [RwMutexOp.start, RwOp.wakes, if_pos hlast]
      · apply covered_of_word h
        · simp only [RwMutexOp.start, RwOp.wakes, if_neg hlast]
          rfl
        · simp only [RwMutexOp.start, RwOp.wakes, if_neg hlast]
          exact sub_ne_zero.mpr hlast
  | dropWrite => exact WaitState.covered_of_wake (a := true) rfl
  | dropUpread =>
      by_cases hlast : s.word = upgradeableReader
      · apply WaitState.covered_of_wake (a := true)
        simp only [RwMutexOp.start, RwOp.wakes, if_pos hlast]
      · apply covered_of_word h
        · simp only [RwMutexOp.start, RwOp.wakes, if_neg hlast]
          rfl
        · simp only [RwMutexOp.start, RwOp.wakes, if_neg hlast]
          exact sub_ne_zero.mpr hlast

/-- **Every orderly access is covered.** -/
theorem rwMutex_covered {op : Option RwMutexOp} {a : WaitAct RwMutexOp}
    (h : WordOK s.word (total rwMutexClaims s.view.threads)) (hok : s.OrderlyStep (i, a))
    (hacc : rwMutexOps.Access s.word (s.view.threads i) op r) :
    s.Covered rwMutexGuarded rwMutexInFlight i r := by
  obtain ⟨d, hd, hupd⟩ := exists_total_eq rwMutexClaims s.view.threads i
  have hfew := hok.readers
  rw [← total_failedReads, hd] at hfew
  rw [hd] at h
  have hafter : WordOK r.1 (total rwMutexClaims (LockOps.after s.view i r).threads) := by
    show WordOK r.1 (total rwMutexClaims (Function.update s.view.threads i (r.2.1, r.2.2.next)))
    rw [hupd]
    exact rwMutexAccess_ok hacc h hfew
  generalize ht : s.view.threads i = t at hacc
  cases hacc with
  | @start g op hstart =>
      cases op with
      | lock op => exact rwMutexStart_covered hafter
      | downgrade => exact tryDowngrade_covered
  | @resume g p =>
      have hpend : (s.threads i).pc.pending = some p := congrArg Prod.snd ht
      cases p with
      | lock p =>
          cases p with
          | retractRead =>
              exact retract_covered ht (Or.inl rfl) rfl rfl
                (of_retractInTime hok.retract hpend (Or.inl rfl))
          | retractUpread =>
              exact retract_covered ht (Or.inr rfl) rfl rfl
                (of_retractInTime hok.retract hpend (Or.inr rfl))
          | tryUpgrade =>
              show s.Covered _ _ i (RwMutexPending.resume s.word g (.lock .tryUpgrade))
              by_cases hword : s.word = upgradeableReader ||| beingUpgraded
              · apply WaitState.covered_of_running (p := .lock .finishUpgrade)
                · simp only [RwMutexPending.resume, RwPending.resume, if_pos hword]
                  rfl
                · exact Or.inl (Or.inr (Or.inr (Or.inl rfl)))
              · apply WaitState.covered_of_running (p := .lock .tryUpgrade)
                · simp only [RwMutexPending.resume, RwPending.resume, if_neg hword]
                  rfl
                · exact Or.inl (Or.inr (Or.inl rfl))
          | finishUpgrade =>
              exact covered_of_guard rfl
                (fun hg => Nat.succ_ne_zero _ (congrArg RwGuards.writes hg))
      | tryDowngrade => exact tryDowngrade_covered
      | finishDowngrade => exact WaitState.covered_of_wake (a := true) rfl

end

/-- **No wakeup is lost** in the runs in which the queue is used in an orderly way, failed
attempts are taken back only while a guard is held or nobody waits, and the count of readers
does not overflow. -/
theorem rwMutex_no_lost_wakeup {ι : Type} [DecidableEq ι] [Fintype ι] {s : RwMutexState ι}
    (hs : ((rwMutexSystem ι).restrict RwMutexState.OrderlyStep).Reachable s) :
    ¬s.LostWakeup := by
  intro hlost
  refine not_stuck rwMutexGuarded rwMutexInFlight ?_ ?_ hs (unguarded_of_lost hlost) hlost.2
  · intro s i a hok
    exact hok.queue
  · intro s i a op r t hreach hok hacc
    exact rwMutex_covered (rwMutex_wordOK (fun _ _ h => h.readers) hreach) hok
      hacc.lockAccess.1

/-- While thread 0 writes, thread 1 wants to read, takes its count back twice and goes to
sleep; the drop of thread 0 wakes it. -/
theorem rwMutex_no_lost_wakeup_sample : ∃ s : RwMutexState (Fin 2),
    (s.word = 0#64 ∧ (s.threads 1).pc = .parked (.lock .tryRead) (1, 0) ∧
      s.hasWoken (1, 0) = true) ∧ ¬s.LostWakeup := by
  obtain ⟨s, hs, hp⟩ := ((rwMutexSystem (Fin 2)).restrict
      RwMutexState.OrderlyStep).exists_of_runAll
    (fun s l => if s.OrderlyStep l then s.next rwMutexOps rwMutexBlocks l.1 l.2 else none)
    [(0, .call (.lock .tryWrite)), (1, .block (.lock .tryRead)), (1, .run), (1, .run), (1, .run),
      (1, .run), (1, .run), (0, .call (.lock .dropWrite)), (0, .run), (0, .run), (0, .run)]
    (fun s => decide (s.word = 0#64 ∧ (s.threads 1).pc = .parked (.lock .tryRead) (1, 0) ∧
      s.hasWoken (1, 0) = true))
    (fun _ _ _ h => Option.ite_none_right_eq_some.mp h) rfl (by decide)
  exact ⟨s, of_decide_eq_true hp, rwMutex_no_lost_wakeup hs⟩

/-! ## The wakeup that is lost -/

/-- Thread 1 fails to read while thread 0 writes, and is slow to take its count back.  Thread 2
reads, thread 3 wants to write and goes to sleep.  The drop of thread 2 finds the count of
thread 1 and wakes nobody; thread 1 takes it back and wakes nobody either. -/
def rwMutexTrace : List (Fin 4 × WaitAct RwMutexOp) :=
  [(0, .call (.lock .tryWrite)), (1, .call (.lock .tryRead)), (0, .call (.lock .dropWrite)),
    (0, .run), (2, .call (.lock .tryRead)), (3, .block (.lock .tryWrite)), (3, .run), (3, .run),
    (3, .run), (2, .call (.lock .dropRead)), (1, .run)]

theorem rwMutex_sleeper : ∃ s, (rwMutexSystem (Fin 4)).Reachable s ∧ s.LostWakeup := by
  obtain ⟨s, hs, hlost⟩ := (rwMutexSystem (Fin 4)).exists_of_runAll
    (fun s l => s.next rwMutexOps rwMutexBlocks l.1 l.2) rwMutexTrace
    (fun s => decide s.LostWakeup) (fun _ _ _ h => h) rfl (by decide)
  exact ⟨s, hs, of_decide_eq_true hlost⟩

end Vostd
