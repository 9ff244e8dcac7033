/-
# The mutex

`Mutex` of `sync/mutex.rs`: a flag and a wait queue.  `lock` is `wait_until` with `try_lock`, a
compare-exchange; dropping the guard stores `false` and calls `wake_one`.

The guards add up to the flag, so there is at most one of them.  Wakeups are lost in some
runs: `wait_until` leaves its waker in the queue when the second attempt succeeds, and
`wake_one` of a later `unlock` may be spent on it while another thread sleeps
(`mutex_sleeper`).  In the runs in which `wake_one` does not take such a waker while others
wait, none is lost.
-/
import Vostd.Sync.Progress

namespace Vostd

/-! ## The code -/

/-- The operations. -/
inductive MutexOp : Type where
  | tryLock
  | unlock
  deriving DecidableEq, Repr

/-- The only access of an operation; a thread holds a number of guards. -/
def MutexOp.start (lock : Bool) (guards : ℕ) : MutexOp → Bool × ℕ × Outcome Empty
  | .tryLock =>
      -- `acquire_lock`
      if lock = false then (true, guards + 1, .done) else (lock, guards, .failed)
  | .unlock =>
      -- `release_lock`, then `wake_one`
      (false, guards - 1, .wake false)

def mutexOps : LockOps Bool ℕ MutexOp Empty where
  starts := fun guards op =>
    match op with
    | .tryLock => true
    | .unlock => decide (0 < guards)
  start := MutexOp.start
  resume := fun _ _ p => p.elim

/-- `wait_until` is called with `try_lock` only. -/
def mutexBlocks : MutexOp → Bool
  | .tryLock => true
  | .unlock => false

/-- The flag, the queue and the threads. -/
abbrev MutexState (ι : Type) : Type := WaitState ι Bool ℕ MutexOp Empty

/-- All interleavings. -/
def mutexSystem (ι : Type) [DecidableEq ι] : System (MutexState ι) (ι × WaitAct MutexOp) :=
  waitSystem ι mutexOps mutexBlocks false 0

/-- A step in which the queue is used in an orderly way. -/
def MutexState.orderlyStep {ι : Type} [DecidableEq ι] (s : MutexState ι)
    (l : ι × WaitAct MutexOp) : Prop :=
  s.orderly l.1 = true

/-- How many guards exist. -/
def MutexState.guards {ι : Type} [Fintype ι] (s : MutexState ι) : ℕ := total (·.held) s.threads

/-- A wakeup has been lost: the mutex is free, every thread that does not sleep has
finished its operation, and some thread sleeps. -/
def MutexState.LostWakeup {ι : Type} (s : MutexState ι) : Prop := s.word = false ∧ s.Stuck

instance MutexState.decidableLostWakeup {ι : Type} [DecidableEq ι] [Fintype ι]
    (s : MutexState ι) : Decidable s.LostWakeup :=
  inferInstanceAs (Decidable (_ ∧ _))

/-- A thread that has a guard. -/
def mutexGuarded (t : ℕ × Option Empty) : Prop := 0 < t.1

/-! ## Guards -/

section

variable {ι : Type} [Fintype ι] {s : MutexState ι}

theorem unguarded_of_free (hguards : s.guards = s.word.toNat) (hfree : s.word = false) :
    s.Unguarded mutexGuarded := by
  intro i hi
  have hle := apply_le_total (fun t : WaitThread ι ℕ MutexOp Empty => t.held) s.threads i
  have hzero : s.guards = 0 := by
    rw [hguards, hfree]
    rfl
  have hpos : 0 < (s.threads i).held := hi
  unfold MutexState.guards at hzero
  omega

variable [DecidableEq ι]

/-- **The flag counts the guards**, in every run. -/
theorem mutex_guards {ok : MutexState ι → ι × WaitAct MutexOp → Prop}
    (hs : ((mutexSystem ι).restrict ok).Reachable s) : s.guards = s.word.toNat := by
  have hview := view_reachable (fun _ _ => True) (fun _ _ _ _ _ _ _ _ => trivial) hs
  refine LockOps.claims_invariant (fun t : ℕ × Option Empty => t.1)
    (fun (lock : Bool) guards => guards = lock.toNat) ?_ ?_ hview
  · exact total_eq_zero (fun _ => rfl)
  · intro v i op r d hacc _ _ h
    generalize v.threads i = t at hacc h
    cases hacc with
    | @start guards op hstarts =>
        simp only at h
        cases op with
        | tryLock =>
            show _ = _
            simp only [mutexOps, MutexOp.start]
            cases hlock : v.word with
            | false =>
                rw [hlock, Bool.toNat_false] at h
                show d + (guards + 1) = 1
                omega
            | true =>
                rw [hlock] at h
                exact h
        | unlock =>
            have hpos : 0 < guards := of_decide_eq_true hstarts
            have hle := v.word.toNat_le
            show d + (guards - 1) = 0
            omega
    | resume => exact Empty.elim ‹_›

/-! ## Wakeups -/

/-- An attempt that has succeeded has made a guard; one that has failed has seen one. -/
theorem mutex_covered {i : ι} {op : Option MutexOp} {r : Bool × ℕ × Outcome Empty}
    (hguards : s.guards = s.word.toNat) (hacc : mutexOps.Access s.word (s.view.threads i) op r) :
    s.Covered mutexGuarded (fun _ => False) i r := by
  generalize ht : s.view.threads i = t at hacc
  cases hacc with
  | @start guards op hstarts =>
      cases op with
      | tryLock =>
          by_cases hlock : s.word = false
          · simp only [mutexOps, MutexOp.start, if_pos hlock]
            refine Or.inl ⟨i, ?_⟩
            simp only [LockOps.after, Function.update_self]
            exact Nat.succ_pos guards
          · simp only [mutexOps, MutexOp.start, if_neg hlock]
            have hone : total (fun t : WaitThread ι ℕ MutexOp Empty => t.held) s.threads ≠ 0 := by
              show s.guards ≠ 0
              rw [hguards, Bool.eq_true_of_not_eq_false hlock]
              exact Nat.one_ne_zero
            obtain ⟨j, hj⟩ := exists_of_total_ne_zero hone
            refine Or.inl ⟨j, ?_⟩
            by_cases hji : j = i
            · subst hji
              have hheld : (s.threads j).held = guards := congrArg Prod.fst ht
              simp only [LockOps.after, Function.update_self]
              exact Nat.pos_of_ne_zero (hheld ▸ hj)
            · simp only [LockOps.after, Function.update_of_ne hji]
              exact Nat.pos_of_ne_zero hj
      | unlock => trivial
  | @resume guards p => exact p.elim

end

/-- **At most one guard exists, and no wakeup is lost**, the latter in the runs in which the
queue is used in an orderly way. -/
theorem mutex_no_lost_wakeup (ι : Type) [DecidableEq ι] [Fintype ι] :
    (∀ s, (mutexSystem ι).Reachable s → s.guards ≤ 1) ∧
      ∀ s, ((mutexSystem ι).restrict MutexState.orderlyStep).Reachable s → ¬s.LostWakeup := by
  constructor
  · intro s hs
    have hall : ((mutexSystem ι).restrict fun _ _ => True).Reachable s :=
      hs.restrict (fun _ _ => trivial)
    rw [mutex_guards hall]
    exact s.word.toNat_le
  · rintro s hs ⟨hfree, hstuck⟩
    refine not_stuck mutexGuarded (fun _ => False) ?_ ?_ hs
      (unguarded_of_free (mutex_guards hs) hfree) hstuck
    · intro s i a hok
      exact hok
    · intro s i a op r t hreach _ hacc
      exact mutex_covered (mutex_guards hreach) hacc.lockAccess.1

/-- Thread 1 goes to sleep while thread 0 holds the lock; the `unlock` of thread 0 wakes
it. -/
theorem mutex_no_lost_wakeup_sample : ∃ s : MutexState (Fin 2),
    (s.word = false ∧ (s.threads 1).pc = .parked .tryLock (1, 0) ∧ s.hasWoken (1, 0) = true) ∧
      ¬s.LostWakeup := by
  obtain ⟨s, hs, hp⟩ := ((mutexSystem (Fin 2)).restrict MutexState.orderlyStep).exists_of_runAll
    (fun s l => if s.orderly l.1 = true then s.next mutexOps mutexBlocks l.1 l.2 else none)
    [(0, .call .tryLock), (1, .block .tryLock), (1, .run), (1, .run), (1, .run),
      (0, .call .unlock), (0, .run), (0, .run), (0, .run)]
    (fun s => decide (s.word = false ∧ (s.threads 1).pc = .parked .tryLock (1, 0) ∧
      s.hasWoken (1, 0) = true))
    (fun _ _ _ h => Option.ite_none_right_eq_some.mp h) rfl (by decide)
  exact ⟨s, of_decide_eq_true hp, (mutex_no_lost_wakeup (Fin 2)).2 s hs⟩

/-! ## The wakeup that is lost -/

/-- Thread 1 gets the lock in its second attempt and leaves its waker in the queue; thread 2
goes to sleep behind it.  The `unlock` of thread 1 wakes the waker that it left itself. -/
def mutexTrace : List (Fin 3 × WaitAct MutexOp) :=
  [(0, .call .tryLock), (1, .block .tryLock), (0, .call .unlock), (0, .run), (1, .run), (1, .run),
    (2, .block .tryLock), (2, .run), (2, .run), (2, .run), (1, .call .unlock), (1, .run), (1, .run),
    (1, .run)]

theorem mutex_sleeper : ∃ s, (mutexSystem (Fin 3)).Reachable s ∧ s.LostWakeup := by
  obtain ⟨s, hs, hlost⟩ := (mutexSystem (Fin 3)).exists_of_runAll
    (fun s l => s.next mutexOps mutexBlocks l.1 l.2) mutexTrace (fun s => decide s.LostWakeup)
    (fun _ _ _ h => h) rfl (by decide)
  exact ⟨s, hs, of_decide_eq_true hlost⟩

end Vostd
