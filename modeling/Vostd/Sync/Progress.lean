/-
# No wakeup is lost

A wakeup is lost in a state in which nobody holds the lock, every thread has finished its
operation or sleeps, and some thread sleeps (`Stuck`).

A waker in the queue is live while its thread waits for it.  When nobody holds the lock,
either no waker in the queue is live or some thread is on its way to wake another one, or to
an attempt (`Progress`).  An access keeps this if it is `Covered`: an operation that ends
without waking leaves a guard behind, or finds no live waker, or leaves the duty to
another thread that is in the middle of an operation.  The only other step that may break it
is the one of `wake_one` that takes a waker from the queue, when that waker is not live
(`orderly`).  With the invariant of the queue, no wakeup is lost otherwise (`not_stuck`).
-/
import Vostd.Sync.WakeUps

namespace Vostd

open Function

section

variable {ι W H O P : Type}

/-- The places from which a thread goes on to try the lock again, or to look into the queue. -/
def WaitPc.busy : WaitPc ι O P → Bool
  | .enqueue .. | .retry .. | .retrying .. | .wakeCheck _ | .wakePop _ => true
  | .idle | .calling _ | .first .. | .waiting .. | .parked .. | .wakeUp .. => false

namespace WaitState

/-- A thread that sleeps: it has parked, and its waker has not been woken. -/
def asleep (s : WaitState ι W H O P) (i : ι) : Bool :=
  match (s.threads i).pc with
  | .parked _ w => !s.hasWoken w
  | _ => false

/-- Some thread sleeps, and the others have finished their operations or sleep as well. -/
def Stuck (s : WaitState ι W H O P) : Prop :=
  (∀ i, (s.threads i).pc = .idle ∨ s.asleep i = true) ∧ ∃ i, s.asleep i = true

instance [Fintype ι] [DecidableEq ι] [DecidableEq O] [DecidableEq P] (s : WaitState ι W H O P) :
    Decidable s.Stuck :=
  inferInstanceAs (Decidable (_ ∧ _))

theorem exists_of_asleep {s : WaitState ι W H O P} {i : ι} (h : s.asleep i = true) :
    ∃ op w, (s.threads i).pc = .parked op w ∧ s.hasWoken w = false := by
  unfold asleep at h
  cases hpc : (s.threads i).pc with
  | parked op w =>
      rw [hpc] at h
      exact ⟨op, w, rfl, (Bool.not_eq_true' _).mp h⟩
  | idle | calling p | first op p | enqueue op w | retry op w | retrying op p w | waiting op w
  | wakeCheck all | wakePop all | wakeUp all w =>
      rw [hpc] at h
      cases h

/-- The thread of a waker waits for it. -/
def Live (s : WaitState ι W H O P) (w : Waker ι) : Prop := (s.threads w.1).pc.attended = some w

instance [DecidableEq ι] (s : WaitState ι W H O P) (w : Waker ι) : Decidable (s.Live w) :=
  inferInstanceAs (Decidable (_ = _))

/-- The conditions on the queue: it has fewer than `2 ^ 32` entries, and **`wake_one` does not
take a waker that is not live** while there are live ones behind it. -/
def orderly [DecidableEq ι] (s : WaitState ι W H O P) (i : ι) : Bool :=
  match (s.threads i).pc with
  | .enqueue .. => decide (s.wakers.length + 1 < 2 ^ 32)
  | .wakePop false =>
      match s.wakers with
      | [] => true
      | w :: rest => decide (s.Live w) || rest.all fun w => !decide (s.Live w)
  | _ => true

/-- Nobody holds the lock: `Guarded` says which threads do. -/
def Unguarded (Guarded : H × Option P → Prop) (s : WaitState ι W H O P) : Prop :=
  ∀ i, ¬Guarded (s.view.threads i)

/-- A thread that is going to try the lock again or to wake another thread; a thread outside
`wait_until` counts when it is in the middle of one of the operations `InFlight`. -/
def Active (InFlight : P → Prop) (s : WaitState ι W H O P) (i : ι) : Prop :=
  match (s.threads i).pc with
  | .idle => False
  | .calling p | .first _ p => InFlight p
  | .enqueue .. | .retry .. | .retrying .. | .wakeCheck _ | .wakePop _ => True
  | .waiting _ w | .parked _ w => s.hasWoken w = true
  -- `wake_all` goes on afterwards; `wake_one` has to wake a thread that waits
  | .wakeUp all w => all = true ∨ s.Live w

/-- **The progress invariant.** -/
def Progress (Guarded : H × Option P → Prop) (InFlight : P → Prop) (s : WaitState ι W H O P) :
    Prop :=
  s.Unguarded Guarded → (∀ w ∈ s.wakers, ¬s.Live w) ∨ ∃ i, s.Active InFlight i

/-! ## Threads that go on -/

section

variable {s : WaitState ι W H O P} {i : ι} {InFlight : P → Prop}

theorem active_of_busy (h : (s.threads i).pc.busy = true) : s.Active InFlight i := by
  unfold Active
  cases hpc : (s.threads i).pc with
  | enqueue op w | retry op w | retrying op p w | wakeCheck all | wakePop all => trivial
  | idle | calling p | first op p | waiting op w | parked op w | wakeUp all w =>
      rw [hpc] at h
      cases h

theorem active_waiting {op : O} {w : Waker ι} (hpc : (s.threads i).pc = .waiting op w) :
    s.Active InFlight i ↔ s.hasWoken w = true := by
  unfold Active
  rw [hpc]

theorem active_parked {op : O} {w : Waker ι} (hpc : (s.threads i).pc = .parked op w) :
    s.Active InFlight i ↔ s.hasWoken w = true := by
  unfold Active
  rw [hpc]

/-- A thread that waits for a waker that has been woken. -/
theorem active_of_woken {w : Waker ι} (hatt : (s.threads i).pc.attended = some w)
    (hw : s.hasWoken w = true) : s.Active InFlight i := by
  unfold Active
  cases hpc : (s.threads i).pc with
  | retry op w' | retrying op p w' => trivial
  | waiting op w' | parked op w' =>
      rw [hpc] at hatt
      obtain rfl : w' = w := Option.some.inj hatt
      exact hw
  | idle | calling p | first op p | enqueue op w' | wakeCheck all | wakePop all | wakeUp all w' =>
      rw [hpc] at hatt
      cases hatt

/-- A thread that has an operation in flight. -/
theorem active_of_pending {p : P} (hp : (s.threads i).pc.pending = some p) (hfly : InFlight p) :
    s.Active InFlight i := by
  unfold Active
  cases hpc : (s.threads i).pc with
  | calling p' | first op p' =>
      rw [hpc] at hp
      obtain rfl : p' = p := Option.some.inj hp
      exact hfly
  | retrying op p' w => trivial
  | idle | enqueue op w | retry op w | waiting op w | parked op w | wakeCheck all | wakePop all
  | wakeUp all w =>
      rw [hpc] at hp
      cases hp

theorem progress_of_nil {Guarded : H × Option P → Prop} (hnil : s.wakers = []) :
    Progress Guarded InFlight s := by
  intro _
  rw [hnil]
  exact Or.inl (fun w hw => absurd hw List.not_mem_nil)

end

end WaitState

/-- After an access the thread is busy, or the operation has ended without waking, or it is
in the middle of one. -/
theorem AccessStep.after_cases {ops : LockOps W H O P} {blocks : O → Bool} {word : W} {i : ι}
    {a : WaitAct O} {op : Option O} {r : W × H × Outcome P} {t t' : WaitThread ι H O P}
    (h : AccessStep ops blocks word i t a op r t') :
    t'.pc.busy = true ∨ (r.2.2 = .done ∨ r.2.2 = .failed) ∨
      ∃ p, r.2.2 = .running p ∧ t'.pc.pending = some p := by
  have hpend := congrArg Prod.snd h.lockAccess.2
  cases hr : r.2.2 with
  | running p =>
      rw [hr] at hpend
      exact Or.inr (Or.inr ⟨p, rfl, hpend⟩)
  | done => exact Or.inr (Or.inl (Or.inl rfl))
  | failed => exact Or.inr (Or.inl (Or.inr rfl))
  | wake all =>
      left
      cases h <;> simp only [WaitState.settle, hr, WaitPc.busy]

variable [DecidableEq ι]

/-- What an access has to see to. -/
def WaitState.Covered (Guarded : H × Option P → Prop) (InFlight : P → Prop)
    (s : WaitState ι W H O P) (i : ι) (r : W × H × Outcome P) : Prop :=
  match r.2.2 with
  | .running p => Guarded (r.2.1, some p) ∨ InFlight p
  | .wake _ => True
  | .done | .failed => (∃ j, Guarded ((LockOps.after s.view i r).threads j)) ∨
      (∀ w ∈ s.wakers, ¬s.Live w) ∨ ∃ j, j ≠ i ∧ ∃ p, (s.view.threads j).2 = some p ∧ InFlight p

variable {ops : LockOps W H O P} {blocks : O → Bool} {s s' : WaitState ι W H O P} {i j : ι}
  {a : WaitAct O} {Guarded : H × Option P → Prop} {InFlight : P → Prop}

namespace WaitState

variable {w : Waker ι} {t : WaitThread ι H O P}

section

variable {r : W × H × Outcome P}

theorem covered_of_running {p : P} (hr : r.2.2 = .running p)
    (h : Guarded (r.2.1, some p) ∨ InFlight p) : s.Covered Guarded InFlight i r := by
  unfold Covered
  rw [hr]
  exact h

theorem covered_of_wake {a : Bool} (hr : r.2.2 = .wake a) : s.Covered Guarded InFlight i r := by
  unfold Covered
  rw [hr]
  trivial

theorem covered_of_end (hnext : r.2.2.next = none)
    (h : (∃ j, Guarded ((LockOps.after s.view i r).threads j)) ∨ (∀ w ∈ s.wakers, ¬s.Live w) ∨
      ∃ j, j ≠ i ∧ ∃ p, (s.view.threads j).2 = some p ∧ InFlight p) :
    s.Covered Guarded InFlight i r := by
  unfold Covered
  cases hr : r.2.2 with
  | running p =>
      rw [hr] at hnext
      cases hnext
  | done => exact h
  | failed => exact h
  | wake all => trivial

end

theorem room_of_orderly (h : s.orderly i = true) {op : O}
    (hpc : (s.threads i).pc = .enqueue op w) : s.wakers.length + 1 < 2 ^ 32 := by
  unfold orderly at h
  rw [hpc] at h
  exact of_decide_eq_true h

theorem live_of_orderly (h : s.orderly i = true) {rest : List (Waker ι)}
    (hpc : (s.threads i).pc = .wakePop false) (hq : s.wakers = w :: rest) :
    s.Live w ∨ ∀ x ∈ rest, ¬s.Live x := by
  unfold orderly at h
  rw [hpc, hq] at h
  rcases (Bool.or_eq_true _ _).mp h with hw | hrest
  · exact Or.inl (of_decide_eq_true hw)
  · right
    intro x hx
    have hx' := List.all_eq_true.mp hrest x hx
    exact of_decide_eq_false ((Bool.not_eq_true' _).mp hx')

/-- No waker of a thread becomes live unless the thread begins to wait for it. -/
theorem Live.of_update (h : s'.Live w) (hthreads : s'.threads = update s.threads i t)
    (hattended : t.pc.attended = (s.threads i).pc.attended ∨ t.pc.attended = none) :
    s.Live w := by
  unfold Live at h ⊢
  rw [hthreads] at h
  by_cases hw : w.1 = i
  · rw [hw, update_self] at h
    rcases hattended with heq | hnone
    · rw [hw, ← heq]
      exact h
    · rw [hnone] at h
      cases h
  · rw [update_of_ne hw] at h
    exact h

theorem Live.keep (h : s.Live w) (hthreads : s'.threads = update s.threads i t)
    (hattended : t.pc.attended = (s.threads i).pc.attended) : s'.Live w := by
  unfold Live at h ⊢
  rw [hthreads]
  by_cases hw : w.1 = i
  · rw [hw] at h ⊢
    rw [update_self, hattended]
    exact h
  · rw [update_of_ne hw]
    exact h

/-- A step of another thread does not take the duty away. -/
theorem Active.of_ne (h : s.Active InFlight j) (hj : j ≠ i)
    (hthreads : s'.threads = update s.threads i t)
    (hattended : t.pc.attended = (s.threads i).pc.attended)
    (hwoken : ∀ w, s.hasWoken w = true → s'.hasWoken w = true) : s'.Active InFlight j := by
  have hself : s'.threads j = s.threads j := by
    rw [hthreads, update_of_ne hj]
  unfold Active at h ⊢
  rw [hself]
  cases hpc : (s.threads j).pc with
  | idle =>
      rw [hpc] at h
      exact h
  | calling p | first op p =>
      rw [hpc] at h
      exact h
  | enqueue op w | retry op w | retrying op p w | wakeCheck all | wakePop all => trivial
  | waiting op w | parked op w =>
      rw [hpc] at h
      exact hwoken w h
  | wakeUp all w =>
      rw [hpc] at h
      rcases h with hall | hlive
      · exact Or.inl hall
      · exact Or.inr (hlive.keep hthreads hattended)

/-! ## Every step -/

theorem Progress.access {op : Option O} {r : W × H × Outcome P}
    (hacc : AccessStep ops blocks s.word i (s.threads i) a op r t)
    (hcov : s.Covered Guarded InFlight i r) (hwakers : s'.wakers = s.wakers)
    (hthreads : s'.threads = update s.threads i t)
    (hview : s'.view = LockOps.after s.view i r) : Progress Guarded InFlight s' := by
  intro hfree
  have hself : s'.threads i = t := by
    rw [hthreads, update_self]
  rcases hacc.after_cases with hbusy | hend | ⟨p, hp, hpend⟩
  · exact Or.inr ⟨i, active_of_busy (by rw [hself]; exact hbusy)⟩
  · have hcov' : (∃ j, Guarded ((LockOps.after s.view i r).threads j)) ∨
        (∀ w ∈ s.wakers, ¬s.Live w) ∨
          ∃ j, j ≠ i ∧ ∃ p, (s.view.threads j).2 = some p ∧ InFlight p := by
      unfold Covered at hcov
      rcases hend with hend | hend <;> rw [hend] at hcov <;> exact hcov
    rcases hcov' with ⟨j, hj⟩ | hnone | ⟨j, hj, p, hp, hfly⟩
    · rw [← hview] at hj
      exact absurd hj (hfree j)
    · left
      intro w hw hlive
      rw [hwakers] at hw
      exact hnone w hw (hlive.of_update hthreads hacc.wakers.attended)
    · -- another thread has something in flight, and this step leaves it alone
      refine Or.inr ⟨j, active_of_pending ?_ hfly⟩
      rw [hthreads, update_of_ne hj]
      exact hp
  · unfold Covered at hcov
    rw [hp] at hcov
    rcases hcov with hguard | hfly
    · refine absurd ?_ (hfree i)
      rw [hview]
      simp only [LockOps.after, update_self, hp]
      exact hguard
    · exact Or.inr ⟨i, active_of_pending (by rw [hself]; exact hpend) hfly⟩

/-- A step to a place from which the thread goes on. -/
theorem progress_of_busy {pc : WaitPc ι O P} (hthreads : s'.threads = (s.put i pc).threads)
    (hbusy : pc.busy = true) : Progress Guarded InFlight s' := by
  intro _
  refine Or.inr ⟨i, active_of_busy ?_⟩
  rw [hthreads]
  simp only [put, update_self]
  exact hbusy

/-- Going to sleep and coming back. -/
theorem Progress.put (h : Progress Guarded InFlight s) {pc : WaitPc ι O P}
    (hpend : pc.pending = (s.threads i).pc.pending)
    (hatt : pc.attended = (s.threads i).pc.attended)
    (hself : s.Active InFlight i → (s.put i pc).Active InFlight i) :
    Progress Guarded InFlight (s.put i pc) := by
  intro hfree
  have hview : (s.put i pc).view = s.view := view_eq rfl rfl hpend
  unfold Unguarded at hfree
  rw [hview] at hfree
  rcases h hfree with hnone | ⟨j, hj⟩
  · left
    intro w hw hlive
    exact hnone w hw (hlive.of_update rfl (Or.inl hatt))
  · right
    by_cases hji : j = i
    · subst hji
      exact ⟨j, hself hj⟩
    · exact ⟨j, hj.of_ne hji rfl hatt (fun _ hw => hw)⟩

/-- Taking a waker from the queue. -/
theorem progress_pop (hord : s.orderly i = true) {all : Bool}
    (hpc : (s.threads i).pc = .wakePop all) (hq : s.wakers = w :: s'.wakers)
    (hthreads : s'.threads = (s.put i (.wakeUp all w)).threads) :
    Progress Guarded InFlight s' := by
  intro _
  have hatt : (WaitPc.wakeUp all w : WaitPc ι O P).attended = (s.threads i).pc.attended := by
    rw [hpc]
    rfl
  have hact : (all = true ∨ s'.Live w) → s'.Active InFlight i := by
    intro h
    unfold Active
    rw [hthreads]
    simp only [WaitState.put, update_self]
    exact h
  cases all with
  | true => exact Or.inr ⟨i, hact (Or.inl rfl)⟩
  | false =>
      rcases live_of_orderly hord hpc hq with hlive | hnone
      · exact Or.inr ⟨i, hact (Or.inr (hlive.keep hthreads hatt))⟩
      · left
        intro x hx hlive
        exact hnone x hx (hlive.of_update hthreads (Or.inl hatt))

/-- Waking: the thread that is woken goes on, or the waker was not what kept the queue
going. -/
theorem Progress.wake (h : Progress Guarded InFlight s)
    (hpc : (s.threads i).pc = .wakeUp false w) (hword : s'.word = s.word)
    (hwakers : s'.wakers = s.wakers) (hthreads : s'.threads = (s.put i .idle).threads)
    (hwoken : s'.hasWoken = update s.hasWoken w true) :
    Progress Guarded InFlight s' := by
  intro hfree
  have hview : s'.view = s.view := view_eq hword hthreads (by rw [hpc]; rfl)
  have hatt : (WaitPc.idle : WaitPc ι O P).attended = (s.threads i).pc.attended := by
    rw [hpc]
    rfl
  by_cases hown : s.Live w
  · exact Or.inr ⟨w.1, active_of_woken (hown.keep hthreads hatt)
      (by rw [hwoken, update_self])⟩
  · unfold Unguarded at hfree
    rw [hview] at hfree
    rcases h hfree with hnone | ⟨j, hj⟩
    · left
      intro x hx hlive
      rw [hwakers] at hx
      exact hnone x hx (hlive.of_update hthreads (Or.inl hatt))
    · have hji : j ≠ i := by
        rintro rfl
        unfold Active at hj
        rw [hpc] at hj
        exact hj.elim Bool.false_ne_true hown
      refine Or.inr ⟨j, hj.of_ne hji hthreads hatt ?_⟩
      intro x hx
      rw [hwoken]
      by_cases hxw : x = w
      · rw [hxw, update_self]
      · rw [update_of_ne hxw]
        exact hx

variable [Fintype ι]

/-- **Every orderly step keeps the progress invariant** if its access is covered. -/
theorem Progress.step (h : Progress Guarded InFlight s) (hq : QueueOK s)
    (hord : s.orderly i = true)
    (hcov : ∀ op r t, AccessStep ops blocks s.word i (s.threads i) a op r t →
      s.Covered Guarded InFlight i r)
    (hstep : WaitStep ops blocks s i a s') : Progress Guarded InFlight s' := by
  cases hstep with
  | access hacc => exact Progress.access hacc (hcov _ _ _ hacc) rfl rfl hacc.view
  | enqueue hpc => exact progress_of_busy rfl rfl
  | woken hpc hw => exact progress_of_busy rfl rfl
  | park hpc hw =>
      refine h.put (by rw [hpc]; rfl) (by rw [hpc]; rfl) ?_
      intro hact
      rw [active_waiting hpc, hw] at hact
      cases hact
  | @unpark op w hpc =>
      refine h.put (by rw [hpc]; rfl) (by rw [hpc]; rfl) ?_
      intro hact
      rw [active_parked hpc] at hact
      have hpc' : ((s.put i (.waiting op w)).threads i).pc = .waiting op w := by
        simp only [WaitState.put, update_self]
      exact (active_waiting hpc').mpr hact
  | nobody hpc hn =>
      -- the look at `num_wakers` has seen an empty queue
      refine progress_of_nil (List.length_eq_zero_iff.mp ?_)
      show s.wakers.length = 0
      rw [← hq.length, hn]
      rfl
  | somebody hpc => exact progress_of_busy rfl rfl
  | popNone hpc hnil => exact progress_of_nil hnil
  | pop hpc hcons => exact progress_pop hord hpc hcons rfl
  | skip hpc hw => exact progress_of_busy rfl rfl
  | @wake all w hpc hw =>
      cases all with
      | true => exact progress_of_busy rfl rfl
      | false => exact h.wake hpc rfl rfl rfl rfl

/-! ## The runs -/

/-- With both invariants no thread sleeps for ever. -/
theorem Progress.not_stuck (h : Progress Guarded InFlight s) (hq : QueueOK s)
    (hfree : s.Unguarded Guarded) : ¬s.Stuck := by
  rintro ⟨hsettled, i, hi⟩
  obtain ⟨op, w, hpc, hw⟩ := exists_of_asleep hi
  have hpopped : ∀ j, (s.threads j).pc.popped = none := by
    intro j
    rcases hsettled j with hj | hj
    · rw [hj]
      rfl
    · obtain ⟨_, _, hj', -⟩ := exists_of_asleep hj
      rw [hj']
      rfl
  have hidle : ∀ j, ¬s.Active InFlight j := by
    intro j hj
    rcases hsettled j with hj' | hj'
    · unfold Active at hj
      rw [hj'] at hj
      exact hj
    · obtain ⟨_, w', hj', hw'⟩ := exists_of_asleep hj'
      rw [active_parked hj', hw'] at hj
      cases hj
  -- the waker of the sleeper is in the queue, since nobody has it and nobody has woken it
  obtain ⟨rfl, -, hone⟩ := hq.attended i w (by rw [hpc]; rfl)
  have hfly : total (fun t : WaitThread ι H O P => if t.pc.popped = some w then 1 else 0)
      s.threads = 0 := by
    apply total_eq_zero
    intro j
    rw [hpopped j]
    rfl
  unfold tokens at hone
  rw [hfly, hw, Bool.toNat_false, add_zero, add_zero] at hone
  have hmem : w ∈ s.wakers := List.count_pos_iff.mp (hone ▸ Nat.one_pos)
  rcases h hfree with hnone | ⟨j, hj⟩
  · refine hnone w hmem ?_
    unfold Live
    rw [hpc]
    rfl
  · exact hidle j hj

end WaitState

variable (Guarded InFlight) in
/-- **No wakeup is lost** in the runs in which the queue is used in an orderly way and every
access is covered. -/
theorem not_stuck [Fintype ι] {word : W} {held : H}
    {ok : WaitState ι W H O P → ι × WaitAct O → Prop}
    (hord : ∀ s i a, ok s (i, a) → s.orderly i = true)
    (hcov : ∀ s i a op r t, ((waitSystem ι ops blocks word held).restrict ok).Reachable s →
      ok s (i, a) → AccessStep ops blocks s.word i (s.threads i) a op r t →
      s.Covered Guarded InFlight i r)
    (hs : ((waitSystem ι ops blocks word held).restrict ok).Reachable s)
    (hfree : s.Unguarded Guarded) : ¬s.Stuck := by
  have hinv : s.QueueOK ∧ s.Progress Guarded InFlight := by
    refine System.invariant (I := fun s => s.QueueOK ∧ s.Progress Guarded InFlight) ?_ ?_ hs
    · rintro _ rfl
      exact ⟨WaitState.queueOK_init word held, WaitState.progress_of_nil rfl⟩
    · rintro s ⟨i, a⟩ s' hreach ⟨hq, hprog⟩ ⟨hok, hnext⟩
      have hstep := WaitStep.of_next hnext
      have hord' := hord s i a hok
      exact ⟨hq.step (fun _ _ => WaitState.room_of_orderly hord') hstep,
        hprog.step hq hord' (fun op r t hacc => hcov s i a op r t hreach hok hacc) hstep⟩
  exact hinv.2.not_stuck hinv.1 hfree

end

end Vostd
