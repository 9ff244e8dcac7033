/-
# Where the wakers are

Two things are proved about the threads of a lock with a wait queue.

The first needs no condition: without the queue, they are threads that access the lock
(`view_reachable`), so what holds in all interleavings of the accesses holds here.

The second is about the wakers: one that its thread waits for is in exactly one of three
places, in the queue, in the hands of a thread that wakes it, or woken
(`QueueOK.attended`).  A waker that its thread has given up may still be in the queue.
-/
import Vostd.Sync.WaitQueue

namespace Vostd

open Function

section

variable {ι W H O P : Type}
  {t t' : WaitThread ι H O P} {r : W × H × Outcome P} {word : W} {op : Option O}

/-! ## The accesses -/

theorem settle_held {cont : P → WaitPc ι O P} {fail : WaitThread ι H O P → WaitThread ι H O P}
    (hcont : ∀ p, (cont p).pending = some p)
    (hfail : ∀ t, (fail t).held = t.held ∧ (fail t).pc.pending = none) :
    ((WaitState.settle t r cont fail).held, (WaitState.settle t r cont fail).pc.pending) =
      (r.2.1, r.2.2.next) := by
  obtain ⟨word, held, outcome⟩ := r
  cases outcome with
  | running p => exact Prod.ext rfl (hcont p)
  | done => rfl
  | failed => exact Prod.ext (hfail _).1 (hfail _).2
  | wake all => rfl

variable {ops : LockOps W H O P} {blocks : O → Bool} {s s' : WaitState ι W H O P} {i : ι}
  {a : WaitAct O}

/-- An access of the thread is an access of the lock. -/
theorem AccessStep.lockAccess (h : AccessStep ops blocks word i t a op r t') :
    ops.Access word (t.held, t.pc.pending) op r ∧
      (t'.held, t'.pc.pending) = (r.2.1, r.2.2.next) := by
  cases h with
  | call hpc hs =>
      rw [hpc]
      exact ⟨.start hs, settle_held (fun _ => rfl) (fun _ => ⟨rfl, rfl⟩)⟩
  | block hpc hs hb =>
      rw [hpc]
      exact ⟨.start hs, settle_held (fun _ => rfl) (fun _ => ⟨rfl, rfl⟩)⟩
  | calling hpc =>
      rw [hpc]
      exact ⟨.resume, settle_held (fun _ => rfl) (fun _ => ⟨rfl, rfl⟩)⟩
  | first hpc =>
      rw [hpc]
      exact ⟨.resume, settle_held (fun _ => rfl) (fun _ => ⟨rfl, rfl⟩)⟩
  | retry hpc hs =>
      rw [hpc]
      exact ⟨.start hs, settle_held (fun _ => rfl) (fun _ => ⟨rfl, rfl⟩)⟩
  | retrying hpc =>
      rw [hpc]
      exact ⟨.resume, settle_held (fun _ => rfl) (fun _ => ⟨rfl, rfl⟩)⟩

/-- What an access does to the wakers of its thread: none is in its hands, the one that it
waits for stays or is given up, and a new one may be made. -/
structure AccessWakers (i : ι) (t t' : WaitThread ι H O P) : Prop where
  popped : t.pc.popped = none ∧ t'.pc.popped = none
  pushing : t.pc.pushing = none
  cases : (t'.waiters = t.waiters ∧ t'.pc.pushing = none ∧
      (t'.pc.attended = t.pc.attended ∨ t'.pc.attended = none)) ∨
    (t.pc.attended = none ∧ t'.pc.attended = none ∧ t'.waiters = t.waiters + 1 ∧
      t'.pc.pushing = some (i, t.waiters))

theorem AccessWakers.attended (h : AccessWakers i t t') :
    t'.pc.attended = t.pc.attended ∨ t'.pc.attended = none := by
  rcases h.cases with ⟨-, -, hatt⟩ | ⟨-, hatt, -⟩
  · exact hatt
  · exact Or.inr hatt

/-- Attempts outside the queue. -/
theorem accessWakers_plain
    {cont : P → WaitPc ι O P} {fail : WaitThread ι H O P → WaitThread ι H O P}
    (ht : t.pc.popped = none ∧ t.pc.pushing = none ∧ t.pc.attended = none)
    (hcont : ∀ p, (cont p).popped = none ∧ (cont p).pushing = none ∧ (cont p).attended = none)
    (hfail : (∀ t, fail t = WaitState.toIdle t) ∨ ∃ op, ∀ t, fail t = WaitState.newWaiter i op t) :
    AccessWakers i t (WaitState.settle t r cont fail) := by
  obtain ⟨word, held, outcome⟩ := r
  obtain ⟨ht1, ht2, ht3⟩ := ht
  cases outcome with
  | running p =>
      obtain ⟨h1, h2, h3⟩ := hcont p
      exact ⟨⟨ht1, h1⟩, ht2, Or.inl ⟨rfl, h2, Or.inr h3⟩⟩
  | done => exact ⟨⟨ht1, rfl⟩, ht2, Or.inl ⟨rfl, rfl, Or.inr rfl⟩⟩
  | failed =>
      show AccessWakers i t (fail { t with held := held })
      rcases hfail with hfail | ⟨op, hfail⟩
      · rw [hfail]
        exact ⟨⟨ht1, rfl⟩, ht2, Or.inl ⟨rfl, rfl, Or.inr rfl⟩⟩
      · rw [hfail]
        exact ⟨⟨ht1, rfl⟩, ht2, Or.inr ⟨ht3, rfl, rfl, rfl⟩⟩
  | wake all => exact ⟨⟨ht1, rfl⟩, ht2, Or.inl ⟨rfl, rfl, Or.inr rfl⟩⟩

/-- Attempts with a waker in the queue. -/
theorem accessWakers_retry {op : O}
    {w : Waker ι} (ht : t.pc.popped = none ∧ t.pc.pushing = none ∧ t.pc.attended = some w) :
    AccessWakers i t (WaitState.settle t r (.retrying op · w) (WaitState.toWait op w)) := by
  obtain ⟨word, held, outcome⟩ := r
  obtain ⟨ht1, ht2, ht3⟩ := ht
  cases outcome with
  | running p => exact ⟨⟨ht1, rfl⟩, ht2, Or.inl ⟨rfl, rfl, Or.inl ht3.symm⟩⟩
  | done => exact ⟨⟨ht1, rfl⟩, ht2, Or.inl ⟨rfl, rfl, Or.inr rfl⟩⟩
  | failed => exact ⟨⟨ht1, rfl⟩, ht2, Or.inl ⟨rfl, rfl, Or.inl ht3.symm⟩⟩
  | wake all => exact ⟨⟨ht1, rfl⟩, ht2, Or.inl ⟨rfl, rfl, Or.inr rfl⟩⟩

theorem AccessStep.wakers (h : AccessStep ops blocks word i t a op r t') :
    AccessWakers i t t' := by
  cases h with
  | call hpc hs =>
      refine accessWakers_plain ?_ (fun _ => ⟨rfl, rfl, rfl⟩) (Or.inl fun _ => rfl)
      rw [hpc]
      exact ⟨rfl, rfl, rfl⟩
  | block hpc hs hb =>
      refine accessWakers_plain ?_ (fun _ => ⟨rfl, rfl, rfl⟩) (Or.inr ⟨_, fun _ => rfl⟩)
      rw [hpc]
      exact ⟨rfl, rfl, rfl⟩
  | calling hpc =>
      refine accessWakers_plain ?_ (fun _ => ⟨rfl, rfl, rfl⟩) (Or.inl fun _ => rfl)
      rw [hpc]
      exact ⟨rfl, rfl, rfl⟩
  | first hpc =>
      refine accessWakers_plain ?_ (fun _ => ⟨rfl, rfl, rfl⟩) (Or.inr ⟨_, fun _ => rfl⟩)
      rw [hpc]
      exact ⟨rfl, rfl, rfl⟩
  | retry hpc hs =>
      refine accessWakers_retry ?_
      rw [hpc]
      exact ⟨rfl, rfl, rfl⟩
  | retrying hpc =>
      refine accessWakers_retry ?_
      rw [hpc]
      exact ⟨rfl, rfl, rfl⟩

/-! ## Without the queue -/

/-- The lock and its threads without the queue. -/
def WaitState.view (s : WaitState ι W H O P) : LockState ι W H P :=
  ⟨s.word, fun i => ((s.threads i).held, (s.threads i).pc.pending)⟩

variable [DecidableEq ι]

namespace WaitState

theorem view_eq {pc : WaitPc ι O P} (hword : s'.word = s.word)
    (hthreads : s'.threads = (s.put i pc).threads)
    (h : pc.pending = (s.threads i).pc.pending) : s'.view = s.view := by
  unfold view
  rw [hword, hthreads]
  congr 1
  funext j
  by_cases hj : j = i
  · subst hj
    simp only [put, update_self, h]
  · simp only [put, update_of_ne hj]

end WaitState

theorem AccessStep.view (h : AccessStep ops blocks s.word i (s.threads i) a op r t) :
    WaitState.view { s with word := r.1, threads := update s.threads i t } =
      LockOps.after s.view i r := by
  unfold WaitState.view LockOps.after
  congr 1
  funext j
  by_cases hj : j = i
  · subst hj
    simp only [update_self]
    exact h.lockAccess.2
  · simp only [update_of_ne hj]

/-- Every step leaves the lock alone or is an access to it. -/
theorem WaitStep.view (h : WaitStep ops blocks s i a s') : s'.view = s.view ∨
    ∃ op r t, AccessStep ops blocks s.word i (s.threads i) a op r t ∧
      s'.view = LockOps.after s.view i r := by
  cases h with
  | access hacc => exact Or.inr ⟨_, _, _, hacc, hacc.view⟩
  | enqueue hpc => exact Or.inl (WaitState.view_eq rfl rfl (by rw [hpc]; rfl))
  | woken hpc hw => exact Or.inl (WaitState.view_eq rfl rfl (by rw [hpc]; rfl))
  | park hpc hw => exact Or.inl (WaitState.view_eq rfl rfl (by rw [hpc]; rfl))
  | unpark hpc => exact Or.inl (WaitState.view_eq rfl rfl (by rw [hpc]; rfl))
  | nobody hpc hn => exact Or.inl (WaitState.view_eq rfl rfl (by rw [hpc]; rfl))
  | somebody hpc => exact Or.inl (WaitState.view_eq rfl rfl (by rw [hpc]; rfl))
  | popNone hpc hq => exact Or.inl (WaitState.view_eq rfl rfl (by rw [hpc]; rfl))
  | pop hpc hq => exact Or.inl (WaitState.view_eq rfl rfl (by rw [hpc]; rfl))
  | skip hpc hw => exact Or.inl (WaitState.view_eq rfl rfl (by rw [hpc]; rfl))
  | @wake all w hpc hw =>
      refine Or.inl (WaitState.view_eq rfl rfl ?_)
      rw [hpc]
      cases all <;> rfl

/-- **Without the queue**, the runs are runs of the accesses. -/
theorem view_reachable {held : H} {ok : WaitState ι W H O P → ι × WaitAct O → Prop}
    (ok' : LockState ι W H P → ι × Option O → Prop)
    (hok : ∀ s i a op r t, ok s (i, a) → AccessStep ops blocks s.word i (s.threads i) a op r t →
      ok' s.view (i, op)) (hs : ((waitSystem ι ops blocks word held).restrict ok).Reachable s) :
    ((ops.system ι word held).restrict ok').Reachable s.view := by
  induction hs with
  | init h0 =>
      obtain rfl := h0
      exact .init rfl
  | @step s s' l _ hstep ih =>
      obtain ⟨hl, hnext⟩ := hstep
      rcases (WaitStep.of_next hnext).view with heq | ⟨op, r, t, hacc, heq⟩
      · rw [heq]
        exact ih
      · exact ih.step (l := (l.1, op)) ⟨hok s l.1 l.2 op r t hl hacc, r, hacc.lockAccess.1, heq⟩

/-! ## Where a waker is -/

namespace WaitState

variable [Fintype ι] {t : WaitThread ι H O P} {w : Waker ι}

/-- In how many places a waker is: in the queue, in the hands of threads, woken. -/
def tokens (s : WaitState ι W H O P) (w : Waker ι) : ℕ :=
  s.wakers.count w + total (fun t => if t.pc.popped = some w then 1 else 0) s.threads +
    (s.hasWoken w).toNat

/-- **The invariant of the queue.**  `num_wakers` is the length of the queue.  A waker is in
at most one place, and one that its thread waits for is in exactly one. -/
structure QueueOK (s : WaitState ι W H O P) : Prop where
  length : s.numWakers.toNat = s.wakers.length
  tokens_le : ∀ w, s.tokens w ≤ 1
  fresh : ∀ i k, (s.threads i).waiters ≤ k → s.tokens (i, k) = 0
  pushing : ∀ i w, (s.threads i).pc.pushing = some w →
    w.1 = i ∧ w.2 < (s.threads i).waiters ∧ s.tokens w = 0
  attended : ∀ i w, (s.threads i).pc.attended = some w →
    w.1 = i ∧ w.2 < (s.threads i).waiters ∧ s.tokens w = 1

/-- A step of thread `i` has to be checked for the wakers of `i` only. -/
theorem QueueOK.of_update (h : QueueOK s) (hthreads : s'.threads = update s.threads i t)
    (hlength : s'.numWakers.toNat = s'.wakers.length)
    (hother : ∀ w, w.1 ≠ i → s'.tokens w = s.tokens w) (hown : ∀ w, w.1 = i → s'.tokens w ≤ 1)
    (hfresh : ∀ k, t.waiters ≤ k → s'.tokens (i, k) = 0)
    (hpushing : ∀ w, t.pc.pushing = some w → w.1 = i ∧ w.2 < t.waiters ∧ s'.tokens w = 0)
    (hattended : ∀ w, t.pc.attended = some w → w.1 = i ∧ w.2 < t.waiters ∧ s'.tokens w = 1) :
    QueueOK s' := by
  have hself : s'.threads i = t := by
    rw [hthreads, update_self]
  have hne : ∀ j, j ≠ i → s'.threads j = s.threads j := by
    intro j hj
    rw [hthreads, update_of_ne hj]
  refine ⟨hlength, ?_, ?_, ?_, ?_⟩
  · intro w
    by_cases hw : w.1 = i
    · exact hown w hw
    · rw [hother w hw]
      exact h.tokens_le w
  · intro j k hk
    by_cases hj : j = i
    · subst hj
      rw [hself] at hk
      exact hfresh k hk
    · rw [hne j hj] at hk
      rw [hother (j, k) hj]
      exact h.fresh j k hk
  · intro j w hw
    by_cases hj : j = i
    · subst hj
      rw [hself] at hw ⊢
      exact hpushing w hw
    · rw [hne j hj] at hw ⊢
      obtain ⟨rfl, hlt, htok⟩ := h.pushing j w hw
      exact ⟨rfl, hlt, (hother w hj).trans htok⟩
  · intro j w hw
    by_cases hj : j = i
    · subst hj
      rw [hself] at hw ⊢
      exact hattended w hw
    · rw [hne j hj] at hw ⊢
      obtain ⟨rfl, hlt, htok⟩ := h.attended j w hw
      exact ⟨rfl, hlt, (hother w hj).trans htok⟩

/-- Steps that leave all wakers where they are. -/
theorem QueueOK.of_same (h : QueueOK s) (hthreads : s'.threads = update s.threads i t)
    (hlength : s'.numWakers.toNat = s'.wakers.length) (htokens : ∀ w, s'.tokens w = s.tokens w)
    (hwaiters : t.waiters = (s.threads i).waiters) (hpushing : t.pc.pushing = none)
    (hattended : t.pc.attended = (s.threads i).pc.attended ∨ t.pc.attended = none) :
    QueueOK s' := by
  refine h.of_update hthreads hlength (fun w _ => htokens w) ?_ ?_ ?_ ?_
  · intro w _
    rw [htokens w]
    exact h.tokens_le w
  · intro k hk
    rw [htokens]
    exact h.fresh i k (hwaiters ▸ hk)
  · intro w hw
    rw [hpushing] at hw
    cases hw
  · intro w hw
    rcases hattended with heq | hnone
    · rw [heq] at hw
      rw [hwaiters, htokens]
      exact h.attended i w hw
    · rw [hnone] at hw
      cases hw

/-- Moves of a waker between the three places. -/
theorem tokens_update (w : Waker ι) (hthreads : s'.threads = update s.threads i t) :
    s'.tokens w + (if (s.threads i).pc.popped = some w then 1 else 0) + s.wakers.count w +
        (s.hasWoken w).toNat =
      s.tokens w + (if t.pc.popped = some w then 1 else 0) + s'.wakers.count w +
        (s'.hasWoken w).toNat := by
  obtain ⟨d, hd, hupd⟩ := exists_total_eq
    (fun t : WaitThread ι H O P => if t.pc.popped = some w then 1 else 0) s.threads i
  unfold tokens
  rw [hthreads, hupd, hd]
  ring

theorem tokens_eq (hthreads : s'.threads = update s.threads i t)
    (hwakers : s'.wakers = s.wakers) (hwoken : s'.hasWoken = s.hasWoken)
    (hpopped : t.pc.popped = (s.threads i).pc.popped) (w : Waker ι) :
    s'.tokens w = s.tokens w := by
  have htok := tokens_update w hthreads
  rw [hwakers, hwoken, hpopped] at htok
  omega

/-! ## The steps keep the invariant -/

theorem QueueOK.access (h : QueueOK s) {op : Option O} {r : W × H × Outcome P}
    (hacc : AccessStep ops blocks s.word i (s.threads i) a op r t) :
    QueueOK { s with word := r.1, threads := update s.threads i t } := by
  obtain ⟨⟨hpop, hpop'⟩, hpush, hcases⟩ := hacc.wakers
  have htok : ∀ w, tokens { s with word := r.1, threads := update s.threads i t } w =
      s.tokens w := tokens_eq rfl rfl rfl (by rw [hpop, hpop'])
  rcases hcases with ⟨hwaiters, hpush', hatt⟩ | ⟨hatt, hatt', hwaiters, hpush'⟩
  · exact h.of_same rfl h.length htok hwaiters hpush' hatt
  · -- a new waiter: nobody has its waker yet
    refine h.of_update rfl h.length (fun w _ => htok w) ?_ ?_ ?_ ?_
    · intro w _
      rw [htok]
      exact h.tokens_le w
    · intro k hk
      rw [htok]
      exact h.fresh i k (by omega)
    · intro w hw
      rw [hpush'] at hw
      obtain rfl := Option.some.inj hw
      refine ⟨rfl, by simp only; omega, ?_⟩
      rw [htok]
      exact h.fresh i _ le_rfl
    · intro w hw
      rw [hatt'] at hw
      cases hw

/-- Steps that move one waker of the thread only. -/
theorem QueueOK.of_own (h : QueueOK s) {pc : WaitPc ι O P} (hlt : w.2 < (s.threads w.1).waiters)
    (hthreads : s'.threads = (s.put w.1 pc).threads)
    (hlength : s'.numWakers.toNat = s'.wakers.length) (hle : s'.tokens w ≤ 1)
    (hsame : ∀ x, x ≠ w → s'.tokens x = s.tokens x)
    (hpushing : ∀ x, pc.pushing = some x → x = w ∧ s'.tokens w = 0)
    (hattended : ∀ x, pc.attended = some x → x = w ∧ s'.tokens w = 1) : QueueOK s' := by
  refine h.of_update hthreads hlength (fun x hx => hsame x
    (fun hxw => hx (by rw [hxw]))) ?_ ?_ ?_ ?_
  · intro x _
    by_cases hx : x = w
    · exact hx ▸ hle
    · exact (hsame x hx).trans_le (h.tokens_le x)
  · intro k hk
    have hk' : (s.threads w.1).waiters ≤ k := hk
    rw [hsame, h.fresh w.1 k hk']
    intro hkw
    rw [← hkw] at hlt
    simp only at hlt hk'
    omega
  · intro x hx
    obtain ⟨rfl, hzero⟩ := hpushing x hx
    exact ⟨rfl, hlt, hzero⟩
  · intro x hx
    obtain ⟨rfl, hone⟩ := hattended x hx
    exact ⟨rfl, hlt, hone⟩

theorem QueueOK.enqueue (h : QueueOK s) {op : O}
    (hpc : (s.threads i).pc = .enqueue op w) (hroom : s.wakers.length + 1 < 2 ^ 32)
    (hthreads : s'.threads = (s.put i (.retry op w)).threads)
    (hwakers : s'.wakers = s.wakers ++ [w]) (hnum : s'.numWakers = s.numWakers + 1)
    (hwoken : s'.hasWoken = s.hasWoken) : QueueOK s' := by
  have hlength := h.length
  obtain ⟨rfl, hlt, hzero⟩ := h.pushing i w (by rw [hpc]; rfl)
  have htok : ∀ x, s'.tokens x = s.tokens x + if w = x then 1 else 0 := by
    intro x
    have hupd := tokens_update x hthreads
    rw [hpc, hwakers, hwoken, List.count_append, List.count_singleton] at hupd
    simp only [WaitPc.popped, reduceCtorEq, if_false, beq_iff_eq] at hupd
    omega
  have hone : s'.tokens w = 1 := by
    rw [htok, hzero, if_pos rfl]
  refine h.of_own hlt hthreads ?_ hone.le ?_ nofun (fun x hx => ⟨(Option.some.inj hx).symm, hone⟩)
  · rw [hnum, hwakers, BitVec.toNat_add, hlength, List.length_append, List.length_singleton]
    exact Nat.mod_eq_of_lt (by simpa using hroom)
  · intro x hx
    rw [htok, if_neg hx.symm, add_zero]

theorem QueueOK.woken (h : QueueOK s) {op : O}
    (hpc : (s.threads i).pc = .waiting op w) (hw : s.hasWoken w = true)
    (hthreads : s'.threads = (s.put i (.enqueue op w)).threads) (hwakers : s'.wakers = s.wakers)
    (hnum : s'.numWakers = s.numWakers)
    (hwoken : s'.hasWoken = update s.hasWoken w false) : QueueOK s' := by
  obtain ⟨rfl, hlt, hone⟩ := h.attended i w (by rw [hpc]; rfl)
  have hupd : ∀ x, s'.tokens x + (s.hasWoken x).toNat =
      s.tokens x + (update s.hasWoken w false x).toNat := by
    intro x
    have htok := tokens_update x hthreads
    rw [hpc, hwakers, hwoken] at htok
    simp only [WaitPc.popped, reduceCtorEq, if_false] at htok
    omega
  have hzero : s'.tokens w = 0 := by
    have htok := hupd w
    rw [hw, update_self, hone] at htok
    simpa using htok
  refine h.of_own hlt hthreads (by rw [hnum, hwakers]; exact h.length) (by omega) ?_
    (fun x hx => ⟨(Option.some.inj hx).symm, hzero⟩) nofun
  intro x hx
  have htok := hupd x
  rw [update_of_ne hx] at htok
  omega

theorem QueueOK.pop (h : QueueOK s) {all : Bool}
    (hpc : (s.threads i).pc = .wakePop all) (hq : s.wakers = w :: s'.wakers)
    (hthreads : s'.threads = (s.put i (.wakeUp all w)).threads)
    (hnum : s'.numWakers = s.numWakers - 1) (hwoken : s'.hasWoken = s.hasWoken) :
    QueueOK s' := by
  have hlength := h.length
  rw [hq, List.length_cons] at hlength
  refine h.of_same hthreads ?_ ?_ rfl rfl ?_
  · have hlt := s.numWakers.isLt
    rw [hnum, BitVec.toNat_sub, hlength, show (1 : BitVec 32).toNat = 1 from rfl]
    omega
  · -- it is in the hands of the thread instead
    intro x
    have htok := tokens_update x hthreads
    rw [hpc, hq, hwoken, List.count_cons] at htok
    simp only [WaitPc.popped, reduceCtorEq, if_false, beq_iff_eq, Option.some.injEq] at htok
    omega
  · exact Or.inr rfl

/-- A waker in the hands of a thread has not been woken. -/
theorem QueueOK.not_woken (h : QueueOK s)
    (hpop : (s.threads i).pc.popped = some w) : s.hasWoken w = false := by
  by_contra hw
  have hle := h.tokens_le w
  have hfly := apply_le_total
    (fun t : WaitThread ι H O P => if t.pc.popped = some w then 1 else 0) s.threads i
  simp only [hpop, if_true] at hfly
  unfold tokens at hle
  rw [Bool.eq_true_of_not_eq_false hw, Bool.toNat_true] at hle
  omega

theorem QueueOK.wake (h : QueueOK s) {pc : WaitPc ι O P} (hpop : (s.threads i).pc.popped = some w)
    (hpc : pc.popped = none ∧ pc.pushing = none ∧ pc.attended = none)
    (hthreads : s'.threads = (s.put i pc).threads) (hwakers : s'.wakers = s.wakers)
    (hnum : s'.numWakers = s.numWakers)
    (hwoken : s'.hasWoken = update s.hasWoken w true) : QueueOK s' := by
  obtain ⟨hpop', hpush', hatt'⟩ := hpc
  refine h.of_same hthreads (by rw [hnum, hwakers]; exact h.length) ?_ rfl hpush' (Or.inr hatt')
  intro x
  have htok := tokens_update x hthreads
  rw [hpop, hwakers, hwoken] at htok
  simp only [hpop', reduceCtorEq, if_false, Option.some.injEq] at htok
  by_cases hx : x = w
  · subst hx
    rw [update_self, h.not_woken hpop] at htok
    simp only [if_true, Bool.toNat_true, Bool.toNat_false] at htok
    omega
  · rw [update_of_ne hx, if_neg (fun hwx => hx hwx.symm)] at htok
    omega

/-- Steps of a thread from one place to another. -/
theorem QueueOK.put (h : QueueOK s) {pc : WaitPc ι O P}
    (hpopped : pc.popped = (s.threads i).pc.popped) (hpushing : pc.pushing = none)
    (hattended : pc.attended = (s.threads i).pc.attended) : QueueOK (s.put i pc) :=
  h.of_same (t := { s.threads i with pc := pc }) rfl h.length (tokens_eq rfl rfl rfl hpopped)
    rfl hpushing (Or.inl hattended)

/-- **Every step keeps the invariant of the queue** while there is room in it. -/
theorem QueueOK.step (h : QueueOK s)
    (hroom : ∀ op w, (s.threads i).pc = .enqueue op w → s.wakers.length + 1 < 2 ^ 32)
    (hstep : WaitStep ops blocks s i a s') : QueueOK s' := by
  cases hstep with
  | access hacc => exact h.access hacc
  | enqueue hpc => exact h.enqueue hpc (hroom _ _ hpc) rfl rfl rfl rfl
  | woken hpc hw => exact h.woken hpc hw rfl rfl rfl rfl
  | park hpc hw => exact h.put (by rw [hpc]; rfl) rfl (by rw [hpc]; rfl)
  | unpark hpc => exact h.put (by rw [hpc]; rfl) rfl (by rw [hpc]; rfl)
  | nobody hpc hn => exact h.put (by rw [hpc]; rfl) rfl (by rw [hpc]; rfl)
  | somebody hpc => exact h.put (by rw [hpc]; rfl) rfl (by rw [hpc]; rfl)
  | popNone hpc hq => exact h.put (by rw [hpc]; rfl) rfl (by rw [hpc]; rfl)
  | pop hpc hq => exact h.pop hpc hq rfl rfl rfl
  | skip hpc hw =>
      rw [h.not_woken (by rw [hpc]; rfl)] at hw
      cases hw
  | @wake all w hpc hw =>
      refine h.wake (by rw [hpc]; rfl) ?_ rfl rfl rfl rfl
      cases all <;> exact ⟨rfl, rfl, rfl⟩

theorem queueOK_init (word : W) (held : H) :
    QueueOK (⟨word, [], 0, fun _ => false, fun _ => ⟨held, 0, .idle⟩⟩ : WaitState ι W H O P) := by
  have htok : ∀ w, tokens (⟨word, [], 0, fun _ => false, fun _ => ⟨held, 0, .idle⟩⟩ :
      WaitState ι W H O P) w = 0 := by
    intro w
    have hfly : total (fun t : WaitThread ι H O P => if t.pc.popped = some w then 1 else 0)
        (fun _ : ι => ⟨held, 0, .idle⟩) = 0 := total_eq_zero (fun _ => rfl)
    unfold tokens
    rw [hfly]
    rfl
  refine ⟨rfl, ?_, fun i k _ => htok (i, k), ?_, ?_⟩
  · intro w
    rw [htok]
    exact Nat.zero_le 1
  · intro i w hw
    cases hw
  · intro i w hw
    cases hw

end WaitState

end

end Vostd
