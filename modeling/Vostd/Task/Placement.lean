/-
# Where the tasks are

The invariant of the FIFO scheduler (`TaskOK`) and its consequences.

A task whose cell says `NONE` is nowhere.  Otherwise it is in exactly one place: in the run
queue that the cell names, or in the hands of a call of `enqueue` that has claimed it and
will push it there.

A task that is nowhere with its flag set has a call of `unpark_target` in progress.  This holds
since a waker that comes while the task parks, after the look at the flag, finds the cell of
the task not yet cleared and then has to wait for the lock of that run queue
(`TaskOK.parked`).
-/
import Vostd.Task.FifoScheduler

namespace Vostd

open Function

section

variable {κ τ : Type} [DecidableEq τ]

/-! ## Counting -/

/-- How often a task occurs in a run queue. -/
def FifoRunQueue.count (t : τ) (rq : FifoRunQueue τ) : ℕ :=
  (if rq.current = some t then 1 else 0) + rq.queue.count t

/-- Whether a call has claimed the task and is going to push it. -/
def SchedCall.claims (t : τ) : SchedCall κ τ → ℕ
  | .enqueue u false _ => if u = t then 1 else 0
  | .enqueue _ true _ | .idle | .unpark _ => 0

theorem SchedCall.claims_eq_zero {t : τ} {call : SchedCall κ τ} (h : call.task ≠ some t) :
    call.claims t = 0 := by
  cases call with
  | idle | unpark u => rfl
  | enqueue u still x =>
      cases still with
      | true => rfl
      | false => exact if_neg (fun hut => h (congrArg some hut))

/-- The calls of a task after a step of waker `i`: those of the others are as before. -/
theorem exists_call_update {κ τ ι : Type} [DecidableEq ι] {i : ι} {P : SchedCall κ τ → Prop}
    {calls : ι → SchedCall κ τ} {call : SchedCall κ τ} (h : ∃ j, P (calls j)) (hi : ¬P (calls i)) :
    ∃ j, P (update calls i call j) := by
  obtain ⟨j, hj⟩ := h
  have hne : j ≠ i := by
    rintro rfl
    exact hi hj
  refine ⟨j, ?_⟩
  rw [update_of_ne hne]
  exact hj

theorem calls_frame {κ τ ι : Type} [DecidableEq ι] {calls : ι → SchedCall κ τ}
    {call : SchedCall κ τ} {i : ι} {u : τ}
    (hold : (calls i).task ≠ some u) (hnew : call.task ≠ some u) (j : ι) :
    update calls i call j = calls j ∨
      (calls j).task ≠ some u ∧ (update calls i call j).task ≠ some u := by
  by_cases hj : j = i
  · subst hj
    rw [update_self]
    exact Or.inr ⟨hold, hnew⟩
  · exact Or.inl (update_of_ne hj _ _)

namespace FifoRunQueue

variable {rq : FifoRunQueue τ} {t u : τ}

theorem count_pos (h : rq.current = some t) : 0 < rq.count t := by
  unfold count
  rw [if_pos h]
  omega

theorem count_push (t u : τ) (rq : FifoRunQueue τ) :
    count t { rq with queue := rq.queue ++ [u] } = rq.count t + if u = t then 1 else 0 := by
  simp only [count, List.count_append, List.count_singleton, beq_iff_eq]
  omega

/-- `try_pick_next` only moves tasks. -/
theorem count_tryPickNext (t : τ) (rq : FifoRunQueue τ) :
    rq.tryPickNext.2.count t = rq.count t := by
  obtain ⟨current, queue⟩ := rq
  cases queue with
  | nil => rfl
  | cons next rest =>
      cases current with
      | none =>
          simp only [tryPickNext, count, List.count_cons, beq_iff_eq, Option.some.injEq,
            reduceCtorEq, if_false]
          omega
      | some prev =>
          simp only [tryPickNext, count, List.count_cons, List.count_append, List.count_nil,
            beq_iff_eq, Option.some.injEq]
          omega

/-- Parking removes the current task. -/
theorem count_parkCurrent (u : τ) (h : rq.current = some t) :
    rq.parkCurrent.count u + (if t = u then 1 else 0) = rq.count u := by
  have hdeq : rq.dequeueCurrent.2.count u + (if t = u then 1 else 0) = rq.count u := by
    simp only [dequeueCurrent, count, h, reduceCtorEq, if_false, Option.some.injEq]
    omega
  unfold parkCurrent
  by_cases hq : rq.updateCurrent = true
  · simp only [hq, if_true, count_tryPickNext]
    exact hdeq
  · rw [if_neg hq]
    exact hdeq

end FifoRunQueue

/-- Pushing another task. -/
theorem push_frame [DecidableEq κ] {rq : κ → FifoRunQueue τ} {x : κ} {t u : τ}
    (hu : u ≠ t) (c : κ) :
    (update rq x { rq x with queue := (rq x).queue ++ [t] } c).count u = (rq c).count u ∧
      (update rq x { rq x with queue := (rq x).queue ++ [t] } c).current = (rq c).current := by
  by_cases hc : c = x
  · subst hc
    rw [update_self, FifoRunQueue.count_push, if_neg (fun htu => hu htu.symm)]
    exact ⟨rfl, rfl⟩
  · rw [update_of_ne hc]
    exact ⟨rfl, rfl⟩

end

/-! ## The invariant -/

section

variable {κ τ ι : Type} [DecidableEq τ] [Fintype κ] [Fintype ι]

/-- In how many places a task is. -/
def SchedState.places (s : SchedState κ τ ι) (t : τ) : ℕ :=
  total (FifoRunQueue.count t) s.rq + total (SchedCall.claims t) s.calls

/-- **The invariant**, for a task. -/
structure TaskOK (s : SchedState κ τ ι) (t : τ) : Prop where
  places : s.places t = (s.cpu t).isSome.toNat
  located : ∀ c, 0 < (s.rq c).count t → s.cpu t = some c
  claimed : ∀ i x, s.calls i = .enqueue t false x → s.cpu t = some x
  called : ∀ i, (s.calls i).task = some t → s.spawned t = true
  unspawned : s.spawned t = false → s.cpu t = none
  /-- the task parks, and its flag has been set after the look at it -/
  parked : ∀ c, s.parking c = true → (s.rq c).current = some t → s.flag t = true →
    ∃ i, s.calls i = .unpark t ∨ s.calls i = .enqueue t true c
  /-- the task has parked, and its flag is set -/
  woken : s.spawned t = true → s.cpu t = none → s.flag t = true →
    ∃ i, s.calls i = .unpark t ∨ ∃ x, s.calls i = .enqueue t true x

variable {s s' : SchedState κ τ ι} {c x : κ} {t u : τ} {i : ι}

theorem TaskOK.cpu_of_current (h : TaskOK s t) (hcur : (s.rq c).current = some t) :
    s.cpu t = some c :=
  h.located c (FifoRunQueue.count_pos hcur)

theorem TaskOK.not_current (h : TaskOK s t) (hcpu : s.cpu t = none) :
    (s.rq c).current ≠ some t := by
  intro hcur
  rw [h.cpu_of_current hcur] at hcpu
  cases hcpu

/-- A step that is about other tasks. -/
theorem TaskOK.frame (h : TaskOK s u) (hcount : ∀ c, (s'.rq c).count u = (s.rq c).count u)
    (hcur : ∀ c, s'.parking c = true → (s'.rq c).current = some u →
      s.parking c = true ∧ (s.rq c).current = some u)
    (hcalls : ∀ j, s'.calls j = s.calls j ∨
      (s.calls j).task ≠ some u ∧ (s'.calls j).task ≠ some u)
    (hcpu : s'.cpu u = s.cpu u) (hflag : s'.flag u = true → s.flag u = true)
    (hspawned : s'.spawned u = s.spawned u) : TaskOK s' u := by
  have hsame : ∀ {P : SchedCall κ τ → Prop}, (∀ call, P call → call.task = some u) →
      ∀ j, P (s'.calls j) ↔ P (s.calls j) := by
    intro P hP j
    rcases hcalls j with heq | ⟨hne, hne'⟩
    · rw [heq]
    · exact ⟨fun hj => absurd (hP _ hj) hne', fun hj => absurd (hP _ hj) hne⟩
  refine ⟨?_, ?_, ?_, ?_, ?_, ?_, ?_⟩
  · have hrq : total (FifoRunQueue.count u) s'.rq = total (FifoRunQueue.count u) s.rq :=
      Finset.sum_congr rfl (fun c _ => hcount c)
    have hcl : total (SchedCall.claims u) s'.calls = total (SchedCall.claims u) s.calls := by
      apply Finset.sum_congr rfl
      intro j _
      rcases hcalls j with heq | ⟨hne, hne'⟩
      · rw [heq]
      · rw [SchedCall.claims_eq_zero hne, SchedCall.claims_eq_zero hne']
    unfold SchedState.places
    rw [hrq, hcl, hcpu]
    exact h.places
  · intro c hc
    rw [hcount] at hc
    rw [hcpu]
    exact h.located c hc
  · intro j y hj
    rw [hcpu]
    exact h.claimed j y ((hsame (P := (· = .enqueue u false y)) (by rintro _ rfl; rfl) j).mp hj)
  · intro j hj
    rw [hspawned]
    exact h.called j ((hsame (P := fun call => call.task = some u) (fun _ h => h) j).mp hj)
  · intro hun
    rw [hcpu]
    exact h.unspawned (hspawned ▸ hun)
  · intro c hpark hcurrent hf
    obtain ⟨hpark, hcurrent⟩ := hcur c hpark hcurrent
    obtain ⟨j, hj⟩ := h.parked c hpark hcurrent (hflag hf)
    refine ⟨j, (hsame (P := fun call => call = .unpark u ∨ call = .enqueue u true c) ?_ j).mpr hj⟩
    rintro _ (rfl | rfl) <;> rfl
  · intro hsp hnone hf
    obtain ⟨j, hj⟩ := h.woken (hspawned ▸ hsp) (hcpu ▸ hnone) (hflag hf)
    refine ⟨j, (hsame (P := fun call => call = .unpark u ∨ ∃ y, call = .enqueue u true y) ?_
      j).mpr hj⟩
    rintro _ (rfl | ⟨y, rfl⟩) <;> rfl

/-! ## The task that a step is about -/

/-- The look at the flag. -/
theorem TaskOK.check (h : TaskOK s t) (hflag : s.flag t = false) (hrq : s'.rq = s.rq)
    (hcalls : s'.calls = s.calls) (hcpu' : s'.cpu = s.cpu) (hflag' : s'.flag = s.flag)
    (hspawned : s'.spawned = s.spawned) : TaskOK s' t := by
  have hf : s'.flag t = false := by
    rw [hflag', hflag]
  refine ⟨?_, ?_, ?_, ?_, ?_, ?_, ?_⟩
  · unfold SchedState.places
    rw [hrq, hcalls, hcpu']
    exact h.places
  · rw [hrq, hcpu']
    exact h.located
  · rw [hcalls, hcpu']
    exact h.claimed
  · rw [hcalls, hspawned]
    exact h.called
  · rw [hspawned, hcpu']
    exact h.unspawned
  · intro c _ _ hset
    rw [hf] at hset
    cases hset
  · intro _ _ hset
    rw [hf] at hset
    cases hset

/-- A flag is cleared. -/
theorem TaskOK.consume (h : TaskOK s u) (t : τ) :
    TaskOK { s with flag := update s.flag t false } u := by
  refine h.frame (fun _ => rfl) (fun _ hp hc => ⟨hp, hc⟩) (fun _ => Or.inl rfl) rfl ?_ rfl
  intro (hf : update s.flag t false u = true)
  by_cases hu : u = t
  · subst hu
    rw [update_self] at hf
    cases hf
  · rwa [update_of_ne hu] at hf

/-- A task whose cell is set is in a run queue or in the hands of a call. -/
theorem TaskOK.present (h : TaskOK s t) (hcpu : s.cpu t = some c) :
    0 < (s.rq c).count t ∨ ∃ i, s.calls i = .enqueue t false c := by
  have hplaces := h.places
  unfold SchedState.places at hplaces
  rw [hcpu] at hplaces
  by_cases hzero : total (FifoRunQueue.count t) s.rq = 0
  · right
    have hpos : total (SchedCall.claims t) s.calls ≠ 0 := by
      rw [hzero] at hplaces
      simp only [Option.isSome_some, Bool.toNat_true] at hplaces
      omega
    obtain ⟨i, -, hi⟩ := Finset.exists_ne_zero_of_sum_ne_zero hpos
    have hclaim : ∃ x, s.calls i = .enqueue t false x := by
      unfold SchedCall.claims at hi
      split at hi
      · rename_i u x heq
        by_cases hut : u = t
        · exact ⟨x, by rw [heq, hut]⟩
        · exact absurd (if_neg hut) hi
      all_goals exact absurd rfl hi
    obtain ⟨x, hx⟩ := hclaim
    have hsame := h.claimed i x hx
    rw [hcpu] at hsame
    obtain rfl := Option.some.inj hsame
    exact ⟨i, hx⟩
  · left
    obtain ⟨d, -, hd⟩ := Finset.exists_ne_zero_of_sum_ne_zero hzero
    have hpos : 0 < (s.rq d).count t := Nat.pos_of_ne_zero hd
    have hsame := h.located d hpos
    rw [hcpu] at hsame
    obtain rfl := Option.some.inj hsame
    exact hpos

section

variable [DecidableEq ι]

theorem places_calls {call : SchedCall κ τ} (u : τ) (hrq : s'.rq = s.rq)
    (hcalls : s'.calls = update s.calls i call) :
    s'.places u + (s.calls i).claims u = s.places u + call.claims u := by
  obtain ⟨d, hd, hupd⟩ := exists_total_eq (SchedCall.claims u) s.calls i
  unfold SchedState.places
  rw [hrq, hcalls, hupd, hd]
  ring

/-- `enqueue` has claimed a task that is nowhere. -/
theorem TaskOK.claim (h : TaskOK s t) (hcall : s.calls i = .idle ∨ s.calls i = .unpark t)
    (hcpu : s.cpu t = none) (hrq : s'.rq = s.rq)
    (hcalls : s'.calls = update s.calls i (.enqueue t false x))
    (hcpu' : s'.cpu t = some x) (hspawned : s'.spawned t = true) : TaskOK s' t := by
  refine ⟨?_, ?_, ?_, fun _ _ => hspawned, ?_, ?_, ?_⟩
  · have hpl := places_calls t hrq hcalls
    have hzero : (s.calls i).claims t = 0 := by
      rcases hcall with hcall | hcall <;> rw [hcall] <;> rfl
    rw [hzero, h.places, hcpu] at hpl
    rw [hcpu']
    simpa [SchedCall.claims] using hpl
  · intro c hc
    rw [hrq] at hc
    have hloc := h.located c hc
    rw [hcpu] at hloc
    cases hloc
  · intro j y hj
    rw [hcalls] at hj
    rcases update_eq_cases hj with ⟨rfl, heq⟩ | ⟨hji, hj⟩
    · cases heq
      exact hcpu'
    · have hcl := h.claimed j y hj
      rw [hcpu] at hcl
      cases hcl
  · intro hun
    rw [hspawned] at hun
    cases hun
  · intro c _ hcur _
    rw [hrq] at hcur
    exact absurd hcur (h.not_current hcpu)
  · intro _ hnone _
    rw [hcpu'] at hnone
    cases hnone

/-- A step of a waker that neither has claimed the task nor claims it. -/
theorem TaskOK.of_calls (h : TaskOK s t) {call : SchedCall κ τ} (hsp : s.spawned t = true)
    (hold : (s.calls i).claims t = 0) (hnew : call.claims t = 0)
    (hcalls : s'.calls = update s.calls i call) (hrq : s'.rq = s.rq)
    (hcpu : s'.cpu = s.cpu) (hspawned : s'.spawned = s.spawned)
    (hparked : ∀ c, s'.parking c = true → (s.rq c).current = some t → s'.flag t = true →
      ∃ j, s'.calls j = .unpark t ∨ s'.calls j = .enqueue t true c)
    (hwoken : s.cpu t = none → s'.flag t = true →
      ∃ j, s'.calls j = .unpark t ∨ ∃ x, s'.calls j = .enqueue t true x) : TaskOK s' t := by
  refine ⟨?_, ?_, ?_, fun _ _ => by rw [hspawned]; exact hsp, ?_, ?_, ?_⟩
  · have hpl := places_calls t hrq hcalls
    rw [hold, hnew, h.places] at hpl
    rw [hcpu]
    exact hpl
  · rw [hrq, hcpu]
    exact h.located
  · intro j y hj
    rw [hcalls] at hj
    rw [hcpu]
    rcases update_eq_cases hj with ⟨rfl, heq⟩ | ⟨hji, hj⟩
    · rw [heq] at hnew
      simp [SchedCall.claims] at hnew
    · exact h.claimed j y hj
  · intro hun
    rw [hspawned, hsp] at hun
    cases hun
  · rw [hrq]
    exact hparked
  · rw [hcpu]
    exact fun _ => hwoken

/-- `enqueue` has found the task in a run queue. -/
theorem TaskOK.found (h : TaskOK s t) (hcall : s.calls i = .unpark t) (hcpu : s.cpu t = some x)
    (hcalls : s'.calls = update s.calls i (.enqueue t true x)) (hrq : s'.rq = s.rq)
    (hcpu' : s'.cpu = s.cpu) (hspawned : s'.spawned = s.spawned) : TaskOK s' t := by
  refine h.of_calls (h.called i (by rw [hcall]; rfl)) (by rw [hcall]; rfl) rfl hcalls hrq hcpu'
    hspawned ?_ ?_
  · -- the run queue that it has found is the one that the task parks in
    intro c _ hcur _
    have hc := h.cpu_of_current hcur
    rw [hcpu] at hc
    obtain rfl := Option.some.inj hc
    refine ⟨i, Or.inr ?_⟩
    rw [hcalls, update_self]
  · intro hnone _
    rw [hcpu] at hnone
    cases hnone

/-- A waker has set the flag. -/
theorem TaskOK.wake (h : TaskOK s t) (hcall : s.calls i = .idle) (hsp : s.spawned t = true)
    (hcalls : s'.calls = update s.calls i (.unpark t)) (hrq : s'.rq = s.rq)
    (hcpu' : s'.cpu = s.cpu) (hspawned : s'.spawned = s.spawned) : TaskOK s' t := by
  have hnew : s'.calls i = .unpark t := by
    rw [hcalls, update_self]
  exact h.of_calls hsp (by rw [hcall]; rfl) rfl hcalls hrq hcpu' hspawned
    (fun _ _ _ _ => ⟨i, Or.inl hnew⟩) (fun _ _ => ⟨i, Or.inl hnew⟩)

/-- The second part of `enqueue` has found the task in a run queue, or claimed by another
call. -/
theorem TaskOK.drop (h : TaskOK s t) {y : κ} (hcall : s.calls i = .enqueue t true x)
    (hlock : s.parking x = false) (hcpu : s.cpu t = some y)
    (hcalls : s'.calls = update s.calls i .idle) (hrq : s'.rq = s.rq)
    (hcpu' : s'.cpu = s.cpu) (hpark : s'.parking = s.parking) (hflag : s'.flag = s.flag)
    (hspawned : s'.spawned = s.spawned) : TaskOK s' t := by
  refine h.of_calls (h.called i (by rw [hcall]; rfl)) (by rw [hcall]; rfl) rfl hcalls hrq hcpu'
    hspawned ?_ ?_
  · -- a section on another run queue: this call has waited for the lock of `x`
    intro c hp hcur hf
    rw [hcalls]
    rw [hpark] at hp
    apply exists_call_update (P := fun call => call = .unpark t ∨ call = .enqueue t true c)
    · exact h.parked c hp hcur (hflag ▸ hf)
    · rw [hcall]
      rintro (heq | heq)
      · cases heq
      · cases heq
        rw [hlock] at hp
        cases hp
  · intro hnone _
    rw [hcpu] at hnone
    cases hnone

/-- A step of a waker that is about another task. -/
theorem TaskOK.frame_call (h : TaskOK s u) (hu : u ≠ t) {call : SchedCall κ τ}
    (hold : (s.calls i).task = none ∨ (s.calls i).task = some t)
    (hnew : call.task = none ∨ call.task = some t)
    (hcalls : s'.calls = update s.calls i call)
    (hrq : ∀ c, (s'.rq c).count u = (s.rq c).count u ∧ (s'.rq c).current = (s.rq c).current)
    (hpark : s'.parking = s.parking) (hcpu : s'.cpu u = s.cpu u) (hflag : s'.flag u = s.flag u)
    (hspawned : s'.spawned u = s.spawned u) : TaskOK s' u := by
  have hother : ∀ {call : SchedCall κ τ}, call.task = none ∨ call.task = some t →
      call.task ≠ some u := by
    rintro call (hcall | hcall) heq
    · rw [hcall] at heq
      cases heq
    · rw [hcall] at heq
      exact hu (Option.some.inj heq).symm
  refine h.frame (fun c => (hrq c).1) ?_ ?_ hcpu (fun hf => hflag ▸ hf) hspawned
  · intro c hp hc
    rw [hpark] at hp
    rw [(hrq c).2] at hc
    exact ⟨hp, hc⟩
  · rw [hcalls]
    exact calls_frame (hother hold) (hother hnew)

end

section

variable [DecidableEq κ]

/-- The task leaves its run queue. -/
theorem TaskOK.park (h : TaskOK s t) (hcur : (s.rq c).current = some t)
    (hlock : s.parking c = true)
    (hrq : s'.rq = update s.rq c (s.rq c).parkCurrent) (hcalls : s'.calls = s.calls)
    (hcpu' : s'.cpu t = none) (hflag : s'.flag = s.flag) (hspawned : s'.spawned = s.spawned) :
    TaskOK s' t := by
  have hcpu := h.cpu_of_current hcur
  have hplaces := h.places
  obtain ⟨d, hd, hupd⟩ := exists_total_eq (FifoRunQueue.count t) s.rq c
  have hcount := FifoRunQueue.count_parkCurrent t hcur
  unfold SchedState.places at hplaces
  rw [hcpu, hd] at hplaces
  simp only [if_true, Option.isSome_some, Bool.toNat_true] at hplaces hcount
  have hzero : s'.places t = 0 := by
    unfold SchedState.places
    rw [hrq, hcalls, hupd]
    omega
  have hnowhere : ∀ e, (s'.rq e).count t = 0 := by
    intro e
    have hle := apply_le_total (FifoRunQueue.count t) s'.rq e
    unfold SchedState.places at hzero
    omega
  have hclaims : total (SchedCall.claims t) s.calls = 0 := by
    unfold SchedState.places at hzero
    rw [hcalls] at hzero
    omega
  refine ⟨?_, ?_, ?_, ?_, fun _ => hcpu', ?_, ?_⟩
  · rw [hzero, hcpu']
    rfl
  · intro e he
    rw [hnowhere] at he
    exact absurd he (lt_irrefl 0)
  · intro j y hj
    have hle := apply_le_total (SchedCall.claims t) s.calls j
    rw [hcalls] at hj
    rw [hclaims, hj] at hle
    simp [SchedCall.claims] at hle
  · rw [hcalls, hspawned]
    exact h.called
  · intro e _ hcur' _
    have hpos := FifoRunQueue.count_pos hcur'
    rw [hnowhere] at hpos
    exact absurd hpos (lt_irrefl 0)
  · -- a waker that has set the flag in the meantime is still there
    intro _ _ hf
    obtain ⟨j, hj⟩ := h.parked c hlock hcur (hflag ▸ hf)
    refine ⟨j, ?_⟩
    rw [hcalls]
    rcases hj with hj | hj
    · exact Or.inl hj
    · exact Or.inr ⟨c, hj⟩

/-- A step on the run queue of one CPU, in which no section of another task begins. -/
theorem TaskOK.frame_rq (h : TaskOK s u) {rq : FifoRunQueue τ}
    (hcount : rq.count u = (s.rq c).count u)
    (hrq : s'.rq = update s.rq c rq) (hlock : s'.parking c = false)
    (hpark : ∀ d, s'.parking d = true → s.parking d = true) (hcalls : s'.calls = s.calls)
    (hcpu : s'.cpu u = s.cpu u) (hflag : s'.flag = s.flag) (hspawned : s'.spawned = s.spawned) :
    TaskOK s' u := by
  refine h.frame ?_ ?_ (fun j => Or.inl (by rw [hcalls])) hcpu (fun hf => hflag ▸ hf)
    (by rw [hspawned])
  · intro d
    rw [hrq]
    by_cases hd : d = c
    · subst hd
      rw [update_self, hcount]
    · rw [update_of_ne hd]
  · intro d hp hc
    have hd : d ≠ c := by
      rintro rfl
      rw [hlock] at hp
      cases hp
    rw [hrq, update_of_ne hd] at hc
    exact ⟨hpark d hp, hc⟩

/-- The look of another task at its flag. -/
theorem TaskOK.frame_check (h : TaskOK s u) (hu : u ≠ t) (hcur : (s.rq c).current = some t) :
    TaskOK { s with parking := update s.parking c true } u := by
  refine h.frame (fun _ => rfl) ?_ (fun _ => Or.inl rfl) rfl (fun hf => hf) rfl
  intro d (hp : update s.parking c true d = true) hc
  have hd : d ≠ c := by
    rintro rfl
    rw [hcur] at hc
    exact hu (Option.some.inj hc).symm
  rw [update_of_ne hd] at hp
  exact ⟨hp, hc⟩

end

variable [DecidableEq κ] [DecidableEq ι]

theorem places_push (u : τ)
    (hrq : s'.rq = update s.rq x { s.rq x with queue := (s.rq x).queue ++ [t] })
    (hcalls : s'.calls = update s.calls i .idle) :
    s'.places u + (s.calls i).claims u = s.places u + if t = u then 1 else 0 := by
  obtain ⟨d, hd, hupd⟩ := exists_total_eq (SchedCall.claims u) s.calls i
  obtain ⟨e, he, hupd'⟩ := exists_total_eq (FifoRunQueue.count u) s.rq x
  unfold SchedState.places
  rw [hrq, hcalls, hupd, hupd', hd, he, FifoRunQueue.count_push]
  simp only [SchedCall.claims]
  ring

/-- The task has been pushed to the run queue `x`, which its cell names. -/
theorem TaskOK.of_push (h : TaskOK s t) (hsp : s.spawned t = true)
    (hcpu : s.cpu t = none ∨ s.cpu t = some x) (hone : s'.places t = 1)
    (hcall : ∀ c, ¬(s.calls i = .unpark t ∨ s.calls i = .enqueue t true c) ∨ s.cpu t = none)
    (hrq : s'.rq = update s.rq x { s.rq x with queue := (s.rq x).queue ++ [t] })
    (hcalls : s'.calls = update s.calls i .idle) (hcpu' : s'.cpu t = some x)
    (hpark : s'.parking = s.parking) (hflag : s'.flag = s.flag)
    (hspawned : s'.spawned = s.spawned) : TaskOK s' t := by
  -- wherever it was seen before, it was seen at `x`
  have hx : ∀ y, s.cpu t = some y → y = x := by
    intro y hy
    rcases hcpu with hnone | hsome
    · rw [hnone] at hy
      cases hy
    · rw [hsome] at hy
      exact (Option.some.inj hy).symm
  have hcurrent : ∀ c, (s'.rq c).current = (s.rq c).current := by
    intro c
    rw [hrq]
    by_cases hc : c = x
    · subst hc
      rw [update_self]
    · rw [update_of_ne hc]
  refine ⟨?_, ?_, ?_, fun _ _ => by rw [hspawned]; exact hsp, ?_, ?_, ?_⟩
  · rw [hone, hcpu']
    rfl
  · intro c hc
    rw [hcpu']
    by_cases hcx : c = x
    · rw [hcx]
    · rw [hrq, update_of_ne hcx] at hc
      exact absurd (hx c (h.located c hc)) hcx
  · intro j y hj
    rw [hcalls] at hj
    rw [hcpu']
    rcases update_eq_cases hj with ⟨rfl, heq⟩ | ⟨hji, hj⟩
    · cases heq
    · rw [hx y (h.claimed j y hj)]
  · intro hun
    rw [hspawned, hsp] at hun
    cases hun
  · intro c hp hcur hf
    rw [hcurrent] at hcur
    rcases hcall c with hi | hnone
    · rw [hcalls]
      exact exists_call_update (P := fun call => call = .unpark t ∨ call = .enqueue t true c)
        (h.parked c (hpark ▸ hp) hcur (hflag ▸ hf)) hi
    · exact absurd hcur (h.not_current hnone)
  · intro _ hnone _
    rw [hcpu'] at hnone
    cases hnone

/-- The call has claimed the task before. -/
theorem TaskOK.push (h : TaskOK s t) (hcall : s.calls i = .enqueue t false x)
    (hrq : s'.rq = update s.rq x { s.rq x with queue := (s.rq x).queue ++ [t] })
    (hcalls : s'.calls = update s.calls i .idle) (hcpu' : s'.cpu = s.cpu)
    (hpark : s'.parking = s.parking) (hflag : s'.flag = s.flag)
    (hspawned : s'.spawned = s.spawned) : TaskOK s' t := by
  have hcpu := h.claimed i x hcall
  refine h.of_push (h.called i (by rw [hcall]; rfl)) (Or.inr hcpu) ?_ ?_ hrq hcalls
    (by rw [hcpu', hcpu]) hpark hflag hspawned
  · have hpl := places_push t hrq hcalls
    rw [hcall, h.places, hcpu] at hpl
    simpa [SchedCall.claims] using hpl
  · intro c
    rw [hcall]
    exact Or.inl (by simp)

/-- The task has parked since the call has looked at its cell. -/
theorem TaskOK.repush (h : TaskOK s t) (hcall : s.calls i = .enqueue t true x)
    (hcpu : s.cpu t = none)
    (hrq : s'.rq = update s.rq x { s.rq x with queue := (s.rq x).queue ++ [t] })
    (hcalls : s'.calls = update s.calls i .idle) (hcpu' : s'.cpu t = some x)
    (hpark : s'.parking = s.parking) (hflag : s'.flag = s.flag)
    (hspawned : s'.spawned = s.spawned) : TaskOK s' t := by
  refine h.of_push (h.called i (by rw [hcall]; rfl)) (Or.inl hcpu) ?_ (fun _ => Or.inr hcpu) hrq
    hcalls hcpu' hpark hflag hspawned
  have hpl := places_push t hrq hcalls
  rw [hcall, h.places, hcpu] at hpl
  simpa [SchedCall.claims] using hpl

/-! ## Every step -/

/-- **Every step keeps the invariant**: of the task that it is about, and of the others. -/
theorem taskOK_step (h : ∀ u, TaskOK s u) (hstep : SchedStep s s') (u : τ) : TaskOK s' u := by
  cases hstep with
  | @claim i t x spawned hcall hcpu hspawned hother =>
      by_cases hu : u = t
      · subst hu
        exact (h u).claim hcall hcpu rfl rfl (update_self _ _ _) hspawned
      · refine (h u).frame_call hu ?_ (Or.inr rfl) rfl (fun _ => ⟨rfl, rfl⟩) rfl
          (update_of_ne hu _ _) rfl (hother u hu)
        rcases hcall with hcall | hcall <;> rw [hcall]
        · exact Or.inl rfl
        · exact Or.inr rfl
  | @found i t x hcall hcpu =>
      by_cases hu : u = t
      · subst hu
        exact (h u).found hcall hcpu rfl rfl rfl rfl
      · exact (h u).frame_call hu (Or.inr (by rw [hcall]; rfl)) (Or.inr rfl) rfl
          (fun _ => ⟨rfl, rfl⟩) rfl rfl rfl rfl
  | @wake i t hcall hspawned =>
      by_cases hu : u = t
      · subst hu
        exact (h u).wake hcall hspawned rfl rfl rfl rfl
      · exact (h u).frame_call hu (Or.inl (by rw [hcall]; rfl)) (Or.inr rfl) rfl
          (fun _ => ⟨rfl, rfl⟩) rfl rfl (update_of_ne hu _ _) rfl
  | @push i t x hcall hlock =>
      by_cases hu : u = t
      · subst hu
        exact (h u).push hcall rfl rfl rfl rfl rfl rfl
      · exact (h u).frame_call hu (Or.inr (by rw [hcall]; rfl)) (Or.inl rfl) rfl (push_frame hu) rfl
          rfl rfl rfl
  | @repush i t x hcall hlock hcpu =>
      by_cases hu : u = t
      · subst hu
        exact (h u).repush hcall hcpu rfl rfl (update_self _ _ _) rfl rfl rfl
      · exact (h u).frame_call hu (Or.inr (by rw [hcall]; rfl)) (Or.inl rfl) rfl (push_frame hu) rfl
          (update_of_ne hu _ _) rfl rfl
  | @drop i t x y hcall hlock hcpu =>
      by_cases hu : u = t
      · subst hu
        exact (h u).drop hcall hlock hcpu rfl rfl rfl rfl rfl rfl
      · exact (h u).frame_call hu (Or.inr (by rw [hcall]; rfl)) (Or.inl rfl) rfl
          (fun _ => ⟨rfl, rfl⟩) rfl rfl rfl rfl
  | stay => exact h u
  | @check c t hcur hlock hflag =>
      by_cases hu : u = t
      · subst hu
        exact (h u).check hflag rfl rfl rfl rfl rfl
      · exact (h u).frame_check hu hcur
  | @park c t hcur hlock =>
      by_cases hu : u = t
      · subst hu
        exact (h u).park hcur hlock rfl rfl (update_self _ _ _) rfl rfl
      · have hcount := FifoRunQueue.count_parkCurrent u hcur
        rw [if_neg (fun htu => hu htu.symm), add_zero] at hcount
        refine (h u).frame_rq hcount rfl (update_self _ _ _) ?_ rfl (update_of_ne hu _ _) rfl rfl
        intro d (hp : update s.parking c false d = true)
        by_cases hd : d = c
        · rw [hd]
          exact hlock
        · rwa [update_of_ne hd] at hp
  | @pick c hlock =>
      exact (h u).frame_rq (FifoRunQueue.count_tryPickNext u _) rfl hlock
        (fun _ hp => hp) rfl rfl rfl
        rfl
  | @consume c t hcur hlock => exact (h u).consume t

/-- **The invariant holds in every run.** -/
theorem taskOK_of_reachable (hs : (schedSystem κ τ ι).Reachable s) (t : τ) : TaskOK s t := by
  refine System.invariant (I := fun s => ∀ t, TaskOK s t) ?_ ?_ hs t
  · rintro _ rfl t
    refine ⟨?_, ?_, ?_, ?_, fun _ => rfl, ?_, ?_⟩
    · have hrq : total (FifoRunQueue.count t) (fun _ : κ => FifoRunQueue.new) = 0 :=
        total_eq_zero (fun _ => rfl)
      have hcalls : total (SchedCall.claims t) (fun _ : ι => (.idle : SchedCall κ τ)) = 0 :=
        total_eq_zero (fun _ => rfl)
      unfold SchedState.places
      rw [hrq, hcalls]
      rfl
    · intro c hc
      exact absurd hc (lt_irrefl 0)
    · intro i x hi
      cases hi
    · intro i hi
      cases hi
    · intro c hp
      cases hp
    · intro hsp
      cases hsp
  · intro s a s' _ h hnext u
    exact taskOK_step h (schedStep_of_next (fun i t => (h t).called i) (fun t => (h t).unspawned)
      hnext) u

/-! ## What follows -/

/-- **Where the tasks are.** -/
structure SchedPlaces (s : SchedState κ τ ι) : Prop where
  /-- a task occurs at most once in all run queues together -/
  once : ∀ t, total (FifoRunQueue.count t) s.rq ≤ 1
  /-- only where its cell says -/
  located : ∀ c t, 0 < (s.rq c).count t → s.cpu t = some c
  /-- and nowhere if its cell says `NONE` -/
  nowhere : ∀ t, s.cpu t = none → ∀ c, (s.rq c).count t = 0
  /-- otherwise it is there, or a call of `enqueue` has claimed it and will push it there -/
  present : ∀ t c, s.cpu t = some c → 0 < (s.rq c).count t ∨ ∃ i, s.calls i = .enqueue t false c
  /-- no task is current on two CPUs -/
  current : ∀ c d t, (s.rq c).current = some t → (s.rq d).current = some t → c = d
  /-- the assertion in `enqueue`: a task that is spawned is in no run queue -/
  unspawned : ∀ t c, s.spawned t = false → (enqueueStart (s.cpu t) c).1.1 = false

/-- A call of `unpark_target` for the task that has not returned. -/
def SchedCall.Unparks (t : τ) (call : SchedCall κ τ) : Prop :=
  call = .unpark t ∨ ∃ x, call = .enqueue t true x

theorem schedPlaces_of_reachable (hs : (schedSystem κ τ ι).Reachable s) : SchedPlaces s := by
  have h := taskOK_of_reachable hs
  refine ⟨?_, fun c t => (h t).located c, ?_, fun t c => (h t).present, ?_, ?_⟩
  · intro t
    have hplaces := (h t).places
    have hle := (s.cpu t).isSome.toNat_le
    unfold SchedState.places at hplaces
    omega
  · intro t hcpu c
    by_contra hc
    have hloc := (h t).located c (Nat.pos_of_ne_zero hc)
    rw [hcpu] at hloc
    cases hloc
  · intro c d t hc hd
    have hcpu := (h t).cpu_of_current hc
    rw [(h t).cpu_of_current hd] at hcpu
    exact (Option.some.inj hcpu).symm
  · intro t c hnew
    rw [(h t).unspawned hnew]
    rfl

/-- **The FIFO scheduler.**  Each task is in one place at most, where its cell says, and no
wakeup is lost: while a task that has parked has its flag set, a call of `unpark_target` for it
has not returned; and a task with its flag set that is in no run queue has a call that has not
returned, which has claimed it and will push it or is an `unpark_target`. -/
theorem fifo_scheduler_correct (hs : (schedSystem κ τ ι).Reachable s) :
    SchedPlaces s ∧
    (∀ t, s.spawned t = true → s.cpu t = none → s.flag t = true → ∃ i, (s.calls i).Unparks t) ∧
    ∀ t, s.spawned t = true → (∀ c, (s.rq c).count t = 0) → s.flag t = true →
      ∃ i, (s.calls i).Unparks t ∨ ∃ c, s.cpu t = some c ∧ s.calls i = .enqueue t false c := by
  have hplaces := schedPlaces_of_reachable hs
  have hwoken := fun t => (taskOK_of_reachable hs t).woken
  refine ⟨hplaces, hwoken, ?_⟩
  intro t hsp hnowhere hflag
  cases hcpu : s.cpu t with
  | none =>
      obtain ⟨i, hi⟩ := hwoken t hsp hcpu hflag
      exact ⟨i, Or.inl hi⟩
  | some c =>
      rcases hplaces.present t c hcpu with hpos | ⟨i, hi⟩
      · rw [hnowhere c] at hpos
        exact absurd hpos (lt_irrefl 0)
      · exact ⟨i, Or.inr ⟨c, rfl, hi⟩⟩

end

/-- A waker that comes between the look at the flag and the end of the section of
`park_current`: it has found the task in the run queue of CPU 0 and waits for the lock. -/
theorem fifo_scheduler_correct_sample : ∃ s : SchedState (Fin 2) (Fin 2) (Fin 2),
    (s.cpu 0 = none ∧ s.flag 0 = true) ∧ SchedPlaces s ∧ ∃ i, (s.calls i).Unparks 0 := by
  obtain ⟨s, hs, hp⟩ := (schedSystem (Fin 2) (Fin 2) (Fin 2)).exists_of_runAll SchedState.next
    [.spawn 0 0 0, .enqueue 0, .spawn 1 1 0, .enqueue 1, .pick 0, .check 0, .wake 0 0, .unpark 0 1,
      .park 0]
    (fun s => decide (s.spawned 0 = true ∧ s.cpu 0 = none ∧ s.flag 0 = true)) (fun _ _ _ h => h)
    rfl (by decide)
  obtain ⟨hsp, hcpu, hflag⟩ := of_decide_eq_true hp
  obtain ⟨hplaces, hwoken, -⟩ := fifo_scheduler_correct hs
  exact ⟨s, ⟨hcpu, hflag⟩, hplaces, hwoken 0 hsp hcpu hflag⟩

end Vostd
