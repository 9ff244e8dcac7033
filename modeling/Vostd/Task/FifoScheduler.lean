/-
# The FIFO scheduler

`FifoScheduler` of `task/scheduler/fifo_scheduler.rs` with `park_current` and `unpark_target` of
`task/scheduler/mod.rs`.  Each CPU has a run queue: a current task and the tasks that wait.
Each task has a cell `cpu` (`AtomicCpuId`) that says in whose run queue it is.

`enqueue` looks at the cell twice, first without any lock and then under the lock of the
run queue that it has found.  Meanwhile the task may run, park and be woken by others.
The steps here are the atomic accesses to the cell and the sections under the lock of a run
queue; in the section of `park_current` the look at `has_unparked` is a step of its own, so
that a waker can come in between.

The results are that a task is in one place at most and where its cell says, and that no
wakeup is lost: a task that has been dequeued while its flag is set has a waker that is still
about to enqueue it.
-/
import Vostd.Lib.System
import Vostd.Lib.Threads

namespace Vostd

open Function

/-! ## The code -/

section

variable {κ τ : Type}

/-- `AtomicCpuId::set_if_is_none` on a cell. -/
def setIfIsNone (cell : Option κ) (id : κ) : Except κ (Option κ) :=
  match cell with
  | none => .ok (some id)
  | some old => .error old

/-- `FifoRunQueue` -/
structure FifoRunQueue (τ : Type) where
  current : Option τ
  queue : List τ
  deriving DecidableEq, Repr

namespace FifoRunQueue

/-- `FifoRunQueue::new` -/
def new : FifoRunQueue τ := ⟨none, []⟩

/-- `update_current` with `UpdateFlags::Wait` -/
def updateCurrent (rq : FifoRunQueue τ) : Bool := !rq.queue.isEmpty

/-- `try_pick_next`: the task that is picked, and the run queue afterwards. -/
def tryPickNext (rq : FifoRunQueue τ) : Option τ × FifoRunQueue τ :=
  match rq.queue with
  | [] => (none, rq)
  | next :: rest =>
      match rq.current with
      | none => (some next, ⟨some next, rest⟩)
      | some prev => (some next, ⟨some next, rest ++ [prev]⟩)

/-- `dequeue_current` on the run queue; the cell of the task is set to `NONE`. -/
def dequeueCurrent (rq : FifoRunQueue τ) : Option τ × FifoRunQueue τ :=
  (rq.current, { rq with current := none })

/-- The first try of `park_current` after its look at `has_unparked`. -/
def parkCurrent (rq : FifoRunQueue τ) : FifoRunQueue τ :=
  let shouldPickNext := rq.updateCurrent
  let rq := rq.dequeueCurrent.2
  if shouldPickNext then rq.tryPickNext.2 else rq

end FifoRunQueue

/-- The first part of `enqueue`: whether the task is still in a run queue, which run queue to
lock, and the cell afterwards. -/
def enqueueStart (cell : Option κ) (selected : κ) : (Bool × κ) × Option κ :=
  match setIfIsNone cell selected with
  | .error taskCpuId => ((true, taskCpuId), cell)
  | .ok cell' => ((false, selected), cell')

/-- The second part of `enqueue`, under the lock of the run queue. -/
def enqueueFinish (rq : FifoRunQueue τ) (cell : Option κ) (runnable : τ) (stillInRq : Bool)
    (target : κ) : FifoRunQueue τ × Option κ :=
  if stillInRq then
    match setIfIsNone cell target with
    | .error _ => (rq, cell)
    | .ok cell' => ({ rq with queue := rq.queue ++ [runnable] }, cell')
  else ({ rq with queue := rq.queue ++ [runnable] }, cell)

end

/-- What a waker does: it is about to call `unpark_target`, or in `enqueue` before the lock. -/
inductive SchedCall (κ τ : Type) : Type where
  | idle
  | unpark (t : τ)
  | enqueue (t : τ) (stillInRq : Bool) (target : κ)
  deriving DecidableEq, Repr

/-- CPUs `κ`, tasks `τ` and wakers `ι`.  `parking` says on which CPUs a section of `park_current`
is between its look at `has_unparked` and its end; `flag` is what `has_unparked` looks at. -/
structure SchedState (κ τ ι : Type) where
  rq : κ → FifoRunQueue τ
  parking : κ → Bool
  cpu : τ → Option κ
  flag : τ → Bool
  spawned : τ → Bool
  calls : ι → SchedCall κ τ

/-- The steps. -/
inductive SchedAct (κ τ ι : Type) : Type where
  /-- the first part of `enqueue` with `EnqueueFlags::Spawn` -/
  | spawn (i : ι) (t : τ) (selected : κ)
  /-- a waker sets the flag -/
  | wake (i : ι) (t : τ)
  /-- the first part of the `enqueue` of `unpark_target` -/
  | unpark (i : ι) (selected : κ)
  /-- the second part of `enqueue` -/
  | enqueue (i : ι)
  /-- the current task looks at `has_unparked` in its first try -/
  | check (c : κ)
  /-- the rest of the first try -/
  | park (c : κ)
  /-- `try_pick_next`, in a later try of `park_current` or in a preemption -/
  | pick (c : κ)
  /-- the current task clears its flag -/
  | consume (c : κ)
  deriving DecidableEq, Repr

namespace SchedState

variable {κ τ ι : Type} [DecidableEq κ] [DecidableEq τ] [DecidableEq ι]

/-- The first part of `enqueue`. -/
def startEnqueue (s : SchedState κ τ ι) (i : ι) (t : τ) (selected : κ) : SchedState κ τ ι :=
  let r := enqueueStart (s.cpu t) selected
  { s with
    cpu := update s.cpu t r.2
    calls := update s.calls i (.enqueue t r.1.1 r.1.2) }

/-- The next state; a step on a run queue waits while a section holds its lock. -/
def next (s : SchedState κ τ ι) : SchedAct κ τ ι → Option (SchedState κ τ ι)
  | .spawn i t selected =>
      -- every task is spawned once
      if s.calls i = .idle ∧ s.spawned t = false then
        some { s.startEnqueue i t selected with spawned := update s.spawned t true }
      else none
  | .wake i t =>
      if s.calls i = .idle ∧ s.spawned t = true then
        some { s with
          flag := update s.flag t true
          calls := update s.calls i (.unpark t) }
      else none
  | .unpark i selected =>
      match s.calls i with
      | .unpark t => some (s.startEnqueue i t selected)
      | .idle | .enqueue .. => none
  | .enqueue i =>
      match s.calls i with
      | .enqueue t still target =>
          if s.parking target = true then none
          else
            let r := enqueueFinish (s.rq target) (s.cpu t) t still target
            some { s with
              rq := update s.rq target r.1
              cpu := update s.cpu t r.2
              calls := update s.calls i .idle }
      | .idle | .unpark _ => none
  | .check c =>
      match (s.rq c).current with
      | some t =>
          if s.parking c = true then none
          else if s.flag t = true then some s
          else some { s with parking := update s.parking c true }
      | none => none
  | .park c =>
      match (s.rq c).current with
      | some t =>
          if s.parking c = true then
            some { s with
              rq := update s.rq c (s.rq c).parkCurrent
              parking := update s.parking c false
              cpu := update s.cpu t none }
          else none
      | none => none
  | .pick c =>
      if s.parking c = true then none
      else some { s with rq := update s.rq c (s.rq c).tryPickNext.2 }
  | .consume c =>
      match (s.rq c).current with
      | some t =>
          if s.parking c = true then none
          else some { s with flag := update s.flag t false }
      | none => none

end SchedState

/-- All interleavings, from empty run queues and tasks that have not been spawned. -/
def schedSystem (κ τ ι : Type) [DecidableEq κ] [DecidableEq τ] [DecidableEq ι] :
    System (SchedState κ τ ι) (SchedAct κ τ ι) where
  init := fun s => s = ⟨fun _ => .new, fun _ => false, fun _ => none, fun _ => false,
    fun _ => false, fun _ => .idle⟩
  step := fun s a s' => s.next a = some s'

/-! ## The steps, one by one -/

section

variable {κ τ ι : Type} [DecidableEq κ] [DecidableEq τ] [DecidableEq ι]

/-- What the steps do. -/
inductive SchedStep (s : SchedState κ τ ι) : SchedState κ τ ι → Prop
  /-- `enqueue` has claimed a task that is nowhere; it is spawned by now -/
  | claim {i : ι} {t : τ} {x : κ} {spawned : τ → Bool}
      (hcall : s.calls i = .idle ∨ s.calls i = .unpark t) (hcpu : s.cpu t = none)
      (hspawned : spawned t = true) (hother : ∀ u, u ≠ t → spawned u = s.spawned u) :
      SchedStep s { s with
        cpu := update s.cpu t (some x)
        calls := update s.calls i (.enqueue t false x)
        spawned := spawned }
  /-- `enqueue` has found the task in a run queue -/
  | found {i : ι} {t : τ} {x : κ} (hcall : s.calls i = .unpark t) (hcpu : s.cpu t = some x) :
      SchedStep s { s with calls := update s.calls i (.enqueue t true x) }
  | wake {i : ι} {t : τ} (hcall : s.calls i = .idle) (hspawned : s.spawned t = true) :
      SchedStep s { s with
        flag := update s.flag t true
        calls := update s.calls i (.unpark t) }
  | push {i : ι} {t : τ} {x : κ} (hcall : s.calls i = .enqueue t false x)
      (hlock : s.parking x = false) :
      SchedStep s { s with
        rq := update s.rq x { s.rq x with queue := (s.rq x).queue ++ [t] }
        calls := update s.calls i .idle }
  | repush {i : ι} {t : τ} {x : κ} (hcall : s.calls i = .enqueue t true x)
      (hlock : s.parking x = false) (hcpu : s.cpu t = none) :
      SchedStep s { s with
        rq := update s.rq x { s.rq x with queue := (s.rq x).queue ++ [t] }
        cpu := update s.cpu t (some x)
        calls := update s.calls i .idle }
  | drop {i : ι} {t : τ} {x y : κ} (hcall : s.calls i = .enqueue t true x)
      (hlock : s.parking x = false) (hcpu : s.cpu t = some y) :
      SchedStep s { s with calls := update s.calls i .idle }
  | stay : SchedStep s s
  | check {c : κ} {t : τ} (hcur : (s.rq c).current = some t) (hlock : s.parking c = false)
      (hflag : s.flag t = false) :
      SchedStep s { s with parking := update s.parking c true }
  | park {c : κ} {t : τ} (hcur : (s.rq c).current = some t) (hlock : s.parking c = true) :
      SchedStep s { s with
        rq := update s.rq c (s.rq c).parkCurrent
        parking := update s.parking c false
        cpu := update s.cpu t none }
  | pick {c : κ} (hlock : s.parking c = false) :
      SchedStep s { s with rq := update s.rq c (s.rq c).tryPickNext.2 }
  | consume {c : κ} {t : τ} (hcur : (s.rq c).current = some t) (hlock : s.parking c = false) :
      SchedStep s { s with flag := update s.flag t false }

/-- The first part of `enqueue` claims the task or finds it. -/
theorem schedStep_startEnqueue {s : SchedState κ τ ι} {i : ι} {t : τ} {x : κ}
    (hcall : s.calls i = .unpark t) (hspawned : s.spawned t = true) :
    SchedStep s (s.startEnqueue i t x) := by
  unfold SchedState.startEnqueue enqueueStart setIfIsNone
  cases hcpu : s.cpu t with
  | none => exact .claim (Or.inr hcall) hcpu hspawned (fun _ _ => rfl)
  | some y =>
      have hself : update s.cpu t (some y) = s.cpu := by
        rw [← hcpu, update_eq_self]
      simp only [hself]
      exact .found hcall hcpu

/-- The second part pushes the task, or finds that another call has taken care of it. -/
theorem schedStep_finishEnqueue {s : SchedState κ τ ι} {i : ι} {t : τ} {still : Bool} {x : κ}
    (hcall : s.calls i = .enqueue t still x) (hlock : s.parking x = false) :
    SchedStep s { s with
      rq := update s.rq x (enqueueFinish (s.rq x) (s.cpu t) t still x).1
      cpu := update s.cpu t (enqueueFinish (s.rq x) (s.cpu t) t still x).2
      calls := update s.calls i .idle } := by
  unfold enqueueFinish setIfIsNone
  cases still with
  | false =>
      simp only [Bool.false_eq_true, if_false, update_eq_self]
      exact .push hcall hlock
  | true =>
      simp only [if_true]
      cases hcpu : s.cpu t with
      | none => exact .repush hcall hlock hcpu
      | some y =>
          have hself : update s.cpu t (some y) = s.cpu := by
            rw [← hcpu, update_eq_self]
          simp only [hself, update_eq_self]
          exact .drop hcall hlock hcpu

/-- The task that a call is about. -/
def SchedCall.task : SchedCall κ τ → Option τ
  | .idle => none
  | .unpark t | .enqueue t _ _ => some t

/-- `next` makes these steps and no others, if calls are about tasks that have been
spawned and the others are nowhere. -/
theorem schedStep_of_next {s s' : SchedState κ τ ι} {a : SchedAct κ τ ι}
    (hcalled : ∀ i t, (s.calls i).task = some t → s.spawned t = true)
    (hunspawned : ∀ t, s.spawned t = false → s.cpu t = none) (h : s.next a = some s') :
    SchedStep s s' := by
  cases a with
  | spawn i t x =>
      obtain ⟨⟨hidle, hnew⟩, heq⟩ := Option.ite_none_right_eq_some.mp h
      obtain rfl := Option.some.inj heq
      unfold SchedState.startEnqueue enqueueStart setIfIsNone
      rw [hunspawned t hnew]
      refine .claim (Or.inl hidle) (hunspawned t hnew) (update_self _ _ _) ?_
      intro u hu
      exact update_of_ne hu _ _
  | wake i t =>
      obtain ⟨⟨hidle, hspawned⟩, heq⟩ := Option.ite_none_right_eq_some.mp h
      obtain rfl := Option.some.inj heq
      exact .wake hidle hspawned
  | unpark i x =>
      rw [SchedState.next] at h
      cases hcall : s.calls i with
      | unpark t =>
          rw [hcall] at h
          obtain rfl := Option.some.inj h
          exact schedStep_startEnqueue hcall (hcalled i t (by rw [hcall]; rfl))
      | idle | enqueue t still y =>
          rw [hcall] at h
          cases h
  | enqueue i =>
      rw [SchedState.next] at h
      cases hcall : s.calls i with
      | enqueue t still x =>
          rw [hcall] at h
          obtain ⟨hlock, heq⟩ := Option.ite_none_left_eq_some.mp h
          obtain rfl := Option.some.inj heq
          exact schedStep_finishEnqueue hcall (Bool.eq_false_iff.mpr hlock)
      | idle | unpark t =>
          rw [hcall] at h
          cases h
  | check c =>
      rw [SchedState.next] at h
      cases hcur : (s.rq c).current with
      | none =>
          rw [hcur] at h
          cases h
      | some t =>
          rw [hcur] at h
          obtain ⟨hlock, heq⟩ := Option.ite_none_left_eq_some.mp h
          by_cases hflag : s.flag t = true
          · rw [if_pos hflag] at heq
            obtain rfl := Option.some.inj heq
            exact .stay
          · rw [if_neg hflag] at heq
            obtain rfl := Option.some.inj heq
            exact .check hcur (Bool.eq_false_iff.mpr hlock) (Bool.eq_false_iff.mpr hflag)
  | park c =>
      rw [SchedState.next] at h
      cases hcur : (s.rq c).current with
      | none =>
          rw [hcur] at h
          cases h
      | some t =>
          rw [hcur] at h
          obtain ⟨hlock, heq⟩ := Option.ite_none_right_eq_some.mp h
          obtain rfl := Option.some.inj heq
          exact .park hcur hlock
  | pick c =>
      obtain ⟨hlock, heq⟩ := Option.ite_none_left_eq_some.mp h
      obtain rfl := Option.some.inj heq
      exact .pick (Bool.eq_false_iff.mpr hlock)
  | consume c =>
      rw [SchedState.next] at h
      cases hcur : (s.rq c).current with
      | none =>
          rw [hcur] at h
          cases h
      | some t =>
          rw [hcur] at h
          obtain ⟨hlock, heq⟩ := Option.ite_none_left_eq_some.mp h
          obtain rfl := Option.some.inj heq
          exact .consume hcur (Bool.eq_false_iff.mpr hlock)

end

end Vostd
