/-
# Wait queues

`WaitQueue`, `Waiter` and `Waker` of `sync/wait.rs`, used by the threads of a lock: an
attempt that fails inside `wait_until` puts a waker into the queue, tries again and goes
to sleep; an operation that releases the lock wakes one or all of the sleepers.

The accesses of the lock are those of `LockOps`; here are the steps in between: the two
parts of `wake_one` and `wake_all` that touch the queue, the copy of the queue's length
that they look at first, the swaps on `has_woken`, and parking.  A section under the queue's
spin lock is one step.

`wait_until` makes a waiter and returns without dropping it: `Waiter::drop`, which closes the
waker, is an ordinary method of the source and is not called there.  So a waker may stay
in the queue when its thread has left, and waking it wakes nobody.
-/
import Vostd.Sync.LockOps

namespace Vostd

/-! ## The code -/

/-- A waker: the thread that it wakes, and the number of the waiter that it belongs to. -/
abbrev Waker (ι : Type) : Type := ι × ℕ

/-- Where a thread is. -/
inductive WaitPc (ι O P : Type) : Type where
  /-- between operations -/
  | idle
  /-- in an operation outside `wait_until` -/
  | calling (p : P)
  /-- in the first attempt of `wait_until` -/
  | first (op : O) (p : P)
  /-- before `enqueue` -/
  | enqueue (op : O) (w : Waker ι)
  /-- before the next attempt, and in it -/
  | retry (op : O) (w : Waker ι)
  | retrying (op : O) (p : P) (w : Waker ι)
  /-- before the swap of `do_wait`, and in `park_current` -/
  | waiting (op : O) (w : Waker ι)
  | parked (op : O) (w : Waker ι)
  /-- in `wake_one` or `wake_all`: before the look at `num_wakers`, before taking a waker from
  the queue, and before waking it -/
  | wakeCheck (all : Bool)
  | wakePop (all : Bool)
  | wakeUp (all : Bool) (w : Waker ι)
  deriving DecidableEq, Repr

/-- A thread: its guards, how many waiters it has made, and where it is. -/
structure WaitThread (ι H O P : Type) where
  held : H
  waiters : ℕ
  pc : WaitPc ι O P

/-- The lock, the queue and the threads. -/
structure WaitState (ι W H O P : Type) where
  word : W
  wakers : List (Waker ι)
  numWakers : BitVec 32
  hasWoken : Waker ι → Bool
  threads : ι → WaitThread ι H O P

/-- What a thread does: it calls an operation, or `wait_until` with an attempt, or it goes
on with what it is doing. -/
inductive WaitAct (O : Type) : Type where
  | call (op : O)
  | block (op : O)
  | run
  deriving DecidableEq, Repr

namespace WaitState

variable {ι W H O P : Type} [DecidableEq ι]

/-- The state with another thread `i`. -/
def put (s : WaitState ι W H O P) (i : ι) (pc : WaitPc ι O P) : WaitState ι W H O P :=
  { s with threads := Function.update s.threads i { s.threads i with pc := pc } }

/-- The thread after an access: `cont` is where it goes on, `fail` what a failed attempt
leads to. -/
def settle (t : WaitThread ι H O P) (r : W × H × Outcome P) (cont : P → WaitPc ι O P)
    (fail : WaitThread ι H O P → WaitThread ι H O P) : WaitThread ι H O P :=
  let t := { t with held := r.2.1 }
  match r.2.2 with
  | .running p => { t with pc := cont p }
  | .done => { t with pc := .idle }
  | .failed => fail t
  | .wake all => { t with pc := .wakeCheck all }

/-- An access of thread `i` with the result `r`. -/
def access (s : WaitState ι W H O P) (i : ι) (r : W × H × Outcome P) (cont : P → WaitPc ι O P)
    (fail : WaitThread ι H O P → WaitThread ι H O P) : WaitState ι W H O P :=
  { s with word := r.1, threads := Function.update s.threads i (settle (s.threads i) r cont fail) }

/-- A call that has failed returns. -/
def toIdle (t : WaitThread ι H O P) : WaitThread ι H O P := { t with pc := .idle }

/-- The first attempt of `wait_until` has failed: `Waiter::new_pair`. -/
def newWaiter (i : ι) (op : O) (t : WaitThread ι H O P) : WaitThread ι H O P :=
  { t with waiters := t.waiters + 1, pc := .enqueue op (i, t.waiters) }

/-- A later attempt has failed. -/
def toWait (op : O) (w : Waker ι) (t : WaitThread ι H O P) : WaitThread ι H O P :=
  { t with pc := .waiting op w }

/-- The next step of thread `i`; `blocks` are the attempts with which `wait_until` is called. -/
def next (ops : LockOps W H O P) (blocks : O → Bool) (s : WaitState ι W H O P) (i : ι) :
    WaitAct O → Option (WaitState ι W H O P)
  | .call op =>
      match (s.threads i).pc with
      | .idle =>
          if ops.starts (s.threads i).held op then
            some (s.access i (ops.start s.word (s.threads i).held op) .calling toIdle)
          else none
      | _ => none
  | .block op =>
      match (s.threads i).pc with
      | .idle =>
          if blocks op && ops.starts (s.threads i).held op then
            some (s.access i (ops.start s.word (s.threads i).held op) (.first op) (newWaiter i op))
          else none
      | _ => none
  | .run =>
      match (s.threads i).pc with
      | .idle => none
      | .calling p => some (s.access i (ops.resume s.word (s.threads i).held p) .calling toIdle)
      | .first op p =>
          some (s.access i (ops.resume s.word (s.threads i).held p) (.first op) (newWaiter i op))
      | .enqueue op w =>
          some { s.put i (.retry op w) with
            wakers := s.wakers ++ [w], numWakers := s.numWakers + 1 }
      | .retry op w =>
          if ops.starts (s.threads i).held op then
            some (s.access i (ops.start s.word (s.threads i).held op) (.retrying op · w)
              (toWait op w))
          else none
      | .retrying op p w =>
          some (s.access i (ops.resume s.word (s.threads i).held p) (.retrying op · w)
            (toWait op w))
      | .waiting op w =>
          -- `has_woken.swap(false)`
          if s.hasWoken w then
            some { s.put i (.enqueue op w) with hasWoken := Function.update s.hasWoken w false }
          else some (s.put i (.parked op w))
      | .parked op w => some (s.put i (.waiting op w))
      | .wakeCheck all =>
          if s.numWakers = 0 then some (s.put i .idle) else some (s.put i (.wakePop all))
      | .wakePop all =>
          match s.wakers with
          | [] => some (s.put i .idle)
          | w :: rest =>
              some { s.put i (.wakeUp all w) with wakers := rest, numWakers := s.numWakers - 1 }
      | .wakeUp all w =>
          -- `has_woken.swap(true)`; a waker that has been woken already does not count
          if s.hasWoken w then some (s.put i (.wakePop all))
          else some { s.put i (if all then .wakePop true else .idle) with
            hasWoken := Function.update s.hasWoken w true }

end WaitState

/-- All interleavings, from a lock that nobody uses. -/
def waitSystem {W H O P : Type} (ι : Type) [DecidableEq ι] (ops : LockOps W H O P)
    (blocks : O → Bool) (word : W) (held : H) :
    System (WaitState ι W H O P) (ι × WaitAct O) where
  init := fun s => s = ⟨word, [], 0, fun _ => false, fun _ => ⟨held, 0, .idle⟩⟩
  step := fun s l s' => s.next ops blocks l.1 l.2 = some s'

/-! ## The steps, one by one -/

section

variable {ι W H O P : Type} [DecidableEq ι]

/-- The access that a thread is in the middle of. -/
def WaitPc.pending : WaitPc ι O P → Option P
  | .calling p | .first _ p | .retrying _ p _ => some p
  | .idle | .enqueue .. | .retry .. | .waiting .. | .parked .. | .wakeCheck _ | .wakePop _
  | .wakeUp .. => none

/-- The waker that a thread has put into the queue and waits for. -/
def WaitPc.attended : WaitPc ι O P → Option (Waker ι)
  | .retry _ w | .retrying _ _ w | .waiting _ w | .parked _ w => some w
  | .idle | .calling _ | .first .. | .enqueue .. | .wakeCheck _ | .wakePop _ | .wakeUp .. => none

/-- The waker that a thread is about to put into the queue. -/
def WaitPc.pushing : WaitPc ι O P → Option (Waker ι)
  | .enqueue _ w => some w
  | .idle | .calling _ | .first .. | .retry .. | .retrying .. | .waiting .. | .parked ..
  | .wakeCheck _ | .wakePop _ | .wakeUp .. => none

/-- The waker that a thread has taken from the queue and is about to wake. -/
def WaitPc.popped : WaitPc ι O P → Option (Waker ι)
  | .wakeUp _ w => some w
  | .idle | .calling _ | .first .. | .enqueue .. | .retry .. | .retrying .. | .waiting ..
  | .parked .. | .wakeCheck _ | .wakePop _ => none

/-- The accesses of a thread `t` to the lock: what it accesses, and the thread that results. -/
inductive AccessStep (ops : LockOps W H O P) (blocks : O → Bool) (word : W) (i : ι)
    (t : WaitThread ι H O P) :
    WaitAct O → Option O → W × H × Outcome P → WaitThread ι H O P → Prop
  | call {op : O} (hpc : t.pc = .idle) (hs : ops.starts t.held op = true) :
      AccessStep ops blocks word i t (.call op) (some op) (ops.start word t.held op)
        (WaitState.settle t (ops.start word t.held op) .calling WaitState.toIdle)
  | block {op : O} (hpc : t.pc = .idle) (hs : ops.starts t.held op = true)
      (hb : blocks op = true) :
      AccessStep ops blocks word i t (.block op) (some op) (ops.start word t.held op)
        (WaitState.settle t (ops.start word t.held op) (.first op) (WaitState.newWaiter i op))
  | calling {p : P} (hpc : t.pc = .calling p) :
      AccessStep ops blocks word i t .run none (ops.resume word t.held p)
        (WaitState.settle t (ops.resume word t.held p) .calling WaitState.toIdle)
  | first {op : O} {p : P} (hpc : t.pc = .first op p) :
      AccessStep ops blocks word i t .run none (ops.resume word t.held p)
        (WaitState.settle t (ops.resume word t.held p) (.first op) (WaitState.newWaiter i op))
  | retry {op : O} {w : Waker ι} (hpc : t.pc = .retry op w)
      (hs : ops.starts t.held op = true) :
      AccessStep ops blocks word i t .run (some op) (ops.start word t.held op)
        (WaitState.settle t (ops.start word t.held op) (.retrying op · w) (WaitState.toWait op w))
  | retrying {op : O} {p : P} {w : Waker ι} (hpc : t.pc = .retrying op p w) :
      AccessStep ops blocks word i t .run none (ops.resume word t.held p)
        (WaitState.settle t (ops.resume word t.held p) (.retrying op · w) (WaitState.toWait op w))

/-- The steps of thread `i`. -/
inductive WaitStep (ops : LockOps W H O P) (blocks : O → Bool) (s : WaitState ι W H O P) (i : ι) :
    WaitAct O → WaitState ι W H O P → Prop
  | access {a : WaitAct O} {op : Option O} {r : W × H × Outcome P} {t : WaitThread ι H O P}
      (h : AccessStep ops blocks s.word i (s.threads i) a op r t) :
      WaitStep ops blocks s i a { s with word := r.1, threads := Function.update s.threads i t }
  | enqueue {op : O} {w : Waker ι} (hpc : (s.threads i).pc = .enqueue op w) :
      WaitStep ops blocks s i .run
        { s.put i (.retry op w) with wakers := s.wakers ++ [w], numWakers := s.numWakers + 1 }
  | woken {op : O} {w : Waker ι} (hpc : (s.threads i).pc = .waiting op w)
      (hw : s.hasWoken w = true) :
      WaitStep ops blocks s i .run
        { s.put i (.enqueue op w) with hasWoken := Function.update s.hasWoken w false }
  | park {op : O} {w : Waker ι} (hpc : (s.threads i).pc = .waiting op w)
      (hw : s.hasWoken w = false) : WaitStep ops blocks s i .run (s.put i (.parked op w))
  | unpark {op : O} {w : Waker ι} (hpc : (s.threads i).pc = .parked op w) :
      WaitStep ops blocks s i .run (s.put i (.waiting op w))
  | nobody {all : Bool} (hpc : (s.threads i).pc = .wakeCheck all) (hn : s.numWakers = 0) :
      WaitStep ops blocks s i .run (s.put i .idle)
  | somebody {all : Bool} (hpc : (s.threads i).pc = .wakeCheck all) :
      WaitStep ops blocks s i .run (s.put i (.wakePop all))
  | popNone {all : Bool} (hpc : (s.threads i).pc = .wakePop all) (hq : s.wakers = []) :
      WaitStep ops blocks s i .run (s.put i .idle)
  | pop {all : Bool} {w : Waker ι} {rest : List (Waker ι)} (hpc : (s.threads i).pc = .wakePop all)
      (hq : s.wakers = w :: rest) :
      WaitStep ops blocks s i .run
        { s.put i (.wakeUp all w) with wakers := rest, numWakers := s.numWakers - 1 }
  | skip {all : Bool} {w : Waker ι} (hpc : (s.threads i).pc = .wakeUp all w)
      (hw : s.hasWoken w = true) : WaitStep ops blocks s i .run (s.put i (.wakePop all))
  | wake {all : Bool} {w : Waker ι} (hpc : (s.threads i).pc = .wakeUp all w)
      (hw : s.hasWoken w = false) :
      WaitStep ops blocks s i .run
        { s.put i (if all then .wakePop true else .idle) with
          hasWoken := Function.update s.hasWoken w true }

namespace WaitStep

variable {ops : LockOps W H O P} {blocks : O → Bool} {s s' : WaitState ι W H O P} {i : ι} {op : O}
  {w : Waker ι} {all : Bool}

theorem of_call (h : s.next ops blocks i (.call op) = some s') :
    WaitStep ops blocks s i (.call op) s' := by
  rw [WaitState.next] at h
  cases hpc : (s.threads i).pc <;> rw [hpc] at h <;> try cases h
  obtain ⟨hs, heq⟩ := Option.ite_none_right_eq_some.mp h
  cases heq
  exact .access (.call hpc hs)

theorem of_block (h : s.next ops blocks i (.block op) = some s') :
    WaitStep ops blocks s i (.block op) s' := by
  rw [WaitState.next] at h
  cases hpc : (s.threads i).pc <;> rw [hpc] at h <;> try cases h
  obtain ⟨hs, heq⟩ := Option.ite_none_right_eq_some.mp h
  cases heq
  rw [Bool.and_eq_true] at hs
  exact .access (.block hpc hs.2 hs.1)

theorem of_retry (hpc : (s.threads i).pc = .retry op w) (h : s.next ops blocks i .run = some s') :
    WaitStep ops blocks s i .run s' := by
  rw [WaitState.next, hpc] at h
  obtain ⟨hs, heq⟩ := Option.ite_none_right_eq_some.mp h
  cases heq
  exact .access (.retry hpc hs)

theorem of_waiting (hpc : (s.threads i).pc = .waiting op w)
    (h : s.next ops blocks i .run = some s') : WaitStep ops blocks s i .run s' := by
  simp only [WaitState.next, hpc] at h
  split at h
  · next hw =>
    cases h
    exact .woken hpc hw
  · next hw =>
    cases h
    exact .park hpc (Bool.eq_false_iff.mpr hw)

theorem of_wakeCheck (hpc : (s.threads i).pc = .wakeCheck all)
    (h : s.next ops blocks i .run = some s') : WaitStep ops blocks s i .run s' := by
  simp only [WaitState.next, hpc] at h
  split at h
  · next hn =>
    cases h
    exact .nobody hpc hn
  · cases h
    exact .somebody hpc

theorem of_wakePop (hpc : (s.threads i).pc = .wakePop all)
    (h : s.next ops blocks i .run = some s') : WaitStep ops blocks s i .run s' := by
  simp only [WaitState.next, hpc] at h
  split at h
  · next hq =>
    cases h
    exact .popNone hpc hq
  · next hq =>
    cases h
    exact .pop hpc hq

theorem of_wakeUp (hpc : (s.threads i).pc = .wakeUp all w)
    (h : s.next ops blocks i .run = some s') : WaitStep ops blocks s i .run s' := by
  simp only [WaitState.next, hpc] at h
  split at h
  · next hw =>
    cases h
    exact .skip hpc hw
  · next hw =>
    cases h
    exact .wake hpc (Bool.eq_false_iff.mpr hw)

/-- `next` makes these steps and no others. -/
theorem of_next {a : WaitAct O} (h : s.next ops blocks i a = some s') :
    WaitStep ops blocks s i a s' := by
  cases a with
  | call op => exact of_call h
  | block op => exact of_block h
  | run =>
      cases hpc : (s.threads i).pc with
      | retry op w => exact of_retry hpc h
      | waiting op w => exact of_waiting hpc h
      | wakeCheck all => exact of_wakeCheck hpc h
      | wakePop all => exact of_wakePop hpc h
      | wakeUp all w => exact of_wakeUp hpc h
      | idle =>
          rw [WaitState.next, hpc] at h
          cases h
      | calling p =>
          rw [WaitState.next, hpc] at h
          cases h
          exact .access (.calling hpc)
      | first op p =>
          rw [WaitState.next, hpc] at h
          cases h
          exact .access (.first hpc)
      | enqueue op w =>
          rw [WaitState.next, hpc] at h
          cases h
          exact .enqueue hpc
      | retrying op p w =>
          rw [WaitState.next, hpc] at h
          cases h
          exact .access (.retrying hpc)
      | parked op w =>
          rw [WaitState.next, hpc] at h
          cases h
          exact .unpark hpc

end WaitStep

end

end Vostd
