/-
# Every call is made once

What was asked for is at any time in the hands of a caller, in a queue, or done (`Inv.conserved`);
and a queue with a function in it is one that someone will still look at (`Inv.served`): the CPU
has the interrupt or is in the handler, or a caller has yet to send it.  So when nothing is left
to do, all functions have been called, each as often as it was asked for.

The steps are listed once (`Moves`).
-/
import Vostd.Lib.Threads
import Vostd.Smp.Calls

namespace Vostd.Smp

open Function

variable {n : ℕ} {F : Type}

/-! ## The steps -/

/-- What a CPU can do next, apart from a new call. -/
inductive Moves (cfg : Setting n F) (w : World n F) (c : Fin n) : World n F → Prop
  | irq (h : w.stack c = []) (hpending : w.pending c = true) :
      Moves cfg w c ({ w with pending := update w.pending c false }.setStack c [.wait])
  | pushEnd {f : F} {targets : List (Fin n)} {b : Bool} {rest : List (Frame n F)}
      (h : w.stack c = .push f targets [] b :: rest) :
      Moves cfg w c (w.setStack c (.send f targets b :: rest))
  | pushSelf {f : F} {targets todo : List (Fin n)} {b : Bool} {rest : List (Frame n F)}
      (h : w.stack c = .push f targets (c :: todo) b :: rest) :
      Moves cfg w c (w.setStack c (.push f targets todo true :: rest))
  | pushLock {f : F} {targets todo : List (Fin n)} {d : Fin n} {b : Bool} {rest : List (Frame n F)}
      (h : w.stack c = .push f targets (d :: todo) b :: rest) (hd : d ≠ c)
      (hfree : w.locked d = false) :
      Moves cfg w c ((w.setLocked d true).setStack c (.pushing f targets d todo b :: rest))
  | pushBack {f : F} {targets todo : List (Fin n)} {d : Fin n} {b : Bool} {rest : List (Frame n F)}
      (h : w.stack c = .pushing f targets d todo b :: rest) :
      Moves cfg w c (w.pushBack c f targets d todo b rest)
  | sendEnd {f : F} {rest : List (Frame n F)} (h : w.stack c = .send f [] false :: rest) :
      Moves cfg w c (w.setStack c rest)
  | sendSelf {f : F} {rest : List (Frame n F)} (h : w.stack c = .send f [] true :: rest) :
      Moves cfg w c ({ w with own := update w.own c (w.own c ++ [f]) }.setStack c
        (.run (cfg.body f) :: rest))
  | sendSkip {f : F} {todo : List (Fin n)} {b : Bool} {rest : List (Frame n F)}
      (h : w.stack c = .send f (c :: todo) b :: rest) :
      Moves cfg w c (w.setStack c (.send f todo b :: rest))
  | sendIpi {f : F} {todo : List (Fin n)} {d : Fin n} {b : Bool} {rest : List (Frame n F)}
      (h : w.stack c = .send f (d :: todo) b :: rest) (hd : d ≠ c) :
      Moves cfg w c ((w.sendIpi cfg (cfg.hwId d)).setStack c (.send f todo b :: rest))
  | runEnd {rest : List (Frame n F)} (h : w.stack c = .run [] :: rest) :
      Moves cfg w c (w.setStack c rest)
  | nested {call : CpuSet × F} {calls : List (CpuSet × F)} {ids : List (Fin n)}
      {rest : List (Frame n F)} (h : w.stack c = .run (call :: calls) :: rest)
      (hids : targetsOf n call.1 = .ok ids) :
      Moves cfg w c ({ w with asked :=
        w.asked + (ids.map fun d => (d, call.2) : List (Fin n × F)) }.setStack c
          (.push call.2 ids ids false :: .run calls :: rest))
  | lock {rest : List (Frame n F)} (h : w.stack c = .wait :: rest) (hfree : w.locked c = false) :
      Moves cfg w c ((w.setLocked c true).setStack c (.handle :: rest))
  | handleEnd {rest : List (Frame n F)} (h : w.stack c = .handle :: rest)
    (hqueue : w.queue c = []) :
      Moves cfg w c ((w.setLocked c false).setStack c rest)
  | handle {f : F} {queue : List F} {rest : List (Frame n F)} (h : w.stack c = .handle :: rest)
      (hqueue : w.queue c = f :: queue) :
      Moves cfg w c (({ w with handled := update w.handled c (w.handled c ++ [f]) }.setQueue
        c queue).setStack c (.run (cfg.body f) :: .handle :: rest))

section

variable {cfg : Setting n F} {w w' : World n F} {c : Fin n} {f : F} {rest : List (Frame n F)}

theorem World.begin_eq_some {targets : CpuSet}
    (h : w.begin c targets f rest = some w') : ∃ ids, targetsOf n targets = .ok ids ∧
      w' = { w with asked := w.asked + (ids.map fun d => (d, f) : List (Fin n × F)) }.setStack c
        (.push f ids ids false :: rest) := by
  unfold begin at h
  cases hids : targetsOf n targets with
  | error e =>
    rw [hids] at h
    cases h
  | ok ids =>
    rw [hids] at h
    exact ⟨ids, rfl, (Option.some.inj h).symm⟩

theorem Moves.of_irqStep (h : w.irqStep c = some w') : Moves cfg w c w' := by
  unfold World.irqStep at h
  cases hstack : w.stack c with
  | nil =>
    cases hpending : w.pending c with
    | true =>
      rw [hstack, hpending] at h
      cases h
      exact .irq hstack hpending
    | false =>
      rw [hstack, hpending] at h
      cases h
  | cons fr rest =>
    rw [hstack] at h
    cases h

theorem Moves.of_pushStep {targets todo : List (Fin n)} {b : Bool}
    (hstack : w.stack c = .push f targets todo b :: rest)
    (h : w.pushStep c f targets todo b rest = some w') : Moves cfg w c w' := by
  unfold World.pushStep at h
  cases todo with
  | nil =>
    cases h
    exact .pushEnd hstack
  | cons d todo =>
    dsimp only at h
    by_cases hd : d = c
    · subst hd
      rw [if_pos rfl] at h
      cases h
      exact .pushSelf hstack
    · rw [if_neg hd] at h
      cases hfree : w.locked d with
      | true =>
        rw [hfree, if_pos rfl] at h
        cases h
      | false =>
        rw [hfree, if_neg Bool.false_ne_true] at h
        cases h
        exact .pushLock hstack hd hfree

theorem Moves.of_sendStep {todo : List (Fin n)} {b : Bool}
    (hstack : w.stack c = .send f todo b :: rest)
    (h : World.sendStep cfg w c f todo b rest = some w') : Moves cfg w c w' := by
  unfold World.sendStep at h
  cases todo with
  | nil =>
    cases b with
    | true =>
      cases h
      exact .sendSelf hstack
    | false =>
      cases h
      exact .sendEnd hstack
  | cons d todo =>
    dsimp only at h
    by_cases hd : d = c
    · subst hd
      rw [if_pos rfl] at h
      cases h
      exact .sendSkip hstack
    · rw [if_neg hd, cfg.hwCpuIds_eq] at h
      change (List.ofFn cfg.hwId)[d.val]?.bind _ = some w' at h
      rw [cfg.getElem?_hwIds] at h
      cases h
      exact .sendIpi hstack hd

theorem Moves.of_runStep {calls : List (CpuSet × F)}
    (hstack : w.stack c = .run calls :: rest) (h : w.runStep c calls rest = some w') :
    Moves cfg w c w' := by
  cases calls with
  | nil =>
    cases h
    exact .runEnd hstack
  | cons call calls =>
    obtain ⟨ids, hids, rfl⟩ := World.begin_eq_some h
    exact .nested hstack hids

theorem Moves.of_waitStep (hstack : w.stack c = .wait :: rest)
    (h : w.waitStep c rest = some w') : Moves cfg w c w' := by
  unfold World.waitStep at h
  cases hfree : w.locked c with
  | true =>
    rw [hfree, if_pos rfl] at h
    cases h
  | false =>
    rw [hfree, if_neg Bool.false_ne_true] at h
    cases h
    exact .lock hstack hfree

theorem Moves.of_handleStep (hstack : w.stack c = .handle :: rest) :
    Moves cfg w c (World.handleStep cfg w c rest) := by
  unfold World.handleStep
  cases hqueue : w.queue c with
  | nil => exact .handleEnd hstack hqueue
  | cons f queue => exact .handle hstack hqueue

theorem Moves.of_advance (h : World.advance cfg w c = some w') : Moves cfg w c w' := by
  unfold World.advance at h
  cases hstack : w.stack c with
  | nil =>
    rw [hstack] at h
    cases h
  | cons fr rest =>
    rw [hstack] at h
    cases fr with
    | push f targets todo b => exact .of_pushStep hstack h
    | pushing f targets d todo b =>
      cases h
      exact .pushBack hstack
    | send f todo b => exact .of_sendStep hstack h
    | run calls => exact .of_runStep hstack h
    | wait => exact .of_waitStep hstack h
    | handle =>
      cases h
      exact .of_handleStep hstack

/-! ## What a CPU has yet to do -/

namespace Frame

/-- The calls that the CPU `c` has yet to put in a queue or to make itself. -/
def owes (c : Fin n) : Frame n F → List (Fin n × F)
  | .push f _ todo b => (todo.map fun d => (d, f)) ++ if b then [(c, f)] else []
  | .pushing f _ d todo b => ((d :: todo).map fun d => (d, f)) ++ if b then [(c, f)] else []
  | .send f _ b => if b then [(c, f)] else []
  | .run _ | .wait | .handle => []

/-- How often the CPU `c` has the lock of the queue of `d`. -/
def locks (c d : Fin n) : Frame n F → ℕ
  | .pushing _ _ d' _ _ => if d' = d then 1 else 0
  | .handle => if c = d then 1 else 0
  | .push .. | .send .. | .run _ | .wait => 0

/-- The CPU `c` will send an interrupt to `d`. -/
def Sends (c d : Fin n) : Frame n F → Prop
  | .push _ targets _ _ => d ∈ targets ∧ d ≠ c
  | .pushing _ targets _ _ _ => d ∈ targets ∧ d ≠ c
  | .send _ todo _ => d ∈ todo ∧ d ≠ c
  | .run _ | .wait | .handle => False

/-- The handler will look at the queue. -/
def Serves : Frame n F → Prop
  | .wait | .handle => True
  | .push .. | .pushing .. | .send .. | .run _ => False

/-- The CPUs of a loop are those of the set, each once. -/
def Ok (c : Fin n) : Frame n F → Prop
  | .push _ targets todo b => todo.Nodup ∧ todo ⊆ targets ∧ (b = true → c ∉ todo)
  | .pushing _ targets d todo b =>
      todo.Nodup ∧ todo ⊆ targets ∧ (b = true → c ∉ todo) ∧ d ∈ targets ∧ d ≠ c
  | .run calls => ∀ call ∈ calls, ∃ S, SetOK n call.1.bits S
  | .send .. | .wait | .handle => True

end Frame

def stackOwes (c : Fin n) (stack : List (Frame n F)) : Multiset (Fin n × F) :=
  (stack.map fun fr => (fr.owes c : Multiset (Fin n × F))).sum

def stackLocks (c d : Fin n) (stack : List (Frame n F)) : ℕ := (stack.map (Frame.locks c d)).sum

/-- Functions, as calls to one CPU. -/
def tagged (d : Fin n) (fs : List F) : Multiset (Fin n × F) :=
  Multiset.ofList (fs.map fun f => (d, f))

namespace World

/-- The functions that a CPU has called. -/
def ran (w : World n F) (c : Fin n) : List F := w.handled c ++ w.own c

def debt (w : World n F) : Multiset (Fin n × F) := ∑ c, stackOwes c (w.stack c)

def queued (w : World n F) : Multiset (Fin n × F) := ∑ d, tagged d (w.queue d)

def done (w : World n F) : Multiset (Fin n × F) := ∑ c, tagged c (w.ran c)

def holders (w : World n F) (d : Fin n) : ℕ := ∑ c, stackLocks c d (w.stack c)

/-- Someone will look at the queue of `d`. -/
def Looked (w : World n F) (d : Fin n) : Prop :=
  w.pending d = true ∨ (∃ fr ∈ w.stack d, fr.Serves) ∨ ∃ c, ∃ fr ∈ w.stack c, fr.Sends c d

end World

structure Inv (w : World n F) : Prop where
  frames : ∀ c, ∀ fr ∈ w.stack c, fr.Ok c
  conserved : w.asked = w.debt + w.queued + w.done
  locks : ∀ d, w.holders d = (w.locked d).toNat
  served : ∀ d, w.queue d ≠ [] → w.Looked d

/-! ## A change on one stack -/

section Changes

variable {new : List (Frame n F)} {w₁ : World n F}

theorem frames_setStack (h : ∀ c, ∀ fr ∈ w.stack c, fr.Ok c) (hstack : w₁.stack = w.stack)
    (hnew : ∀ fr ∈ new, fr.Ok c) : ∀ c', ∀ fr ∈ (w₁.setStack c new).stack c', fr.Ok c' := by
  intro c' fr hfr
  change fr ∈ update w₁.stack c new c' at hfr
  by_cases hc : c' = c
  · subst hc
    rw [update_self] at hfr
    exact hnew fr hfr
  · rw [update_of_ne hc, hstack] at hfr
    exact h c' fr hfr

theorem conserved_setStack (h : w.asked = w.debt + w.queued + w.done) (hstack : w₁.stack = w.stack)
    (hnew : w₁.asked + stackOwes c (w.stack c) + (w.queued + w.done) =
      w.asked + stackOwes c new + (w₁.queued + w₁.done)) :
    (w₁.setStack c new).asked =
      (w₁.setStack c new).debt + (w₁.setStack c new).queued + (w₁.setStack c new).done := by
  obtain ⟨others, hold, hupdate⟩ := exists_sum_eq stackOwes w.stack c
  change w₁.asked = (∑ j, stackOwes j (update w₁.stack c new j)) + w₁.queued + w₁.done
  rw [hstack, hupdate]
  refine add_left_cancel (a := stackOwes c (w.stack c) + (w.queued + w.done)) ?_
  calc stackOwes c (w.stack c) + (w.queued + w.done) + w₁.asked
      = w₁.asked + stackOwes c (w.stack c) + (w.queued + w.done) := by abel
    _ = others + stackOwes c (w.stack c) + w.queued + w.done + stackOwes c new +
          (w₁.queued + w₁.done) := by rw [hnew, h, World.debt, hold]
    _ = _ := by abel

theorem locks_setStack (h : ∀ d, w.holders d = (w.locked d).toNat) (hstack : w₁.stack = w.stack)
    (hnew : ∀ d, (w₁.locked d).toNat + stackLocks c d (w.stack c) =
      (w.locked d).toNat + stackLocks c d new) (d : Fin n) :
    (w₁.setStack c new).holders d = ((w₁.setStack c new).locked d).toNat := by
  obtain ⟨others, hold, hupdate⟩ := exists_sum_eq (fun c stack => stackLocks c d stack) w.stack c
  change (∑ j, stackLocks j d (update w₁.stack c new j)) = (w₁.locked d).toNat
  rw [hstack, hupdate]
  have hd := h d
  rw [World.holders, hold] at hd
  have := hnew d
  omega

/-- Who looks at a queue still does, if the CPU does not forget it with the frame that it
replaces. -/
theorem looked_setStack {d : Fin n} {fr : Frame n F} {rest : List (Frame n F)}
    (frs : List (Frame n F)) (h : w.Looked d) (hstack : w₁.stack = w.stack)
    (htop : w.stack c = fr :: rest) (hpending : w.pending d = true → w₁.pending d = true)
    (hserves : d = c → fr.Serves → ∃ fr' ∈ frs, fr'.Serves)
    (hsends : fr.Sends c d → w₁.pending d = true ∨ ∃ fr' ∈ frs, fr'.Sends c d) :
    (w₁.setStack c (frs ++ rest)).Looked d := by
  have hself : (w₁.setStack c (frs ++ rest)).stack c = frs ++ rest := update_self _ _ _
  have hother : ∀ {c'}, c' ≠ c → (w₁.setStack c (frs ++ rest)).stack c' = w.stack c' := by
    intro c' hc
    rw [← hstack]
    exact update_of_ne hc _ _
  rcases h with h | ⟨fr', hfr, h⟩ | ⟨c', fr', hfr, h⟩
  · exact Or.inl (hpending h)
  · right; left
    by_cases hd : d = c
    · subst hd
      rw [hself]
      rw [htop] at hfr
      rcases List.mem_cons.mp hfr with rfl | hfr
      · obtain ⟨fr', hfr', h'⟩ := hserves rfl h
        exact ⟨fr', List.mem_append_left _ hfr', h'⟩
      · exact ⟨fr', List.mem_append_right _ hfr, h⟩
    · rw [hother hd]
      exact ⟨fr', hfr, h⟩
  · by_cases hc : c' = c
    · subst hc
      rw [htop] at hfr
      rcases List.mem_cons.mp hfr with rfl | hfr
      · rcases hsends h with h' | ⟨fr', hfr', h'⟩
        · exact Or.inl h'
        · refine Or.inr (Or.inr ⟨c', fr', ?_, h'⟩)
          rw [hself]
          exact List.mem_append_left _ hfr'
      · refine Or.inr (Or.inr ⟨c', fr', ?_, h⟩)
        rw [hself]
        exact List.mem_append_right _ hfr
    · refine Or.inr (Or.inr ⟨c', fr', ?_, h⟩)
      rw [hother hc]
      exact hfr

end Changes

@[simp] theorem stackOwes_cons (c : Fin n) (fr : Frame n F) (rest : List (Frame n F)) :
    stackOwes c (fr :: rest) = (fr.owes c : Multiset (Fin n × F)) + stackOwes c rest := by
  rw [stackOwes, List.map_cons, List.sum_cons, stackOwes]

@[simp] theorem stackLocks_cons (c d : Fin n) (fr : Frame n F) (rest : List (Frame n F)) :
    stackLocks c d (fr :: rest) = fr.locks c d + stackLocks c d rest := by
  rw [stackLocks, List.map_cons, List.sum_cons, stackLocks]

theorem World.queued_setQueue (w : World n F) (d : Fin n) (queue : List F) :
    (w.setQueue d queue).queued + tagged d (w.queue d) = w.queued + tagged d queue := by
  obtain ⟨others, hold, hupdate⟩ := exists_sum_eq tagged w.queue d
  have hnew : (w.setQueue d queue).queued = _ := hupdate queue
  rw [hnew, queued, hold]
  abel

theorem tagged_cons (d : Fin n) (f : F) (fs : List F) :
    tagged d (f :: fs) = {(d, f)} + tagged d fs := rfl

theorem tagged_perm (d : Fin n) {fs fs' : List F} (h : fs.Perm fs') : tagged d fs = tagged d fs' :=
  Multiset.coe_eq_coe.mpr (h.map _)

/-- A CPU has called one more function. -/
theorem World.done_eq {w₁ : World n F} (hself : (w₁.ran c).Perm (f :: w.ran c))
    (hother : ∀ c', c' ≠ c → w₁.ran c' = w.ran c') : w₁.done = {(c, f)} + w.done := by
  have hsum : ∀ w : World n F, w.done =
      tagged c (w.ran c) + ∑ c' ∈ Finset.univ.erase c, tagged c' (w.ran c') :=
    fun w => (Finset.add_sum_erase _ _ (Finset.mem_univ c)).symm
  rw [hsum w₁, hsum w, tagged_perm c hself, tagged_cons, add_assoc]
  refine congrArg₂ _ rfl (congrArg₂ _ rfl (Finset.sum_congr rfl fun c' hc' => ?_))
  rw [hother c' (Finset.ne_of_mem_erase hc')]

namespace Inv

variable {fr fr' : Frame n F} {rest : List (Frame n F)}

theorem rest_ok (h : Inv w) (hstack : w.stack c = fr :: rest) : ∀ fr' ∈ rest, fr'.Ok c :=
  fun fr' hfr' => h.frames c fr' (hstack ▸ List.mem_cons_of_mem _ hfr')

theorem top_ok (h : Inv w) (hstack : w.stack c = fr :: rest) : fr.Ok c :=
  h.frames c fr (hstack ▸ List.mem_cons_self)

/-- The frame on top changes, and nothing with it that others see. -/
theorem replace (h : Inv w) (hstack : w.stack c = fr :: rest) (hok : fr'.Ok c)
    (howes : (fr'.owes c).Perm (fr.owes c)) (hlocks : ∀ d, fr'.locks c d = fr.locks c d)
    (hserves : fr.Serves → fr'.Serves) (hsends : ∀ d, fr.Sends c d → fr'.Sends c d) :
    Inv (w.setStack c (fr' :: rest)) := by
  refine ⟨frames_setStack h.frames rfl ?_, conserved_setStack h.conserved rfl ?_,
    locks_setStack h.locks rfl fun d => ?_, fun d hd => ?_⟩
  · exact List.forall_mem_cons.mpr ⟨hok, h.rest_ok hstack⟩
  · rw [hstack, stackOwes_cons, stackOwes_cons, Multiset.coe_eq_coe.mpr howes]
  · rw [hstack, stackLocks_cons, stackLocks_cons, hlocks]
  · exact looked_setStack [fr'] (h.served d hd) rfl hstack id
      (fun _ hs => ⟨fr', List.mem_singleton_self _, hserves hs⟩)
      (fun hs => Or.inr ⟨fr', List.mem_singleton_self _, hsends d hs⟩)

/-- The frame on top is done. -/
theorem drop (h : Inv w) (hstack : w.stack c = fr :: rest) (howes : fr.owes c = [])
    (hlocks : ∀ d, fr.locks c d = 0) (hserves : ¬fr.Serves) (hsends : ∀ d, ¬fr.Sends c d) :
    Inv (w.setStack c rest) := by
  refine ⟨frames_setStack h.frames rfl (h.rest_ok hstack), conserved_setStack h.conserved rfl ?_,
    locks_setStack h.locks rfl fun d => ?_, fun d hd => ?_⟩
  · rw [hstack, stackOwes_cons, howes, Multiset.coe_nil, zero_add]
  · rw [hstack, stackLocks_cons, hlocks, zero_add]
  · exact looked_setStack [] (h.served d hd) rfl hstack id (fun _ hs => (hserves hs).elim)
      (fun hs => (hsends d hs).elim)

theorem irq (h : Inv w) (hstack : w.stack c = []) :
    Inv ({ w with pending := update w.pending c false }.setStack c [.wait]) := by
  refine ⟨frames_setStack h.frames rfl ?_, conserved_setStack h.conserved rfl ?_,
    locks_setStack h.locks rfl fun d => ?_, fun d hd => ?_⟩
  · exact List.forall_mem_singleton.mpr trivial
  · rw [hstack]
    rfl
  · rw [hstack]
    rfl
  · by_cases hdc : d = c
    · subst hdc
      exact Or.inr (Or.inl ⟨.wait, by
        change _ ∈ update w.stack d [.wait] d
        rw [update_self]
        exact List.mem_singleton_self _, trivial⟩)
    · rcases h.served d hd with hp | ⟨fr, hfr, hs⟩ | ⟨c', fr, hfr, hs⟩
      · left
        change update w.pending c false d = true
        rwa [update_of_ne hdc]
      · refine Or.inr (Or.inl ⟨fr, ?_, hs⟩)
        change fr ∈ update w.stack c _ d
        rwa [update_of_ne hdc]
      · refine Or.inr (Or.inr ⟨c', fr, ?_, hs⟩)
        change fr ∈ update w.stack c _ c'
        rw [update_of_ne]
        · exact hfr
        · rintro rfl
          rw [hstack] at hfr
          cases hfr

/-- A call begins. -/
theorem begin (h : Inv w) {new : List (Frame n F)} {f : F} {ids : List (Fin n)} (hids : ids.Nodup)
    (hframes : ∀ fr ∈ new, fr.Ok c) (howes : stackOwes c new = stackOwes c (w.stack c))
    (hlocks : ∀ d, stackLocks c d new = stackLocks c d (w.stack c))
    (hlooked : ∀ d, w.Looked d → ({ w with asked := w.asked +
      (ids.map fun d => (d, f) : List (Fin n × F)) }.setStack c
        (.push f ids ids false :: new)).Looked d) :
    Inv ({ w with asked := w.asked + (ids.map fun d => (d, f) : List (Fin n × F)) }.setStack c
      (.push f ids ids false :: new)) := by
  refine ⟨frames_setStack h.frames rfl ?_, conserved_setStack h.conserved rfl ?_,
    locks_setStack h.locks rfl fun d => ?_, fun d hd => hlooked d (h.served d hd)⟩
  · exact List.forall_mem_cons.mpr ⟨⟨hids, List.Subset.refl _, nofun⟩, hframes⟩
  · rw [stackOwes_cons, howes]
    change w.asked + Multiset.ofList _ + _ + (w.queued + w.done) =
      w.asked + (Multiset.ofList (ids.map _ ++ []) + _) + (w.queued + w.done)
    rw [List.append_nil]
    abel
  · rw [stackLocks_cons, hlocks]
    exact congrArg _ (zero_add _).symm

/-- The lock of a queue is taken with a new frame on top. -/
theorem lock (h : Inv w) {d : Fin n} (hstack : w.stack c = fr :: rest) (hfree : w.locked d = false)
    (hok : fr'.Ok c) (howes : fr'.owes c = fr.owes c)
    (hlocks : ∀ d', fr'.locks c d' = fr.locks c d' + if d' = d then 1 else 0)
    (hserves : fr.Serves → fr'.Serves) (hsends : ∀ d, fr.Sends c d → fr'.Sends c d) :
    Inv ((w.setLocked d true).setStack c (fr' :: rest)) := by
  refine ⟨frames_setStack h.frames rfl ?_, conserved_setStack h.conserved rfl ?_,
    locks_setStack h.locks rfl fun d' => ?_, fun d' hd' => ?_⟩
  · exact List.forall_mem_cons.mpr ⟨hok, h.rest_ok hstack⟩
  · rw [hstack, stackOwes_cons, stackOwes_cons, howes]
    rfl
  · rw [hstack, stackLocks_cons, stackLocks_cons, hlocks]
    change (update w.locked d true d').toNat + _ = _
    by_cases hd : d' = d
    · subst hd
      rw [update_self, hfree, if_pos rfl]
      change 1 + _ = 0 + _
      omega
    · rw [update_of_ne hd, if_neg hd, add_zero]
  · exact looked_setStack [fr'] (h.served d' hd') rfl hstack id
      (fun _ hs => ⟨fr', List.mem_singleton_self _, hserves hs⟩)
      (fun hs => Or.inr ⟨fr', List.mem_singleton_self _, hsends d' hs⟩)

/-- Who has a lock can give it back. -/
theorem toNat_unlock (h : Inv w) {d : Fin n} (hstack : w.stack c = fr :: rest)
    (hholds : ∀ d', fr.locks c d' = if d' = d then 1 else 0) (d' : Fin n) :
    (update w.locked d false d').toNat + fr.locks c d' = (w.locked d').toNat := by
  rw [hholds]
  by_cases hd : d' = d
  · subst hd
    have hle : stackLocks c d' (w.stack c) ≤ w.holders d' :=
      Finset.single_le_sum (f := fun c => stackLocks c d' (w.stack c)) (fun _ _ => Nat.zero_le _)
        (Finset.mem_univ c)
    rw [hstack, stackLocks_cons, hholds, if_pos rfl, h.locks] at hle
    have htrue := Bool.toNat_le (w.locked d')
    rw [update_self, if_pos rfl]
    change 0 + 1 = _
    omega
  · rw [update_of_ne hd, if_neg hd, add_zero]

theorem pushBack (h : Inv w) {f : F} {targets todo : List (Fin n)} {d : Fin n} {b : Bool}
    (hstack : w.stack c = .pushing f targets d todo b :: rest) :
    Inv (w.pushBack c f targets d todo b rest) := by
  obtain ⟨hnodup, hsub, hself, hmem, hd⟩ := h.top_ok hstack
  have hunlock := h.toNat_unlock (d := d) hstack fun d' => by
    change (if d = d' then 1 else 0) = _
    exact if_congr eq_comm rfl rfl
  refine ⟨frames_setStack h.frames rfl ?_, conserved_setStack h.conserved rfl ?_,
    locks_setStack h.locks rfl fun d' => ?_, fun d' hd' => ?_⟩
  · exact List.forall_mem_cons.mpr ⟨⟨hnodup, hsub, hself⟩, h.rest_ok hstack⟩
  · have hqueued := w.queued_setQueue d (w.queue d ++ [f])
    rw [tagged_perm d (List.perm_append_singleton f (w.queue d)), tagged_cons, ← add_assoc]
      at hqueued
    have hqueued := add_right_cancel hqueued
    rw [hstack, stackOwes_cons, stackOwes_cons]
    change w.asked + ({(d, f)} + Multiset.ofList (Frame.owes c (.push f targets todo b)) + _) +
      (w.queued + w.done) = w.asked + _ + ((w.setQueue d (w.queue d ++ [f])).queued + w.done)
    rw [hqueued]
    abel
  · rw [hstack, stackLocks_cons, stackLocks_cons, ← hunlock d']
    change _ = _ + (0 + _)
    change (update w.locked d false d').toNat + _ = _
    omega
  · by_cases hdd : d' = d
    · subst hdd
      -- the caller has yet to send the interrupt
      refine Or.inr (Or.inr ⟨c, .push f targets todo b, ?_, hmem, hd⟩)
      change _ ∈ update w.stack c _ c
      rw [update_self]
      exact List.mem_cons_self
    · change update w.queue d _ d' ≠ [] at hd'
      rw [update_of_ne hdd] at hd'
      exact looked_setStack [.push f targets todo b] (h.served d' hd') rfl hstack id
        (fun _ hs => hs.elim) (fun hs => Or.inr ⟨_, List.mem_singleton_self _, hs⟩)

theorem sendSelf (h : Inv w) (cfg : Setting n F) {f : F}
    (hstack : w.stack c = .send f [] true :: rest) :
    Inv ({ w with own := update w.own c (w.own c ++ [f]) }.setStack c
      (.run (cfg.body f) :: rest)) := by
  refine ⟨frames_setStack h.frames rfl ?_, conserved_setStack h.conserved rfl ?_,
    locks_setStack h.locks rfl fun d => ?_, fun d hd => ?_⟩
  · exact List.forall_mem_cons.mpr ⟨cfg.valid f, h.rest_ok hstack⟩
  · have hdone : World.done { w with own := update w.own c (w.own c ++ [f]) } =
        {(c, f)} + w.done := by
      refine World.done_eq ?_ fun c' hc' => ?_
      · change (w.handled c ++ update w.own c (w.own c ++ [f]) c).Perm _
        rw [update_self, ← List.append_assoc]
        exact List.perm_append_singleton f _
      · change w.handled c' ++ update w.own c (w.own c ++ [f]) c' = _
        rw [update_of_ne hc']
        rfl
    rw [hstack, stackOwes_cons, stackOwes_cons, hdone]
    change w.asked + ({(c, f)} + _) + _ = w.asked + (0 + _) + (w.queued + _)
    abel
  · rw [hstack, stackLocks_cons, stackLocks_cons]
    rfl
  · exact looked_setStack [.run (cfg.body f)] (h.served d hd) rfl hstack id (fun _ hs => hs.elim)
      (fun hs => (List.not_mem_nil hs.1).elim)

theorem sendIpi (h : Inv w) (cfg : Setting n F) {f : F} {todo : List (Fin n)} {d : Fin n} {b : Bool}
    (hstack : w.stack c = .send f (d :: todo) b :: rest) :
    Inv ((w.sendIpi cfg (cfg.hwId d)).setStack c (.send f todo b :: rest)) := by
  refine ⟨frames_setStack h.frames rfl ?_, conserved_setStack h.conserved rfl ?_,
    locks_setStack h.locks rfl fun d' => ?_, fun d' hd' => ?_⟩
  · exact List.forall_mem_cons.mpr ⟨trivial, h.rest_ok hstack⟩
  · rw [hstack, stackOwes_cons, stackOwes_cons]
    rfl
  · rw [hstack, stackLocks_cons, stackLocks_cons]
    rfl
  · refine looked_setStack [.send f todo b] (h.served d' hd') rfl hstack ?_ (fun _ hs => hs.elim) ?_
    · intro hp
      change (w.pending d' || decide (cfg.hwId d' = cfg.hwId d)) = true
      rw [hp, Bool.true_or]
    · rintro ⟨hmem, hne⟩
      rcases List.mem_cons.mp hmem with rfl | hmem
      · left
        change (w.pending d' || decide (cfg.hwId d' = cfg.hwId d')) = true
        rw [decide_eq_true rfl, Bool.or_true]
      · exact Or.inr ⟨_, List.mem_singleton_self _, hmem, hne⟩

theorem handleEnd (h : Inv w) (hstack : w.stack c = .handle :: rest) (hqueue : w.queue c = []) :
    Inv ((w.setLocked c false).setStack c rest) := by
  have hunlock := h.toNat_unlock (d := c) hstack fun d' => by
    change (if c = d' then 1 else 0) = _
    exact if_congr eq_comm rfl rfl
  refine ⟨frames_setStack h.frames rfl (h.rest_ok hstack), conserved_setStack h.conserved rfl ?_,
    locks_setStack h.locks rfl fun d' => ?_, fun d hd => ?_⟩
  · rw [hstack, stackOwes_cons]
    change w.asked + (0 + _) + _ = _ + _ + (w.queued + w.done)
    rw [zero_add]
  · rw [hstack, stackLocks_cons, ← hunlock d']
    change (update w.locked c false d').toNat + _ = _
    omega
  · have hdc : d ≠ c := by
      rintro rfl
      exact hd hqueue
    exact looked_setStack [] (h.served d hd) rfl hstack id (fun heq => (hdc heq).elim)
      (fun hs => hs.elim)

theorem handle (h : Inv w) (cfg : Setting n F) {f : F} {queue : List F}
    (hstack : w.stack c = .handle :: rest) (hqueue : w.queue c = f :: queue) :
    Inv (({ w with handled := update w.handled c (w.handled c ++ [f]) }.setQueue
      c queue).setStack c (.run (cfg.body f) :: .handle :: rest)) := by
  refine ⟨frames_setStack h.frames rfl ?_, conserved_setStack h.conserved rfl ?_,
    locks_setStack h.locks rfl fun d => ?_, fun d hd => ?_⟩
  · exact List.forall_mem_cons.mpr
      ⟨cfg.valid f, List.forall_mem_cons.mpr ⟨trivial, h.rest_ok hstack⟩⟩
  · have hdone : World.done { w with handled := update w.handled c (w.handled c ++ [f]) } =
        {(c, f)} + w.done := by
      refine World.done_eq ?_ fun c' hc' => ?_
      · change (update w.handled c (w.handled c ++ [f]) c ++ w.own c).Perm _
        rw [update_self, List.append_assoc]
        exact List.perm_middle
      · change update w.handled c (w.handled c ++ [f]) c' ++ w.own c' = _
        rw [update_of_ne hc']
        rfl
    have hqueued := w.queued_setQueue c queue
    rw [hqueue, tagged_cons, ← add_assoc] at hqueued
    have hqueued := add_right_cancel hqueued
    rw [hstack, stackOwes_cons]
    change w.asked + (0 + stackOwes c rest) + (w.queued + w.done) =
      w.asked + (0 + (0 + stackOwes c rest)) + ((w.setQueue c queue).queued +
        World.done { w with handled := update w.handled c (w.handled c ++ [f]) })
    rw [hdone, ← hqueued]
    abel
  · rw [hstack, stackLocks_cons, stackLocks_cons, stackLocks_cons]
    change (w.locked d).toNat + _ = (w.locked d).toNat + (0 + _)
    omega
  · have hd' : w.queue d ≠ [] := by
      by_cases hdc : d = c
      · subst hdc
        rw [hqueue]
        exact List.cons_ne_nil _ _
      · change update w.queue c queue d ≠ [] at hd
        rwa [update_of_ne hdc] at hd
    exact looked_setStack [.run (cfg.body f), .handle] (h.served d hd') rfl hstack id
      (fun _ _ => ⟨.handle, List.mem_cons_of_mem _ (List.mem_singleton_self _), trivial⟩)
      (fun hs => hs.elim)

/-- **One step of a CPU.** -/
theorem moves (h : Inv w) (hmoves : Moves cfg w c w') : Inv w' := by
  cases hmoves with
  | irq hstack hpending => exact h.irq hstack
  | pushEnd hstack =>
    exact h.replace hstack trivial (List.Perm.refl _) (fun _ => rfl) id (fun _ hs => hs)
  | @pushSelf f targets todo b rest hstack =>
    obtain ⟨hnodup, hsub, hself⟩ := h.top_ok hstack
    obtain ⟨hc, hnodup⟩ := List.nodup_cons.mp hnodup
    refine h.replace hstack ⟨hnodup, fun d hd => hsub (List.mem_cons_of_mem _ hd), fun _ => hc⟩ ?_
      (fun _ => rfl) id (fun _ hs => hs)
    -- the CPU was not met before
    cases b with
    | true => exact (hself rfl List.mem_cons_self).elim
    | false =>
      change ((todo.map fun d => (d, f)) ++ [(c, f)]).Perm
        ((c, f) :: (todo.map fun d => (d, f)) ++ [])
      rw [List.append_nil]
      exact List.perm_append_singleton _ _
  | pushLock hstack hd hfree =>
    obtain ⟨hnodup, hsub, hself⟩ := h.top_ok hstack
    obtain ⟨-, hnodup⟩ := List.nodup_cons.mp hnodup
    refine h.lock hstack hfree ⟨hnodup, fun d hd => hsub (List.mem_cons_of_mem _ hd),
      fun hb hc => hself hb (List.mem_cons_of_mem _ hc), hsub List.mem_cons_self, hd⟩ rfl
      (fun d' => ?_) id (fun _ hs => hs)
    rw [if_congr (eq_comm (a := d')) rfl rfl]
    exact (zero_add _).symm
  | pushBack hstack => exact h.pushBack hstack
  | sendEnd hstack =>
    exact h.drop hstack rfl (fun _ => rfl) id (fun _ hs => List.not_mem_nil hs.1)
  | sendSelf hstack => exact h.sendSelf cfg hstack
  | sendSkip hstack =>
    refine h.replace hstack trivial (List.Perm.refl _) (fun _ => rfl) id fun d hs => ⟨?_, hs.2⟩
    exact (List.mem_cons.mp hs.1).resolve_left hs.2
  | sendIpi hstack hd => exact h.sendIpi cfg hstack
  | runEnd hstack => exact h.drop hstack rfl (fun _ => rfl) id (fun _ hs => hs)
  | @nested call calls ids rest hstack hids =>
    have hok := h.top_ok hstack
    obtain ⟨S, hS⟩ := hok call List.mem_cons_self
    obtain ⟨ids', hids', hnodup, -⟩ := targetsOf_eq hS cfg.lt
    obtain rfl := Except.ok.inj (hids.symm.trans hids')
    refine h.begin hnodup ?_ ?_ (fun d => ?_) fun d hd => ?_
    · exact List.forall_mem_cons.mpr
        ⟨fun call hcall => hok call (List.mem_cons_of_mem _ hcall), h.rest_ok hstack⟩
    · rw [hstack, stackOwes_cons, stackOwes_cons]
      rfl
    · rw [hstack, stackLocks_cons, stackLocks_cons]
      rfl
    · exact looked_setStack [.push call.2 ids ids false, .run calls] hd rfl hstack id
        (fun _ hs => hs.elim) (fun hs => hs.elim)
  | lock hstack hfree =>
    refine h.lock hstack hfree trivial rfl (fun d' => ?_) (fun _ => trivial) (fun _ hs => hs)
    rw [if_congr (eq_comm (a := d')) rfl rfl]
    exact (zero_add _).symm
  | handleEnd hstack hqueue => exact h.handleEnd hstack hqueue
  | handle hstack hqueue => exact h.handle cfg hstack hqueue

theorem callStep (h : Inv w) (hn : n < 2 ^ 32) {targets : CpuSet} {S : Finset ℕ} {f : F}
    (hS : SetOK n targets.bits S) (hcall : w.callStep c targets f = some w') : Inv w' := by
  unfold World.callStep at hcall
  cases hstack : w.stack c with
  | cons fr rest =>
    rw [hstack] at hcall
    cases hcall
  | nil =>
    rw [hstack] at hcall
    obtain ⟨ids, hids, rfl⟩ := World.begin_eq_some hcall
    obtain ⟨ids', hids', hnodup, -⟩ := targetsOf_eq hS hn
    obtain rfl := Except.ok.inj (hids.symm.trans hids')
    refine h.begin hnodup (fun fr hfr => nomatch hfr) (by rw [hstack]) (fun d => by rw [hstack])
      fun d hd => ?_
    have hother : ∀ {c'}, w.stack c' ≠ [] → c' ≠ c := by
      rintro c' hne rfl
      exact hne hstack
    rcases hd with hp | ⟨fr, hfr, hs⟩ | ⟨c', fr, hfr, hs⟩
    · exact Or.inl hp
    · refine Or.inr (Or.inl ⟨fr, ?_, hs⟩)
      change fr ∈ update w.stack c _ d
      rwa [update_of_ne (hother (List.ne_nil_of_mem hfr))]
    · refine Or.inr (Or.inr ⟨c', fr, ?_, hs⟩)
      change fr ∈ update w.stack c _ c'
      rwa [update_of_ne (hother (List.ne_nil_of_mem hfr))]

theorem start : Inv (World.start : World n F) where
  frames := fun _ _ hfr => nomatch hfr
  conserved := by
    have hdebt : (World.start : World n F).debt = 0 := Finset.sum_eq_zero fun _ _ => rfl
    have hqueued : (World.start : World n F).queued = 0 := Finset.sum_eq_zero fun _ _ => rfl
    have hdone : (World.start : World n F).done = 0 := Finset.sum_eq_zero fun _ _ => rfl
    rw [hdebt, hqueued, hdone]
    rfl
  locks := fun _ => Finset.sum_eq_zero fun _ _ => rfl
  served := fun _ hd => (hd rfl).elim

/-- **The invariant holds in every run.** -/
theorem of_reachable (h : (system cfg).Reachable w) : Inv w := by
  refine System.invariant (fun w hw => hw ▸ start) (fun w a w' _ hinv hstep => ?_) h
  obtain ⟨hpossible, hnext⟩ := hstep
  cases a with
  | call c targets f =>
    obtain ⟨S, hS⟩ := hpossible
    exact hinv.callStep cfg.lt hS hnext
  | irq c => exact hinv.moves (Moves.of_irqStep hnext : Moves cfg w c w')
  | step c => exact hinv.moves (.of_advance hnext)

end Inv

/-! ## Every call is made once -/

namespace World

/-- No CPU is in a call, and none has the interrupt. -/
def Quiet (w : World n F) : Prop := ∀ c, w.stack c = [] ∧ w.pending c = false

theorem count_done [DecidableEq F] (w : World n F) (c : Fin n) (f : F) :
    w.done.count (c, f) = (w.ran c).count f := by
  have hinj : Function.Injective fun f : F => (c, f) := Prod.mk_right_injective c
  have hself : (tagged c (w.ran c)).count (c, f) = (w.ran c).count f := by
    rw [tagged, ← Multiset.map_coe, Multiset.count_map_eq_count' _ _ hinj, Multiset.coe_count]
  have hother : ∀ c' ∈ Finset.univ.erase c, (tagged c' (w.ran c')).count (c, f) = 0 := by
    intro c' hc'
    refine Multiset.count_eq_zero.mpr fun hmem => ?_
    obtain ⟨f', -, heq⟩ := List.mem_map.mp (Multiset.mem_coe.mp hmem)
    exact Finset.ne_of_mem_erase hc' (congrArg Prod.fst heq)
  rw [done, Multiset.count_sum', ← Finset.add_sum_erase _ _ (Finset.mem_univ c), hself,
    Finset.sum_eq_zero hother, add_zero]

theorem Quiet.debt_eq (h : w.Quiet) : w.debt = 0 :=
  Finset.sum_eq_zero fun c _ => by rw [(h c).1]; rfl

theorem Quiet.queue_eq (h : w.Quiet) (hinv : Inv w) (d : Fin n) : w.queue d = [] := by
  by_contra hne
  rcases hinv.served d hne with hp | ⟨fr, hfr, -⟩ | ⟨c, fr, hfr, -⟩
  · rw [(h d).2] at hp
    cases hp
  · rw [(h d).1] at hfr
    cases hfr
  · rw [(h c).1] at hfr
    cases hfr

theorem Quiet.queued_eq (h : w.Quiet) (hinv : Inv w) : w.queued = 0 :=
  Finset.sum_eq_zero fun d _ => by rw [h.queue_eq hinv d]; rfl

end World

theorem Inv.count_asked [DecidableEq F] (h : Inv w) (c : Fin n) (f : F) :
    w.asked.count (c, f) = w.debt.count (c, f) + w.queued.count (c, f) + (w.ran c).count f := by
  rw [h.conserved, Multiset.count_add, Multiset.count_add, World.count_done]

theorem Inv.count_ran_eq [DecidableEq F] (h : Inv w) (hquiet : w.Quiet) (c : Fin n) (f : F) :
    (w.ran c).count f = w.asked.count (c, f) := by
  rw [h.count_asked, hquiet.debt_eq, hquiet.queued_eq h, Multiset.count_zero, zero_add, zero_add]

/-- **Every call is made once.**  In every run, whatever the order of the steps and however
interrupts fall together, a CPU has called a function at most as often as that was asked for, and
exactly as often once no CPU is in a call and no interrupt is left. -/
theorem calls_exact [DecidableEq F] (h : (system cfg).Reachable w) (c : Fin n) (f : F) :
    (w.ran c).count f ≤ w.asked.count (c, f) ∧
      (w.Quiet → (w.ran c).count f = w.asked.count (c, f)) := by
  have hinv := Inv.of_reachable h
  refine ⟨?_, fun hquiet => hinv.count_ran_eq hquiet c f⟩
  rw [hinv.count_asked]
  exact Nat.le_add_left _ _

end

theorem two_lt : 2 < 2 ^ 32 := by decide

/-- Two CPUs, the second of which comes up first. -/
def pair : Setting 2 Unit where
  hwId := fun c => c.val + 4
  order := [1, 0]
  perm := List.Perm.swap 0 1 []
  lt := two_lt
  body := fun _ => []
  valid := fun _ _ h => nomatch h

/-- A set that one of the two is added to. -/
theorem setOK_single {id : ℕ} (hid : id < 2) {s : CpuSet}
    (hs : CpuSetRecipe.build 2 ⟨.newEmpty, [.add id]⟩ = .ok s) : SetOK 2 s.bits {id} := by
  have hvalid : CpuSetRecipe.Valid (fun k => k = .newEmpty) 2 ⟨.newEmpty, [.add id]⟩ :=
    ⟨rfl, fun op hop => by cases List.mem_singleton.mp hop; exact hid⟩
  obtain ⟨s', hs', hok⟩ := (post_build nofun hvalid).exists_ok
  obtain rfl := Except.ok.inj (hs.symm.trans hs')
  exact hok

/-- The first CPU calls the second one. -/
theorem calls_exact_pair : ∃ w, (system pair).Reachable w ∧ w.Quiet ∧ w.ran 1 = [()] ∧
    (w.ran 1).count () = w.asked.count (1, ()) := by
  obtain ⟨w, hreach, hw⟩ := System.exists_of_runAll_of_mem (system pair) (next pair)
    [.call 0 ⟨[2#64]⟩ (), .step 0, .step 0, .step 0, .step 0, .step 0, .irq 1, .step 1, .step 1,
      .step 1, .step 1]
    (fun w => (w.stack 0).isEmpty && (w.stack 1).isEmpty && !w.pending 0 && !w.pending 1 &&
      decide (w.ran 1 = [()]))
    (by
      intro a ha w w' hnext
      refine ⟨?_, hnext⟩
      cases a with
      | call c targets f =>
        simp only [List.mem_cons, Act.call.injEq, List.not_mem_nil, reduceCtorEq, or_false] at ha
        obtain ⟨-, rfl, -⟩ := ha
        exact ⟨_, setOK_single Nat.one_lt_two rfl⟩
      | irq c => trivial
      | step c => trivial) (.init rfl) (by decide)
  simp only [Bool.and_eq_true, List.isEmpty_iff, Bool.not_eq_true', decide_eq_true_eq] at hw
  obtain ⟨⟨⟨⟨h0, h1⟩, hp0⟩, hp1⟩, hran⟩ := hw
  have hquiet : w.Quiet := Fin.forall_fin_two.mpr ⟨⟨h0, hp0⟩, h1, hp1⟩
  exact ⟨w, hreach, hquiet, hran, (calls_exact hreach 1 ()).2 hquiet⟩

end Vostd.Smp
