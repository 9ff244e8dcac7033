/-
# Calls come to an end

A function that is called on another CPU should be short.  If the functions make no calls of their
own, the protocol ends: every step brings the end nearer (`weight`), and as long as a function has
not been called, some CPU can take a step, since who has a lock never waits (`Flat`).

If functions do make calls, two CPUs can wait for each other for ever: the handler keeps the lock
of its queue while it calls a function, and the function waits for the lock of the other queue.
-/
import Vostd.Smp.Invariant

namespace Vostd.Smp

open Function

variable {n : ℕ} {F : Type} {cfg : Setting n F} {w w' : World n F} {c : Fin n}

/-! ## Functions without calls -/

/-- The stack of a CPU when no function makes calls. -/
def Flat : List (Frame n F) → Prop
  | [] => True
  | [.run calls] => calls = []
  | [_] => True
  | [.run calls, .handle] => calls = []
  | _ => False

theorem Flat.rest {fr : Frame n F} {rest : List (Frame n F)} (h : Flat (fr :: rest)) :
    rest = [] ∨ (rest = [.handle] ∧ fr = .run []) := by
  cases rest with
  | nil => exact Or.inl rfl
  | cons fr' rest =>
    cases rest with
    | nil =>
      cases fr with
      | run calls =>
        cases fr' with
        | handle =>
          change calls = [] at h
          exact Or.inr ⟨rfl, by rw [h]⟩
        | _ => exact h.elim
      | _ => exact h.elim
    | cons _ _ =>
      cases fr with
      | run calls => cases fr' <;> exact h.elim
      | _ => exact h.elim

theorem flat_setStack {w₁ : World n F} {new : List (Frame n F)} (h : ∀ c, Flat (w.stack c))
    (hstack : w₁.stack = w.stack) (hnew : Flat new) (c' : Fin n) :
    Flat ((w₁.setStack c new).stack c') := by
  change Flat (update w₁.stack c new c')
  by_cases hc : c' = c
  · subst hc
    rwa [update_self]
  · rw [update_of_ne hc, hstack]
    exact h c'

theorem Flat.moves (hbody : ∀ f, cfg.body f = []) (h : ∀ c, Flat (w.stack c))
    (hmoves : Moves cfg w c w') : ∀ c', Flat (w'.stack c') := by
  -- only a function has another frame below it
  have hrest : ∀ {fr : Frame n F} {rest : List (Frame n F)}, w.stack c = fr :: rest →
      fr ≠ .run [] → rest = [] := by
    intro fr rest hstack hfr
    rcases (hstack ▸ h c : Flat (fr :: rest)).rest with hnil | ⟨-, hrun⟩
    · exact hnil
    · exact (hfr hrun).elim
  cases hmoves with
  | irq hstack hpending => exact flat_setStack h rfl trivial
  | pushEnd hstack | pushSelf hstack | pushLock hstack hd hfree | pushBack hstack | sendEnd hstack
  | sendSkip hstack | sendIpi hstack hd | lock hstack hfree | handleEnd hstack hqueue =>
    rw [hrest hstack nofun]
    exact flat_setStack h rfl trivial
  | sendSelf hstack =>
    rw [hrest hstack nofun]
    exact flat_setStack h rfl (hbody _)
  | runEnd hstack =>
    rcases (hstack ▸ h c : Flat (_ :: _)).rest with rfl | ⟨rfl, -⟩
    · exact flat_setStack h rfl trivial
    · exact flat_setStack h rfl trivial
  | nested hstack hids =>
    have hflat := h c
    rw [hstack] at hflat
    rcases hflat.rest with rfl | ⟨rfl, hrun⟩
    · cases (hflat : _ :: _ = [])
    · cases hrun
  | handle hstack hqueue =>
    rw [hrest hstack nofun]
    exact flat_setStack h rfl (hbody _)

theorem Flat.of_reachable (hbody : ∀ f, cfg.body f = []) (h : (system cfg).Reachable w) :
    ∀ c, Flat (w.stack c) := by
  refine System.invariant (I := fun w => ∀ c, Flat (w.stack c)) (fun w hw => ?_)
    (fun w a w' _ hflat hstep => ?_) h
  · subst hw
    exact fun _ => trivial
  · cases a with
    | call c targets f =>
      have hcall : w.callStep c targets f = some w' := hstep.2
      unfold World.callStep at hcall
      cases hstack : w.stack c with
      | nil =>
        rw [hstack] at hcall
        obtain ⟨ids, -, rfl⟩ := World.begin_eq_some hcall
        exact flat_setStack hflat rfl trivial
      | cons fr rest =>
        rw [hstack] at hcall
        cases hcall
    | irq c => exact Flat.moves hbody hflat (.of_irqStep hstep.2)
    | step c => exact Flat.moves hbody hflat (.of_advance hstep.2)

/-! ## Some CPU can go on -/

/-- What is left to do, at most. -/
def Frame.weight : Frame n F → ℕ
  | .push _ targets todo _ => 4 * todo.length + (3 * n + 1) * targets.length + 3
  | .pushing _ targets _ todo _ => 4 * todo.length + (3 * n + 1) * targets.length + 6
  | .send _ todo _ => (3 * n + 1) * todo.length + 2
  | .run _ => 1
  | .wait => 2
  | .handle => 1

def stackWeight (stack : List (Frame n F)) : ℕ := (stack.map Frame.weight).sum

def World.weight (w : World n F) : ℕ :=
  total stackWeight w.stack + total (fun queue => 2 * queue.length) w.queue +
    total (fun p => 3 * p.toNat) w.pending

/-- One step of a CPU, as a relation from the later world to the earlier one. -/
def Goes (cfg : Setting n F) (w' w : World n F) : Prop :=
  ∃ c, w.irqStep c = some w' ∨ World.advance cfg w c = some w'

theorem Goes.moves (h : Goes cfg w' w) : ∃ c, Moves cfg w c w' := by
  obtain ⟨c, h | h⟩ := h
  · exact ⟨c, .of_irqStep h⟩
  · exact ⟨c, .of_advance h⟩

/-- Every move is a step of the code. -/
theorem Moves.step (h : Moves cfg w c w') : ∃ a, (system cfg).step w a w' := by
  cases h with
  | irq hstack hpending =>
    refine ⟨.irq c, trivial, ?_⟩
    rw [next, World.irqStep, hstack, hpending]
  | pushEnd hstack =>
    refine ⟨.step c, trivial, ?_⟩
    rw [next, World.advance, hstack]
    rfl
  | pushSelf hstack =>
    refine ⟨.step c, trivial, ?_⟩
    rw [next, World.advance, hstack]
    exact if_pos rfl
  | pushLock hstack hd hfree =>
    refine ⟨.step c, trivial, ?_⟩
    rw [next, World.advance, hstack]
    change (if _ = c then _ else if w.locked _ = true then none else _) = _
    rw [if_neg hd, hfree, if_neg Bool.false_ne_true]
  | pushBack hstack =>
    refine ⟨.step c, trivial, ?_⟩
    rw [next, World.advance, hstack]
  | sendEnd hstack =>
    refine ⟨.step c, trivial, ?_⟩
    rw [next, World.advance, hstack]
    rfl
  | sendSelf hstack =>
    refine ⟨.step c, trivial, ?_⟩
    rw [next, World.advance, hstack]
    rfl
  | sendSkip hstack =>
    refine ⟨.step c, trivial, ?_⟩
    rw [next, World.advance, hstack]
    exact if_pos rfl
  | @sendIpi f todo d b rest hstack hd =>
    refine ⟨.step c, trivial, ?_⟩
    rw [next, World.advance, hstack]
    change (if d = c then _ else _) = _
    rw [if_neg hd, cfg.hwCpuIds_eq]
    change (List.ofFn cfg.hwId)[d.val]?.bind _ = _
    rw [cfg.getElem?_hwIds]
    rfl
  | runEnd hstack =>
    refine ⟨.step c, trivial, ?_⟩
    rw [next, World.advance, hstack]
    rfl
  | nested hstack hids =>
    refine ⟨.step c, trivial, ?_⟩
    rw [next, World.advance, hstack]
    change World.begin w c _ _ _ = _
    rw [World.begin, hids]
  | lock hstack hfree =>
    refine ⟨.step c, trivial, ?_⟩
    rw [next, World.advance, hstack]
    change (if w.locked c = true then none else _) = _
    rw [hfree, if_neg Bool.false_ne_true]
  | handleEnd hstack hqueue =>
    refine ⟨.step c, trivial, ?_⟩
    rw [next, World.advance, hstack]
    change some (World.handleStep cfg w c _) = _
    rw [World.handleStep, hqueue]
  | handle hstack hqueue =>
    refine ⟨.step c, trivial, ?_⟩
    rw [next, World.advance, hstack]
    change some (World.handleStep cfg w c _) = _
    rw [World.handleStep, hqueue]

theorem reachable_moves (hw : (system cfg).Reachable w) (h : Moves cfg w c w') :
    (system cfg).Reachable w' := by
  obtain ⟨a, ha⟩ := h.step
  exact hw.step ha

theorem targetsOf_singleton {targets : CpuSet} {d : Fin n} (h : SetOK n targets.bits {d.val})
    (hn : n < 2 ^ 32) : targetsOf n targets = .ok [d] := by
  obtain ⟨ids, hids, hnodup, hmem⟩ := targetsOf_eq h hn
  have hperm : ids.Perm [d] := by
    refine (List.perm_ext_iff_of_nodup hnodup (List.nodup_singleton d)).mpr fun d' => ?_
    rw [hmem, Finset.mem_singleton, List.mem_singleton, Fin.val_inj]
  rw [hids, List.perm_singleton.mp hperm]

section Deadlock

variable {d e : Fin n} {f g g' : F} {targets : CpuSet}

/-- A call to one CPU, from its beginning to its end. -/
theorem exists_delivered (hne : d ≠ e) (htargets : SetOK n targets.bits {d.val}) (f : F)
    (hw : (system cfg).Reachable w) (hstack : w.stack e = []) (hfree : w.locked d = false) :
    ∃ w', (system cfg).Reachable w' ∧ w'.stack = w.stack ∧ w'.locked = w.locked ∧
      w'.queue = update w.queue d (w.queue d ++ [f]) ∧ w'.pending d = true ∧
      ∀ d', w.pending d' = true → w'.pending d' = true := by
  have hids := targetsOf_singleton htargets cfg.lt
  have h₁ : (system cfg).Reachable ({ w with asked := w.asked +
      ([d].map fun d => (d, f) : List (Fin n × F)) }.setStack e [.push f [d] [d] false]) := by
    refine hw.step (l := .call e targets f) ⟨⟨_, htargets⟩, ?_⟩
    rw [next, World.callStep, hstack]
    change World.begin w e targets f [] = _
    rw [World.begin, hids]
  have h₂ := reachable_moves h₁ (.pushLock (update_self _ _ _) hne hfree)
  have h₃ := reachable_moves h₂ (.pushBack (update_self _ _ _))
  have h₄ := reachable_moves h₃ (.pushEnd (update_self _ _ _))
  have h₅ := reachable_moves h₄ (.sendIpi (update_self _ _ _) hne)
  have h₆ := reachable_moves h₅ (.sendEnd (update_self _ _ _))
  refine ⟨_, h₆, ?_, ?_, rfl, ?_, fun d' hd' => ?_⟩
  · change update (update (update (update (update
      (update w.stack e _) e _) e _) e _) e _) e [] = w.stack
    simp only [update_idem]
    rw [← hstack, update_eq_self]
  · change update (update w.locked d true) d false = w.locked
    rw [update_idem, ← hfree, update_eq_self]
  · change (w.pending d || decide (cfg.hwId d = cfg.hwId d)) = true
    rw [decide_eq_true rfl, Bool.or_true]
  · change (w.pending d' || decide (cfg.hwId d' = cfg.hwId d)) = true
    rw [hd', Bool.true_or]

/-- The handler calls a function, which makes a call to one CPU. -/
theorem exists_handled (htargets : SetOK n targets.bits {d.val})
    (hbody : cfg.body f = [(targets, g)]) (hw : (system cfg).Reachable w) (hstack : w.stack c = [])
    (hpending : w.pending c = true) (hfree : w.locked c = false) {queue : List F}
    (hqueue : w.queue c = f :: queue) :
    ∃ w', (system cfg).Reachable w' ∧
      w'.stack = update w.stack c [.push g [d] [d] false, .run [], .handle] ∧
      w'.locked = update w.locked c true ∧ w'.queue = update w.queue c queue ∧
      ∀ d', d' ≠ c → w'.pending d' = w.pending d' := by
  have h₁ := reachable_moves hw (.irq hstack hpending)
  have h₂ := reachable_moves h₁ (.lock (update_self _ _ _) hfree)
  have h₃ := reachable_moves h₂ (.handle (update_self _ _ _) hqueue)
  rw [hbody] at h₃
  have h₄ := reachable_moves h₃ (.nested (update_self _ _ _) (targetsOf_singleton htargets cfg.lt))
  refine ⟨_, h₄, ?_, rfl, rfl, fun d' hd' => update_of_ne hd' _ _⟩
  change update (update (update (update w.stack c _) c _) c _) c _ = _
  simp only [update_idem]

/-- The CPU is in a function that the handler called, and wants to make a call to `d`. -/
structure WaitsFor (w : World n F) (c d : Fin n) (g : F) : Prop where
  stack : w.stack c = [.push g [d] [d] false, .run [], .handle]
  locked : w.locked c = true

theorem Moves.stack_of_ne (h : Moves cfg w e w') (hc : c ≠ e) : w'.stack c = w.stack c := by
  cases h <;> exact update_of_ne hc _ _

/-- A lock that another CPU has stays locked. -/
theorem Moves.locked_of_ne (h : Moves cfg w e w') (hinv : Inv w) (hc : c ≠ e)
    (hwaits : WaitsFor w c d g) : w'.locked c = true := by
  cases h with
  | @pushLock f targets todo d' b rest hstack hd hfree =>
    change update w.locked d' true c = true
    by_cases hcd : c = d'
    · subst hcd
      rw [update_self]
    · rw [update_of_ne hcd, hwaits.locked]
  | @pushBack f targets todo d' b rest hstack =>
    change update w.locked d' false c = true
    rw [update_of_ne, hwaits.locked]
    rintro rfl
    -- the lock would have two holders
    have hle : stackLocks c c (w.stack c) + stackLocks e c (w.stack e) ≤ w.holders c := by
      rw [World.holders, ← Finset.add_sum_erase _ _ (Finset.mem_univ c)]
      refine Nat.add_le_add_left ?_ _
      exact Finset.single_le_sum (f := fun e => stackLocks e c (w.stack e))
        (fun _ _ => Nat.zero_le _) (Finset.mem_erase.mpr ⟨hc.symm, Finset.mem_univ e⟩)
    rw [hinv.locks, hwaits.locked, hwaits.stack, hstack, stackLocks_cons, stackLocks_cons,
      stackLocks_cons, stackLocks_cons] at hle
    simp only [Frame.locks, if_true, Bool.toNat_true] at hle
    omega
  | lock hstack hfree =>
    change update w.locked e true c = true
    rw [update_of_ne hc, hwaits.locked]
  | handleEnd hstack hqueue =>
    change update w.locked e false c = true
    rw [update_of_ne hc, hwaits.locked]
  | _ => exact hwaits.locked

/-- A CPU that waits for a lock takes no step. -/
theorem WaitsFor.no_step (hwaits : WaitsFor w c d g) (cfg : Setting n F) (hcd : d ≠ c)
    (hlocked : w.locked d = true) : w.irqStep c = none ∧ World.advance cfg w c = none := by
  refine ⟨?_, ?_⟩
  · rw [World.irqStep, hwaits.stack]
  · rw [World.advance, hwaits.stack]
    change (if d = c then _ else if w.locked d = true then none else _) = none
    rw [if_neg hcd, if_pos hlocked]

/-- Two CPUs that wait for each other. -/
def Deadlocked (w : World n F) (c d : Fin n) (g g' : F) : Prop :=
  WaitsFor w c d g ∧ WaitsFor w d c g'

theorem Deadlocked.callStep (h : Deadlocked w c d g g') {f : F}
    (hcall : w.callStep e targets f = some w') : Deadlocked w' c d g g' := by
  unfold World.callStep at hcall
  cases hstack : w.stack e with
  | cons fr rest =>
    rw [hstack] at hcall
    cases hcall
  | nil =>
    rw [hstack] at hcall
    obtain ⟨ids, -, rfl⟩ := World.begin_eq_some hcall
    have hother : ∀ {c' d' : Fin n} {k : F}, WaitsFor w c' d' k → c' ≠ e := by
      rintro c' d' k hwaits rfl
      rw [hwaits.stack] at hstack
      cases hstack
    refine ⟨⟨?_, h.1.locked⟩, ?_, h.2.locked⟩
    · rw [← h.1.stack]
      exact update_of_ne (hother h.1) _ _
    · rw [← h.2.stack]
      exact update_of_ne (hother h.2) _ _

theorem Deadlocked.moves (h : Deadlocked w c d g g') (hinv : Inv w) (hec : c ≠ e) (hed : d ≠ e)
    (hmoves : Moves cfg w e w') : Deadlocked w' c d g g' :=
  ⟨⟨(hmoves.stack_of_ne hec).trans h.1.stack, hmoves.locked_of_ne hinv hec h.1⟩,
    (hmoves.stack_of_ne hed).trans h.2.stack, hmoves.locked_of_ne hinv hed h.2⟩

/-- **A deadlock is for ever.** -/
theorem Deadlocked.step (h : Deadlocked w c d g g') (hcd : c ≠ d) (hinv : Inv w) {a : Act n F}
    (hstep : (system cfg).step w a w') : Deadlocked w' c d g g' := by
  have hc := h.1.no_step cfg hcd.symm h.2.locked
  have hd := h.2.no_step cfg hcd h.1.locked
  obtain ⟨-, hnext⟩ := hstep
  cases a with
  | call e targets f => exact h.callStep hnext
  | irq e =>
    have hirq : w.irqStep e = some w' := hnext
    refine h.moves hinv ?_ ?_ (Moves.of_irqStep hirq : Moves cfg w e w')
    · rintro rfl
      rw [hc.1] at hirq
      cases hirq
    · rintro rfl
      rw [hd.1] at hirq
      cases hirq
  | step e =>
    have hadvance : World.advance cfg w e = some w' := hnext
    refine h.moves hinv ?_ ?_ (.of_advance hadvance)
    · rintro rfl
      rw [hc.2] at hadvance
      cases hadvance
    · rintro rfl
      rw [hd.2] at hadvance
      cases hadvance

/-- **Calls from called functions can deadlock.**  If the body of one function is a call to `d`
alone and that of another one a call to `c` alone, a run leads to a state from which on neither of
the two CPUs ever takes another step, whatever the others do. -/
theorem nested_calls_deadlock {f f' : F} {targets' : CpuSet} (hcd : c ≠ d)
    (hf : cfg.body f = [(targets, g)]) (htargets : SetOK n targets.bits {d.val})
    (hf' : cfg.body f' = [(targets', g')]) (htargets' : SetOK n targets'.bits {c.val}) :
    ∃ w, (system cfg).Reachable w ∧ ∀ w',
      Relation.ReflTransGen (fun w₁ w₂ => ∃ a, (system cfg).step w₁ a w₂) w w' →
        (w'.irqStep c = none ∧ World.advance cfg w' c = none) ∧
          w'.irqStep d = none ∧ World.advance cfg w' d = none := by
  -- each CPU is asked to call the function that makes a call to the other one
  obtain ⟨w₁, h₁, hstack₁, hlocked₁, hqueue₁, hpending₁, -⟩ :=
    exists_delivered hcd htargets' f (.init rfl : (system cfg).Reachable .start) rfl rfl
  obtain ⟨w₂, h₂, hstack₂, hlocked₂, hqueue₂, hpending₂, hkeep₂⟩ :=
    exists_delivered hcd.symm htargets f' h₁ (by rw [hstack₁]; rfl) (by rw [hlocked₁]; rfl)
  have hqueue_c : w₂.queue c = [f] := by
    rw [hqueue₂, update_of_ne hcd, hqueue₁, update_self]
    rfl
  have hqueue_d : w₂.queue d = [f'] := by
    rw [hqueue₂, update_self, hqueue₁, update_of_ne hcd.symm]
    rfl
  have hstart : w₂.stack = (World.start : World n F).stack := hstack₂.trans hstack₁
  have hunlocked : w₂.locked = (World.start : World n F).locked := hlocked₂.trans hlocked₁
  obtain ⟨w₃, h₃, hstack₃, hlocked₃, hqueue₃, hpending₃⟩ :=
    exists_handled htargets hf h₂ (by rw [hstart]; rfl) (hkeep₂ c hpending₁)
      (by rw [hunlocked]; rfl) hqueue_c
  obtain ⟨w₄, h₄, hstack₄, hlocked₄, -, -⟩ := exists_handled (c := d) htargets' hf' h₃
    (by rw [hstack₃, update_of_ne hcd.symm, hstart]; rfl)
    (by rw [hpending₃ d hcd.symm, hpending₂])
    (by rw [hlocked₃, update_of_ne hcd.symm, hunlocked]; rfl)
    (by rw [hqueue₃, update_of_ne hcd.symm, hqueue_d])
  have hdead : Deadlocked w₄ c d g g' := by
    refine ⟨⟨?_, ?_⟩, ?_, ?_⟩
    · rw [hstack₄, update_of_ne hcd, hstack₃, update_self]
    · rw [hlocked₄, update_of_ne hcd, hlocked₃, update_self]
    · rw [hstack₄, update_self]
    · rw [hlocked₄, update_self]
  refine ⟨w₄, h₄, fun w' hrun => ?_⟩
  have hlater : (system cfg).Reachable w' ∧ Deadlocked w' c d g g' := by
    induction hrun with
    | refl => exact ⟨h₄, hdead⟩
    | tail _ hstep ih =>
      obtain ⟨a, hstep⟩ := hstep
      exact ⟨ih.1.step hstep, ih.2.step hcd (Inv.of_reachable ih.1) hstep⟩
  exact ⟨hlater.2.1.no_step cfg hcd.symm hlater.2.2.locked,
    hlater.2.2.no_step cfg hcd hlater.2.1.locked⟩

end Deadlock

/-- Two functions, each of which makes a call to one of two CPUs. -/
theorem nested_calls_deadlock_pair : ∃ cfg : Setting 2 Bool, ∃ w, (system cfg).Reachable w ∧
    ∀ w', Relation.ReflTransGen (fun w₁ w₂ => ∃ a, (system cfg).step w₁ a w₂) w w' →
      World.advance cfg w' 0 = none := by
  let sets : Bool → CpuSet := fun b => if b then ⟨[2#64]⟩ else ⟨[1#64]⟩
  have hfirst : SetOK 2 (sets false).bits {0} := setOK_single Nat.zero_lt_two rfl
  have hsecond : SetOK 2 (sets true).bits {1} := setOK_single Nat.one_lt_two rfl
  let cfg : Setting 2 Bool :=
    { hwId := fun c => c.val
      order := [0, 1]
      perm := List.Perm.refl _
      lt := two_lt
      body := fun f => [(sets f, f)]
      valid := fun f call hcall => by
        cases List.mem_singleton.mp hcall
        cases f with
        | true => exact ⟨_, hsecond⟩
        | false => exact ⟨_, hfirst⟩ }
  obtain ⟨w, hreach, hw⟩ := nested_calls_deadlock
    (c := (0 : Fin 2)) (d := 1) (show (0 : Fin 2) ≠ 1 by decide)
    (show cfg.body true = [(sets true, true)] from rfl) hsecond
    (show cfg.body false = [(sets false, false)] from rfl) hfirst
  exact ⟨cfg, w, hreach, fun w' hw' => (hw w' hw').1.2⟩

end Vostd.Smp
