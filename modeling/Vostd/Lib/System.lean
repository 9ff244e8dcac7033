/-
# Transition systems

A component that is used over time is a transition system: its initial states,
and the steps that it or its users can take, each with a label that says what was
asked.  A safety property is a property of every reachable state, and it is proved
by an invariant (`System.invariant`).

`System.restrict` keeps only the steps that meet a condition on the state before
the step and on the label.
-/
import Mathlib

namespace Vostd

/-- A component of a state, after an update of one of them. -/
theorem update_eq_cases {ι α : Type*} [DecidableEq ι] {f : ι → α} {i j : ι} {v b : α}
    (h : Function.update f i v j = b) : j = i ∧ v = b ∨ j ≠ i ∧ f j = b := by
  by_cases hj : j = i
  · subst hj
    rw [Function.update_self] at h
    exact Or.inl ⟨rfl, h⟩
  · rw [Function.update_of_ne hj] at h
    exact Or.inr ⟨hj, h⟩

/-- A transition system with states `S` and labels `L`. -/
structure System (S L : Type*) where
  init : S → Prop
  step : S → L → S → Prop

namespace System

variable {S L : Type*} {sys : System S L}

/-- The states of the runs of a system. -/
inductive Reachable (sys : System S L) : S → Prop
  | init {s : S} (h : sys.init s) : Reachable sys s
  | step {s s' : S} {l : L} (h : Reachable sys s) (hs : sys.step s l s') : Reachable sys s'

/-- **The invariant rule.**  A step may use that the state before it is reachable. -/
theorem invariant {I : S → Prop} (hinit : ∀ s, sys.init s → I s)
    (hstep : ∀ s l s', sys.Reachable s → I s → sys.step s l s' → I s') {s : S}
    (h : sys.Reachable s) : I s := by
  induction h with
  | init h0 => exact hinit _ h0
  | step h hs ih => exact hstep _ _ _ h ih hs

/-- The runs in which every step meets a condition. -/
def restrict (sys : System S L) (ok : S → L → Prop) : System S L where
  init := sys.init
  step := fun s l s' => ok s l ∧ sys.step s l s'

theorem Reachable.of_restrict {ok : S → L → Prop} {s : S} (h : (sys.restrict ok).Reachable s) :
    sys.Reachable s := by
  induction h with
  | init h0 => exact Reachable.init h0
  | step _ hs ih => exact Reachable.step ih hs.2

theorem Reachable.restrict {ok : S → L → Prop} {s : S} (h : sys.Reachable s)
    (hok : ∀ s l, ok s l) : (sys.restrict ok).Reachable s := by
  induction h with
  | init h0 => exact Reachable.init h0
  | step _ hs ih => exact Reachable.step ih ⟨hok _ _, hs⟩

/-- The run that takes the given steps, of a system whose steps are computed. -/
def runAll (next : S → L → Option S) : S → List L → Option S
  | s, [] => some s
  | s, l :: ls => (next s l).bind (runAll next · ls)

/-- A state with the property `p` is reached if the given steps lead to one. -/
theorem exists_of_runAll_of_mem (sys : System S L) (next : S → L → Option S) (ls : List L)
    (p : S → Bool) (hnext : ∀ l ∈ ls, ∀ s s', next s l = some s' → sys.step s l s') {s : S}
    (hs : sys.Reachable s) (h : (System.runAll next s ls).any p = true) :
    ∃ s', sys.Reachable s' ∧ p s' = true := by
  induction ls generalizing s with
  | nil => exact ⟨s, hs, h⟩
  | cons l ls ih =>
      cases hl : next s l with
      | none =>
          rw [System.runAll, hl] at h
          cases h
      | some s₁ =>
          rw [System.runAll, hl] at h
          exact ih (fun l' hl' => hnext l' (List.mem_cons_of_mem _ hl'))
            (hs.step (hnext l List.mem_cons_self s s₁ hl)) h

theorem exists_of_runAll (sys : System S L) (next : S → L → Option S) (ls : List L) (p : S → Bool)
    (hnext : ∀ s l s', next s l = some s' → sys.step s l s') {s : S} (hs : sys.init s)
    (h : (System.runAll next s ls).any p = true) : ∃ s', sys.Reachable s' ∧ p s' = true :=
  exists_of_runAll_of_mem sys next ls p (fun l _ s s' => hnext s l s') (.init hs) h

end System

end Vostd
