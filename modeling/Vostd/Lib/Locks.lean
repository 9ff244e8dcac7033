/-
# Lock sets

Threads that take sets of spin locks.  Each lock is a flag; a thread that asks for
a list of locks takes them one after the other, waits at a lock whose flag is set,
and later gives them back one by one.  The flags alone do not say who holds a
lock; the invariant is that a set flag has exactly one holder (`Locks.OK`).

Hence two requests with a common lock are never complete at the same time
(`Locks.exclusive`).
-/
import Vostd.Lib.System

namespace Vostd

open Function

/-- The locks `K` and the threads `T` that use them. -/
structure Locks (T K : Type) where
  taken : K → Bool
  held : T → List K
  pending : T → List K

/-- What a thread does next. -/
inductive LockAction (T K : Type) : Type where
  | request (t : T) (ks : List K)
  | acquire (t : T) (k : K)
  | release (t : T) (k : K)

namespace Locks

variable {T K : Type} [DecidableEq T] [DecidableEq K]

/-- The steps of the threads. -/
inductive Step : Locks T K → LockAction T K → Locks T K → Prop
  | request {s : Locks T K} {t : T} (ks : List K) (hheld : s.held t = [])
      (hpending : s.pending t = []) :
      Step s (.request t ks) { s with pending := update s.pending t ks }
  /-- the compare-exchange that sets the flag succeeds -/
  | acquire {s : Locks T K} {t : T} {k : K} {ks : List K} (hpending : s.pending t = k :: ks)
      (hfree : s.taken k = false) :
      Step s (.acquire t k)
        { taken := update s.taken k true
          held := update s.held t (k :: s.held t)
          pending := update s.pending t ks }
  /-- the flag is cleared -/
  | release {s : Locks T K} {t : T} {k : K} (hpending : s.pending t = []) (hheld : k ∈ s.held t) :
      Step s (.release t k)
        { s with
          taken := update s.taken k false
          held := update s.held t ((s.held t).erase k) }

/-- Lock users from the state in which no lock is taken. -/
def system : System (Locks T K) (LockAction T K) where
  init := fun s => s = ⟨fun _ => false, fun _ => [], fun _ => []⟩
  step := Step

/-- **The invariant**: a lock that is held is taken, by one thread, once. -/
structure OK (s : Locks T K) : Prop where
  taken : ∀ t k, k ∈ s.held t → s.taken k = true
  nodup : ∀ t, (s.held t).Nodup
  unique : ∀ t t' k, k ∈ s.held t → k ∈ s.held t' → t = t'

theorem OK.acquire {s : Locks T K} (h : OK s) {t : T} {k : K} (hfree : s.taken k = false)
    (ps : T → List K) : OK ⟨update s.taken k true, update s.held t (k :: s.held t), ps⟩ := by
  have hnot : ∀ t', k ∉ s.held t' := by
    intro t' hk
    rw [h.taken t' k hk] at hfree
    cases hfree
  have hold : ∀ t' k', k' ∈ update s.held t (k :: s.held t) t' →
      (t' = t ∧ k' = k) ∨ k' ∈ s.held t' := by
    intro t' k' hk'
    by_cases ht : t' = t
    · subst ht
      rw [update_self, List.mem_cons] at hk'
      exact hk'.imp_left (fun h => ⟨rfl, h⟩)
    · rw [update_of_ne ht] at hk'
      exact Or.inr hk'
  refine ⟨?_, ?_, ?_⟩
  · intro t' k' hk'
    rcases hold t' k' hk' with ⟨-, rfl⟩ | hin
    · simp only [update_self]
    · have hne : k' ≠ k := by
        rintro rfl
        exact hnot t' hin
      simp only [update_of_ne hne, h.taken t' k' hin]
  · intro t'
    by_cases ht : t' = t
    · subst ht
      simp only [update_self]
      exact List.nodup_cons.mpr ⟨hnot t', h.nodup t'⟩
    · simp only [update_of_ne ht, h.nodup t']
  · intro t₁ t₂ k' h₁ h₂
    rcases hold t₁ k' h₁ with ⟨rfl, rfl⟩ | h₁' <;> rcases hold t₂ k' h₂ with ⟨rfl, h₂'⟩ | h₂'
    · rfl
    · exact absurd h₂' (hnot t₂)
    · exact absurd (h₂' ▸ h₁') (hnot t₁)
    · exact h.unique t₁ t₂ k' h₁' h₂'

theorem OK.release {s : Locks T K} (h : OK s) {t : T} {k : K} (hheld : k ∈ s.held t) :
    OK { s with
      taken := update s.taken k false
      held := update s.held t ((s.held t).erase k) } := by
  have hold : ∀ t' k', k' ∈ update s.held t ((s.held t).erase k) t' → k' ≠ k ∧ k' ∈ s.held t' := by
    intro t' k' hk'
    by_cases ht : t' = t
    · subst ht
      rw [update_self, (h.nodup t').mem_erase_iff] at hk'
      exact hk'
    · rw [update_of_ne ht] at hk'
      refine ⟨?_, hk'⟩
      rintro rfl
      exact ht (h.unique t' t k' hk' hheld)
  refine ⟨?_, ?_, ?_⟩
  · intro t' k' hk'
    obtain ⟨hne, hin⟩ := hold t' k' hk'
    simp only [update_of_ne hne, h.taken t' k' hin]
  · intro t'
    by_cases ht : t' = t
    · subst ht
      simp only [update_self]
      exact (h.nodup t').erase k
    · simp only [update_of_ne ht, h.nodup t']
  · intro t₁ t₂ k' h₁ h₂
    exact h.unique t₁ t₂ k' (hold t₁ k' h₁).2 (hold t₂ k' h₂).2

theorem ok_of_reachable {s : Locks T K} (h : (system (T := T) (K := K)).Reachable s) : OK s := by
  refine System.invariant ?_ ?_ h
  · rintro s rfl
    exact ⟨fun _ _ hk => (by cases hk), fun _ => List.nodup_nil, fun _ _ _ hk => (by cases hk)⟩
  · intro s a s' _ hok hstep
    cases hstep with
    | request ks _ _ => exact ⟨hok.taken, hok.nodup, hok.unique⟩
    | acquire _ hfree => exact hok.acquire hfree _
    | release _ hheld => exact hok.release hheld

/-- The thread has got every lock of a request. -/
def Complete (s : Locks T K) (t : T) (ks : List K) : Prop := ∀ k ∈ ks, k ∈ s.held t

/-- **Mutual exclusion.**  Two requests with a common lock are not complete at the
same time. -/
theorem exclusive {s : Locks T K} (h : (system (T := T) (K := K)).Reachable s) {t t' : T}
    (hne : t ≠ t') {ks ks' : List K} {k : K} (hk : k ∈ ks) (hk' : k ∈ ks')
    (hc : s.Complete t ks) : ¬s.Complete t' ks' := by
  intro hc'
  exact hne ((ok_of_reachable h).unique t t' k (hc k hk) (hc' k hk'))

end Locks

end Vostd
