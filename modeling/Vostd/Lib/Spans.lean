/-
# Intervals that share out a range

A range is shared out between intervals that are in use and intervals that are free.
Free intervals that touch are always joined, so that the free intervals are the gaps
between those in use (`Partition.mem_free_iff`), and an interval fits between those in
use exactly if it fits into one of the free ones (`Partition.exists_block`).

Taking an interval out of a free one (`Partition.carve`) and giving one back
(`Partition.merge`) keep this.
-/
import Mathlib

namespace Vostd

/-- A half-open interval. -/
structure Span (α : Type*) where
  start : α
  stop : α
  deriving DecidableEq, Repr

section

variable {α : Type*} [LinearOrder α]

namespace Span

/-- The points of an interval. -/
def set (r : Span α) : Set α := Set.Ico r.start r.stop

/-- One of the two ends before the other begins. -/
def Apart (r s : Span α) : Prop := r.stop ≤ s.start ∨ s.stop ≤ r.start

instance : Std.Symm (Apart (α := α)) := ⟨fun _ _ h => Or.symm h⟩

/-- Intervals that are apart have no point in common. -/
theorem Apart.not_mem {r s : Span α} {x : α} (h : r.Apart s) (hr : x ∈ r.set) : x ∉ s.set := by
  intro hs
  rcases h with h | h
  · exact absurd (hr.2.trans_le h) (not_lt.mpr hs.1)
  · exact absurd (hs.2.trans_le h) (not_lt.mpr hr.1)

/-- Intervals with points that have none in common are apart. -/
theorem apart_of_disjoint {r s : Span α} (hr : r.start < r.stop) (hs : s.start < s.stop)
    (h : Disjoint r.set s.set) : r.Apart s := by
  by_contra hnot
  unfold Apart at hnot
  push Not at hnot
  have hmem : max r.start s.start ∈ r.set := ⟨le_max_left _ _, max_lt hr hnot.1⟩
  exact Set.disjoint_left.mp h hmem ⟨le_max_right _ _, max_lt hnot.2 hs⟩

theorem set_subset_iff {r s : Span α} (hr : r.start < r.stop) :
    r.set ⊆ s.set ↔ s.start ≤ r.start ∧ r.stop ≤ s.stop :=
  Set.Ico_subset_Ico_iff hr

end Span

/-- **A range that is shared out** between the free intervals and those in use. -/
structure Partition (full : Span α) (free : Set (Span α)) (live : List (Span α)) : Prop where
  free_pos : ∀ b ∈ free, b.start < b.stop
  live_pos : ∀ r ∈ live, r.start < r.stop
  /-- free intervals do not even touch -/
  separated : ∀ b ∈ free, ∀ c ∈ free, b ≠ c → b.stop < c.start ∨ c.stop < b.start
  live_apart : live.Pairwise Span.Apart
  apart : ∀ b ∈ free, ∀ r ∈ live, b.Apart r
  cover : ∀ x, x ∈ full.set ↔ (∃ b ∈ free, x ∈ b.set) ∨ ∃ r ∈ live, x ∈ r.set

/-- A gap: it meets no interval in use, and no larger one does that. -/
structure IsGap (full : Span α) (live : List (Span α)) (g : Span α) : Prop where
  pos : g.start < g.stop
  subset : g.set ⊆ full.set
  apart : ∀ r ∈ live, g.Apart r
  maximal : ∀ h : Span α, h.set ⊆ full.set → (∀ r ∈ live, h.Apart r) → g.set ⊆ h.set →
    h.set ⊆ g.set

namespace Partition

variable {full b r : Span α} {free free' : Set (Span α)} {live : List (Span α)}

theorem subset (hp : Partition full free live) (hb : b ∈ free) : b.set ⊆ full.set :=
  fun x hx => (hp.cover x).mpr (Or.inl ⟨b, hb, hx⟩)

theorem live_subset (hp : Partition full free live) (hr : r ∈ live) : r.set ⊆ full.set :=
  fun x hx => (hp.cover x).mpr (Or.inr ⟨r, hr, hx⟩)

/-- **What fits between the intervals in use is in one of the free intervals.** -/
theorem exists_block (hp : Partition full free live) (hpos : r.start < r.stop)
    (hin : r.set ⊆ full.set) (hfree : ∀ l ∈ live, r.Apart l) :
    ∃ b ∈ free, b.start ≤ r.start ∧ r.stop ≤ b.stop := by
  have hpoint : ∀ x ∈ r.set, ∃ b ∈ free, x ∈ b.set := by
    intro x hx
    rcases (hp.cover x).mp (hin hx) with hb | ⟨l, hl, hxl⟩
    · exact hb
    · exact absurd hxl ((hfree l hl).not_mem hx)
  obtain ⟨b, hb, hxb⟩ := hpoint r.start ⟨le_rfl, hpos⟩
  refine ⟨b, hb, hxb.1, ?_⟩
  by_contra hlt
  -- otherwise the point where `b` ends is in an interval that touches `b`
  obtain ⟨c, hc, hxc⟩ := hpoint b.stop ⟨hxb.2.le, not_le.mp hlt⟩
  have hne : b ≠ c := by
    rintro rfl
    exact lt_irrefl _ hxc.2
  rcases hp.separated b hb c hc hne with h | h
  · exact lt_irrefl _ (hxc.1.trans_lt' h)
  · exact lt_irrefl _ ((hp.free_pos b hb).trans (hxc.2.trans h))

/-- **The free intervals are the gaps.** -/
theorem mem_free_iff (hp : Partition full free live) : b ∈ free ↔ IsGap full live b := by
  constructor
  · intro hb
    refine ⟨hp.free_pos b hb, hp.subset hb, hp.apart b hb, ?_⟩
    intro h hin happ hsub
    have hpos := hp.free_pos b hb
    have hh := (Span.set_subset_iff hpos).mp hsub
    obtain ⟨c, hc, hstart, hstop⟩ := hp.exists_block (hh.1.trans_lt (hpos.trans_le hh.2)) hin happ
    have hbc : b = c := by
      by_contra hne
      rcases hp.separated b hb c hc hne with hs | hs
      · exact absurd (hstart.trans (hh.1.trans hpos.le)) (not_le.mpr hs)
      · exact absurd (hpos.le.trans (hh.2.trans hstop)) (not_le.mpr hs)
    subst hbc
    exact Set.Ico_subset_Ico hstart hstop
  · intro hg
    obtain ⟨c, hc, hstart, hstop⟩ := hp.exists_block hg.pos hg.subset hg.apart
    have hsub := hg.maximal c (hp.subset hc) (hp.apart c hc) (Set.Ico_subset_Ico hstart hstop)
    have hle := (Span.set_subset_iff (hp.free_pos c hc)).mp hsub
    have hbc : b = c := by
      cases b
      cases c
      exact congrArg₂ Span.mk (hle.1.antisymm hstart) (hstop.antisymm hle.2)
    exact hbc ▸ hc

/-- Nothing is in use: the range is free as a whole. -/
theorem free_of_nil (hp : Partition full free []) (hpos : full.start < full.stop) :
    free = {full} := by
  ext b
  rw [hp.mem_free_iff, Set.mem_singleton_iff]
  constructor
  · intro hg
    have hsub := hg.maximal full subset_rfl (fun r hr => absurd hr List.not_mem_nil) hg.subset
    have h1 := (Span.set_subset_iff hg.pos).mp hg.subset
    have h2 := (Span.set_subset_iff hpos).mp hsub
    cases b
    cases full
    exact congrArg₂ Span.mk (h2.1.antisymm h1.1) (h1.2.antisymm h2.2)
  · rintro rfl
    exact ⟨hpos, subset_rfl, fun r hr => absurd hr List.not_mem_nil, fun _ h _ _ => h⟩

/-- All of it is free. -/
theorem single (hpos : full.start < full.stop) : Partition full {full} [] where
  free_pos := by
    rintro b rfl
    exact hpos
  live_pos := fun r hr => absurd hr List.not_mem_nil
  separated := by
    rintro b rfl c rfl hne
    exact absurd rfl hne
  live_apart := List.Pairwise.nil
  apart := fun b _ r hr => absurd hr List.not_mem_nil
  cover := by
    intro x
    constructor
    · intro hx
      exact Or.inl ⟨full, rfl, hx⟩
    · rintro (⟨b, rfl, hx⟩ | ⟨r, hr, -⟩)
      · exact hx
      · exact absurd hr List.not_mem_nil

/-! ## Taking an interval -/

/-- **An interval is taken out of a free one**, of which up to two parts remain. -/
theorem carve (hp : Partition full free live) (hb : b ∈ free) (hpos : r.start < r.stop)
    (hstart : b.start ≤ r.start) (hstop : r.stop ≤ b.stop)
    (hfree : ∀ c, c ∈ free' ↔ (c ∈ free ∧ c ≠ b) ∨ (c = ⟨b.start, r.start⟩ ∧ b.start < r.start) ∨
      (c = ⟨r.stop, b.stop⟩ ∧ r.stop < b.stop)) : Partition full free' (r :: live) := by
  have hsep := fun c hc hne => hp.separated b hb c hc hne
  have hbpos := hp.free_pos b hb
  refine ⟨?_, ?_, ?_, ?_, ?_, ?_⟩
  · intro c hc
    rcases (hfree c).mp hc with ⟨hc, -⟩ | ⟨rfl, h⟩ | ⟨rfl, h⟩
    · exact hp.free_pos c hc
    · exact h
    · exact h
  · intro s hs
    rcases List.mem_cons.mp hs with rfl | hs
    · exact hpos
    · exact hp.live_pos s hs
  · intro c hc d hd hne
    have hsepc := hsep c
    have hsepd := hsep d
    have hold := hp.separated c
    rw [hfree] at hc hd
    grind
  · refine List.pairwise_cons.mpr ⟨?_, hp.live_apart⟩
    intro s hs
    have hbs := hp.apart b hb s hs
    unfold Span.Apart at *
    grind
  · intro c hc s hs
    have hsepc := hsep c
    have hbs := hp.apart b hb s
    have hcs := hp.apart c
    rw [hfree] at hc
    rw [List.mem_cons] at hs
    unfold Span.Apart at *
    grind
  · intro x
    rw [hp.cover x]
    constructor
    · rintro (⟨c, hc, hx⟩ | ⟨s, hs, hx⟩)
      · by_cases hcb : c = b
        · -- the point is in one of the three parts of `b`
          subst hcb
          by_cases h1 : x < r.start
          · refine Or.inl ⟨⟨c.start, r.start⟩, ?_, hx.1, h1⟩
            exact (hfree _).mpr (Or.inr (Or.inl ⟨rfl, hx.1.trans_lt h1⟩))
          · by_cases h2 : x < r.stop
            · exact Or.inr ⟨r, List.mem_cons_self, not_lt.mp h1, h2⟩
            · refine Or.inl ⟨⟨r.stop, c.stop⟩, ?_, not_lt.mp h2, hx.2⟩
              exact (hfree _).mpr (Or.inr (Or.inr ⟨rfl, (not_lt.mp h2).trans_lt hx.2⟩))
        · exact Or.inl ⟨c, (hfree c).mpr (Or.inl ⟨hc, hcb⟩), hx⟩
      · exact Or.inr ⟨s, List.mem_cons_of_mem r hs, hx⟩
    · rintro (⟨c, hc, hx⟩ | ⟨s, hs, hx⟩)
      · rcases (hfree c).mp hc with ⟨hc, -⟩ | ⟨rfl, -⟩ | ⟨rfl, -⟩
        · exact Or.inl ⟨c, hc, hx⟩
        · exact Or.inl ⟨b, hb, hx.1, hx.2.trans_le (hpos.le.trans hstop)⟩
        · exact Or.inl ⟨b, hb, hstart.trans (hpos.le.trans hx.1), hx.2⟩
      · rcases List.mem_cons.mp hs with rfl | hs
        · exact Or.inl ⟨b, hb, hstart.trans hx.1, hx.2.trans_le hstop⟩
        · exact Or.inr ⟨s, hs, hx⟩

/-! ## Giving an interval back -/

/-- What the free interval around `r` begins with: the free interval before it, if they
touch. -/
def Left (free : Set (Span α)) (r : Span α) (lo : α) : Prop :=
  (lo = r.start ∧ ∀ b ∈ free, b.stop ≠ r.start) ∨ (⟨lo, r.start⟩ : Span α) ∈ free

/-- What it ends with. -/
def Right (free : Set (Span α)) (r : Span α) (hi : α) : Prop :=
  (hi = r.stop ∧ ∀ b ∈ free, b.start ≠ r.stop) ∨ (⟨r.stop, hi⟩ : Span α) ∈ free

theorem Left.le (hp : Partition full free live) {lo : α} (h : Left free r lo) :
    lo ≤ r.start := by
  rcases h with ⟨rfl, -⟩ | h
  · exact le_rfl
  · exact (hp.free_pos _ h).le

theorem Right.le (hp : Partition full free live) {hi : α} (h : Right free r hi) :
    r.stop ≤ hi := by
  rcases h with ⟨rfl, -⟩ | h
  · exact le_rfl
  · exact (hp.free_pos _ h).le

theorem Left.eq_of_stop (hp : Partition full free live) {lo : α} (h : Left free r lo)
    (hb : b ∈ free) (hstop : b.stop = r.start) : b = ⟨lo, r.start⟩ := by
  rcases h with ⟨-, hnone⟩ | h
  · exact absurd hstop (hnone b hb)
  · by_contra hne
    rcases hp.separated b hb _ h hne with hs | hs
    · exact lt_irrefl _ ((hstop ▸ hs).trans (hp.free_pos _ h))
    · exact lt_irrefl _ (hs.trans ((hp.free_pos b hb).trans_eq hstop))

theorem Right.eq_of_start (hp : Partition full free live) {hi : α} (h : Right free r hi)
    (hb : b ∈ free) (hstart : b.start = r.stop) : b = ⟨r.stop, hi⟩ := by
  rcases h with ⟨-, hnone⟩ | h
  · exact absurd hstart (hnone b hb)
  · by_contra hne
    rcases hp.separated b hb _ h hne with hs | hs
    · exact lt_irrefl _ (hs.trans (hstart ▸ hp.free_pos b hb))
    · exact lt_irrefl _ ((hp.free_pos _ h).trans (hstart ▸ hs))

/-- A free interval that does not touch `r` from the left is in front of the one that does, or
behind `r`. -/
theorem Left.before_or_behind (hp : Partition full free live) (hr : r ∈ live) {lo : α}
    (hlo : Left free r lo) (hb : b ∈ free) (hstop : b.stop ≠ r.start) :
    b.stop < lo ∨ r.stop ≤ b.start := by
  rcases hp.apart b hb r hr with h | h
  · left
    have hlt := lt_of_le_of_ne h hstop
    rcases hlo with ⟨rfl, -⟩ | hc
    · exact hlt
    · have hne : b ≠ ⟨lo, r.start⟩ := fun heq => hstop (by rw [heq])
      rcases hp.separated b hb _ hc hne with hs | hs
      · exact hs
      · exact absurd (hs.trans ((hp.free_pos b hb).trans hlt)) (lt_irrefl _)
  · exact Or.inr h

/-- A free interval that does not touch `r` does not touch the free interval around it. -/
theorem separated_around (hp : Partition full free live) (hr : r ∈ live) {lo hi : α}
    (hlo : Left free r lo) (hhi : Right free r hi) (hb : b ∈ free) (hstop : b.stop ≠ r.start)
    (hstart : b.start ≠ r.stop) : b.stop < lo ∨ hi < b.start := by
  rcases hlo.before_or_behind hp hr hb hstop with h | h
  · exact Or.inl h
  · right
    have hlt := lt_of_le_of_ne h hstart.symm
    rcases hhi with ⟨rfl, -⟩ | hc
    · exact hlt
    · have hne : b ≠ ⟨r.stop, hi⟩ := fun heq => hstart (by rw [heq])
      rcases hp.separated b hb _ hc hne with hs | hs
      · exact absurd (hlt.trans ((hp.free_pos b hb).trans hs)) (lt_irrefl _)
      · exact hs

/-- The points of the free interval around `r`. -/
theorem mem_around (hp : Partition full free live) (hr : r ∈ live) {lo hi x : α}
    (hlo : Left free r lo) (hhi : Right free r hi) (hx : x ∈ (⟨lo, hi⟩ : Span α).set) :
    x ∈ full.set := by
  by_cases h1 : x < r.start
  · rcases hlo with ⟨rfl, -⟩ | hb
    · exact absurd h1 (not_lt.mpr hx.1)
    · exact hp.subset hb ⟨hx.1, h1⟩
  · by_cases h2 : x < r.stop
    · exact hp.live_subset hr ⟨not_lt.mp h1, h2⟩
    · rcases hhi with ⟨rfl, -⟩ | hb
      · exact absurd hx.2 h2
      · exact hp.subset hb ⟨not_lt.mp h2, hx.2⟩

/-- The free interval around `r` is apart from what is apart from its parts. -/
theorem apart_around {s : Span α} {lo hi : α} (hspos : s.start < s.stop) (hlo : Left free r lo)
    (hhi : Right free r hi) (hr : r.Apart s) (hs : ∀ b ∈ free, b.Apart s) :
    (⟨lo, hi⟩ : Span α).Apart s := by
  rcases hr with h | h
  · -- `s` is behind `r`, so it is behind the interval that follows `r`
    left
    rcases hhi with ⟨rfl, -⟩ | hb
    · exact h
    · rcases hs _ hb with h' | h'
      · exact h'
      · exact absurd (h.trans_lt (hspos.trans_le h')) (lt_irrefl _)
  · right
    rcases hlo with ⟨rfl, -⟩ | hb
    · exact h
    · rcases hs _ hb with h' | h'
      · exact absurd (h'.trans_lt (hspos.trans_le h)) (lt_irrefl _)
      · exact h'

/-- **An interval is given back** and joined with those that it touches. -/
theorem merge (hp : Partition full free live) (hr : r ∈ live) {lo hi : α}
    (hlo : Left free r lo) (hhi : Right free r hi)
    (hfree : ∀ c, c ∈ free' ↔ (c ∈ free ∧ c.stop ≠ r.start ∧ c.start ≠ r.stop) ∨ c = ⟨lo, hi⟩) :
    Partition full free' (live.erase r) := by
  have hpos := hp.live_pos r hr
  have hlo' := hlo.le hp
  have hhi' := hhi.le hp
  have hnodup : live.Nodup := by
    refine hp.live_apart.imp_of_mem ?_
    rintro s _ hs - happ rfl
    have hspos := hp.live_pos s hs
    rcases happ with h | h <;> exact absurd hspos (not_lt.mpr h)
  have hmem : ∀ s, s ∈ live.erase r ↔ s ≠ r ∧ s ∈ live := by
    intro s
    exact hnodup.mem_erase_iff
  have happ : ∀ s ∈ live, s ≠ r → r.Apart s := by
    intro s hs hne
    exact hp.live_apart.forall hr hs hne.symm
  refine ⟨?_, ?_, ?_, ?_, ?_, ?_⟩
  · intro c hc
    rcases (hfree c).mp hc with ⟨hc, -⟩ | rfl
    · exact hp.free_pos c hc
    · exact hlo'.trans_lt (hpos.trans_le hhi')
  · intro s hs
    exact hp.live_pos s ((hmem s).mp hs).2
  · intro c hc d hd hne
    rcases (hfree c).mp hc with ⟨hc, hc1, hc2⟩ | rfl
    · rcases (hfree d).mp hd with ⟨hd, -⟩ | rfl
      · exact hp.separated c hc d hd hne
      · exact hp.separated_around hr hlo hhi hc hc1 hc2
    · rcases (hfree d).mp hd with ⟨hd, hd1, hd2⟩ | rfl
      · exact (hp.separated_around hr hlo hhi hd hd1 hd2).symm
      · exact absurd rfl hne
  · exact hp.live_apart.sublist List.erase_sublist
  · intro c hc s hs
    obtain ⟨hne, hs⟩ := (hmem s).mp hs
    rcases (hfree c).mp hc with ⟨hc, -⟩ | rfl
    · exact hp.apart c hc s hs
    · exact apart_around (hp.live_pos s hs) hlo hhi (happ s hs hne)
        (fun b hb => hp.apart b hb s hs)
  · intro x
    constructor
    · intro hx
      rcases (hp.cover x).mp hx with ⟨b, hb, hx⟩ | ⟨s, hs, hx⟩
      · by_cases h1 : b.stop = r.start
        · obtain rfl := hlo.eq_of_stop hp hb h1
          exact Or.inl ⟨_, (hfree _).mpr (Or.inr rfl), hx.1,
            hx.2.trans (hpos.trans_le hhi')⟩
        · by_cases h2 : b.start = r.stop
          · obtain rfl := hhi.eq_of_start hp hb h2
            exact Or.inl ⟨_, (hfree _).mpr (Or.inr rfl), hlo'.trans (hpos.le.trans hx.1), hx.2⟩
          · exact Or.inl ⟨b, (hfree b).mpr (Or.inl ⟨hb, h1, h2⟩), hx⟩
      · by_cases hsr : s = r
        · subst hsr
          exact Or.inl ⟨_, (hfree _).mpr (Or.inr rfl), hlo'.trans hx.1, hx.2.trans_le hhi'⟩
        · exact Or.inr ⟨s, (hmem s).mpr ⟨hsr, hs⟩, hx⟩
    · rintro (⟨c, hc, hx⟩ | ⟨s, hs, hx⟩)
      · rcases (hfree c).mp hc with ⟨hc, -⟩ | rfl
        · exact hp.subset hc hx
        · exact hp.mem_around hr hlo hhi hx
      · exact hp.live_subset ((hmem s).mp hs).2 hx

end Partition

end

end Vostd
