/-
# Marking a removed subtree

`dfs_mark_stray_and_unlock` visits every node of a subtree that has just been
removed from its table.  It changes nothing but the stray marks, exactly in the
nodes below the removed one (`post_dfsMarkStray`), and returns the number of pages
that the lowest nodes of the subtree map.
-/
import Vostd.PageTable.CursorInv

namespace Vostd

open Exec

variable {P : Type} {m m' : Mem P} {S : ℕ → Prop} {q p : ℕ}

/-! ## Marks -/

/-- `m'` is `m` with the nodes in `S` marked as stray; what is in use stays in use. -/
structure MarkedBy (m m' : Mem P) (S : ℕ → Prop) : Prop where
  some : ∀ p k, m.nodes p = some k → ∃ k', m'.nodes p = some k' ∧ k'.cfg = k.cfg ∧
    k'.level = k.level ∧ k'.nrChildren = k.nrChildren ∧ k'.entries = k.entries ∧
    (S p → k'.stray = true) ∧ (¬S p → k'.stray = k.stray)
  none : ∀ p, m.nodes p = none → m'.nodes p = none
  used : ∀ p, m.refCount p ≠ 0 → m'.refCount p ≠ 0
  pool : m'.pool = m.pool

namespace MarkedBy

variable {m m' m'' : Mem P} {S T : ℕ → Prop}

theorem refl (m : Mem P) : MarkedBy m m (fun _ => False) where
  some := fun _ k hk => ⟨k, hk, rfl, rfl, rfl, rfl, fun h => h.elim, fun _ => rfl⟩
  none := fun _ h => h
  used := fun _ h => h
  pool := rfl

theorem trans (h : MarkedBy m m' S) (h' : MarkedBy m' m'' T) :
    MarkedBy m m'' (fun p => S p ∨ T p) where
  some := by
    intro p k hk
    obtain ⟨k', hk', hc, hl, hn, he, hS, hS'⟩ := h.some p k hk
    obtain ⟨k'', hk'', hc', hl', hn', he', hT, hT'⟩ := h'.some p k' hk'
    refine ⟨k'', hk'', hc'.trans hc, hl'.trans hl, hn'.trans hn, he'.trans he, ?_, ?_⟩
    · intro hor
      by_cases ht : T p
      · exact hT ht
      · rw [hT' ht, hS (hor.resolve_right ht)]
    · intro hnor
      rw [hT' (fun ht => hnor (Or.inr ht)), hS' (fun hs => hnor (Or.inl hs))]
  none := fun p hp => h'.none p (h.none p hp)
  used := fun p hp => h'.used p (h.used p hp)
  pool := h'.pool.trans h.pool

theorem congr (h : MarkedBy m m' S) (hST : ∀ p, S p ↔ T p) : MarkedBy m m' T where
  some := by
    intro p k hk
    obtain ⟨k', hk', hc, hl, hn, he, hS, hS'⟩ := h.some p k hk
    exact ⟨k', hk', hc, hl, hn, he, fun ht => hS ((hST p).mpr ht),
      fun ht => hS' (fun hs => ht ((hST p).mp hs))⟩
  none := h.none
  used := h.used
  pool := h.pool

/-- The nodes of the marked memory, seen from the other one. -/
theorem of_some (h : MarkedBy m m' S) {p : ℕ} {k' : Node P} (hk' : m'.nodes p = Option.some k') :
    ∃ k, m.nodes p = Option.some k ∧ k'.cfg = k.cfg ∧ k'.level = k.level ∧
      k'.nrChildren = k.nrChildren ∧ k'.entries = k.entries ∧
      (S p → k'.stray = true) ∧ (¬S p → k'.stray = k.stray) := by
  cases hk : m.nodes p with
  | none =>
      rw [h.none p hk] at hk'
      cases hk'
  | some k =>
      obtain ⟨k₁, hk₁, hrest⟩ := h.some p k hk
      rw [hk'] at hk₁
      obtain rfl := Option.some.inj hk₁
      exact ⟨k, rfl, hrest⟩

/-- Another reference changes no node. -/
theorem addRef (h : MarkedBy m m' S) (pa : ℕ) : MarkedBy m
    { m' with refCount := Function.update m'.refCount pa (m'.refCount pa + 1) } S where
  some := h.some
  none := h.none
  used := by
    intro p hp
    show Function.update m'.refCount pa (m'.refCount pa + 1) p ≠ 0
    by_cases hpa : p = pa
    · rw [hpa, Function.update_self]
      exact Nat.succ_ne_zero _
    · rw [Function.update_of_ne hpa]
      exact h.used p hp
  pool := h.pool

theorem slots_eq {k k' : Node P} (hc : k'.cfg = k.cfg) (hl : k'.level = k.level) :
    k'.slots = k.slots := by
  unfold Node.slots
  rw [hc, hl]

/-- Entries are not touched. -/
theorem entry_eq (h : MarkedBy m m' S) (p i : ℕ) : m'.entry p i = m.entry p i := by
  cases hk : m.nodes p with
  | none => simp only [Mem.entry, hk, h.none p hk]
  | some k =>
      obtain ⟨k', hk', -, -, -, he, -⟩ := h.some p k hk
      rw [Mem.entry_eq hk, Mem.entry_eq hk', he]

theorem owns_iff (h : MarkedBy m m' S) {p i c : ℕ} : Owns m' p i c ↔ Owns m p i c := by
  constructor
  · rintro ⟨k', hk', hs, he⟩
    obtain ⟨k, hk, hc, hl, -, hent, -⟩ := h.of_some hk'
    exact ⟨k, hk, by rwa [← slots_eq hc hl], by rwa [← hent]⟩
  · rintro ⟨k, hk, hs, he⟩
    obtain ⟨k', hk', hc, hl, -, hent, -⟩ := h.some p k hk
    exact ⟨k', hk', by rwa [slots_eq hc hl], by rwa [hent]⟩

theorem nodeAt_eq (h : MarkedBy m m' S) (root a : ℕ) {l : ℕ} (h4 : l ≤ 4) :
    nodeAt m' root a l = nodeAt m root a l :=
  nodeAt_eq_of_agree h4 (fun _ _ _ q _ => h.entry_eq q _)

theorem pageWalk_eq (h : MarkedBy m m' S) (root a : ℕ) : pageWalk m' root a = pageWalk m root a :=
  pageWalk_eq_of_agree (fun _ _ _ q _ => h.entry_eq q _)

end MarkedBy

/-- Marking nodes keeps the memory well formed if no managed entry leads from an
unmarked node to a marked one or back. -/
theorem WellFormed.marked (h : WellFormed m)
    (hm : MarkedBy m m' S) (hS : ∀ p i c, Owns m p i c → (S p ↔ S c)) : WellFormed m' where
  ok := by
    intro p k' hk'
    obtain ⟨k, hk, hc, hl, hn, he, hs, hs'⟩ := hm.of_some hk'
    have hok := h.ok p k hk
    have hslots := MarkedBy.slots_eq hc hl
    refine ⟨hl ▸ hok.level_pos, hl ▸ hok.level_le, hm.used p hok.alive, ?_, ?_, ?_⟩
    · rw [hn, hok.count, Node.presentCount, Node.presentCount, hslots, he]
    · intro i c hi hent
      rw [hslots] at hi
      rw [he] at hent
      obtain ⟨d, hd, hdl, hdc, hds⟩ := hok.child i c hi hent
      obtain ⟨d', hd', hc', hl', -, -, hsd, hsd'⟩ := hm.some c d hd
      refine ⟨d', hd', by rw [hl', hl, hdl], by rw [hc', hc, hdc], ?_⟩
      have hiff := hS p i c ⟨k, hk, hi, hent⟩
      by_cases hp : S p
      · rw [hs hp, hsd (hiff.mp hp)]
      · rw [hs' hp, hsd' (fun hc => hp (hiff.mpr hc)), hds]
    · intro i pa prop hi hent
      rw [hslots] at hi
      rw [he] at hent
      rw [Node.MapsFrames, hl, hc]
      exact hok.leaf i pa prop hi hent
  unique := by
    intro p i p' i' q hp hp'
    exact h.unique (hm.owns_iff.mp hp) (hm.owns_iff.mp hp')
  borrowed := by
    intro r k' i c hk' hi hun hent
    obtain ⟨k, hk, hc, hl, -, he, -⟩ := hm.of_some hk'
    rw [MarkedBy.slots_eq hc hl] at hun
    rw [he] at hent
    obtain ⟨r₁, n₁, hr₁, hl₁, hcan, hs₁, he₁⟩ := h.borrowed r k i c hk hi hun hent
    obtain ⟨n₂, hr₂, hc₂, hl₂, -, he₂, -⟩ := hm.some r₁ n₁ hr₁
    exact ⟨r₁, n₂, hr₂, by rw [hl₂, hl₁], by rw [hc₂, hcan],
      by rwa [MarkedBy.slots_eq hc₂ hl₂], by rw [he₂, he₁]⟩

/-! ## The nodes below a node -/

/-- `Below m q p`: the node `p` is in the subtree of `q`. -/
inductive Below (m : Mem P) : ℕ → ℕ → Prop
  | refl (q : ℕ) : Below m q q
  | head {q i c p : ℕ} (h : Owns m q i c) (hb : Below m c p) : Below m q p

theorem MarkedBy.below_iff (h : MarkedBy m m' S) :
    Below m' q p ↔ Below m q p := by
  constructor
  · intro hb
    induction hb with
    | refl q => exact Below.refl q
    | head ho _ ih => exact Below.head (h.owns_iff.mp ho) ih
  · intro hb
    induction hb with
    | refl q => exact Below.refl q
    | head ho _ ih => exact Below.head (h.owns_iff.mpr ho) ih

theorem Below.tail {i c : ℕ} (hb : Below m q p) (h : Owns m p i c) :
    Below m q c := by
  induction hb with
  | refl q => exact Below.head h (Below.refl c)
  | head ho _ ih => exact Below.head ho (ih h)

/-- A node below `q` is `q` itself or has an owner below `q`. -/
theorem Below.eq_or_owned (hb : Below m q p) :
    p = q ∨ ∃ p' i, Below m q p' ∧ Owns m p' i p := by
  induction hb with
  | refl q => exact Or.inl rfl
  | @head q i c p ho _ ih =>
      rcases ih with rfl | ⟨p', j, hb', ho'⟩
      · exact Or.inr ⟨q, i, Below.refl q, ho⟩
      · exact Or.inr ⟨p', j, Below.head ho hb', ho'⟩

/-- Levels go down. -/
theorem Below.level_le (h : WellFormed m) (hb : Below m q p) {n : Node P}
    (hn : m.nodes q = some n) : ∃ k, m.nodes p = some k ∧ k.level ≤ n.level := by
  induction hb generalizing n with
  | refl q => exact ⟨n, hn, le_rfl⟩
  | @head q i c p ho _ ih =>
      obtain ⟨n', hn', hs, he⟩ := ho
      rw [hn] at hn'
      obtain rfl := Option.some.inj hn'
      obtain ⟨k, hk, hkl, -⟩ := (h.ok q n hn).child i c hs he
      obtain ⟨k', hk', hle⟩ := ih hk
      exact ⟨k', hk', by omega⟩

/-! ## The traversal -/

/-- What a child node contributes to a count. -/
def Pte.ofNode (f : ℕ → ℕ) : Pte P → ℕ
  | .table c => f c
  | .absent | .frame _ _ => 0

/-- The pages that the lowest nodes below `q` map, by their counters. -/
def framesBelow (m : Mem P) : ℕ → ℕ → ℕ
  | 0, _ => 0
  | l + 1, q =>
      match m.nodes q with
      | none => 0
      | some n =>
          if n.level = 1 then n.nrChildren
          else ∑ i ∈ Finset.range 512, (n.entries i).ofNode (framesBelow m l)

theorem MarkedBy.framesBelow_eq (h : MarkedBy m m' S) (l : ℕ) :
    ∀ q, framesBelow m' l q = framesBelow m l q := by
  induction l with
  | zero => intro q; rfl
  | succ l ih =>
      intro q
      cases hk : m.nodes q with
      | none => simp only [framesBelow, hk, h.none q hk]
      | some k =>
          obtain ⟨k', hk', -, hl, hn, he, -⟩ := h.some q k hk
          have hfun : framesBelow m' l = framesBelow m l := funext ih
          simp only [framesBelow, hk, hk', hl, hn, he, hfun]

/-- The part of the invariant that does not depend on stray marks: children are
live nodes one level lower. -/
def LevelsOK (m : Mem P) : Prop :=
  ∀ p k, m.nodes p = some k → 1 ≤ k.level ∧ ∀ i c, k.slots.Contains i → k.entries i = .table c →
    ∃ d, m.nodes c = some d ∧ d.level + 1 = k.level

theorem WellFormed.levelsOK (h : WellFormed m) : LevelsOK m := by
  intro p k hk
  refine ⟨(h.ok p k hk).level_pos, ?_⟩
  intro i c hi he
  obtain ⟨d, hd, hl, -⟩ := (h.ok p k hk).child i c hi he
  exact ⟨d, hd, hl⟩

theorem MarkedBy.levelsOK (hm : MarkedBy m m' S) (h : LevelsOK m) : LevelsOK m' := by
  intro p k' hk'
  obtain ⟨k, hk, hc, hl, -, he, -⟩ := hm.of_some hk'
  obtain ⟨hpos, hchild⟩ := h p k hk
  refine ⟨by omega, ?_⟩
  intro i c hi hent
  rw [MarkedBy.slots_eq hc hl] at hi
  rw [he] at hent
  obtain ⟨d, hd, hdl⟩ := hchild i c hi hent
  obtain ⟨d', hd', -, hl', -⟩ := hm.some c d hd
  exact ⟨d', hd', by omega⟩

/-- The nodes that the loop over the entries of `q` has marked before entry `i`. -/
def MarkedBefore (m : Mem P) (q : ℕ) (n : Node P) (i p : ℕ) : Prop :=
  p = q ∨ ∃ j c, j < i ∧ n.entries j = .table c ∧ Below m c p

theorem markedBefore_all {n : Node P} (hq : m.nodes q = some n)
    (hl : n.level < 4) (p : ℕ) : MarkedBefore m q n 512 p ↔ Below m q p := by
  constructor
  · rintro (rfl | ⟨j, c, hj, he, hb⟩)
    · exact Below.refl p
    · exact Below.head ⟨n, hq, Node.slots_of_level_lt hl hj, he⟩ hb
  · intro hb
    cases hb with
    | refl => exact Or.inl rfl
    | head ho hb =>
        obtain ⟨n', hn', hs, he⟩ := ho
        rw [hq] at hn'
        obtain rfl := Option.some.inj hn'
        exact Or.inr ⟨_, _, Node.slots_lt hs, he, hb⟩

section

variable {m : Mem P} {q : ℕ} {n : Node P}

/-- The node itself is marked first. -/
theorem markedBy_self (hq : m.nodes q = some n) :
    MarkedBy m (m.setNode q { n with stray := true }) (MarkedBefore m q n 0) := by
  refine ⟨?_, ?_, fun _ h => h, rfl⟩
  · intro p k hk
    by_cases hp : p = q
    · subst hp
      rw [hq] at hk
      obtain rfl := Option.some.inj hk
      exact ⟨_, Mem.setNode_nodes_self _ _ _, rfl, rfl, rfl, rfl, fun _ => rfl,
        fun hn => absurd (Or.inl rfl) hn⟩
    · refine ⟨k, by rw [Mem.setNode_nodes_of_ne _ _ hp, hk], rfl, rfl, rfl, rfl, ?_,
        fun _ => rfl⟩
      rintro (rfl | ⟨j, c, hj, -⟩)
      · exact absurd rfl hp
      · exact absurd hj (Nat.not_lt_zero j)
  · intro p hp
    rw [Mem.setNode_nodes_of_ne _ _ (by rintro rfl; rw [hq] at hp; cases hp), hp]

/-- A node of level one has no children, so it is its own subtree. -/
theorem LevelsOK.markedBefore_leaf (hL : LevelsOK m) (hq : m.nodes q = some n)
    (hl : n.level = 1) (p : ℕ) : MarkedBefore m q n 0 p ↔ Below m q p := by
  rw [← markedBefore_all hq (by omega)]
  constructor
  · rintro (rfl | ⟨j, c, hj, -⟩)
    · exact Or.inl rfl
    · exact absurd hj (Nat.not_lt_zero j)
  · rintro (rfl | ⟨j, c, hj, he, -⟩)
    · exact Or.inl rfl
    · obtain ⟨d, hd, hdl⟩ := (hL q n hq).2 j c (Node.slots_of_level_lt (by omega) hj) he
      have := (hL c d hd).1
      omega

/-- An entry that is no child leaves everything as it is. -/
theorem markedBefore_skip {i : ℕ} (hno : ∀ c, n.entries i ≠ .table c) (p : ℕ) :
    MarkedBefore m q n i p ↔ MarkedBefore m q n (i + 1) p := by
  constructor
  · rintro (hp | ⟨j, c, hj, hrest⟩)
    · exact Or.inl hp
    · exact Or.inr ⟨j, c, by omega, hrest⟩
  · rintro (hp | ⟨j, c, hj, he, hb⟩)
    · exact Or.inl hp
    · refine Or.inr ⟨j, c, ?_, he, hb⟩
      rcases Nat.lt_succ_iff_lt_or_eq.mp hj with h | rfl
      · exact h
      · exact absurd he (hno c)

/-- An entry that is a child adds the subtree of the child. -/
theorem markedBefore_child {i c : ℕ} (he : n.entries i = .table c) (p : ℕ) :
    MarkedBefore m q n i p ∨ Below m c p ↔ MarkedBefore m q n (i + 1) p := by
  constructor
  · rintro ((hp | ⟨j, c', hj, hrest⟩) | hb)
    · exact Or.inl hp
    · exact Or.inr ⟨j, c', by omega, hrest⟩
    · exact Or.inr ⟨i, c, by omega, he, hb⟩
  · rintro (hp | ⟨j, c', hj, he', hb⟩)
    · exact Or.inl (Or.inl hp)
    · rcases Nat.lt_succ_iff_lt_or_eq.mp hj with h | rfl
      · exact Or.inl (Or.inr ⟨j, c', h, he', hb⟩)
      · rw [he] at he'
        injection he' with hcc
        subst hcc
        exact Or.inr hb

end

/-- **The traversal marks exactly the subtree.** -/
theorem post_dfsMarkStray {A : Fault → Prop} (fuel : ℕ) : ∀ (m : Mem P) (q : ℕ) (n : Node P),
    LevelsOK m → m.nodes q = some n → n.level ≤ fuel → n.level < 4 →
    Post A (m.dfsMarkStrayAndUnlock fuel q)
      (fun r => MarkedBy m r.2 (Below m q) ∧ r.2.refCount = m.refCount ∧
        r.1 = framesBelow m fuel q) := by
  induction fuel with
  | zero =>
      intro m q n hL hq hfuel _
      have := (hL q n hq).1
      omega
  | succ fuel ih =>
      intro m q n hL hq hfuel h4
      obtain ⟨hpos, hchild⟩ := hL q n hq
      rw [Mem.dfsMarkStrayAndUnlock]
      refine post_node_bind hq ?_
      refine post_ite ?_ ?_
      · intro hl1
        exact ⟨(markedBy_self hq).congr (hL.markedBefore_leaf hq hl1), rfl,
          by simp only [framesBelow, hq, hl1, if_true]⟩
      · intro hl1
        refine Post.mono (post_forRange (fun i s => MarkedBy m s.2 (MarkedBefore m q n i) ∧
            s.2.refCount = m.refCount ∧ s.1 = ∑ j ∈ Finset.range i, (n.entries j).ofNode
              (framesBelow m fuel))
          NR_ENTRIES 0 (0, m.setNode q { n with stray := true }) ⟨markedBy_self hq, rfl, rfl⟩ ?_) ?_
        rotate_left
        · rintro ⟨k, m'⟩ ⟨hm', hrc, hk⟩
          rw [Nat.zero_add] at hm' hk
          refine ⟨hm'.congr (fun p => markedBefore_all hq h4 p), hrc, ?_⟩
          rw [framesBelow, hq]
          simp only [if_neg hl1]
          exact hk
        · rintro i ⟨k, m₁⟩ - hi ⟨hm₁, hrc, hk⟩
          simp only at hm₁ hrc hk
          obtain ⟨n₁, hn₁, -, -, -, hent, -⟩ := hm₁.some q n hq
          refine post_node_bind hn₁ ?_
          have hi' : i < 512 := by simpa [NR_ENTRIES] using hi
          rw [hent]
          have hskip : (∀ c, n.entries i ≠ .table c) →
              (n.entries i).ofNode (framesBelow m fuel) = 0 →
              MarkedBy m m₁ (MarkedBefore m q n (i + 1)) ∧ m₁.refCount = m.refCount ∧
                k = ∑ j ∈ Finset.range (i + 1), (n.entries j).ofNode (framesBelow m fuel) := by
            intro hno hzero
            rw [Finset.sum_range_succ, hzero, Nat.add_zero]
            exact ⟨hm₁.congr (markedBefore_skip hno), hrc, hk⟩
          cases he : n.entries i with
          | absent => exact hskip (by rw [he]; simp) (by rw [he]; rfl)
          | frame pa prop => exact hskip (by rw [he]; simp) (by rw [he]; rfl)
          | table c =>
              obtain ⟨d, hd, hdl⟩ := hchild i c (Node.slots_of_level_lt h4 hi') he
              obtain ⟨d₁, hd₁, -, hdl₁, -⟩ := hm₁.some c d hd
              refine Post.bind (ih m₁ c d₁ (hm₁.levelsOK hL) hd₁ (by omega) (by omega)) ?_
              rintro ⟨k', m₂⟩ ⟨hm₂, hrc', hk'⟩
              refine ⟨(hm₁.trans hm₂).congr ?_, hrc'.trans hrc, ?_⟩
              · intro p
                rw [hm₁.below_iff]
                exact markedBefore_child he p
              · show k + k' = _
                simp only at hk'
                rw [hk', hm₁.framesBelow_eq, hk, Finset.sum_range_succ, he]
                rfl

end Vostd
