/-
# Releasing the locks of a range

`dfs_release_lock` of `cursor/locking.rs`, which `unlock_range` runs when a cursor is
dropped.  It is meant to undo `dfs_acquire_lock` in the reverse order.  For a range
with the indices `start..end` in a node, `dfs_acquire_lock` visits
`start, ..., end - 1`, and `dfs_release_lock` visits `end - i` for the same `i`, that
is `end - start, ..., 1`.

The two traversals are written as loops that collect what their children return
(`dfsAcquireLock_succ`, `dfsReleaseLock_succ`), and compared child by child.  The
result says for which trees and ranges the nodes released are the nodes locked
(`ReleaseMatches`).
-/
import Vostd.Lib.Collect
import Vostd.PageTable.Exclusion

namespace Vostd

open Exec

variable {P : Type}

/-! ## The code -/

/-- `dfs_release_lock`: the nodes below a node in the order in which they are unlocked.
The guard of a child is dropped after the traversal of the child. -/
def dfsReleaseLock : ℕ → Mem P → ℕ → ℕ → AddrRange → Exec (List ℕ)
  | 0, _, _, _, _ => .error .outOfFuel
  | fuel + 1, m, q, nodeVa, r => do
      let n ← m.node q
      if n.level = 1 then .ok []
      else do
        let idx ← dfsGetIdxRange n.level nodeVa r
        Exec.forRange (fun i unlocked => do
            let j ← Exec.sub idx.stop i
            -- `PageTableGuard::entry`
            Exec.check (j < NR_ENTRIES)
            match n.entries j with
            | .table pt => do
                let childVa ← Exec.add nodeVa (j * pageSize n.level)
                let childVaEnd ← Exec.add childVa (pageSize n.level)
                let below ← dfsReleaseLock fuel m pt childVa
                  ⟨max r.start childVa, min r.stop childVaEnd⟩
                .ok (unlocked ++ (below ++ [pt]))
            | _ => .ok unlocked) idx.start (idx.stop - idx.start) []

/-- The trees and ranges for which the indices that are released hold the children
that were locked: at every node that the range reaches, the range does not have all
512 slots of the node, and the slots `start..end` and `1..=end - start` hold the same
child nodes. -/
def ReleaseMatches : ℕ → Mem P → ℕ → ℕ → AddrRange → Prop
  | 0, _, _, _, _ => True
  | fuel + 1, m, q, nodeVa, r => ∀ n, m.nodes q = some n → n.level ≠ 1 →
      idxHi n.level nodeVa r - idxLo n.level nodeVa r < NR_ENTRIES ∧
      (∀ i pt, i < NR_ENTRIES → n.entries i = .table pt →
        (idxLo n.level nodeVa r ≤ i ∧ i < idxHi n.level nodeVa r ↔
          1 ≤ i ∧ i ≤ idxHi n.level nodeVa r - idxLo n.level nodeVa r)) ∧
      ∀ i pt, idxLo n.level nodeVa r ≤ i → i < idxHi n.level nodeVa r → n.entries i = .table pt →
        ReleaseMatches fuel m pt (nodeVa + i * pageSize n.level)
          (clip r (nodeVa + i * pageSize n.level) (pageSize n.level))

/-! ## Children of a live node -/

section

variable {m : Mem P} {q : ℕ} {n : Node P}

/-- A child is live and one level lower, also in a slot that the node does not manage. -/
theorem WellFormed.child_level (hW : WellFormed m) (hn : m.nodes q = some n) {i c : ℕ}
    (hi : i < 512) (he : n.entries i = .table c) :
    ∃ k, m.nodes c = some k ∧ k.level + 1 = n.level := by
  by_cases hs : n.slots.Contains i
  · obtain ⟨k, hk, hkl, -⟩ := (hW.ok q n hn).child i c hs he
    exact ⟨k, hk, hkl⟩
  · -- only a root has slots that it does not manage
    have hl4 : n.level = 4 := by
      by_contra hne
      have := (hW.ok q n hn).level_le
      exact hs (Node.slots_of_level_lt (by omega) hi)
    obtain ⟨r', n', hn', hl', -, hs', he'⟩ := hW.borrowed q n i c hn hi hs he
    obtain ⟨k, hk, hkl, -⟩ := (hW.ok r' n' hn').child i c hs' he'
    exact ⟨k, hk, by omega⟩

/-- The slot of a child that some table owns. -/
theorem WellFormed.exists_owns (hW : WellFormed m) (hn : m.nodes q = some n) {i c : ℕ}
    (hi : i < 512) (he : n.entries i = .table c) : ∃ p, Owns m p i c := by
  by_cases hs : n.slots.Contains i
  · exact ⟨q, n, hn, hs, he⟩
  · obtain ⟨r', n', hn', -, -, hs', he'⟩ := hW.borrowed q n i c hn hi hs he
    exact ⟨r', n', hn', hs', he'⟩

/-- A child is in one slot. -/
theorem WellFormed.index_inj (hW : WellFormed m) (hn : m.nodes q = some n) {i j c : ℕ}
    (hi : i < 512) (hj : j < 512) (hei : n.entries i = .table c) (hej : n.entries j = .table c) :
    i = j := by
  obtain ⟨p, hp⟩ := hW.exists_owns hn hi hei
  obtain ⟨p', hp'⟩ := hW.exists_owns hn hj hej
  exact (hW.unique hp hp').2

end

/-! ## The indices of a range -/

section

variable {r : AddrRange} {nodeVa level : ℕ}

theorem InSpan.idxHi_le (h : InSpan r nodeVa level) (hl : 1 ≤ level) :
    idxHi level nodeVa r ≤ 512 := by
  have hpos := pageSize_pos level
  have hstop := h.stop_le
  rw [pageSize_succ hl] at hstop
  unfold idxHi
  apply Nat.le_of_lt_succ
  rw [Nat.div_lt_iff_lt_mul hpos]
  have : (512 + 1) * pageSize level = 512 * pageSize level + pageSize level := by ring
  omega

/-- The part of the range at one of its indices lies in the span of the child. -/
theorem InSpan.clip (h : InSpan r nodeVa (level + 1)) {i : ℕ}
    (hlo : idxLo (level + 1) nodeVa r ≤ i) (hhi : i < idxHi (level + 1) nodeVa r) :
    InSpan (clip r (nodeVa + i * pageSize (level + 1)) (pageSize (level + 1)))
      (nodeVa + i * pageSize (level + 1)) level where
  start_le := le_max_right _ _
  nonempty := h.clip_nonempty hlo hhi
  stop_le := min_le_right _ _

end

/-! ## The traversals as loops over children -/

/-- The visit of one slot: of its child, if it has one, with the part of the range in
the slot.  `order` puts the child and what is below it in the order of the visit. -/
def visitChild (visit : ℕ → ℕ → AddrRange → Exec (List ℕ)) (order : ℕ → List ℕ → List ℕ)
    (n : Node P) (nodeVa : ℕ) (r : AddrRange) (i : ℕ) : Exec (List ℕ) :=
  match n.entries i with
  | .table pt => do
      let childVa ← Exec.add nodeVa (i * pageSize n.level)
      let childVaEnd ← Exec.add childVa (pageSize n.level)
      let below ← visit pt childVa ⟨max r.start childVa, min r.stop childVaEnd⟩
      .ok (order pt below)
  | _ => .ok []

section

variable {visit : ℕ → ℕ → AddrRange → Exec (List ℕ)} {order : ℕ → List ℕ → List ℕ}
  {n : Node P} {nodeVa i : ℕ} {r : AddrRange}

theorem visitChild_of_no_table (h : ∀ pt, n.entries i ≠ .table pt) :
    visitChild visit order n nodeVa r i = .ok [] := by
  unfold visitChild
  cases he : n.entries i with
  | table pt => exact absurd he (h pt)
  | absent => rfl
  | frame pa prop => rfl

/-- A child is visited if the address of its end does not overflow. -/
theorem visitChild_eq_ok {pt : ℕ} {c : List ℕ} (h : n.entries i = .table pt) :
    visitChild visit order n nodeVa r i = .ok c ↔
      nodeVa + i * pageSize n.level + pageSize n.level < 2 ^ 64 ∧
      ∃ below, visit pt (nodeVa + i * pageSize n.level)
        (clip r (nodeVa + i * pageSize n.level) (pageSize n.level)) = .ok below ∧
        c = order pt below := by
  unfold visitChild
  rw [h]
  simp only [bind_eq_ok, Exec.add]
  constructor
  · rintro ⟨a, ha, b, hb, below, hbelow, hc⟩
    split at ha
    · cases ha
      split at hb
      · cases hb
        cases hc
        exact ⟨‹_›, below, hbelow, rfl⟩
      · cases hb
    · cases ha
  · rintro ⟨hlt, below, hbelow, rfl⟩
    exact ⟨_, if_pos (by omega), _, if_pos hlt, below, hbelow, rfl⟩

variable {m : Mem P} {q : ℕ} (fuel : ℕ)

theorem dfsAcquireLock_succ (hn : m.nodes q = some n) (hl : n.level ≠ 1) (h4 : n.level ≤ 4)
    (h : InSpan r nodeVa n.level) :
    dfsAcquireLock (fuel + 1) m q nodeVa r =
      collect (visitChild (dfsAcquireLock fuel m) List.cons n nodeVa r)
        (List.range' (idxLo n.level nodeVa r)
          (idxHi n.level nodeVa r - idxLo n.level nodeVa r)) := by
  rw [dfsAcquireLock, Mem.node, hn]
  show (if n.level = 1 then _ else _) = _
  rw [if_neg hl, h.dfsGetIdxRange_eq h4]
  apply forRange_collect
  intro i locked
  unfold visitChild
  cases n.entries i with
  | table pt => simp only [bind_assoc]; rfl
  | absent => simp [bind, Except.bind]
  | frame pa prop => simp [bind, Except.bind]

/-- The visit of the slot `end - i`. -/
def releaseAt (fuel : ℕ) (m : Mem P) (n : Node P) (nodeVa : ℕ) (r : AddrRange) (i : ℕ) :
    Exec (List ℕ) := do
  let j ← Exec.sub (idxHi n.level nodeVa r) i
  Exec.check (j < NR_ENTRIES)
  visitChild (dfsReleaseLock fuel m) (fun pt below => below ++ [pt]) n nodeVa r j

theorem dfsReleaseLock_succ (hn : m.nodes q = some n) (hl : n.level ≠ 1) (h4 : n.level ≤ 4)
    (h : InSpan r nodeVa n.level) :
    dfsReleaseLock (fuel + 1) m q nodeVa r =
      collect (releaseAt fuel m n nodeVa r)
        (List.range' (idxLo n.level nodeVa r)
          (idxHi n.level nodeVa r - idxLo n.level nodeVa r)) := by
  rw [dfsReleaseLock, Mem.node, hn]
  show (if n.level = 1 then _ else _) = _
  rw [if_neg hl, h.dfsGetIdxRange_eq h4]
  apply forRange_collect
  intro i unlocked
  unfold releaseAt
  rw [bind_assoc]
  congr 1
  funext j
  rw [bind_assoc]
  congr 1
  funext _
  unfold visitChild
  cases n.entries j with
  | table pt => simp only [bind_assoc]; rfl
  | absent => simp [bind, Except.bind]
  | frame pa prop => simp [bind, Except.bind]

end

/-! ## What the traversals return -/

namespace Node

/-- The child in a slot, for a slot that has one. -/
def childAt (n : Node P) (i : ℕ) : ℕ := (n.entries i).node?.getD 0

/-- The slot has a child. -/
def hasChild (n : Node P) (i : ℕ) : Bool := (n.entries i).node?.isSome

theorem hasChild_iff {n : Node P} {i : ℕ} :
    n.hasChild i = true ↔ n.entries i = .table (n.childAt i) := by
  unfold hasChild childAt
  cases n.entries i <;> simp [Pte.node?]

theorem hasChild_of_table {n : Node P} {i pt : ℕ} (h : n.entries i = .table pt) :
    n.hasChild i = true ∧ n.childAt i = pt := by
  unfold hasChild childAt
  rw [h]
  exact ⟨rfl, rfl⟩

end Node

section

variable {visit : ℕ → ℕ → AddrRange → Exec (List ℕ)} {order : ℕ → List ℕ → List ℕ}
  {n : Node P} {nodeVa : ℕ} {r : AddrRange}

/-- The visit of the child in slot `i` returns `below`. -/
def ChildReturns (visit : ℕ → ℕ → AddrRange → Exec (List ℕ)) (n : Node P) (nodeVa : ℕ)
    (r : AddrRange) (i : ℕ) (below : List ℕ) : Prop :=
  nodeVa + i * pageSize n.level + pageSize n.level < 2 ^ 64 ∧
    visit (n.childAt i) (nodeVa + i * pageSize n.level)
      (clip r (nodeVa + i * pageSize n.level) (pageSize n.level)) = .ok below

/-- **A loop over slots** returns what its children return, in the order of the loop. -/
theorem collect_visitChild_eq_ok {is l : List ℕ} :
    collect (visitChild visit order n nodeVa r) is = .ok l ↔
      ∃ b : ℕ → List ℕ, (∀ i ∈ is.filter n.hasChild, ChildReturns visit n nodeVa r i (b i)) ∧
        l = (is.filter n.hasChild).flatMap (fun i => order (n.childAt i) (b i)) := by
  have hno : ∀ i, n.hasChild i = false → ∀ pt, n.entries i ≠ .table pt := by
    intro i hi pt he
    rw [(Node.hasChild_of_table he).1] at hi
    cases hi
  rw [collect_eq_ok]
  constructor
  · rintro ⟨g, hg, rfl⟩
    have hchild : ∀ i, ∃ below, i ∈ is.filter n.hasChild →
        ChildReturns visit n nodeVa r i below ∧ g i = order (n.childAt i) below := by
      intro i
      by_cases hi : i ∈ is.filter n.hasChild
      · obtain ⟨hmem, hT⟩ := List.mem_filter.mp hi
        obtain ⟨hlt, below, hb, hgi⟩ := (visitChild_eq_ok (Node.hasChild_iff.mp hT)).mp (hg i hmem)
        exact ⟨below, fun _ => ⟨⟨hlt, hb⟩, hgi⟩⟩
      · exact ⟨[], fun h => absurd h hi⟩
    choose b hb using hchild
    refine ⟨b, fun i hi => (hb i hi).1, ?_⟩
    rw [flatMap_eq_filter (T := n.hasChild)]
    · exact List.flatMap_congr fun i hi => (hb i hi).2
    · intro i hi hT
      have hgi := hg i hi
      rw [visitChild_of_no_table (hno i hT)] at hgi
      exact (Except.ok.inj hgi).symm
  · rintro ⟨b, hb, rfl⟩
    refine ⟨fun i => if n.hasChild i then order (n.childAt i) (b i) else [], ?_, ?_⟩
    · intro i hi
      show visitChild visit order n nodeVa r i =
        .ok (if n.hasChild i then order (n.childAt i) (b i) else [])
      by_cases hT : n.hasChild i = true
      · rw [if_pos hT, visitChild_eq_ok (Node.hasChild_iff.mp hT)]
        obtain ⟨hlt, hret⟩ := hb i (List.mem_filter.mpr ⟨hi, hT⟩)
        exact ⟨hlt, b i, hret, rfl⟩
      · rw [if_neg hT, visitChild_of_no_table (hno i (by simpa using hT))]
    · rw [flatMap_eq_filter (T := n.hasChild) (c := fun i => if n.hasChild i then _ else [])]
      · apply List.flatMap_congr
        intro i hi
        rw [if_pos (List.mem_filter.mp hi).2]
      · intro i _ hT
        rw [if_neg (by simp [hT])]

/-- The indices `end - i`, for `i` in `start..end`. -/
theorem map_sub_range' (s k : ℕ) :
    (List.range' s k).map (fun i => s + k - i) = (List.range' 1 k).reverse := by
  apply List.ext_getElem
  · simp
  · intro i h₁ h₂
    simp only [List.length_map, List.length_range'] at h₁
    simp only [List.getElem_map, List.getElem_range', List.getElem_reverse, List.length_range']
    omega

/-- The release visits the slots `end - start, ..., 1`, and stops if the first of them
is not a slot. -/
theorem collect_releaseAt_eq_ok {fuel : ℕ} {m : Mem P} {l : List ℕ}
    (hlt : idxLo n.level nodeVa r < idxHi n.level nodeVa r) :
    collect (releaseAt fuel m n nodeVa r)
        (List.range' (idxLo n.level nodeVa r) (idxHi n.level nodeVa r - idxLo n.level nodeVa r)) =
        .ok l ↔
      idxHi n.level nodeVa r - idxLo n.level nodeVa r < NR_ENTRIES ∧
      collect (visitChild (dfsReleaseLock fuel m) (fun pt below => below ++ [pt]) n nodeVa r)
        (List.range' 1 (idxHi n.level nodeVa r - idxLo n.level nodeVa r)).reverse = .ok l := by
  set s := idxLo n.level nodeVa r with hs
  set e := idxHi n.level nodeVa r with he
  obtain ⟨k, hk⟩ : ∃ k, e = s + k := ⟨e - s, by omega⟩
  rw [show e - s = k from by omega, ← map_sub_range' s k]
  have hstep : ∀ i ∈ List.range' s k, ∀ c, releaseAt fuel m n nodeVa r i = .ok c ↔
      s + k - i < NR_ENTRIES ∧ visitChild (dfsReleaseLock fuel m) (fun pt below => below ++ [pt])
        n nodeVa r (s + k - i) = .ok c := by
    intro i hi c
    rw [List.mem_range'_1] at hi
    unfold releaseAt Exec.sub Exec.check
    rw [← he, hk, if_pos (by omega), bind_eq_ok]
    constructor
    · rintro ⟨j, hj, h⟩
      cases hj
      obtain ⟨_, hchk, h⟩ := bind_eq_ok.mp h
      split at hchk
      · exact ⟨‹_›, h⟩
      · cases hchk
    · rintro ⟨hlt, h⟩
      refine ⟨_, rfl, ?_⟩
      rw [if_pos hlt]
      exact h
  rw [collect_eq_ok, collect_eq_ok]
  constructor
  · rintro ⟨g, hg, rfl⟩
    constructor
    · -- the first index is `start`
      have hmem : s ∈ List.range' s k := List.mem_range'_1.mpr ⟨le_rfl, by omega⟩
      have := ((hstep s hmem _).mp (hg s hmem)).1
      omega
    · refine ⟨fun j => g (s + k - j), ?_, ?_⟩
      · intro j hj
        obtain ⟨i, hi, rfl⟩ := List.mem_map.mp hj
        have hi' := List.mem_range'_1.mp hi
        show _ = Except.ok (g (s + k - (s + k - i)))
        rw [show s + k - (s + k - i) = i from by omega]
        exact ((hstep i hi _).mp (hg i hi)).2
      · rw [List.flatMap_map]
        apply List.flatMap_congr
        intro i hi
        have hi' := List.mem_range'_1.mp hi
        rw [show s + k - (s + k - i) = i from by omega]
  · rintro ⟨hk512, g, hg, rfl⟩
    refine ⟨fun i => g (s + k - i), ?_, ?_⟩
    · intro i hi
      have hi' := List.mem_range'_1.mp hi
      exact (hstep i hi _).mpr ⟨by omega, hg _ (List.mem_map.mpr ⟨i, hi, rfl⟩)⟩
    · rw [List.flatMap_map]

end

/-! ## The two traversals compared -/

/-- Nodes of a level below `L`. -/
def LevelsBelow (m : Mem P) (L : ℕ) (l : List ℕ) : Prop :=
  ∀ p ∈ l, ∃ k, m.nodes p = some k ∧ k.level < L

section

variable {m : Mem P}

/-- The nodes that are locked below a node have lower levels. -/
theorem levelsBelow_dfsAcquireLock (hW : WellFormed m) (fuel : ℕ) :
    ∀ (q nodeVa : ℕ) (r : AddrRange) (n : Node P) (locked : List ℕ), m.nodes q = some n →
    InSpan r nodeVa n.level → dfsAcquireLock fuel m q nodeVa r = .ok locked →
    LevelsBelow m n.level locked := by
  induction fuel with
  | zero =>
      intro q nodeVa r n locked _ _ h
      cases h
  | succ fuel ih =>
      intro q nodeVa r n locked hn hspan h
      have hok := hW.ok q n hn
      by_cases hl : n.level = 1
      · rw [dfsAcquireLock, Mem.node, hn] at h
        replace h : (if n.level = 1 then Except.ok [] else _) = Except.ok locked := h
        rw [if_pos hl] at h
        cases h
        exact fun p hp => absurd hp List.not_mem_nil
      rw [dfsAcquireLock_succ fuel hn hl hok.level_le hspan, collect_visitChild_eq_ok] at h
      obtain ⟨b, hb, rfl⟩ := h
      intro p hp
      obtain ⟨i, hi, hp⟩ := List.mem_flatMap.mp hp
      obtain ⟨hmem, hT⟩ := List.mem_filter.mp hi
      rw [List.mem_range'_1] at hmem
      have hle := hspan.idxHi_le hok.level_pos
      obtain ⟨k, hk, hkl⟩ := hW.child_level hn (by omega) (Node.hasChild_iff.mp hT)
      rcases List.mem_cons.mp hp with rfl | hp
      · exact ⟨k, hk, by omega⟩
      · rw [← hkl] at hspan hmem
        have hchild := hspan.clip hmem.1 (by omega)
        obtain ⟨-, hret⟩ := hb i hi
        rw [← hkl] at hret
        obtain ⟨k', hk', hlt⟩ := ih _ _ _ k _ hk hchild hret p hp
        exact ⟨k', hk', by omega⟩

/-- The nodes that are released below a node have lower levels, whatever the range. -/
theorem levelsBelow_dfsReleaseLock (hW : WellFormed m) (fuel : ℕ) :
    ∀ (q nodeVa : ℕ) (r : AddrRange) (n : Node P), m.nodes q = some n →
    Post (fun _ => True) (dfsReleaseLock fuel m q nodeVa r) (LevelsBelow m n.level) := by
  induction fuel with
  | zero =>
      intro q nodeVa r n _
      trivial
  | succ fuel ih =>
      intro q nodeVa r n hn
      have hnil : LevelsBelow m n.level [] := fun p hp => absurd hp List.not_mem_nil
      rw [dfsReleaseLock]
      refine post_node_bind hn (post_ite (fun _ => hnil) (fun _ => ?_))
      refine Post.bind (Q := fun _ => True) ?_ ?_
      · cases dfsGetIdxRange n.level nodeVa r <;> trivial
      intro idx _
      refine post_forRange (fun _ => LevelsBelow m n.level) _ _ _ hnil ?_
      intro i unlocked _ _ hun
      refine Post.bind (post_sub (fun _ => trivial)) ?_
      intro j _
      refine Post.bind (post_check (fun _ => trivial)) ?_
      intro _ hj
      cases he : n.entries j with
      | absent => exact hun
      | frame pa prop => exact hun
      | table pt =>
          obtain ⟨k, hk, hkl⟩ := hW.child_level hn hj he
          refine Post.bind (post_add (fun _ => trivial)) ?_
          intro childVa _
          refine Post.bind (post_add (fun _ => trivial)) ?_
          intro childVaEnd _
          refine Post.bind (ih pt childVa _ k hk) ?_
          intro below hbelow p hp
          simp only [List.mem_append, List.mem_singleton] at hp
          rcases hp with hp | hp | rfl
          · exact hun p hp
          · obtain ⟨k', hk', hlt⟩ := hbelow p hp
            exact ⟨k', hk', by omega⟩
          · exact ⟨k, hk, by omega⟩

section

variable {q nodeVa fuel : ℕ} {r : AddrRange} {n : Node P}

theorem InSpan.idxLo_lt {level : ℕ} (h : InSpan r nodeVa level) :
    idxLo level nodeVa r < idxHi level nodeVa r := by
  have hpos := pageSize_pos level
  have hstart := h.start_le
  have hne := h.nonempty
  unfold idxLo idxHi
  rw [Nat.lt_div_iff_mul_lt hpos]
  have := Nat.div_mul_le_self (r.start - nodeVa) (pageSize level)
  omega

/-- **One node.**  The release of a node undoes its locking if both visit the same
children and the release of each child undoes the locking of the child. -/
theorem release_node_iff (hW : WellFormed m) (hn : m.nodes q = some n) (hl : n.level ≠ 1)
    (hspan : InSpan r nodeVa n.level) {b : ℕ → List ℕ} {I J : List ℕ}
    (hI : I = (List.range' (idxLo n.level nodeVa r)
      (idxHi n.level nodeVa r - idxLo n.level nodeVa r)).filter n.hasChild)
    (hJ : J = (List.range' 1
      (idxHi n.level nodeVa r - idxLo n.level nodeVa r)).filter n.hasChild)
    (hb : ∀ i ∈ I, ChildReturns (dfsAcquireLock fuel m) n nodeVa r i (b i)) :
    dfsReleaseLock (fuel + 1) m q nodeVa r =
        .ok (I.flatMap (fun i => n.childAt i :: b i)).reverse ↔
      idxHi n.level nodeVa r - idxLo n.level nodeVa r < NR_ENTRIES ∧ I = J ∧
      ∀ i ∈ I, dfsReleaseLock fuel m (n.childAt i) (nodeVa + i * pageSize n.level)
        (clip r (nodeVa + i * pageSize n.level) (pageSize n.level)) = .ok (b i).reverse := by
  have hok := hW.ok q n hn
  have hlt := hspan.idxLo_lt
  have hle := hspan.idxHi_le hok.level_pos
  have hI512 : ∀ i ∈ I, i < 512 ∧ n.entries i = .table (n.childAt i) := by
    intro i hi
    rw [hI, List.mem_filter, List.mem_range'_1] at hi
    exact ⟨by omega, Node.hasChild_iff.mp hi.2⟩
  have hrev : ∀ d : ℕ → List ℕ, J.reverse.flatMap (fun i => d i ++ [n.childAt i]) =
      (J.flatMap (fun i => n.childAt i :: (d i).reverse)).reverse := by
    intro d
    rw [List.reverse_flatMap]
    apply List.flatMap_congr
    intro i _
    simp
  rw [dfsReleaseLock_succ fuel hn hl hok.level_le hspan, collect_releaseAt_eq_ok hlt,
    collect_visitChild_eq_ok, List.filter_reverse, ← hJ]
  refine and_congr_right fun hk => ?_
  have hJ512 : ∀ j ∈ J, j < 512 ∧ n.entries j = .table (n.childAt j) := by
    intro j hj
    rw [hJ, List.mem_filter, List.mem_range'_1] at hj
    unfold NR_ENTRIES at hk
    exact ⟨by omega, Node.hasChild_iff.mp hj.2⟩
  constructor
  · rintro ⟨d, hd, heq⟩
    rw [hrev d, List.reverse_inj] at heq
    have hd' : ∀ j ∈ J, ChildReturns (dfsReleaseLock fuel m) n nodeVa r j (d j) :=
      fun j hj => hd j (List.mem_reverse.mpr hj)
    -- children are told apart from the nodes below them by their level
    have hlocked : ∀ i ∈ I, ∀ p ∈ b i, ¬∃ k, m.nodes p = some k ∧ k.level + 1 = n.level := by
      rintro i hi p hp ⟨k', hk', hkl'⟩
      obtain ⟨k, hk, hkl⟩ := hW.child_level hn (hI512 i hi).1 (hI512 i hi).2
      have hret := (hb i hi).2
      rw [hI, List.mem_filter, List.mem_range'_1] at hi
      rw [← hkl] at hspan hret hi
      obtain ⟨k'', hk'', hlt''⟩ := levelsBelow_dfsAcquireLock hW fuel _ _ _ k _ hk
        (hspan.clip hi.1.1 (by omega)) hret p hp
      rw [hk'] at hk''
      obtain rfl := Option.some.inj hk''
      omega
    have hreleased : ∀ j ∈ J, ∀ p ∈ (d j).reverse,
        ¬∃ k, m.nodes p = some k ∧ k.level + 1 = n.level := by
      rintro j hj p hp ⟨k', hk', hkl'⟩
      obtain ⟨k, hk, hkl⟩ := hW.child_level hn (hJ512 j hj).1 (hJ512 j hj).2
      have hlow := (levelsBelow_dfsReleaseLock hW fuel _ _ _ k hk).of_ok (hd' j hj).2
      obtain ⟨k'', hk'', hlt''⟩ := hlow p (List.mem_reverse.mp hp)
      rw [hk'] at hk''
      obtain rfl := Option.some.inj hk''
      omega
    obtain ⟨hIJ, hall⟩ := flatMap_marked
      (M := fun p => ∃ k, m.nodes p = some k ∧ k.level + 1 = n.level)
      (fun i hi => hW.child_level hn (hI512 i hi).1 (hI512 i hi).2)
      (fun j hj => hW.child_level hn (hJ512 j hj).1 (hJ512 j hj).2)
      (fun i hi j hj hij => hW.index_inj hn (hI512 i hi).1 (hJ512 j hj).1 (hI512 i hi).2
        (by rw [hij]; exact (hJ512 j hj).2)) hlocked hreleased heq
    refine ⟨hIJ, ?_⟩
    intro i hi
    rw [hall i hi, List.reverse_reverse]
    exact (hd' i (hIJ ▸ hi)).2
  · rintro ⟨hIJ, hrel⟩
    refine ⟨fun i => (b i).reverse, ?_, ?_⟩
    · intro j hj
      rw [List.mem_reverse, ← hIJ] at hj
      exact ⟨(hb j hj).1, hrel j hj⟩
    · rw [hrev, hIJ]
      simp only [List.reverse_reverse]

/-- The children of the two index ranges are the same if the ranges agree on the slots
that have a child. -/
theorem filter_range'_eq_iff {T : ℕ → Bool} {s k : ℕ} :
    (List.range' s k).filter T = (List.range' 1 k).filter T ↔
      ∀ i, T i = true → (s ≤ i ∧ i < s + k ↔ 1 ≤ i ∧ i < 1 + k) := by
  have hmem : ∀ a i, i ∈ (List.range' a k).filter T ↔ (a ≤ i ∧ i < a + k) ∧ T i = true := by
    intro a i
    rw [List.mem_filter, List.mem_range'_1]
  constructor
  · intro h i hT
    have hs := hmem s i
    rw [h, hmem 1 i] at hs
    constructor
    · intro hi
      exact (hs.mpr ⟨hi, hT⟩).1
    · intro hi
      exact (hs.mp ⟨hi, hT⟩).1
  · intro h
    apply eq_of_increasing
    · exact List.Pairwise.filter T List.pairwise_lt_range'
    · exact List.Pairwise.filter T List.pairwise_lt_range'
    · intro i
      rw [hmem, hmem]
      constructor
      · rintro ⟨hi, hT⟩
        exact ⟨(h i hT).mp hi, hT⟩
      · rintro ⟨hi, hT⟩
        exact ⟨(h i hT).mpr hi, hT⟩

/-- **The release undoes the locking** exactly where the released slots match. -/
theorem release_iff (hW : WellFormed m) (fuel : ℕ) :
    ∀ (q nodeVa : ℕ) (r : AddrRange) (n : Node P) (locked : List ℕ), m.nodes q = some n →
    InSpan r nodeVa n.level → dfsAcquireLock fuel m q nodeVa r = .ok locked →
    (dfsReleaseLock fuel m q nodeVa r = .ok locked.reverse ↔ ReleaseMatches fuel m q nodeVa r) := by
  induction fuel with
  | zero =>
      intro q nodeVa r n locked _ _ h
      cases h
  | succ fuel ih =>
      intro q nodeVa r n locked hn hspan h
      have hok := hW.ok q n hn
      have hone : ReleaseMatches (fuel + 1) m q nodeVa r ↔ (n.level ≠ 1 → _) :=
        ⟨fun h => h n hn, fun h n' hn' => by rw [hn] at hn'; cases hn'; exact h⟩
      rw [hone]
      by_cases hl : n.level = 1
      · -- a node of level 1 has no children
        rw [dfsAcquireLock, Mem.node, hn] at h
        replace h : (if n.level = 1 then Except.ok [] else _) = Except.ok locked := h
        rw [if_pos hl] at h
        cases h
        rw [dfsReleaseLock, Mem.node, hn]
        show (if n.level = 1 then Except.ok [] else _) = _ ↔ _
        rw [if_pos hl]
        exact ⟨fun _ hne => absurd hl hne, fun _ => rfl⟩
      rw [dfsAcquireLock_succ fuel hn hl hok.level_le hspan, collect_visitChild_eq_ok] at h
      obtain ⟨b, hb, rfl⟩ := h
      rw [release_node_iff hW hn hl hspan rfl rfl hb, filter_range'_eq_iff]
      have hlt := hspan.idxLo_lt
      have hle := hspan.idxHi_le hok.level_pos
      -- the children, by the induction hypothesis
      have hchild : ∀ i pt, idxLo n.level nodeVa r ≤ i → i < idxHi n.level nodeVa r →
          n.entries i = .table pt →
          (dfsReleaseLock fuel m pt (nodeVa + i * pageSize n.level)
            (clip r (nodeVa + i * pageSize n.level) (pageSize n.level)) = .ok (b i).reverse ↔
          ReleaseMatches fuel m pt (nodeVa + i * pageSize n.level)
            (clip r (nodeVa + i * pageSize n.level) (pageSize n.level))) := by
        intro i pt hlo hhi he
        obtain ⟨hT, rfl⟩ := Node.hasChild_of_table he
        obtain ⟨k, hk, hkl⟩ := hW.child_level hn (by omega) he
        have hret := (hb i (List.mem_filter.mpr ⟨List.mem_range'_1.mpr ⟨hlo, by omega⟩, hT⟩)).2
        rw [← hkl] at hspan hret hlo hhi ⊢
        exact ih _ _ _ k _ hk (hspan.clip hlo hhi) hret
      constructor
      · rintro ⟨hk, hsame, hrel⟩ -
        refine ⟨hk, ?_, ?_⟩
        · intro i pt _ he
          have := hsame i (Node.hasChild_of_table he).1
          omega
        · intro i pt hlo hhi he
          apply (hchild i pt hlo hhi he).mp
          obtain ⟨hT, rfl⟩ := Node.hasChild_of_table he
          exact hrel i (List.mem_filter.mpr ⟨List.mem_range'_1.mpr ⟨hlo, by omega⟩, hT⟩)
      · intro h
        obtain ⟨hk, hsame, hrel⟩ := h hl
        refine ⟨hk, ?_, ?_⟩
        · intro i hT
          unfold NR_ENTRIES at hk
          by_cases hi : i < 512
          · have := hsame i _ hi (Node.hasChild_iff.mp hT)
            omega
          · omega
        · intro i hi
          rw [List.mem_filter, List.mem_range'_1] at hi
          have he := Node.hasChild_iff.mp hi.2
          exact (hchild i _ hi.1.1 (by omega) he).mpr (hrel i _ hi.1.1 (by omega) he)

/-- **Releasing the locks of a range.**  For a range in the span of a live node, let
`dfs_acquire_lock` lock the nodes `locked`.  Then `dfs_release_lock` unlocks these
nodes in the reverse order if and only if, at every node that the range reaches, the
slots `1..=end - start` are slots of the node and hold the children that the slots
`start..end` hold. -/
theorem release_undoes_acquire_iff (hW : WellFormed m) {locked : List ℕ}
    (hn : m.nodes q = some n) (hspan : InSpan r nodeVa n.level)
    (hacq : dfsAcquireLock NR_LEVELS m q nodeVa r = .ok locked) :
    dfsReleaseLock NR_LEVELS m q nodeVa r = .ok locked.reverse ↔
      ReleaseMatches NR_LEVELS m q nodeVa r :=
  release_iff hW NR_LEVELS q nodeVa r n locked hn hspan hacq

end

/-- The page whose indices are `1, 1, 1, 0`. -/
def onesRange : AddrRange := ⟨2 ^ 39 + 2 ^ 30 + 2 ^ 21, 2 ^ 39 + 2 ^ 30 + 2 ^ 21 + 4096⟩

/-- A new user table on which a cursor was opened on this page. -/
def onesSample : Exec (Except PageTableError (Cursor × List ℕ) × Mem Unit) := do
  let (root, m) ← emptyTable (userPtConfig 2 two_le_four) (freshMem [4096, 8192, 12288, 16384])
  Cursor.new (userPtConfig 2 two_le_four) m root onesRange

theorem release_undoes_acquire_sample : ∃ m : Mem Unit, WellFormed m ∧
    dfsAcquireLock NR_LEVELS m 4096 0 onesRange = .ok [8192, 12288, 16384] ∧
    ReleaseMatches NR_LEVELS m 4096 0 onesRange := by
  obtain ⟨c, l, m, hopen, hacq, hrel, hnode⟩ : ∃ c l m, onesSample = .ok (.ok (c, l), m) ∧
      dfsAcquireLock NR_LEVELS m 4096 0 onesRange = .ok [8192, 12288, 16384] ∧
      dfsReleaseLock NR_LEVELS m 4096 0 onesRange = .ok [16384, 12288, 8192] ∧
      ∃ n, m.nodes 4096 = some n ∧ n.level = 4 := ⟨_, _, _, rfl, rfl, rfl, _, rfl, rfl⟩
  obtain ⟨⟨root, m₀⟩, hm, hnew⟩ := bind_eq_ok.mp hopen
  obtain ⟨-, hW, hroot⟩ := (post_emptyTable (wellFormed_of_no_nodes (fun _ => rfl)) _).of_ok hm
  have hW' := (opened_of_new hW hroot hnew).1.wellFormed hW
  obtain ⟨n, hn, hl⟩ := hnode
  refine ⟨m, hW', hacq, ?_⟩
  refine (release_undoes_acquire_iff hW' hn ⟨by decide, by decide, ?_⟩ hacq).mp hrel
  rw [hl]
  decide

/-- The page at address `0` is at index `0` of every node, where the release does not
look: it unlocks nothing. -/
theorem release_leaves_locked : WellFormed openSampleMem ∧
    IsRoot openSampleMem (userPtConfig 2 (by decide)) 4096 ∧
    dfsAcquireLock NR_LEVELS openSampleMem 4096 0 ⟨0, 4096⟩ = .ok [8192, 12288, 16384] ∧
    dfsReleaseLock NR_LEVELS openSampleMem 4096 0 ⟨0, 4096⟩ = .ok [] := by
  refine ⟨openSampleMem_ok.1, openSampleMem_ok.2, ?_, ?_⟩
  · rfl
  · rfl

end

end Vostd
