/-
# Dropping frames and nodes

`Frame::drop` gives up one reference to a frame; with the last one it runs the
destructor of the frame's metadata, which for a page table node is
`PageTablePageMeta::on_drop`: it goes over the managed slots and calls `Frame::drop`
for every child, so that destruction runs down the tree.

`Frame::drop` is an inherent method of the source, and the `Drop` implementation that
stood in its place is a comment.  So a reference is given up by a call only, and a
handle that goes out of scope gives up nothing.  One such handle is the item that
`on_drop` makes of a leaf entry: the frame that the entry maps keeps its reference.

The specification is in terms of reference counts, for nodes without leaf entries
(`NoLeafBelow`).  While nodes are being destroyed, their slots are emptied one by one;
`DropInv` is the invariant, relative to the references `ref` that have not been given
up yet.
-/
import Vostd.Lib.RefCount
import Vostd.PageTable.OpEffect

namespace Vostd

open Exec Function

variable {P : Type}

/-! ## The code -/

/-- The body of the loop of `on_drop`: a child gives up its reference.  The item of a leaf
entry goes out of scope. -/
def onDropSlot (dropFrame : Mem P → ℕ → Exec (Mem P)) (n : Node P) (i : ℕ) (m : Mem P) :
    Exec (Mem P) :=
  match n.entries i with
  | .absent => .ok m
  | .table pt => dropFrame m pt
  | .frame _ _ => .ok m

/-- `Frame::drop`.  The first argument bounds the depth of destruction. -/
def Mem.dropFrame : ℕ → Mem P → ℕ → Exec (Mem P)
  | 0, _, _ => .error .outOfFuel
  | fuel + 1, m, pa =>
      if m.refCount pa = 0 then .error .badAccess
      else
        let m₁ : Mem P := { m with refCount := update m.refCount pa (m.refCount pa - 1) }
        if m.refCount pa ≠ 1 then .ok m₁
        else
          match m.nodes pa with
          | none => .ok m₁
          | some n => do
              let m₂ ← forRange (onDropSlot (Mem.dropFrame fuel) n) n.slots.start
                (n.slots.stop - n.slots.start) m₁
              .ok { m₂ with nodes := update m₂.nodes pa none }

/-! ## References from slots -/

/-- The frame that an entry refers to. -/
def Pte.target : Pte P → Option ℕ
  | .absent => none
  | .frame pa _ => some pa
  | .table pa => some pa

open Classical in
/-- What a managed slot of a live node of the configuration refers to. -/
noncomputable def slotRef (ucfg : PageTableConfig P) (m : Mem P) (x : ℕ × ℕ) : Option ℕ :=
  match m.nodes x.1 with
  | none => none
  | some n => if n.cfg = ucfg ∧ n.slots.Contains x.2 then (n.entries x.2).target else none

section

variable {ucfg : PageTableConfig P} {m m' : Mem P}

theorem slotRef_of_none {q i : ℕ} (h : m.nodes q = none) : slotRef ucfg m (q, i) = none := by
  simp only [slotRef, h]

theorem slotRef_of_slot {q i : ℕ} {n : Node P} (h : m.nodes q = some n) (hc : n.cfg = ucfg)
    (hs : n.slots.Contains i) : slotRef ucfg m (q, i) = (n.entries i).target := by
  simp only [slotRef, h]
  rw [if_pos ⟨hc, hs⟩]

theorem slotRef_of_not {q i : ℕ} {n : Node P} (h : m.nodes q = some n)
    (hs : ¬(n.cfg = ucfg ∧ n.slots.Contains i)) : slotRef ucfg m (q, i) = none := by
  simp only [slotRef, h]
  rw [if_neg hs]

/-- Slots depend on their node only. -/
theorem slotRef_congr {q i : ℕ} (h : m'.nodes q = m.nodes q) :
    slotRef ucfg m' (q, i) = slotRef ucfg m (q, i) := by
  simp only [slotRef, h]

/-- A reference is in a managed slot of a live node. -/
theorem slotRef_eq_some {q i o : ℕ} (h : slotRef ucfg m (q, i) = some o) :
    ∃ n, m.nodes q = some n ∧ n.cfg = ucfg ∧ n.slots.Contains i ∧
      (n.entries i).target = some o := by
  unfold slotRef at h
  cases hn : m.nodes q with
  | none =>
      simp only [hn] at h
      cases h
  | some n =>
      simp only [hn] at h
      split at h
      · next hs => exact ⟨n, rfl, hs.1, hs.2, h⟩
      · cases h

end

/-! ## The invariant of destruction -/

/-- No leaf entry is left in the nodes below `q`. -/
def NoLeafBelow (m : Mem P) (q : ℕ) : Prop :=
  ∀ p n i pa prop, Below m q p → m.nodes p = some n → n.slots.Contains i →
    n.entries i ≠ .frame pa prop

section

variable {m m' : Mem P} {q i c : ℕ}

theorem NoLeafBelow.child (h : NoLeafBelow m q) (ho : Owns m q i c) : NoLeafBelow m c :=
  fun p n j pa prop hb hn hs => h p n j pa prop (Below.head ho hb) hn hs

theorem noLeafBelow_of_none (h : m.nodes q = none) : NoLeafBelow m q := by
  intro p n i pa prop hb hn
  cases hb with
  | refl =>
      rw [h] at hn
      cases hn
  | head ho _ =>
      obtain ⟨k, hk, -⟩ := ho
      rw [h] at hk
      cases hk

/-- A memory with fewer nodes has fewer leaf entries. -/
theorem NoLeafBelow.of_nodes (h : NoLeafBelow m q)
    (hsub : ∀ p n, m'.nodes p = some n → m.nodes p = some n) : NoLeafBelow m' q := by
  intro p n i pa prop hb hn hs
  refine h p n i pa prop ?_ (hsub p n hn) hs
  induction hb with
  | refl q => exact Below.refl q
  | head ho _ ih =>
      obtain ⟨k, hk, hrest⟩ := ho
      have ho' : Owns m _ _ _ := ⟨k, hsub _ k hk, hrest⟩
      exact Below.head ho' (ih (h.child ho') hn)

end

/-- **The invariant while nodes are destroyed.**  `ref` are the references of slots
that have not been given up yet; a node of which some have been given up has no
reference left itself. -/
structure DropInv (ucfg : PageTableConfig P) (m : Mem P) (ext : ℕ → ℕ) (ref : ℕ × ℕ → Option ℕ) :
    Prop where
  counted : Counted m.refCount ext ref
  whole : ∀ q i, m.refCount q ≠ 0 → ref (q, i) = slotRef ucfg m (q, i)
  sub : ∀ q i o, ref (q, i) = some o → slotRef ucfg m (q, i) = some o
  child : ∀ q n i c, m.nodes q = some n → n.entries i = .table c → ref (q, i) = some c →
    ∃ k, m.nodes c = some k ∧ k.cfg = ucfg ∧ k.level + 1 = n.level

/-- What dropping does to the memory: nodes that lose their last reference are gone,
and the other ones stay as they are. -/
structure Dropped (ucfg : PageTableConfig P) (m m' : Mem P) : Prop where
  nodes : ∀ p, m'.nodes p = m.nodes p ∨ (m'.nodes p = none ∧ m.refCount p ≠ 0 ∧
    m'.refCount p = 0 ∧ ∃ n, m.nodes p = some n ∧ n.cfg = ucfg)
  zero : ∀ p, m.refCount p = 0 → m'.refCount p = 0
  alive : ∀ p n, m'.nodes p = some n → m.refCount p ≠ 0 → m'.refCount p ≠ 0

namespace Dropped

variable {ucfg : PageTableConfig P} {m m' m'' : Mem P}

theorem refl (m : Mem P) : Dropped ucfg m m :=
  ⟨fun _ => Or.inl rfl, fun _ h => h, fun _ _ _ h => h⟩

theorem of_some (h : Dropped ucfg m m') {p : ℕ} {n : Node P} (hp : m'.nodes p = some n) :
    m.nodes p = some n := by
  rcases h.nodes p with he | ⟨hnone, -⟩
  · rwa [he] at hp
  · rw [hnone] at hp
    cases hp

/-- A frame that is no node does not become one. -/
theorem of_none (h : Dropped ucfg m m') {p : ℕ} (hp : m.nodes p = none) : m'.nodes p = none := by
  rcases h.nodes p with he | ⟨hnone, -⟩
  · rw [he, hp]
  · exact hnone

/-- What still has a reference is still there. -/
theorem nodes_eq (h : Dropped ucfg m m') {p : ℕ} (hp : m'.refCount p ≠ 0) :
    m'.nodes p = m.nodes p := by
  rcases h.nodes p with he | ⟨-, -, hz, -⟩
  · exact he
  · exact absurd hz hp

theorem trans (h : Dropped ucfg m m') (h' : Dropped ucfg m' m'') : Dropped ucfg m m'' where
  nodes := by
    intro p
    rcases h'.nodes p with he' | ⟨hnone', hpos', hz', n, hn, hc⟩
    · rcases h.nodes p with he | ⟨hnone, hpos, hz, hrest⟩
      · exact Or.inl (by rw [he', he])
      · exact Or.inr ⟨by rw [he', hnone], hpos, h'.zero p hz, hrest⟩
    · exact Or.inr ⟨hnone', fun hz => hpos' (h.zero p hz), hz', n, h.of_some hn, hc⟩
  zero := fun p hp => h'.zero p (h.zero p hp)
  alive := fun p n hp hpos => h'.alive p n hp (h.alive p n (h'.of_some hp) hpos)

end Dropped

/-- The memory after one reference to `pa` was given up. -/
def Mem.decr (m : Mem P) (pa : ℕ) : Mem P :=
  { m with refCount := update m.refCount pa (m.refCount pa - 1) }

/-- The memory without the node `pa`. -/
def Mem.removeNode (m : Mem P) (pa : ℕ) : Mem P :=
  { m with nodes := update m.nodes pa none }

theorem Mem.decr_refCount_of_ne (m : Mem P) {pa p : ℕ} (h : p ≠ pa) :
    (m.decr pa).refCount p = m.refCount p :=
  update_of_ne h _ _

theorem Mem.decr_refCount_self (m : Mem P) (pa : ℕ) :
    (m.decr pa).refCount pa = m.refCount pa - 1 :=
  update_self _ _ _

theorem Mem.removeNode_nodes_of_ne (m : Mem P) {pa p : ℕ} (h : p ≠ pa) :
    (m.removeNode pa).nodes p = m.nodes p :=
  update_of_ne h _ _

theorem Mem.removeNode_nodes_self (m : Mem P) (pa : ℕ) : (m.removeNode pa).nodes pa = none :=
  update_self _ _ _

namespace DropInv

variable {ucfg : PageTableConfig P} {m : Mem P} {ext : ℕ → ℕ} {ref : ℕ × ℕ → Option ℕ} {pa : ℕ}

/-- A handle is given up. -/
theorem decr (h : DropInv ucfg m ext ref) (hpa : 1 ≤ ext pa) :
    DropInv ucfg (m.decr pa) (update ext pa (ext pa - 1)) ref where
  counted := h.counted.drop hpa
  whole := by
    intro q i hq
    refine h.whole q i ?_
    intro hz
    by_cases hqp : q = pa
    · subst hqp
      rw [m.decr_refCount_self, hz] at hq
      exact hq rfl
    · rw [m.decr_refCount_of_ne hqp] at hq
      exact hq hz
  sub := h.sub
  child := h.child

/-- A slot of a node that is being destroyed gives its reference to a handle. -/
theorem take_slot (h : DropInv ucfg m ext ref) {q i o : ℕ} (hq : m.refCount q = 0)
    (ho : ref (q, i) = some o) :
    DropInv ucfg m (update ext o (ext o + 1)) (update ref (q, i) none) := by
  have hsub : ∀ p j o', update ref (q, i) none (p, j) = some o' → ref (p, j) = some o' := by
    intro p j o' hp
    by_cases hx : (p, j) = (q, i)
    · rw [hx, update_self] at hp
      cases hp
    · rwa [update_of_ne hx] at hp
  refine ⟨h.counted.take ho, ?_, fun p j o' hp => h.sub p j o' (hsub p j o' hp),
    fun p n j c hn he hp => h.child p n j c hn he (hsub p j c hp)⟩
  intro p j hp
  have hne : (p, j) ≠ (q, i) := by
    rintro heq
    obtain ⟨rfl, -⟩ := Prod.mk.inj heq
    exact hp hq
  rw [update_of_ne hne, h.whole p j hp]

/-- A node without references whose slots are empty can go. -/
theorem removeNode (h : DropInv ucfg m ext ref) (hz : m.refCount pa = 0)
    (hempty : ∀ i, ref (pa, i) = none) : DropInv ucfg (m.removeNode pa) ext ref where
  counted := h.counted
  whole := by
    intro q i hq
    have hne : q ≠ pa := by
      rintro rfl
      exact hq hz
    rw [h.whole q i hq, slotRef_congr (m.removeNode_nodes_of_ne hne)]
  sub := by
    intro q i o ho
    have hne : q ≠ pa := by
      rintro rfl
      rw [hempty i] at ho
      cases ho
    rw [slotRef_congr (m.removeNode_nodes_of_ne hne)]
    exact h.sub q i o ho
  child := by
    intro q n i c hn he hc
    have hne : q ≠ pa := by
      rintro rfl
      rw [hempty i] at hc
      cases hc
    have hcne : c ≠ pa := by
      rintro rfl
      exact h.counted.no_ref hz _ hc
    rw [m.removeNode_nodes_of_ne hne] at hn
    rw [m.removeNode_nodes_of_ne hcne]
    exact h.child q n i c hn he hc

end DropInv

/-- The result of `Frame::drop`. -/
def DropSpec (ucfg : PageTableConfig P) (m : Mem P) (ext : ℕ → ℕ) (ref : ℕ × ℕ → Option ℕ)
    (pa : ℕ) (m' : Mem P) : Prop :=
  Dropped ucfg m m' ∧ ∃ ref', DropInv ucfg m' (update ext pa (ext pa - 1)) ref' ∧
    ∀ q i, m'.nodes q = m.nodes q → ref' (q, i) = ref (q, i)

/-- The loop of `on_drop` for the node `pa`, before slot `i`. -/
structure DropLoop (ucfg : PageTableConfig P) (m : Mem P) (ext : ℕ → ℕ) (ref : ℕ × ℕ → Option ℕ)
    (pa i : ℕ) (mᵢ : Mem P) : Prop where
  dropped : Dropped ucfg (m.decr pa) mᵢ
  refs : ∃ refᵢ, DropInv ucfg mᵢ ext refᵢ ∧ (∀ j, j < i → refᵢ (pa, j) = none) ∧
    (∀ j, i ≤ j → refᵢ (pa, j) = slotRef ucfg m (pa, j)) ∧
    ∀ q j, q ≠ pa → mᵢ.nodes q = m.nodes q → refᵢ (q, j) = ref (q, j)

section

variable {ucfg : PageTableConfig P} {m mᵢ m' : Mem P} {ext : ℕ → ℕ} {ref : ℕ × ℕ → Option ℕ}
  {pa i : ℕ}

/-- The node that is being destroyed stays where it is. -/
theorem DropLoop.refCount_zero (h : DropLoop ucfg m ext ref pa i mᵢ) (hpa : m.refCount pa = 1) :
    mᵢ.refCount pa = 0 :=
  h.dropped.zero pa (by rw [m.decr_refCount_self, hpa])

/-- A slot without a reference needs nothing. -/
theorem DropLoop.skip (h : DropLoop ucfg m ext ref pa i mᵢ)
    (hslot : slotRef ucfg m (pa, i) = none) : DropLoop ucfg m ext ref pa (i + 1) mᵢ := by
  obtain ⟨refᵢ, hinv, hbefore, hafter, hother⟩ := h.refs
  refine ⟨h.dropped, refᵢ, hinv, ?_, fun j hj => hafter j (by omega), hother⟩
  intro j hj
  by_cases hji : j = i
  · rw [hji, hafter i le_rfl, hslot]
  · exact hbefore j (by omega)

/-- A slot gives up its reference to `o`. -/
theorem DropLoop.step {o : ℕ} (h : DropLoop ucfg m ext ref pa i mᵢ) (hpa : m.refCount pa = 1)
    {refᵢ : ℕ × ℕ → Option ℕ} (hbefore : ∀ j, j < i → refᵢ (pa, j) = none)
    (hafter : ∀ j, i ≤ j → refᵢ (pa, j) = slotRef ucfg m (pa, j))
    (hother : ∀ q j, q ≠ pa → mᵢ.nodes q = m.nodes q → refᵢ (q, j) = ref (q, j))
    (hdrop : DropSpec ucfg mᵢ (update ext o (ext o + 1))
      (update refᵢ (pa, i) none) o m') : DropLoop ucfg m ext ref pa (i + 1) m' := by
  obtain ⟨hd, ref', hinv', hagree⟩ := hdrop
  have hext : update (update ext o (ext o + 1)) o (update ext o (ext o + 1) o - 1) = ext := by
    rw [update_idem, update_self, Nat.add_sub_cancel, update_eq_self]
  rw [hext] at hinv'
  have hz := h.refCount_zero hpa
  have hsame : m'.nodes pa = mᵢ.nodes pa := by
    rcases hd.nodes pa with he | ⟨-, hpos, -⟩
    · exact he
    · exact absurd hz hpos
  have hpaj : ∀ j, ref' (pa, j) = update refᵢ (pa, i) none (pa, j) :=
    fun j => hagree pa j hsame
  refine ⟨h.dropped.trans hd, ref', hinv', ?_, ?_, ?_⟩
  · intro j hj
    rw [hpaj]
    by_cases hji : j = i
    · rw [hji, update_self]
    · rw [update_of_ne (fun heq => hji (Prod.mk.inj heq).2)]
      exact hbefore j (by omega)
  · intro j hj
    rw [hpaj, update_of_ne (fun heq => by have := (Prod.mk.inj heq).2; omega)]
    exact hafter j (by omega)
  · intro q j hq hnodes
    -- what is as at the beginning was never removed
    have hmid : mᵢ.nodes q = m.nodes q := by
      rcases h.dropped.nodes q with he | ⟨hnone, -⟩
      · exact he
      · rw [← hnodes, hd.of_none hnone, hnone]
    rw [hagree q j (by rw [hnodes, hmid]), update_of_ne (fun heq => hq (Prod.mk.inj heq).1)]
    exact hother q j hq hmid

/-- The end of the loop: the node itself goes. -/
theorem DropLoop.finish (h : DropLoop ucfg m (update ext pa (ext pa - 1)) ref pa i mᵢ)
    (hpa : m.refCount pa = 1) {n : Node P} (hn : m.nodes pa = some n) (hc : n.cfg = ucfg)
    (hend : ∀ j, i ≤ j → slotRef ucfg m (pa, j) = none) :
    DropSpec ucfg m ext ref pa (mᵢ.removeNode pa) := by
  obtain ⟨refᵢ, hinv, hbefore, hafter, hother⟩ := h.refs
  have hz := h.refCount_zero hpa
  have hempty : ∀ j, refᵢ (pa, j) = none := by
    intro j
    by_cases hj : j < i
    · exact hbefore j hj
    · rw [hafter j (by omega), hend j (by omega)]
  refine ⟨⟨?_, ?_, ?_⟩, refᵢ, hinv.removeNode hz hempty, ?_⟩
  · intro p
    by_cases hp : p = pa
    · subst hp
      exact Or.inr ⟨mᵢ.removeNode_nodes_self p, by rw [hpa]; exact one_ne_zero, hz, n, hn, hc⟩
    · rw [mᵢ.removeNode_nodes_of_ne hp]
      have hd := h.dropped.nodes p
      rw [m.decr_refCount_of_ne hp] at hd
      exact hd
  · intro p hp
    have hne : p ≠ pa := by
      rintro rfl
      omega
    exact h.dropped.zero p (by rw [m.decr_refCount_of_ne hne, hp])
  · intro p k hk hp
    have hne : p ≠ pa := by
      rintro rfl
      rw [mᵢ.removeNode_nodes_self] at hk
      cases hk
    rw [mᵢ.removeNode_nodes_of_ne hne] at hk
    exact h.dropped.alive p k hk (by rwa [m.decr_refCount_of_ne hne])
  · intro q j hq
    by_cases hqp : q = pa
    · subst hqp
      rw [mᵢ.removeNode_nodes_self, hn] at hq
      cases hq
    · rw [mᵢ.removeNode_nodes_of_ne hqp] at hq
      exact hother q j hqp hq

/-- A reference that is not the last one, or the last one to a frame that is no node. -/
theorem DropInv.dropSpec_decr (h : DropInv ucfg m ext ref) (hpa : 1 ≤ ext pa)
    (hlast : m.refCount pa ≠ 1 ∨ m.nodes pa = none) : DropSpec ucfg m ext ref pa (m.decr pa) := by
  refine ⟨⟨fun _ => Or.inl rfl, ?_, ?_⟩, ref, h.decr hpa, fun _ _ _ => rfl⟩
  · intro p hp
    by_cases hpp : p = pa
    · rw [hpp, m.decr_refCount_self, ← hpp, hp]
    · rw [m.decr_refCount_of_ne hpp, hp]
  · intro p n hn hp
    by_cases hpp : p = pa
    · subst hpp
      rcases hlast with hne | hnone
      · rw [m.decr_refCount_self]
        omega
      · rw [show (m.decr p).nodes p = none from hnone] at hn
        cases hn
    · rwa [m.decr_refCount_of_ne hpp]

end

/-- **`Frame::drop`** of a frame or of a node without leaf entries returns, gives up one
handle, and keeps the counts exact: what loses its last reference gives up its own ones,
each once. -/
theorem post_dropFrame {ucfg : PageTableConfig P} (fuel : ℕ) :
    ∀ (m : Mem P) (pa : ℕ) (ext : ℕ → ℕ) (ref : ℕ × ℕ → Option ℕ),
    DropInv ucfg m ext ref → 1 ≤ ext pa → 1 ≤ fuel →
    (∀ n, m.nodes pa = some n → n.cfg = ucfg ∧ 1 ≤ n.level ∧ n.level < fuel) →
    (∀ q n, m.nodes q = some n → 1 ≤ n.level) → NoLeafBelow m pa →
    Post (fun _ => False) (m.dropFrame fuel pa) (DropSpec ucfg m ext ref pa) := by
  induction fuel with
  | zero =>
      intro m pa ext ref _ _ hfuel
      omega
  | succ fuel ih =>
      intro m pa ext ref h hpa _ hnode hlevels hleaf
      have hle := h.counted.ext_le pa
      rw [Mem.dropFrame, if_neg (by omega)]
      refine post_ite ?_ ?_
      · intro hne
        exact h.dropSpec_decr hpa (Or.inl hne)
      intro hone
      rw [not_not] at hone
      cases hn : m.nodes pa with
      | none => exact h.dropSpec_decr hpa (Or.inr hn)
      | some n =>
          obtain ⟨hc, hl1, hlf⟩ := hnode n hn
          have hwhole : ∀ j, ref (pa, j) = slotRef ucfg m (pa, j) :=
            fun j => h.whole pa j (by omega)
          have hout : ∀ j, ¬n.slots.Contains j → slotRef ucfg m (pa, j) = none :=
            fun j hj => slotRef_of_not hn (fun hs => hj hs.2)
          refine Post.bind (post_forRange
            (DropLoop ucfg m (update ext pa (ext pa - 1)) ref pa) _ _ _ ?_ ?_) ?_
          · refine ⟨Dropped.refl _, ref, h.decr hpa, ?_, fun j _ => hwhole j, fun _ _ _ _ => rfl⟩
            intro j hj
            rw [hwhole j, hout j (fun hs => by have := hs.1; omega)]
          · intro i mᵢ hi hilt hloop
            have hs : n.slots.Contains i := ⟨hi, by omega⟩
            obtain ⟨refᵢ, hinv, hbefore, hafter, hother⟩ := hloop.refs
            have hz := hloop.refCount_zero hone
            have hni : mᵢ.nodes pa = some n := by
              rcases hloop.dropped.nodes pa with he | ⟨-, hpos, -⟩
              · exact he.trans hn
              · rw [m.decr_refCount_self] at hpos
                omega
            have href := slotRef_of_slot hn hc hs
            have hreci := (hafter i le_rfl).trans href
            have hlev : ∀ q k, mᵢ.nodes q = some k → 1 ≤ k.level :=
              fun q k hk => hlevels q k (hloop.dropped.of_some hk)
            unfold onDropSlot
            cases he : n.entries i with
            | absent => exact hloop.skip (by rw [href, he]; rfl)
            | table c =>
                rw [he] at hreci
                obtain ⟨k, hk, hkc, hkl⟩ := hinv.child pa n i c hni he hreci
                have hk1 := hlev c k hk
                have hleaf' : NoLeafBelow mᵢ c :=
                  (hleaf.child ⟨n, hn, hs, he⟩).of_nodes (fun q k hk => hloop.dropped.of_some hk)
                refine (ih mᵢ c _ _ (hinv.take_slot hz hreci) ?_ (by omega) ?_ hlev hleaf').mono ?_
                · rw [update_self]
                  omega
                · intro k' hk'
                  rw [hk] at hk'
                  obtain rfl := Option.some.inj hk'
                  exact ⟨hkc, hk1, by omega⟩
                · intro m' hm'
                  exact hloop.step hone hbefore hafter hother hm'
            | frame fpa prop => exact absurd he (hleaf pa n i fpa prop (Below.refl pa) hn hs)
          · intro m₂ hloop
            refine hloop.finish hone hn hc ?_
            intro j hj
            exact hout j (fun hs => by have := hs.2; omega)

end Vostd
