/-
# References of user tables

A user page table owns the nodes that it consists of and the frames that it maps:
each present entry holds one reference.  `RefsOK` says that the reference counts of
the memory are exact: they count the handles outside page tables, `ext`, and the
entries of user tables.

The lemmas follow the references through everything that can happen to a table:
it grows, a leaf entry is overwritten, and a handle is dropped, which can destroy a
whole subtree without leaf entries (`RefsOK.drop`).
-/
import Vostd.PageTable.Drop
import Vostd.PageTable.OpEffect

namespace Vostd

open Exec Function

variable {P : Type}

/-! ## Exact counts -/

/-- A configuration of user tables: base pages only, every item counted. -/
structure IsUserConfig (ucfg : PageTableConfig P) : Prop where
  tracked : ∀ prop, ucfg.tracked prop = true
  maxItemLevel : ucfg.maxItemLevel = 1
  canUnmap : ucfg.topLevelCanUnmap = true

/-- The counts of the memory are those of the handles `ext` and of the entries of the
user tables; what leaf entries map is no node. -/
structure RefsOK (ucfg : PageTableConfig P) (m : Mem P) (ext : ℕ → ℕ) : Prop where
  counted : Counted m.refCount ext (slotRef ucfg m)
  leaf : ∀ q i l pa prop, LeafAt m ucfg q i l pa prop → m.nodes pa = none

/-- From `m` to `m'`, nodes are only added, in unused frames, and the entries of nodes
of other configurations do not change. -/
structure AddsNodes (ucfg : PageTableConfig P) (m m' : Mem P) : Prop where
  old : ∀ p n, m.nodes p = some n → ∃ n', m'.nodes p = some n' ∧ n'.cfg = n.cfg ∧
    (n.cfg ≠ ucfg → n'.entries = n.entries)
  new : ∀ p n, m.nodes p = none → m'.nodes p = some n → m.refCount p = 0
  used : ∀ p, m.refCount p ≠ 0 → m'.refCount p ≠ 0

namespace AddsNodes

variable {ucfg : PageTableConfig P} {m m' m'' : Mem P}

theorem of_nodes (h : m'.nodes = m.nodes) (hrc : ∀ p, m.refCount p ≠ 0 → m'.refCount p ≠ 0) :
    AddsNodes ucfg m m' where
  old := fun p n hn => ⟨n, by rw [h, hn], rfl, fun _ => rfl⟩
  new := by
    intro p n hp hn
    rw [h, hp] at hn
    cases hn
  used := hrc

theorem refl (m : Mem P) : AddsNodes ucfg m m :=
  of_nodes rfl (fun _ hp => hp)

theorem trans (h : AddsNodes ucfg m m') (h' : AddsNodes ucfg m' m'') : AddsNodes ucfg m m'' where
  old := by
    intro p n hn
    obtain ⟨n', hn', hc, he⟩ := h.old p n hn
    obtain ⟨n'', hn'', hc', he'⟩ := h'.old p n' hn'
    exact ⟨n'', hn'', hc'.trans hc, fun hne => (he' (by rwa [hc])).trans (he hne)⟩
  new := by
    intro p n hp hn
    cases hp' : m'.nodes p with
    | none =>
        by_contra hpos
        exact h.used p hpos (h'.new p n hp' hn)
    | some n' => exact h.new p n' hp hp'
  used := fun p hp => h'.used p (h.used p hp)

/-- A frame that is in use and is no node stays so. -/
theorem none_of_used (h : AddsNodes ucfg m m') {p : ℕ} (hp : m.nodes p = none)
    (hused : m.refCount p ≠ 0) : m'.nodes p = none := by
  cases hn : m'.nodes p with
  | none => rfl
  | some n => exact absurd (h.new p n hp hn) hused

end AddsNodes

section

variable {ucfg : PageTableConfig P} {m m' : Mem P} {ext : ℕ → ℕ} {root q idx pa : ℕ} {n : Node P}

/-- The references of slots after an entry was overwritten. -/
theorem slotRef_put (hq : m.nodes q = some n) (hc : n.cfg = ucfg) (hs : n.slots.Contains idx)
    (e : Pte P) : slotRef ucfg (m.put q n idx e) =
      update (slotRef ucfg m) (q, idx) e.target := by
  have hput : (m.put q n idx e).nodes q = some (n.set idx e) := by
    rw [Mem.put, Mem.setNode_nodes_self]
  funext slot
  obtain ⟨p, i⟩ := slot
  by_cases hp : p = q
  · subst hp
    by_cases hi : i = idx
    · subst hi
      rw [update_self, slotRef_of_slot hput (by rw [Node.set_cfg, hc]) (by rwa [Node.set_slots]),
        Node.set_entries, update_self]
    · rw [update_of_ne (fun heq => hi (Prod.mk.inj heq).2)]
      by_cases hsi : n.slots.Contains i
      · rw [slotRef_of_slot hput (by rw [Node.set_cfg, hc]) (by rwa [Node.set_slots]),
          slotRef_of_slot hq hc hsi, Node.set_entries, update_of_ne hi]
      · rw [slotRef_of_not hput (fun h => hsi (by simpa using h.2)),
          slotRef_of_not hq (fun h => hsi h.2)]
  · rw [update_of_ne (fun heq => hp (Prod.mk.inj heq).1)]
    exact slotRef_congr (by rw [Mem.put, Mem.setNode_nodes_of_ne _ _ hp])

theorem MarkedBy.slotRef_eq {S : ℕ → Prop} (h : MarkedBy m m' S) :
    slotRef ucfg m' = slotRef ucfg m := by
  funext slot
  obtain ⟨p, i⟩ := slot
  cases hk : m.nodes p with
  | none => rw [slotRef_of_none hk, slotRef_of_none (h.none p hk)]
  | some k =>
      obtain ⟨k', hk', hc, hl, -, he, -⟩ := h.some p k hk
      have hsl := MarkedBy.slots_eq hc hl
      by_cases hs : k.cfg = ucfg ∧ k.slots.Contains i
      · rw [slotRef_of_slot hk hs.1 hs.2, slotRef_of_slot hk' (by rw [hc, hs.1])
          (by rw [hsl]; exact hs.2), he]
      · rw [slotRef_of_not hk hs, slotRef_of_not hk' (by rwa [hc, hsl])]

/-- The references of slots after an empty node was attached. -/
theorem Attached.slotRef_eq {l : ℕ} (ha : Attached m m' q idx pa n (Node.empty n.cfg l))
    (hW : WellFormed m) (hq : m.nodes q = some n) (hc : n.cfg = ucfg)
    (hs : n.slots.Contains idx) :
    slotRef ucfg m' = update (slotRef ucfg m) (q, idx) (some pa) := by
  have hne := ha.fresh hW hq
  have hfresh : m.nodes pa = none := by
    by_contra hsome
    obtain ⟨k, hk⟩ := Option.ne_none_iff_exists'.mp hsome
    exact ha.fresh hW hk rfl
  rw [show some pa = (Pte.table pa : Pte P).target from rfl, ← slotRef_put hq hc hs]
  funext slot
  obtain ⟨p, i⟩ := slot
  by_cases hpa : p = pa
  · subst hpa
    have hnone : (m.put q n idx (.table p)).nodes p = none := by
      rw [Mem.put, Mem.setNode_nodes_of_ne _ _ hne.symm, hfresh]
    rw [slotRef_of_none hnone]
    have hchild := ha.nodes_child hne.symm
    by_cases hsl : (Node.empty n.cfg l).cfg = ucfg ∧ (Node.empty n.cfg l).slots.Contains i
    · rw [slotRef_of_slot hchild hsl.1 hsl.2]
      rfl
    · rw [slotRef_of_not hchild hsl]
  · refine slotRef_congr ?_
    by_cases hp : p = q
    · rw [hp, ha.nodes, update_self, Mem.put, Mem.setNode_nodes_self]
    · rw [ha.nodes, update_of_ne hp, update_of_ne hpa, Mem.put, Mem.setNode_nodes_of_ne _ _ hp]

/-- A leaf is a reference. -/
theorem LeafAt.slotRef {p i l fpa : ℕ} {prop : P} (h : LeafAt m ucfg p i l fpa prop) :
    slotRef ucfg m (p, i) = some fpa := by
  obtain ⟨k, hk, hkc, -, hs, he⟩ := h
  rw [slotRef_of_slot hk hkc hs, he]
  rfl

/-- The nodes that a walk visits have the configuration of the root. -/
theorem Position.cfg_eq {va l : ℕ} (hp : Position m root va l q n) (hW : WellFormed m)
    (hroot : IsRoot m ucfg root) : n.cfg = ucfg := by
  obtain ⟨k, hk, hkl, hkc, -⟩ := hroot
  obtain ⟨k', hk', -, hs⟩ := hp.covers
  rw [hk] at hk'
  obtain rfl := Option.some.inj hk'
  obtain ⟨n', hn', -, -, hc, -⟩ := hW.reach hk hkl hs hp.level_pos hp.level_le hp.nodeAt
  rw [hp.node] at hn'
  obtain rfl := Option.some.inj hn'
  rw [hc, hkc]

theorem Attached.addsNodes {c : Node P} (ha : Attached m m' q idx pa n c) (hW : WellFormed m)
    (hq : m.nodes q = some n) (hc : n.cfg = ucfg) : AddsNodes ucfg m m' where
  old := by
    intro p k hk
    by_cases hp : p = q
    · subst hp
      rw [hq] at hk
      obtain rfl := Option.some.inj hk
      exact ⟨_, ha.nodes_parent, Node.set_cfg _ _ _, fun hne => absurd hc hne⟩
    · exact ⟨k, by rw [ha.nodes_other hp (ha.fresh hW hk), hk], rfl, fun _ => rfl⟩
  new := by
    intro p k hp hk
    rcases ha.nodes_cases hk with ⟨rfl, -⟩ | ⟨-, rfl, -⟩ | ⟨-, -, hk'⟩
    · rw [hq] at hp
      cases hp
    · exact ha.unused
    · rw [hp] at hk'
      cases hk'
  used := by
    intro p hp
    rw [ha.refCount]
    by_cases hpa : p = pa
    · rw [hpa, update_self]
      exact Nat.one_ne_zero
    · rwa [update_of_ne hpa]

/-- **A new node is counted once**: its only reference is the entry that it was made
for. -/
theorem GrowStep.refsOK (hu : IsUserConfig ucfg) (hg : GrowStep root m m') (hW : WellFormed m)
    (hroot : IsRoot m ucfg root) (h : RefsOK ucfg m ext) :
    RefsOK ucfg m' ext ∧ AddsNodes ucfg m m' := by
  cases hg with
  | @alloc va l q pa n hp hl hs he ha =>
      have hc := hp.cfg_eq hW hroot
      have hadds := ha.addsNodes hW hp.node hc
      refine ⟨⟨?_, ?_⟩, hadds⟩
      · have hslot : slotRef ucfg m (q, pteIndex va l) = none := by
          rw [slotRef_of_slot hp.node hc (hp.slot hW), he]
          rfl
        have hgive := (h.counted.clone pa).give hslot (o := pa)
          (by rw [update_self]; exact Nat.le_add_left 1 _)
        refine hgive.congr ?_ ?_ ?_
        · rw [ha.refCount, ha.unused]
        · intro o
          by_cases ho : o = pa
          · rw [ho, update_self, update_self, Nat.add_sub_cancel]
          · rw [update_of_ne ho, update_of_ne ho]
        · intro x
          rw [ha.slotRef_eq hW hp.node hc (hp.slot hW)]
      · intro p i lv fpa prop hleaf
        rw [ha.leafAt hW hp.node] at hleaf
        split at hleaf
        · cases hleaf.2.2.2
        · exact hadds.none_of_used (h.leaf _ _ _ _ _ hleaf.2)
            (h.counted.pos_of_ref hleaf.2.slotRef)
  | split hp hl hs he ha =>
      -- user tables have no huge pages
      have hle := ((hW.ok _ _ hp.node).leaf _ _ _ (hp.slot hW) he).2
      rw [hp.cfg_eq hW hroot, hu.maxItemLevel, hp.level_eq hW] at hle
      omega

theorem Grow.refsOK (hu : IsUserConfig ucfg) (hg : Grow root m m') (hW : WellFormed m)
    (hroot : IsRoot m ucfg root) (h : RefsOK ucfg m ext) :
    RefsOK ucfg m' ext ∧ AddsNodes ucfg m m' := by
  induction hg with
  | refl => exact ⟨h, AddsNodes.refl m⟩
  | tail hg' hstep ih =>
      have hr := (Grow.keeps hg' hW).isRoot hroot
      obtain ⟨hrefs, hadds⟩ := hstep.refsOK hu (Grow.wellFormed hg' hW) hr ih.1
      exact ⟨hrefs, ih.2.trans hadds⟩

/-- A frame that was mapped in the slot is no node, and it is referred to. -/
theorem Overwrites.old_frame {c c' : Cursor} {e : Pte P}
    (ho : Overwrites m m' ucfg root c c' e q n) (h : RefsOK ucfg m ext) {pa : ℕ} {prop : P}
    (hold : n.entries (pteIndex c.va c.level) = .frame pa prop) :
    m.nodes pa = none ∧ m.refCount pa ≠ 0 := by
  have hleaf : LeafAt m ucfg q _ _ pa prop :=
    ⟨n, ho.slot.position.node, ho.slot.cfg_eq, rfl, ho.slot.slot, hold⟩
  exact ⟨h.leaf _ _ _ _ _ hleaf, h.counted.pos_of_ref hleaf.slotRef⟩

/-- **Overwriting a leaf entry** turns the reference of the old entry into a handle, and a
handle into the reference of the new one. -/
theorem Overwrites.refsOK {c c' : Cursor} {e : Pte P} {ext' : ℕ → ℕ}
    (ho : Overwrites m m' ucfg root c c' e q n) (h : RefsOK ucfg m ext)
    (hold : ∀ pt, n.entries (pteIndex c.va c.level) ≠ .table pt)
    (hleaf : ∀ fpa prop, e = .frame fpa prop → m.nodes fpa = none)
    (hext : ∀ o, (ext' o + if e.target = some o then 1 else 0) =
      ext o + if (n.entries (pteIndex c.va c.level)).target = some o then 1 else 0) :
    RefsOK ucfg m' ext' ∧ AddsNodes ucfg m m' := by
  have hq := ho.slot.position.node
  have hmark := ho.replaced.marked
  have hrc : m'.refCount = m.refCount := by
    rw [ho.replaced.refCount, Pte.removedCount_of_leaf hold]
  have hnone : ∀ p, m.nodes p = none → m'.nodes p = none := by
    intro p hp
    refine hmark.none p ?_
    cases hk : (m.put q n (pteIndex c.va c.level) e).nodes p with
    | none => rfl
    | some k =>
        rcases Mem.put_nodes_cases hk with ⟨rfl, -⟩ | ⟨-, hk'⟩
        · rw [hq] at hp
          cases hp
        · rw [hp] at hk'
          cases hk'
  refine ⟨⟨?_, ?_⟩, ?_, ?_, fun p hp => by rwa [hrc]⟩
  · have hslot := slotRef_of_slot hq ho.slot.cfg_eq ho.slot.slot
    refine (h.counted.replace (q, pteIndex c.va c.level) e.target ?_).congr hrc
      (fun _ => rfl) ?_
    · intro o
      rw [hslot]
      exact hext o
    · intro x
      rw [hmark.slotRef_eq, slotRef_put hq ho.slot.cfg_eq ho.slot.slot]
  · intro p i l fpa prop hl
    rw [hmark.leafAt_iff, leafAt_put hq ho.slot.slot] at hl
    split at hl
    · exact hnone fpa (hleaf fpa prop hl.2.2)
    · exact hnone fpa (h.leaf _ _ _ _ _ hl)
  · intro p k hk
    by_cases hp : p = q
    · subst hp
      obtain ⟨k₁, hk₁, -, hc₁, -⟩ := Mem.put_nodes_of (pteIndex c.va c.level) e hq hk
      obtain ⟨k₂, hk₂, hc₂, -⟩ := hmark.some p k₁ hk₁
      rw [hq] at hk
      obtain rfl := Option.some.inj hk
      exact ⟨k₂, hk₂, hc₂.trans hc₁, fun hne => absurd ho.slot.cfg_eq hne⟩
    · obtain ⟨k₂, hk₂, hc₂, -, -, he₂, -⟩ := hmark.some p k
        (by rw [Mem.put, Mem.setNode_nodes_of_ne _ _ hp, hk])
      exact ⟨k₂, hk₂, hc₂, fun _ => he₂⟩
  · intro p k hp hk
    rw [hnone p hp] at hk
    cases hk

end

/-! ## Dropping a handle -/

section

variable {ucfg : PageTableConfig P} {m m' : Mem P} {ext : ℕ → ℕ} {root pa : ℕ}

theorem RefsOK.dropInv (h : RefsOK ucfg m ext) (hW : WellFormed m) :
    DropInv ucfg m ext (slotRef ucfg m) where
  counted := h.counted
  whole := fun _ _ _ => rfl
  sub := fun _ _ _ hs => hs
  child := by
    intro q n i c hq he hs
    obtain ⟨n', hn', hc, hslot, -⟩ := slotRef_eq_some hs
    rw [hq] at hn'
    obtain rfl := Option.some.inj hn'
    obtain ⟨k, hk, hkl, hkc, -⟩ := (hW.ok q n hq).child i c hslot he
    exact ⟨k, hk, by rw [hkc, hc], hkl⟩

/-- A node of another configuration is not destroyed. -/
theorem Dropped.other (hd : Dropped ucfg m m') {p : ℕ} {n : Node P} (hn : m.nodes p = some n)
    (hc : n.cfg ≠ ucfg) : m'.nodes p = some n := by
  rcases hd.nodes p with heq | ⟨-, -, -, n', hn', hc'⟩
  · rw [heq, hn]
  · rw [hn] at hn'
    obtain rfl := Option.some.inj hn'
    exact absurd hc' hc

/-- What is left after a handle was dropped is well formed: a child of a node that is
left has a reference, and so it is left as well. -/
theorem Dropped.wellFormed (hd : Dropped ucfg m m') (hW : WellFormed m) (hu : IsUserConfig ucfg)
    (hc : Counted m'.refCount ext (slotRef ucfg m')) : WellFormed m' where
  ok := by
    intro q n hq
    have hold := hd.of_some hq
    have hn := hW.ok q n hold
    refine ⟨hn.level_pos, hn.level_le, hd.alive q n hq hn.alive, hn.count, ?_, hn.leaf⟩
    intro i c hslot he
    obtain ⟨k, hk, hkl, hkc, hks⟩ := hn.child i c hslot he
    refine ⟨k, ?_, hkl, hkc, hks⟩
    by_cases hcfg : n.cfg = ucfg
    · have href : slotRef ucfg m' (q, i) = some c := by
        rw [slotRef_of_slot hq hcfg hslot, he]
        rfl
      rw [hd.nodes_eq (hc.pos_of_ref href), hk]
    · exact hd.other hk (by rwa [hkc])
  unique := by
    rintro p i p' i' q ⟨n, hn, hs, he⟩ ⟨n', hn', hs', he'⟩
    exact hW.unique ⟨n, hd.of_some hn, hs, he⟩ ⟨n', hd.of_some hn', hs', he'⟩
  borrowed := by
    intro r n i c hr hi hs he
    obtain ⟨r', n', hr', hl', hcan, hs', he'⟩ := hW.borrowed r n i c (hd.of_some hr) hi hs he
    refine ⟨r', n', hd.other hr' ?_, hl', hcan, hs', he'⟩
    rintro rfl
    rw [hu.canUnmap] at hcan
    cases hcan

/-- **Dropping a handle** returns and keeps all counts exact. -/
theorem RefsOK.drop (h : RefsOK ucfg m ext) (hW : WellFormed m) (hu : IsUserConfig ucfg)
    (hpa : 1 ≤ ext pa) (hcfg : ∀ n, m.nodes pa = some n → n.cfg = ucfg)
    (hleaf : NoLeafBelow m pa) :
    Post (fun _ => False) (m.dropFrame (NR_LEVELS + 1) pa) (fun m' => Dropped ucfg m m' ∧
      WellFormed m' ∧ RefsOK ucfg m' (update ext pa (ext pa - 1))) := by
  refine (post_dropFrame _ m pa ext _ (h.dropInv hW) hpa (Nat.le_add_left 1 _) ?_
    (fun q n hq => (hW.ok q n hq).level_pos) hleaf).mono ?_
  · intro n hn
    exact ⟨hcfg n hn, (hW.ok pa n hn).level_pos, Nat.lt_succ_of_le (hW.ok pa n hn).level_le⟩
  · rintro m' ⟨hd, ref', hinv, -⟩
    have hcounted : Counted m'.refCount (update ext pa (ext pa - 1)) (slotRef ucfg m') := by
      refine hinv.counted.congr rfl (fun _ => rfl) ?_
      rintro ⟨q, i⟩
      by_cases hz : m'.refCount q = 0
      · -- no node is left without references, and so `q` is none
        have hnone : m'.nodes q = none := by
          by_contra hsome
          obtain ⟨k, hk⟩ := Option.ne_none_iff_exists'.mp hsome
          exact hd.alive q k hk (hW.ok q k (hd.of_some hk)).alive hz
        rw [slotRef_of_none hnone]
        cases href : ref' (q, i) with
        | none => rfl
        | some o =>
            have hsub := hinv.sub q i o href
            rw [slotRef_of_none hnone] at hsub
            exact hsub
      · exact (hinv.whole q i hz).symm
    refine ⟨hd, hd.wellFormed hW hu hcounted, hcounted, ?_⟩
    rintro q i l fpa prop ⟨n, hn, hrest⟩
    exact hd.of_none (h.leaf q i l fpa prop ⟨n, hd.of_some hn, hrest⟩)

/-- A table whose root is left is left as a whole. -/
theorem Dropped.nodeAt (hd : Dropped ucfg m m') (hW' : WellFormed m') {x l q : ℕ}
    (hcov : Covers m' root x) (hl : 1 ≤ l) (h4 : l ≤ 4) (hq : nodeAt m root x l = some q) :
    nodeAt m' root x l = some q := by
  induction h4 using Nat.decreasingInduction generalizing q with
  | self =>
      rw [nodeAt_four] at hq ⊢
      exact hq
  | of_succ j hj ih =>
      obtain ⟨p, hp, he⟩ := (nodeAt_eq_some_iff (by omega)).mp hq
      have hp' := ih (by omega) hp
      obtain ⟨n, hn, -⟩ := hW'.reach_of_covers hcov (by omega) hj hp'
      refine (nodeAt_eq_some_iff (by omega)).mpr ⟨p, hp', ?_⟩
      rw [Mem.entry_eq (hd.of_some hn)] at he
      rw [Mem.entry_eq hn, he]

end

end Vostd
