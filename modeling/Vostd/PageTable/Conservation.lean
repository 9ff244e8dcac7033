/-
# Conservation of mapped frames

What exact counts mean for the frames that user tables map.  In every state of a run
whose steps lose no reference, the count of a frame is the number of handles outside
page tables plus the number of leaf entries that map it, and when the tables are
dropped only the handles are left (`mapped_frames_conserved`).

The other steps leak (`mapped_frames_leaked`): a frame that was mapped when its table
was dropped keeps the reference of the leaf entry, and a subtree that `take_next` has
removed is never freed, whoever drops it.
-/
import Vostd.PageTable.Ownership

namespace Vostd

open Exec

variable {P : Type}

/-- The nodes of tables and of removed subtrees. -/
def Holdings.Owned (s : Holdings P) (q : ℕ) : Prop :=
  ∃ r, (r ∈ s.tables.tables.map Prod.snd ∨ r ∈ s.strays) ∧ Below s.mem r q

/-- The leaf entries of these nodes that map the frame at `pa`. -/
def Holdings.leaves (ucfg : PageTableConfig P) (s : Holdings P) (pa : ℕ) : Set (ℕ × ℕ) :=
  {x | s.Owned x.1 ∧ ∃ l prop, LeafAt s.mem ucfg x.1 x.2 l pa prop}

namespace OwnershipOK

variable {ucfg : PageTableConfig P} {s : Holdings P}

/-- A reference is a leaf entry for a frame, or the entry for a child. -/
theorem ref_cases (h : OwnershipOK ucfg s) {p i o : ℕ} (href : slotRef ucfg s.mem (p, i) = some o) :
    ∃ k, s.mem.nodes p = some k ∧ k.cfg = ucfg ∧
      ((s.mem.nodes o = none ∧ ∃ prop, LeafAt s.mem ucfg p i k.level o prop) ∨
        ∃ n, s.mem.nodes o = some n ∧ n.cfg = ucfg ∧ n.level + 1 = k.level ∧ Owns s.mem p i o) := by
  obtain ⟨k, hk, hkc, hs, ht⟩ := slotRef_eq_some href
  refine ⟨k, hk, hkc, ?_⟩
  cases he : k.entries i with
  | absent =>
      rw [he] at ht
      cases ht
  | frame pa prop =>
      rw [he] at ht
      obtain rfl : pa = o := Option.some.inj ht
      have hleaf : LeafAt s.mem ucfg p i k.level pa prop := ⟨k, hk, hkc, rfl, hs, he⟩
      exact Or.inl ⟨h.refs.leaf p i _ pa prop hleaf, prop, hleaf⟩
  | table c =>
      rw [he] at ht
      obtain rfl : c = o := Option.some.inj ht
      obtain ⟨n, hn, hl, hc, -⟩ := (h.ok.wellFormed.ok p k hk).child i c hs he
      exact Or.inr ⟨n, hn, hc.trans hkc, hl, k, hk, hs, he⟩

/-- A live user node is a root or a child of another one. -/
theorem owner (h : OwnershipOK ucfg s) {q : ℕ} {n : Node P} (hn : s.mem.nodes q = some n)
    (hc : n.cfg = ucfg) : q ∈ s.tables.tables.map Prod.snd ∨
      ∃ p k, s.mem.nodes p = some k ∧ k.cfg = ucfg ∧ n.level + 1 = k.level ∧
        ∃ i, Owns s.mem p i q := by
  have hW := h.ok.wellFormed
  by_cases hpos : 1 ≤ s.handles q
  · left
    by_contra hnot
    unfold Holdings.handles at hpos
    rw [h.held q n hn hc, List.count_eq_zero_of_not_mem hnot] at hpos
    omega
  · right
    have hcount := h.refs.counted.count q
    have halive : s.mem.refCount q ≠ 0 := (hW.ok q n hn).alive
    have hne : {x | slotRef ucfg s.mem x = some q}.ncard ≠ 0 := by omega
    obtain ⟨⟨p, i⟩, href⟩ := Set.nonempty_of_ncard_ne_zero hne
    obtain ⟨k, hk, hkc, ⟨hnone, -⟩ | ⟨n', hn', -, hl, hown⟩⟩ := h.ref_cases href
    · rw [hn] at hnone
      cases hnone
    · obtain rfl := Option.some.inj (hn.symm.trans hn')
      exact ⟨p, k, hk, hkc, hl, i, hown⟩

/-- Every live user node is part of a table: it has a reference, and so has the node that
refers to it. -/
theorem owned (h : OwnershipOK ucfg s) {q : ℕ} {n : Node P} (hn : s.mem.nodes q = some n)
    (hc : n.cfg = ucfg) : ∃ r ∈ s.tables.tables.map Prod.snd, Below s.mem r q := by
  have hW := h.ok.wellFormed
  -- by induction on the distance to the top level
  obtain ⟨d, hd⟩ : ∃ d, n.level + d = 4 := ⟨4 - n.level, by
    have := (hW.ok q n hn).level_le
    omega⟩
  induction d generalizing q n with
  | zero =>
      by_contra hnot
      exact absurd (h.owner hn hc) (by
        rintro (hr | ⟨p, k, hk, -, hkl, -⟩)
        · exact hnot ⟨q, hr, Below.refl q⟩
        · have := (hW.ok p k hk).level_le
          omega)
  | succ d ih =>
      rcases h.owner hn hc with hr | ⟨p, k, hk, hkc, hkl, i, hown⟩
      · exact ⟨q, hr, Below.refl q⟩
      · obtain ⟨r, hr, hpath⟩ := ih hk hkc (by omega)
        exact ⟨r, hr, hpath.tail hown⟩

/-- The leaf entries that map a frame are the references to it. -/
theorem leaves_eq (h : OwnershipOK ucfg s) {pa : ℕ} (hpa : s.mem.nodes pa = none) :
    s.leaves ucfg pa = {x | slotRef ucfg s.mem x = some pa} := by
  ext ⟨q, i⟩
  constructor
  · rintro ⟨-, l, prop, hleaf⟩
    exact hleaf.slotRef
  · intro href
    obtain ⟨n, hn, hc, ⟨-, hleaf⟩ | ⟨k, hk, -⟩⟩ := h.ref_cases href
    · obtain ⟨r, hr, hpath⟩ := h.owned hn hc
      exact ⟨⟨r, Or.inl hr, hpath⟩, n.level, hleaf⟩
    · rw [hpa] at hk
      cases hk

/-- Roots are user nodes, so all handles of other frames are held. -/
theorem handles_eq_held (h : OwnershipOK ucfg s) {pa : ℕ}
    (hpa : ∀ n, s.mem.nodes pa = some n → n.cfg ≠ ucfg) : s.handles pa = s.held pa := by
  have hroots : pa ∉ s.tables.tables.map Prod.snd := by
    intro hmem
    obtain ⟨t, ht, rfl⟩ := List.mem_map.mp hmem
    obtain ⟨n, hn, -⟩ := h.ok.isRoot t ht
    exact hpa n hn (h.root_cfg ht hn)
  unfold Holdings.handles
  rw [List.count_eq_zero_of_not_mem hroots, Nat.add_zero]

/-- **The count of a frame.** -/
theorem count_eq (h : OwnershipOK ucfg s) {pa : ℕ} (hpa : s.mem.nodes pa = none) :
    (s.leaves ucfg pa).Finite ∧
      s.mem.refCount pa = s.held pa + (s.leaves ucfg pa).ncard := by
  rw [h.leaves_eq hpa, h.refs.counted.count pa,
    h.handles_eq_held (fun n hn => by rw [hpa] at hn; cases hn)]
  exact ⟨h.refs.counted.finite_refs pa, rfl⟩

/-- The count of a node of another configuration. -/
theorem count_foreign (h : OwnershipOK ucfg s) {p : ℕ} {n : Node P} (hn : s.mem.nodes p = some n)
    (hc : n.cfg ≠ ucfg) : s.mem.refCount p = s.held p := by
  have hnone : {x | slotRef ucfg s.mem x = some p} = ∅ := by
    rw [Set.eq_empty_iff_forall_notMem]
    rintro ⟨q, i⟩ href
    obtain ⟨-, -, -, ⟨hnone, -⟩ | ⟨n', hn', hc', -⟩⟩ := h.ref_cases href
    · rw [hn] at hnone
      cases hnone
    · obtain rfl := Option.some.inj (hn.symm.trans hn')
      exact hc hc'
  have hcount := h.refs.counted.count p
  rw [hnone, Set.ncard_empty, h.handles_eq_held (fun k hk => ?_)] at hcount
  · exact hcount
  · rw [hn] at hk
    rwa [← Option.some.inj hk]

/-- Without tables there are no user nodes, and handles are all that is counted. -/
theorem all_dropped (h : OwnershipOK ucfg s) (htables : s.tables.tables = []) :
    (∀ q n, s.mem.nodes q = some n → n.cfg ≠ ucfg) ∧ ∀ pa, s.mem.refCount pa = s.held pa := by
  have hnodes : ∀ q n, s.mem.nodes q = some n → n.cfg ≠ ucfg := by
    intro q n hn hc
    obtain ⟨r, hr, -⟩ := h.owned hn hc
    rw [htables] at hr
    cases hr
  refine ⟨hnodes, ?_⟩
  intro pa
  have hnone : {x | slotRef ucfg s.mem x = some pa} = ∅ := by
    rw [Set.eq_empty_iff_forall_notMem]
    rintro ⟨q, i⟩ href
    obtain ⟨k, hk, hkc, -⟩ := slotRef_eq_some href
    exact hnodes q k hk hkc
  rw [h.refs.counted.count pa, hnone, Set.ncard_empty, h.handles_eq_held (hnodes pa)]
  rfl

end OwnershipOK

/-! ## Counts and operations -/

section

variable {m m' : Mem P} {cfg : PageTableConfig P} {root : ℕ}

theorem Grow.refCount_of_used (hg : Grow root m m') {p : ℕ} (hp : m.refCount p ≠ 0) :
    m'.refCount p = m.refCount p := by
  have hattach : ∀ {m₁ m₂ : Mem P} {q idx pa : ℕ} {n c : Node P},
      Attached m₁ m₂ q idx pa n c → m₁.refCount p ≠ 0 → m₂.refCount p = m₁.refCount p := by
    intro m₁ m₂ q idx pa n c ha hused
    rw [ha.refCount, Function.update_of_ne]
    rintro rfl
    exact hused ha.unused
  induction hg with
  | refl => rfl
  | tail _ hstep ih =>
      rw [← ih] at hp ⊢
      cases hstep with
      | alloc _ _ _ _ ha => exact hattach ha hp
      | split _ _ _ _ ha => exact hattach ha hp

/-- Operations that remove no node do not touch the counts of frames in use, except that
a query clones its item. -/
theorem OpEffect.refCount {op : Op cfg} {res : Res P} (h : OpEffect m cfg root op res m')
    (htracked : ∀ prop, cfg.tracked prop = true) (hstray : res.stray = none) {p : ℕ}
    (hp : m.refCount p ≠ 0) :
    m'.refCount p = m.refCount p + if res.cloned = some p then 1 else 0 := by
  cases h with
  | idle hg hres =>
      have hnone : res.cloned = none := by
        cases res with
        | query state =>
            obtain ⟨err, rfl⟩ := hres
            rfl
        | _ => rfl
      rw [hnone, hg.refCount_of_used hp]
      rfl
  | overwrite hg ho hw =>
      have hnone : res.cloned = none := by
        cases op with
        | map item =>
            obtain ⟨-, -, rfl⟩ := hw
            rfl
        | takeNext len =>
            obtain ⟨-, -, rfl⟩ := hw
            rfl
        | protectNext len f =>
            obtain ⟨pa, prop, -, -, rfl⟩ := hw
            rfl
        | findNext len => exact hw.elim
        | query => exact hw.elim
        | jump va => exact hw.elim
      rw [hnone, ho.replaced.refCount, Pte.removedCount_of_leaf (hw.old_ne hstray)]
      exact hg.refCount_of_used hp
  | @clone m' va l r item hnodes hrc hshow =>
      rw [hrc]
      cases item with
      | none => rfl
      | some item =>
          rw [cloneRefCount, if_pos (htracked _)]
          by_cases hpa : item.pa = p
          · rw [← hpa, Function.update_self]
            simp [Res.cloned]
          · rw [Function.update_of_ne (Ne.symm hpa)]
            simp [Res.cloned, hpa]

end

/-! ## Conservation -/

theorem isUserConfig_userPtConfig (highest : ℕ) (hle : highest ≤ 4) :
    IsUserConfig (userPtConfig (P := P) highest hle) :=
  ⟨fun _ => rfl, rfl, rfl⟩

/-- The invariant of the runs that lose no reference. -/
theorem ownershipSystem_inv {ucfg : PageTableConfig P} (hu : IsUserConfig ucfg)
    {s₀ s : Holdings P} (h : ((ownershipSystem ucfg s₀).restrict KeepsRefs).Reachable s) :
    OwnershipOK ucfg s ∧ s₀.Foreign ucfg s ∧
      (∀ p n, s₀.mem.nodes p = some n → n.cfg ≠ ucfg) ∧ ∀ p, s₀.held p = s₀.mem.refCount p := by
  refine System.invariant (I := fun s => OwnershipOK ucfg s ∧ s₀.Foreign ucfg s ∧
    (∀ p n, s₀.mem.nodes p = some n → n.cfg ≠ ucfg) ∧ ∀ p, s₀.held p = s₀.mem.refCount p) ?_ ?_ h
  · rintro s ⟨rfl, hW, hforeign, htables, hcursors, hstrays, hheld⟩
    have hslot : ∀ x, slotRef ucfg s.mem x = none := by
      rintro ⟨q, i⟩
      cases href : slotRef ucfg s.mem (q, i) with
      | none => rfl
      | some o =>
          obtain ⟨k, hk, hkc, -⟩ := slotRef_eq_some href
          exact absurd hkc (hforeign q k hk)
    refine ⟨⟨⟨hW, ?_, ?_, ?_, ?_⟩, ?_, ⟨⟨?_, ?_⟩, ?_⟩, ?_, hstrays⟩, ?_, hforeign, hheld⟩
    · simp [htables]
    · simp [hcursors]
    · simp [hcursors]
    · simp [hcursors]
    · simp [htables]
    · simp [hslot]
    · intro o
      simp [hslot, Holdings.handles, htables, hheld o]
    · rintro q i l pa prop ⟨k, hk, hkc, -⟩
      exact absurd hkc (hforeign q k hk)
    · intro q n hn hc
      exact absurd hc (hforeign q n hn)
    · exact fun p n hn _ => ⟨n, hn, rfl, rfl, rfl⟩
  · rintro s a s' - ⟨hok, hfor, hne⟩ ⟨hkeeps, hstep⟩
    obtain ⟨hok', hfor'⟩ := OwnStep.effect hstep hkeeps hu hok
    refine ⟨hok', ?_, hne⟩
    intro p n hn hc
    obtain ⟨n₁, hn₁, hc₁, he₁, hh₁⟩ := hfor p n hn hc
    obtain ⟨n₂, hn₂, hc₂, he₂, hh₂⟩ := hfor' p n₁ hn₁ (by rwa [hc₁])
    exact ⟨n₂, hn₂, hc₂.trans hc₁, he₂.trans he₁, hh₂.trans hh₁⟩

/-- **Ownership of mapped frames is conserved by the steps that lose no reference.**  In
every state of such a run: the count of a frame is the number of handles held outside page
tables plus the number of leaf entries that map it; operations keep the counts of frames in
use, except that a query adds one to that of its item; what may be dropped is dropped without
an error; when all tables are dropped, no user node is left and the counts are those of the
handles; and kernel nodes stay as they were. -/
theorem mapped_frames_conserved (highest : ℕ) (hle : highest ≤ 4) {s₀ s : Holdings P}
    (h : ((ownershipSystem (userPtConfig highest hle) s₀).restrict KeepsRefs).Reachable s) :
    (∀ pa, s.mem.nodes pa = none → (s.leaves (userPtConfig highest hle) pa).Finite ∧
      s.mem.refCount pa = s.held pa + (s.leaves (userPtConfig highest hle) pa).ncard) ∧
    (∀ i l op res m' c', s.tables.cursors i = some l → op.TakesNoNode s.mem l.root l.cursor →
      l.cursor.perform l.cfg s.mem op = .ok (res, m', c') → ∀ pa, s.mem.refCount pa ≠ 0 →
      m'.refCount pa = s.mem.refCount pa + if res.cloned = some pa then 1 else 0) ∧
    (∀ pa, (1 ≤ s.held pa ∧ s.mem.nodes pa = none) ∨
      (pa ∈ s.tables.tables.map Prod.snd ∧ NoLeafBelow s.mem pa) →
      ∃ m', s.mem.dropFrame (NR_LEVELS + 1) pa = .ok m') ∧
    s.strays = [] ∧
    (s.tables.tables = [] → (∀ q n, s.mem.nodes q = some n → n.cfg ≠ userPtConfig highest hle) ∧
      ∀ pa, s.mem.refCount pa = s.held pa) ∧
    (∀ p n, s₀.mem.nodes p = some n → ∃ n', s.mem.nodes p = some n' ∧ n'.entries = n.entries ∧
      s.mem.refCount p = s₀.mem.refCount p) := by
  have hu := isUserConfig_userPtConfig (P := P) highest hle
  obtain ⟨hok, hfor, hne, hheld₀⟩ := ownershipSystem_inv hu h
  have hW := hok.ok.wellFormed
  refine ⟨fun pa hpa => hok.count_eq hpa, ?_, ?_, hok.strays, hok.all_dropped, ?_⟩
  · rintro i ⟨cfg, root, c⟩ op res m' c' hl hno hop pa hpa
    obtain rfl : cfg = _ := hok.user _ (hok.ok.live i _ hl)
    have hc := hok.ok.cursorOK i _ hl
    exact ((effect_perform hW hc op).of_ok hop).refCount hu.tracked
      (perform_noStray hu hW hc hno hop) hpa
  · rintro pa (⟨hheld, hnone⟩ | ⟨hr, hleaf⟩)
    · obtain ⟨m', hm', -⟩ := Post.exists_ok (hok.drop_ok hu (OwnershipOK.handles_held s hheld)
        (fun n hn => by rw [hnone] at hn; cases hn) (noLeafBelow_of_none hnone))
      exact ⟨m', hm'⟩
    · obtain ⟨t, ht, rfl⟩ := List.mem_map.mp hr
      obtain ⟨m', hm', -⟩ := Post.exists_ok (hok.drop_ok hu (OwnershipOK.handles_root s ht)
        (fun n hn => hok.root_cfg ht hn) hleaf)
      exact ⟨m', hm'⟩
  · intro p n hn
    obtain ⟨n', hn', hc', he', hh'⟩ := hfor p n hn (hne p n hn)
    refine ⟨n', hn', he', ?_⟩
    rw [hok.count_foreign hn' (by rw [hc']; exact hne p n hn), hh', hheld₀]

/-! ## Leaks -/

theorem one_le_nrLevels : 1 ≤ 4 := by decide

/-- A machine without tables, in which the frame at `0x7000` is held once. -/
def oneFrame : Holdings Unit :=
  { tables := ⟨freshMem [4096, 8192, 12288, 16384], [], fun _ => none⟩
    held := fun _ => 0
    strays := [] : Holdings Unit }.addHandle 0x7000

/-- The configuration of the table that maps it. -/
def oneFrameConfig : PageTableConfig Unit := userPtConfig 1 one_le_nrLevels

/-- The users of such tables. -/
def oneFrameSystem : System (Holdings Unit) (OwnAction Unit) :=
  ownershipSystem oneFrameConfig oneFrame

theorem oneFrame_level_le : (⟨0x7000, 1, ()⟩ : Item Unit).level ≤ oneFrameConfig.maxItemLevel := by
  decide

/-- A table is made, a cursor is opened on it, and the frame is mapped. -/
def mapFrame : Exec (ℕ × Mem Unit) := do
  let (root, m) ← emptyTable oneFrameConfig oneFrame.mem
  let (new, m) ← Cursor.new oneFrameConfig m root ⟨0, 0x400000⟩
  match new with
  | .error _ => .error .assertion
  | .ok (c, _) => do
      match ← c.perform oneFrameConfig m (.map ⟨⟨0x7000, 1, ()⟩, oneFrame_level_le⟩) with
      | (.map none, m', _) =>
          if (m.nodes 0x7000).isNone then .ok (root, m') else .error .assertion
      | _ => .error .assertion

theorem oneFrameSystem_step {s s' : Holdings Unit} {a : OwnAction Unit}
    (h : (oneFrameSystem.restrict KeepsRefs).Reachable s) (hs : OwnStep oneFrameConfig s a s')
    (hkeeps : KeepsRefs s a) : (oneFrameSystem.restrict KeepsRefs).Reachable s' :=
  h.step ⟨hkeeps, hs⟩

/-- The table of `mapFrame`, without cursors. -/
structure MapsFrame (root : ℕ) (m : Mem Unit) (s : Holdings Unit) : Prop where
  reachable : (oneFrameSystem.restrict KeepsRefs).Reachable s
  mem : s.mem = m
  tables : s.tables.tables = [(oneFrameConfig, root)]
  cursors : ∀ i, s.tables.cursors i = none
  strays : s.strays = []
  held : ∀ pa, s.held pa = 0

theorem exists_mapsFrame {root : ℕ} {m : Mem Unit} (h : mapFrame = .ok (root, m)) :
    ∃ s, MapsFrame root m s := by
  obtain ⟨⟨root, m₀⟩, htable, h⟩ := bind_eq_ok.mp h
  obtain ⟨⟨new, m₁⟩, hnew, h⟩ := bind_eq_ok.mp h
  cases new with
  | error e => cases h
  | ok cl =>
      obtain ⟨⟨res, m₂, c₂⟩, hop, h⟩ := bind_eq_ok.mp h
      have hinit : (oneFrameSystem.restrict KeepsRefs).Reachable oneFrame := System.Reachable.init
        ⟨rfl, wellFormed_of_no_nodes (fun _ => rfl), nofun, rfl, fun _ => rfl, rfl, fun _ => rfl⟩
      have h₁ := oneFrameSystem_step hinit (OwnStep.newTable htable) trivial
      have h₂ := oneFrameSystem_step h₁ (OwnStep.cursor (a := .openCursor 0 _ _ _) trivial
        (CursorStep.openCursor List.mem_cons_self rfl nofun hnew)) trivial
      match res, h with
      | .map none, h =>
          simp only at h
          split at h
          · next hfree =>
            cases h
            have h₃ := oneFrameSystem_step h₂ (OwnStep.perform (l := ⟨oneFrameConfig, root, cl.1⟩)
              (Function.update_self _ _ _) (by
                intro pa hpa
                obtain rfl : 0x7000 = pa := Option.some.inj hpa
                exact ⟨le_refl 1, Option.isNone_iff_eq_none.mp hfree⟩) hop) (fun _ _ => trivial)
            refine ⟨_, oneFrameSystem_step h₃ (OwnStep.cursor (a := .closeCursor 0) trivial
              CursorStep.closeCursor) trivial, rfl, rfl, ?_, rfl, ?_⟩
            · intro i
              by_cases hi : i = 0
              · simp [hi]
              · simp [Holdings.afterOp, Holdings.addTable, oneFrame, Holdings.addHandle, hi]
            · intro pa
              by_cases hpa : pa = 0x7000
              · rw [hpa]
                rfl
              · simp [Holdings.afterOp, Holdings.addTable, oneFrame, Holdings.addHandle, hpa,
                  Op.spent, Res.handed, Ne.symm hpa]
          · cases h

theorem mapped_frames_conserved_sample : ∃ s : Holdings Unit,
    (oneFrameSystem.restrict KeepsRefs).Reachable s ∧ s.mem.refCount 0x7000 = 1 ∧
      s.held 0x7000 = 0 ∧ (s.leaves oneFrameConfig 0x7000).ncard = 1 := by
  obtain ⟨out, hrun, hok⟩ := exists_of_returns (show mapFrame.returns (fun out =>
    out.2.refCount 0x7000 = 1 ∧ (out.2.nodes 0x7000).isNone) = true by decide +kernel)
  simp only [decide_eq_true_eq, Option.isNone_iff_eq_none] at hok
  obtain ⟨s, hs⟩ := exists_mapsFrame hrun
  rw [← hs.mem] at hok
  have hsum := ((mapped_frames_conserved 1 one_le_nrLevels hs.reachable).1 0x7000 hok.2).2
  rw [hok.1, hs.held, Nat.zero_add] at hsum
  exact ⟨s, hs.reachable, hok.1, hs.held _, hsum.symm⟩

/-- Every table and every removed subtree was dropped, and no handle of the frame is held, but
it is still counted. -/
structure Holdings.Leaks (s : Holdings Unit) : Prop where
  tables : s.tables.tables = []
  strays : s.strays = []
  leaves : s.leaves oneFrameConfig 0x7000 = ∅
  held : s.held 0x7000 = 0
  refCount : s.mem.refCount 0x7000 = 1

theorem Holdings.leaks {s : Holdings Unit} (htables : s.tables.tables = [])
    (hstrays : s.strays = []) (hheld : s.held 0x7000 = 0) (hcount : s.mem.refCount 0x7000 = 1) :
    s.Leaks := by
  refine ⟨htables, hstrays, ?_, hheld, hcount⟩
  rw [Set.eq_empty_iff_forall_notMem]
  rintro x ⟨⟨r, hr, -⟩, -⟩
  rw [htables, hstrays] at hr
  simp at hr

/-- The table is dropped while it maps the frame. -/
def dropMapped : Exec (Mem Unit) := do
  let (root, m) ← mapFrame
  m.dropFrame (NR_LEVELS + 1) root

theorem dropMapped_leaks : ∃ s, oneFrameSystem.Reachable s ∧ s.Leaks := by
  obtain ⟨m', hrun, hok⟩ := exists_of_returns
    (show dropMapped.returns (fun m => m.refCount 0x7000 = 1) = true by decide +kernel)
  obtain ⟨⟨root, m⟩, hmap, hdrop⟩ := bind_eq_ok.mp hrun
  obtain ⟨s, hs⟩ := exists_mapsFrame hmap
  rw [← hs.mem] at hdrop
  have hstep := OwnStep.dropTable (show s.tables.tables = [] ++ (oneFrameConfig, root) :: []
    from hs.tables) (fun i l hl => by rw [hs.cursors] at hl; cases hl) hdrop
  exact ⟨_, hs.reachable.of_restrict.step hstep,
    Holdings.leaks rfl hs.strays (hs.held _) (of_decide_eq_true hok)⟩

/-- A new cursor takes the node that maps the frame, the node is dropped, and then the table. -/
def dropTaken : Exec (ℕ × Mem Unit) := do
  let (root, m) ← mapFrame
  let (new, m) ← Cursor.new oneFrameConfig m root ⟨0, 0x400000⟩
  match new with
  | .error _ => .error .assertion
  | .ok (c, _) => do
      match ← c.perform oneFrameConfig m (.takeNext 0x200000) with
      | (.takeNext (some (.strayPageTable pt ..)), m, _) => do
          let m ← m.dropFrame (NR_LEVELS + 1) pt
          let m ← m.dropFrame (NR_LEVELS + 1) root
          .ok (pt, m)
      | _ => .error .assertion

theorem dropTaken_leaks : ∃ s pt, oneFrameSystem.Reachable s ∧ s.Leaks ∧ s.held pt = 0 ∧
    s.mem.nodes pt ≠ none ∧ s.mem.refCount pt = 1 := by
  obtain ⟨out, hrun, hok⟩ := exists_of_returns (show dropTaken.returns (fun out =>
    out.2.refCount 0x7000 = 1 ∧ (out.2.nodes out.1).isSome ∧ out.2.refCount out.1 = 1) = true
    by decide +kernel)
  obtain ⟨hframe, hnode, hpt⟩ := of_decide_eq_true hok
  obtain ⟨⟨root, m⟩, hmap, h⟩ := bind_eq_ok.mp hrun
  obtain ⟨⟨new, m₁⟩, hnew, h⟩ := bind_eq_ok.mp h
  obtain ⟨s, hs⟩ := exists_mapsFrame hmap
  cases new with
  | error e => cases h
  | ok cl =>
      obtain ⟨⟨res, m₂, c₂⟩, hop, h⟩ := bind_eq_ok.mp h
      have hroot : (oneFrameConfig, root) ∈ s.tables.tables := by
        rw [hs.tables]
        exact List.mem_singleton_self _
      rw [← hs.mem] at hnew
      have h₁ := hs.reachable.of_restrict.step (OwnStep.cursor (a := .openCursor 0 _ _ _) trivial
        (CursorStep.openCursor hroot (hs.cursors 0)
          (fun j l hl => by rw [hs.cursors] at hl; cases hl) hnew))
      have h₂ := h₁.step (OwnStep.perform (l := ⟨oneFrameConfig, root, cl.1⟩)
        (Function.update_self _ _ _) (fun pa hpa => by cases hpa) hop)
      have h₃ := h₂.step (OwnStep.cursor (a := .closeCursor 0) trivial CursorStep.closeCursor)
      split at h
      · next pt _ _ _ m₃ _ heq =>
        cases heq
        obtain ⟨m₄, hdrop, h⟩ := bind_eq_ok.mp h
        obtain ⟨m₅, hdrop', h⟩ := bind_eq_ok.mp h
        cases h
        have h₄ := h₃.step (OwnStep.dropStray List.mem_cons_self hdrop)
        have h₅ := h₄.step (OwnStep.dropTable (show _ = [] ++ (oneFrameConfig, root) :: []
          from hs.tables) (fun i l hl => by
            by_cases hi : i = 0
            · simp [Holdings.withMem, hi] at hl
            · simp [Holdings.withMem, Holdings.afterOp, hi, hs.cursors] at hl) hdrop')
        refine ⟨_, pt, h₅, Holdings.leaks rfl ?_ ?_ hframe, ?_, ?_, hpt⟩
        · simp [Holdings.afterOp, Res.stray, PageTableFrag.stray, hs.strays]
        · simp [Holdings.withMem, Holdings.afterOp, Res.handed, PageTableFrag.handed, hs.held]
        · simp [Holdings.withMem, Holdings.afterOp, Res.handed, PageTableFrag.handed, hs.held]
        · exact Option.ne_none_iff_isSome.mpr hnode
      · cases h

/-- **References are lost** by a table that is dropped while it maps a frame, and by a
`take_next` that removes a node: the frame stays counted, and in the second case the node,
which nobody can reach any more, is not freed. -/
theorem mapped_frames_leaked :
    (∃ s, oneFrameSystem.Reachable s ∧ s.Leaks) ∧
    ∃ s pt, oneFrameSystem.Reachable s ∧ s.Leaks ∧ s.held pt = 0 ∧ s.mem.nodes pt ≠ none ∧
      s.mem.refCount pt = 1 :=
  ⟨dropMapped_leaks, dropTaken_leaks⟩

end Vostd
