/-
# Ownership of mapped frames

An item that is mapped moves its handle into the leaf entry, and overwriting or
unmapping the entry gives the handle back.  `Holdings` adds to tables and cursors what
their users hold: the handles of frames outside page tables, and the removed subtrees
that have not been dropped yet.  Handles are dropped by calls of `Frame::drop`.

Two ways out of a table lose references.  A removed subtree comes with a reference of
its own, while the one that its entry held is never given up; and a node that is
destroyed keeps the references of its leaf entries.  `KeepsRefs` is the condition on a
step that it does neither: `take_next` comes upon a mapped page before every node that
it could remove, and a table is dropped when no leaf entry is left in it.

The invariant of the runs of such steps is that all reference counts are exact
(`OwnershipOK`).
-/
import Vostd.PageTable.System
import Vostd.PageTable.Landing
import Vostd.PageTable.References

namespace Vostd

open Exec Function

variable {P : Type}

/-! ## The system -/

/-- Tables and cursors, and what their users hold: `held` are the handles of frames,
`strays` the removed subtrees. -/
structure Holdings (P : Type) where
  tables : Tables P
  held : ℕ → ℕ
  strays : List ℕ

/-- The memory. -/
def Holdings.mem (s : Holdings P) : Mem P := s.tables.mem

/-- The tables and cursors in another memory. -/
def Holdings.withMem (s : Holdings P) (m : Mem P) : Holdings P where
  tables := { s.tables with mem := m }
  held := s.held
  strays := s.strays

/-- One more handle of a frame, for a user. -/
def Holdings.addHandle (s : Holdings P) (pa : ℕ) : Holdings P where
  tables := { s.tables with
    mem := { s.mem with refCount := update s.mem.refCount pa (s.mem.refCount pa + 1) } }
  held := update s.held pa (s.held pa + 1)
  strays := s.strays

/-- A table that was made in the memory `m`. -/
def Holdings.addTable (s : Holdings P) (m : Mem P) (cfg : PageTableConfig P) (root : ℕ) :
    Holdings P where
  tables := { s.tables with mem := m, tables := (cfg, root) :: s.tables.tables }
  held := s.held
  strays := s.strays

/-- The handles of a frame that are outside of page tables: those of items and of tables. -/
def Holdings.handles (s : Holdings P) (pa : ℕ) : ℕ :=
  s.held pa + (s.tables.tables.map Prod.snd).count pa

/-- The frame whose handle an operation takes from the caller. -/
def Op.spent {cfg : PageTableConfig P} : Op cfg → Option ℕ
  | .map item => some item.pa
  | _ => none

/-- The frame whose handle a fragment carries. -/
def PageTableFrag.handed : PageTableFrag P → Option ℕ
  | .mapped _ item => some item.pa
  | .strayPageTable .. => none

/-- The subtree that a fragment carries. -/
def PageTableFrag.stray : PageTableFrag P → Option ℕ
  | .mapped .. => none
  | .strayPageTable pt .. => some pt

/-- The frame of the item that a query has cloned. -/
def Res.cloned : Res P → Option ℕ
  | .query (.ok (_, some item)) => some item.pa
  | _ => none

/-- The frame whose handle an operation gives to the caller. -/
def Res.handed : Res P → Option ℕ
  | .map frag => frag.bind PageTableFrag.handed
  | .takeNext frag => frag.bind PageTableFrag.handed
  | res => res.cloned

/-- The removed subtree that an operation gives to the caller. -/
def Res.stray : Res P → Option ℕ
  | .map frag => frag.bind PageTableFrag.stray
  | .takeNext frag => frag.bind PageTableFrag.stray
  | _ => none

/-- What the users hold after an operation. -/
def Holdings.afterOp (s : Holdings P) (t : Tables P) {cfg : PageTableConfig P} (op : Op cfg)
    (res : Res P) : Holdings P where
  tables := t
  held := fun o =>
    (s.held o - if op.spent = some o then 1 else 0) + if res.handed = some o then 1 else 0
  strays := res.stray.toList ++ s.strays

/-- What users of tables can do. -/
inductive OwnAction (P : Type) : Type where
  | newFrame (pa : ℕ)
  | cloneHandle (pa : ℕ)
  | dropHandle (pa : ℕ)
  | newTable
  | createUser (kcfg : PageTableConfig P) (kroot : ℕ)
  | cursor (a : Action P)
  | dropStray (pt : ℕ)
  | dropTable (root : ℕ)

/-- The cursors of `a` are opened or closed. -/
def Action.OpensOrCloses : Action P → Prop
  | .openCursor .. => True
  | .closeCursor .. => True
  | _ => False

/-- **The steps of the users of tables** of the configuration `ucfg`. -/
inductive OwnStep (ucfg : PageTableConfig P) : Holdings P → OwnAction P → Holdings P → Prop
  /-- `Frame::from_unused` -/
  | newFrame {s : Holdings P} {pa : ℕ} (hfree : s.mem.refCount pa = 0) :
      OwnStep ucfg s (.newFrame pa) (s.addHandle pa)
  /-- `Frame::clone` -/
  | cloneHandle {s : Holdings P} {pa : ℕ} (hheld : 1 ≤ s.held pa) (hdata : s.mem.nodes pa = none) :
      OwnStep ucfg s (.cloneHandle pa) (s.addHandle pa)
  /-- `Frame::drop` of the handle of an item -/
  | dropHandle {s : Holdings P} {pa : ℕ} {m' : Mem P} (hheld : 1 ≤ s.held pa)
      (hdata : s.mem.nodes pa = none) (hdrop : s.mem.dropFrame (NR_LEVELS + 1) pa = .ok m') :
      OwnStep ucfg s (.dropHandle pa)
        { s.withMem m' with held := update s.held pa (s.held pa - 1) }
  | newTable {s : Holdings P} {root : ℕ} {m' : Mem P}
      (hnew : emptyTable ucfg s.mem = .ok (root, m')) :
      OwnStep ucfg s .newTable (s.addTable m' ucfg root)
  | createUser {s : Holdings P} {kcfg : PageTableConfig P} {kroot root : ℕ} {kernel : Node P}
      {m' : Mem P} (hcan : kcfg.topLevelCanUnmap = false)
      (hdis : ∀ i, ucfg.topLevelIndexRange.Contains i → ¬kcfg.topLevelIndexRange.Contains i)
      (hkernel : s.mem.nodes kroot = some kernel) (hk4 : kernel.level = 4)
      (hkc : kernel.cfg = kcfg)
      (hnew : createUserPageTable kcfg ucfg s.mem kroot = .ok (root, m')) :
      OwnStep ucfg s (.createUser kcfg kroot) (s.addTable m' ucfg root)
  | cursor {s : Holdings P} {a : Action P} {t : Tables P} (ha : a.OpensOrCloses)
      (hstep : CursorStep s.tables a t) : OwnStep ucfg s (.cursor a) { s with tables := t }
  /-- a mapped item moves its handle into the table -/
  | perform {s : Holdings P} {i : ℕ} {l : LiveCursor P} {op : Op l.cfg} {res : Res P} {m' : Mem P}
      {c' : Cursor} (hlive : s.tables.cursors i = some l)
      (hitem : ∀ pa, op.spent = some pa → 1 ≤ s.held pa ∧ s.mem.nodes pa = none)
      (hop : l.cursor.perform l.cfg s.mem op = .ok (res, m', c')) :
      OwnStep ucfg s (.cursor (.perform i l.cfg op))
        (s.afterOp { s.tables with
          mem := m'
          cursors := update s.tables.cursors i (some ⟨l.cfg, l.root, c'⟩) } op res)
  /-- `Frame::drop` of a removed subtree -/
  | dropStray {s : Holdings P} {pt : ℕ} {m' : Mem P} (hstray : pt ∈ s.strays)
      (hdrop : s.mem.dropFrame (NR_LEVELS + 1) pt = .ok m') :
      OwnStep ucfg s (.dropStray pt) { s.withMem m' with strays := s.strays.erase pt }
  /-- `Frame::drop` of the root of a table without cursors -/
  | dropTable {s : Holdings P} {root : ℕ} {pre post : List (PageTableConfig P × ℕ)} {m' : Mem P}
      (htable : s.tables.tables = pre ++ (ucfg, root) :: post)
      (hidle : ∀ i l, s.tables.cursors i = some l → l.root ≠ root)
      (hdrop : s.mem.dropFrame (NR_LEVELS + 1) root = .ok m') :
      OwnStep ucfg s (.dropTable root)
        { s with tables := { s.tables with mem := m', tables := pre ++ post } }

/-- Users of tables, in a machine that has no user table yet. -/
def ownershipSystem (ucfg : PageTableConfig P) (s₀ : Holdings P) :
    System (Holdings P) (OwnAction P) where
  init := fun s => s = s₀ ∧ WellFormed s.mem ∧ (∀ q n, s.mem.nodes q = some n → n.cfg ≠ ucfg) ∧
    s.tables.tables = [] ∧ (∀ i, s.tables.cursors i = none) ∧ s.strays = [] ∧
    ∀ pa, s.held pa = s.mem.refCount pa
  step := OwnStep ucfg

/-- Before every node that lies whole in the next `len` bytes, below the nodes that the cursor
is in, some page is mapped. -/
def Cursor.TakesNoNode (c : Cursor) (m : Mem P) (root len : ℕ) : Prop :=
  ∀ x l, 1 ≤ l → l < c.guardLevel → (x = c.va → l < c.level) → pageSize (l + 1) ∣ x → c.va ≤ x →
    x + pageSize (l + 1) ≤ c.va + len → nodeAt m root x l ≠ none →
    ∃ a, c.va ≤ a ∧ a < x ∧ pageWalk m root a ≠ none

/-- `take_next` can find no node to remove. -/
def Op.TakesNoNode {cfg : PageTableConfig P} (m : Mem P) (root : ℕ) (c : Cursor) : Op cfg → Prop
  | .takeNext len => c.TakesNoNode m root len
  | _ => True

/-- **The steps that lose no reference**: no node is removed from a table, and a table is
dropped without leaf entries. -/
def KeepsRefs (s : Holdings P) : OwnAction P → Prop
  | .cursor (.perform i _ op) =>
      ∀ l, s.tables.cursors i = some l → op.TakesNoNode s.mem l.root l.cursor
  | .dropTable root => NoLeafBelow s.mem root
  | _ => True

/-! ## The invariant -/

/-- **The invariant of ownership.** -/
structure OwnershipOK (ucfg : PageTableConfig P) (s : Holdings P) : Prop where
  ok : TablesOK s.tables
  user : ∀ t ∈ s.tables.tables, t.1 = ucfg
  refs : RefsOK ucfg s.mem s.handles
  /-- the handles of nodes are in entries and tables only -/
  held : ∀ q n, s.mem.nodes q = some n → n.cfg = ucfg → s.held q = 0
  strays : s.strays = []

/-- A new root is a node that is added. -/
theorem FreshNode.addsNodes {ucfg : PageTableConfig P} {m m' : Mem P} {root : ℕ} {n : Node P}
    (hf : FreshNode m m' root n) (hW : WellFormed m) : AddsNodes ucfg m m' where
  old := fun p k hk => ⟨k, hf.old hW hk, rfl, fun _ => rfl⟩
  new := by
    intro p k hp hk
    rcases hf.cases hk with ⟨rfl, -⟩ | hold
    · exact hf.unused
    · rw [hp] at hold
      cases hold
  used := by
    intro p hp
    rw [hf.refCount]
    by_cases hr : p = root
    · rw [hr, update_self]
      exact Nat.one_ne_zero
    · rwa [update_of_ne hr]

namespace OwnershipOK

variable {ucfg : PageTableConfig P} {s s' : Holdings P} {pa : ℕ} {m' : Mem P}

theorem handles_root (s : Holdings P) {t : PageTableConfig P × ℕ} (ht : t ∈ s.tables.tables) :
    1 ≤ s.handles t.2 := by
  have hpos : 0 < (s.tables.tables.map Prod.snd).count t.2 :=
    List.count_pos_iff.mpr (List.mem_map_of_mem ht)
  unfold Holdings.handles
  omega

theorem handles_held (s : Holdings P) {q : ℕ} (hq : 1 ≤ s.held q) : 1 ≤ s.handles q := by
  unfold Holdings.handles
  omega

theorem root_cfg (h : OwnershipOK ucfg s) {t : PageTableConfig P × ℕ}
    (ht : t ∈ s.tables.tables) {n : Node P} (hn : s.mem.nodes t.2 = some n) : n.cfg = ucfg := by
  obtain ⟨k, hk, -, hkc, -⟩ := h.ok.isRoot t ht
  rw [show s.mem.nodes t.2 = some k from hk] at hn
  rw [← Option.some.inj hn, hkc, h.user t ht]

/-- The handles that a user drops are never those of foreign nodes. -/
theorem drop_ok (h : OwnershipOK ucfg s) (hu : IsUserConfig ucfg) (hpa : 1 ≤ s.handles pa)
    (hcfg : ∀ n, s.mem.nodes pa = some n → n.cfg = ucfg) (hleaf : NoLeafBelow s.mem pa) :
    Post (fun _ => False) (s.mem.dropFrame (NR_LEVELS + 1) pa) (fun m' => Dropped ucfg s.mem m' ∧
      WellFormed m' ∧ RefsOK ucfg m' (update s.handles pa (s.handles pa - 1))) :=
  h.refs.drop h.ok.wellFormed hu hpa hcfg hleaf

/-- **A handle is dropped**: what still has handles is still there. -/
theorem dropped (h : OwnershipOK ucfg s) (hd : Dropped ucfg s.mem s'.mem)
    (hW : WellFormed s'.mem)
    (hrefs₀ : RefsOK ucfg s'.mem (update s.handles pa (s.handles pa - 1)))
    (hhandles : ∀ o, s'.handles o = update s.handles pa (s.handles pa - 1) o)
    (hcur : s'.tables.cursors = s.tables.cursors)
    (htab : ∀ t ∈ s'.tables.tables, t ∈ s.tables.tables)
    (hlive : ∀ i l, s.tables.cursors i = some l → (l.cfg, l.root) ∈ s'.tables.tables)
    (hheld : ∀ q, s'.held q ≤ s.held q) (hstray : s'.strays = s.strays) :
    OwnershipOK ucfg s' := by
  have hrefs : RefsOK ucfg s'.mem s'.handles :=
    ⟨hrefs₀.counted.congr rfl hhandles (fun _ => rfl), hrefs₀.leaf⟩
  have hsame : ∀ q, 1 ≤ s'.handles q → s'.mem.nodes q = s.mem.nodes q := by
    intro q hq
    refine hd.nodes_eq ?_
    have hle := hrefs.counted.ext_le q
    omega
  have hroot : ∀ t ∈ s'.tables.tables, IsRoot s'.mem t.1 t.2 := by
    intro t ht
    obtain ⟨n, hn, hrest⟩ := h.ok.isRoot t (htab t ht)
    exact ⟨n, (hsame t.2 (handles_root s' ht)).trans hn, hrest⟩
  refine ⟨⟨hW, hroot, ?_, ?_, ?_⟩, fun t ht => h.user t (htab t ht), hrefs, ?_,
    hstray.trans h.strays⟩
  · intro i l hl
    rw [hcur] at hl
    have hc := h.ok.cursorOK i l hl
    refine ⟨hc.toCursorPath.of_nodeAt (hroot _ (hlive i l hl)) ?_, hc.le_stop⟩
    intro x hx lv q hlv h4 hq
    have hpos := hc.level_pos
    exact hd.nodeAt hW ((hroot _ (hlive i l hl)).covers (hc.managed x hx)) (by omega) h4 hq
  · intro i l hl
    rw [hcur] at hl
    exact hlive i l hl
  · intro i j l l' hne hl hl'
    rw [hcur] at hl hl'
    exact h.ok.disjoint i j l l' hne hl hl'
  · intro q n hn hc
    have hzero := h.held q n (hd.of_some hn) hc
    have hle := hheld q
    omega

/-- A handle of a frame that is no node is made. -/
theorem addHandle (h : OwnershipOK ucfg s) (hdata : s.mem.nodes pa = none) :
    OwnershipOK ucfg (s.addHandle pa) where
  ok := by
    have hused : ∀ q k, s.mem.nodes q = some k → (s.addHandle pa).mem.refCount q ≠ 0 := by
      intro q k hk
      show update s.mem.refCount pa (s.mem.refCount pa + 1) q ≠ 0
      rw [update_of_ne (fun hq => by rw [hq, hdata] at hk; cases hk)]
      exact (h.ok.wellFormed.ok q k hk).alive
    refine ⟨h.ok.wellFormed.of_nodes rfl hused, h.ok.isRoot, ?_, h.ok.live, h.ok.disjoint⟩
    intro i l hl
    have hc := h.ok.cursorOK i l hl
    exact ⟨hc.toCursorPath.of_nodes rfl, hc.le_stop⟩
  user := h.user
  refs := by
    refine ⟨(h.refs.counted.clone pa).congr rfl ?_ (fun _ => rfl), h.refs.leaf⟩
    intro o
    unfold Holdings.handles Holdings.addHandle
    simp only
    by_cases ho : o = pa
    · rw [ho, update_self, update_self]
      omega
    · rw [update_of_ne ho, update_of_ne ho]
  held := by
    intro q n hn hc
    show update s.held pa (s.held pa + 1) q = 0
    have hq : q ≠ pa := by
      rintro rfl
      rw [show s.mem.nodes q = some n from hn] at hdata
      cases hdata
    rw [update_of_ne hq]
    exact h.held q n hn hc
  strays := h.strays

/-- A table is made. -/
theorem addTable {root : ℕ} {n : Node P} (h : OwnershipOK ucfg s)
    (hf : FreshNode s.mem m' root n) (hW : WellFormed m') (hroot : IsRoot m' ucfg root)
    (habs : ∀ i, n.slots.Contains i → n.entries i = .absent) :
    OwnershipOK ucfg (s.addTable m' ucfg root) where
  ok := h.ok.addTable hf hW hroot
  user := by
    intro t ht
    rcases List.mem_cons.mp ht with rfl | ht
    · rfl
    · exact h.user t ht
  refs := by
    have hslot : ∀ x, slotRef ucfg m' x = slotRef ucfg s.mem x := by
      rintro ⟨q, i⟩
      by_cases hq : q = root
      · subst hq
        have hnone : s.mem.nodes q = none := by
          by_contra hsome
          obtain ⟨k, hk⟩ := Option.ne_none_iff_exists'.mp hsome
          exact hf.ne h.ok.wellFormed hk rfl
        rw [slotRef_of_none hnone]
        by_cases hs : n.cfg = ucfg ∧ n.slots.Contains i
        · rw [slotRef_of_slot hf.node hs.1 hs.2, habs i hs.2]
          rfl
        · rw [slotRef_of_not hf.node hs]
      · exact slotRef_congr (by rw [hf.nodes, update_of_ne hq])
    constructor
    · refine (h.refs.counted.clone root).congr ?_ ?_ hslot
      · rw [hf.unused]
        exact hf.refCount
      · intro o
        unfold Holdings.handles Holdings.addTable
        simp only [List.map_cons]
        by_cases ho : o = root
        · rw [ho, update_self, List.count_cons_self]
          omega
        · rw [update_of_ne ho, List.count_cons_of_ne (Ne.symm ho)]
    · rintro q i l fpa prop ⟨k, hk, hkc, hkl, hs, he⟩
      rcases hf.cases hk with ⟨rfl, rfl⟩ | hold
      · rw [habs i hs] at he
        cases he
      · have hleaf : LeafAt s.mem ucfg q i l fpa prop := ⟨k, hold, hkc, hkl, hs, he⟩
        have hne : fpa ≠ root := by
          rintro rfl
          exact h.refs.counted.no_ref hf.unused _ hleaf.slotRef
        show m'.nodes fpa = none
        rw [hf.nodes, update_of_ne hne]
        exact h.refs.leaf q i l fpa prop hleaf
  held := by
    intro q k hk hc
    rcases hf.cases hk with ⟨rfl, -⟩ | hold
    · have hle := h.refs.counted.ext_le q
      rw [hf.unused] at hle
      unfold Holdings.handles at hle
      show s.held q = 0
      omega
    · exact h.held q k hold hc
  strays := h.strays

/-- The memory changes, and nodes are only added. -/
theorem changed (h : OwnershipOK ucfg s) (hok : TablesOK s'.tables)
    (htab : s'.tables.tables = s.tables.tables) (hrefs : RefsOK ucfg s'.mem s'.handles)
    (hadds : AddsNodes ucfg s.mem s'.mem)
    (hheld : ∀ q, s'.held q ≠ 0 → s.held q ≠ 0 ∨ s'.mem.nodes q = none)
    (hstray : s'.strays = s.strays) :
    OwnershipOK ucfg s' where
  ok := hok
  user := by
    rw [htab]
    exact h.user
  refs := hrefs
  held := by
    intro q n hn hc
    by_contra hne
    rcases hheld q hne with hold | hnone
    · cases hq : s.mem.nodes q with
      | none =>
          have hle := h.refs.counted.ext_le q
          rw [hadds.new q n hq hn] at hle
          unfold Holdings.handles at hle
          omega
      | some k =>
          obtain ⟨k', hk', hc', -⟩ := hadds.old q k hq
          rw [hn] at hk'
          obtain rfl := Option.some.inj hk'
          exact hold (h.held q k hq (by rw [← hc', hc]))
    · rw [hn] at hnone
      cases hnone
  strays := hstray.trans h.strays

end OwnershipOK

/-! ## Operations -/

/-- The handles after an operation. -/
theorem handles_afterOp (s : Holdings P) (t : Tables P) {cfg : PageTableConfig P} (op : Op cfg)
    (res : Res P) (htab : t.tables = s.tables.tables) (o : ℕ)
    (hspent : op.spent = some o → 1 ≤ s.held o) :
    ((s.afterOp t op res).handles o + if op.spent = some o then 1 else 0) =
      s.handles o + if res.handed = some o then 1 else 0 := by
  unfold Holdings.handles
  simp only [Holdings.afterOp, htab]
  by_cases hs : op.spent = some o
  · have hle := hspent hs
    rw [if_pos hs]
    omega
  · rw [if_neg hs]
    omega

section

variable {ucfg : PageTableConfig P} {m m' : Mem P} {c c' : Cursor} {old e : Pte P} {op : Op ucfg}
  {res : Res P} {root : ℕ}

/-- The fragment of an entry that is no child. -/
theorem fragOf_stray (m : Mem P) (c : Cursor) (hold : ∀ pt, old ≠ .table pt) :
    (fragOf m c old).bind PageTableFrag.stray = none := by
  cases old with
  | table pt => exact absurd rfl (hold pt)
  | _ => rfl

/-- `take_next` removes no node where there is none to remove. -/
theorem post_takeNext_noStray {len : ℕ} (hmax : ucfg.maxItemLevel ≤ 1) (hW : WellFormed m)
    (h : CursorOK m ucfg root c) (hno : c.TakesNoNode m root len) :
    Post (fun _ => True) (c.takeNext ucfg m len)
      (fun r => r.1.bind PageTableFrag.stray = none) := by
  rcases Nat.eq_zero_or_pos len with rfl | hlen
  · refine (post_takeNext_zero h).mono ?_
    rintro r ⟨hnone, -⟩
    rw [hnone]
    rfl
  have hA : SearchFaults (fun _ => True) m ucfg c true :=
    ⟨Or.inl trivial, fun _ _ => ⟨⟨trivial, trivial⟩, Or.inl trivial⟩⟩
  unfold Cursor.takeNext
  refine Post.bind ((post_findNextImpl hA (Or.inl trivial) hW h).and
    (post_findNextImpl_lands hmax hlen hW h.toCursorPath)) ?_
  rintro ⟨v, m₁, c₁⟩ ⟨⟨-, -, hf⟩, hlands⟩
  obtain rfl : m₁ = m := hlands.mem
  cases v with
  | none => rfl
  | some v =>
      obtain ⟨-, q, n, hc, hfits, -⟩ := hf.fits
      refine Post.bind (post_replaceCurEntry hW hc .none (fun pa hf => by cases hf)
        (fun _ _ _ hf => by cases hf) (Or.inl trivial)) ?_
      rintro ⟨frag, m₂⟩ ⟨-, hfrag, -⟩
      refine Post.bind_any fun c₂ => ?_
      show frag.bind PageTableFrag.stray = none
      rw [show frag = _ from hfrag]
      refine fragOf_stray _ _ (fun pt hpt => ?_)
      -- the node at the entry lies in the range, and nothing is mapped before it
      obtain ⟨k, hk, hkl, -⟩ := (hW.ok q n hc.position.node).child _ _ hc.slot hpt
      have hpos := (hW.ok pt k hk).level_pos
      have hlevel := hc.level
      have hle := hc.position.level_le
      have hnode : nodeAt m₁ root c₁.va (c₁.level - 1) = some pt := by
        refine (nodeAt_eq_some_iff (by omega)).mpr ⟨q, ?_, ?_⟩
        · rw [Nat.sub_add_cancel (by omega)]
          exact hc.position.nodeAt
        · rw [Nat.sub_add_cancel (by omega), Mem.entry_eq hc.position.node, hpt]
      have hmoved := hlands.moved
      have hguard := hf.path.level_le
      rw [hf.same.guardLevel] at hguard
      simp only at hmoved hguard
      obtain ⟨a, hlo, hhi, ha⟩ := hno c₁.va (c₁.level - 1) (by omega) (by omega) (by omega)
        (by rw [Nat.sub_add_cancel (by omega)]; exact hfits.start) (hf.le_va h)
        (by rw [Nat.sub_add_cancel (by omega)]; exact hfits.le) (by rw [hnode]; exact nofun)
      exact ha (hf.unmapped a hlo hhi)

/-- A slot of the lowest level holds no node. -/
theorem CurSlot.ne_table {q : ℕ} {n : Node P} (hc : CurSlot m ucfg root c q n) (hW : WellFormed m)
    (hl : c.level ≤ 1) (pt : ℕ) : n.entries (pteIndex c.va c.level) ≠ .table pt := by
  intro hpt
  obtain ⟨k, hk, hkl, -⟩ := (hW.ok q n hc.position.node).child _ _ hc.slot hpt
  have hpos := (hW.ok pt k hk).level_pos
  have hlevel := hc.level
  omega

/-- **An operation that keeps the references removes no node.** -/
theorem perform_noStray (hu : IsUserConfig ucfg) (hW : WellFormed m) (h : CursorOK m ucfg root c)
    (hno : op.TakesNoNode m root c) (hop : c.perform ucfg m op = .ok (res, m', c')) :
    res.stray = none := by
  cases op with
  | map item =>
      obtain ⟨⟨frag, m₁, c₁⟩, hmap, hres⟩ := bind_eq_ok.mp hop
      have hspec : MapSpec m ucfg root c item.1 (frag, m₁, c₁) :=
        (post_map OpFaults.isPanic (Or.inl trivial) hW h item.level_le).of_ok hmap
      cases hres
      obtain ⟨m₂, c₂, q, n, hg, -, -, hl, ho, hfrag⟩ := hspec.result
      show frag.bind PageTableFrag.stray = none
      have hle := item.level_le
      rw [hu.maxItemLevel, ← hl] at hle
      rw [show frag = _ from hfrag]
      exact fragOf_stray _ _ (ho.slot.ne_table (hg.wellFormed hW) hle)
  | takeNext len =>
      obtain ⟨⟨frag, m₁, c₁⟩, htake, hres⟩ := bind_eq_ok.mp hop
      cases hres
      exact (post_takeNext_noStray hu.maxItemLevel.le hW h hno).of_ok htake
  | protectNext len f =>
      obtain ⟨r, -, hres⟩ := bind_eq_ok.mp hop
      cases hres
      rfl
  | findNext len =>
      obtain ⟨r, -, hres⟩ := bind_eq_ok.mp hop
      cases hres
      rfl
  | query =>
      obtain ⟨r, -, hres⟩ := bind_eq_ok.mp hop
      cases hres
      rfl
  | jump va =>
      obtain ⟨r, -, hres⟩ := bind_eq_ok.mp hop
      cases hres
      rfl

/-- The entry that such an operation overwrites was no child. -/
theorem Op.Writes.old_ne (h : Op.Writes c old e (fragOf m c old) op res)
    (hres : res.stray = none) (pt : ℕ) : old ≠ .table pt := by
  rintro rfl
  cases op with
  | map item =>
      obtain ⟨-, -, rfl⟩ := h
      cases hres
  | takeNext len =>
      obtain ⟨-, -, rfl⟩ := h
      cases hres
  | protectNext len f =>
      obtain ⟨pa, prop, hold, -⟩ := h
      cases hold
  | findNext len => exact h.elim
  | query => exact h.elim
  | jump va => exact h.elim

/-- A fragment of such an entry carries what the entry referred to. -/
theorem fragOf_handed (m : Mem P) (c : Cursor) (hold : ∀ pt, old ≠ .table pt) :
    (fragOf m c old).bind PageTableFrag.handed = old.target := by
  cases old with
  | table pt => exact absurd rfl (hold pt)
  | _ => rfl

/-- What an operation gives to the caller is what the entry referred to, and what the
entry refers to now is what the caller gave. -/
theorem Op.Writes.balance (h : Op.Writes c old e (fragOf m c old) op res)
    (hold : ∀ pt, old ≠ .table pt) (o : ℕ) :
    ((if res.handed = some o then 1 else 0) + if e.target = some o then 1 else 0) =
      (if old.target = some o then 1 else 0) + if op.spent = some o then 1 else 0 := by
  rw [← fragOf_handed m c hold]
  cases op with
  | map item =>
      obtain ⟨-, rfl, rfl⟩ := h
      rfl
  | takeNext len =>
      obtain ⟨rfl, -, rfl⟩ := h
      rfl
  | protectNext len f =>
      obtain ⟨pa, prop, rfl, rfl, rfl⟩ := h
      exact Nat.zero_add _
  | findNext len => exact h.elim
  | query => exact h.elim
  | jump va => exact h.elim

theorem Op.Writes.handed (h : Op.Writes c old e (fragOf m c old) op res) {o : ℕ}
    (ho : res.handed = some o) : ∃ prop, old = .frame o prop := by
  have hfrag : (fragOf m c old).bind PageTableFrag.handed = some o := by
    cases op with
    | map item =>
        obtain ⟨-, -, rfl⟩ := h
        exact ho
    | takeNext len =>
        obtain ⟨-, -, rfl⟩ := h
        exact ho
    | protectNext len f =>
        obtain ⟨pa, prop, -, -, rfl⟩ := h
        cases ho
    | findNext len => exact h.elim
    | query => exact h.elim
    | jump va => exact h.elim
  cases old with
  | absent => cases hfrag
  | frame pa prop =>
      obtain rfl : pa = o := Option.some.inj hfrag
      exact ⟨prop, rfl⟩
  | table pt => cases hfrag

/-- The frame that an operation maps is the caller's, or the one that was there. -/
theorem Op.Writes.frame {pa : ℕ} {prop : P} {frag : Option (PageTableFrag P)}
    (h : Op.Writes c old (.frame pa prop) frag op res) :
    op.spent = some pa ∨ ∃ prop', old = .frame pa prop' := by
  cases op with
  | map item =>
      obtain ⟨-, he, -⟩ := h
      injection he with hpa hprop
      exact Or.inl (by rw [hpa]; rfl)
  | takeNext len => cases h.1
  | protectNext len f =>
      obtain ⟨pa', prop', hold, he, -⟩ := h
      injection he with hpa hprop
      exact Or.inr ⟨prop', by rw [hold, hpa]⟩
  | findNext len => exact h.elim
  | query => exact h.elim
  | jump va => exact h.elim

theorem Res.IsIdle.handed (h : res.IsIdle) : res.handed = none := by
  cases res with
  | map frag => exact h.elim
  | takeNext frag =>
      obtain rfl := h
      rfl
  | protectNext range => rfl
  | findNext va => rfl
  | query state =>
      obtain ⟨err, rfl⟩ := h
      rfl
  | jump r => rfl

/-- An operation that takes a handle is `map`, which is never idle. -/
theorem Op.spent_of_idle (hop : c.perform ucfg m op = .ok (res, m', c'))
    (h : res.IsIdle) : op.spent = none := by
  cases op with
  | map item =>
      obtain ⟨r, -, hr⟩ := bind_eq_ok.mp hop
      cases hr
      exact h.elim
  | _ => rfl

end

namespace OwnershipOK

variable {ucfg : PageTableConfig P} {s : Holdings P} {t : Tables P} {root : ℕ} {op : Op ucfg}
  {res : Res P}

theorem held_afterOp {q : ℕ} (h : (s.afterOp t op res).held q ≠ 0) :
    s.held q ≠ 0 ∨ res.handed = some q := by
  by_contra hnot
  rw [not_or, not_not] at hnot
  simp only [Holdings.afterOp, hnot.1, if_neg hnot.2] at h
  omega

theorem strays_afterOp (h : res.stray = none) : (s.afterOp t op res).strays = s.strays := by
  simp only [Holdings.afterOp, h]
  rfl

/-- An operation that finds nothing to do. -/
theorem afterOp_idle (h : OwnershipOK ucfg s) (hu : IsUserConfig ucfg) (hok : TablesOK t)
    (htab : t.tables = s.tables.tables) (hroot : IsRoot s.mem ucfg root)
    (hspent : op.spent = none) (hstray : res.stray = none) (hg : Grow root s.mem t.mem)
    (hres : res.IsIdle) : OwnershipOK ucfg (s.afterOp t op res) ∧ AddsNodes ucfg s.mem t.mem ∧
      ∀ pa, res.handed = some pa → t.mem.nodes pa = none := by
  obtain ⟨hrefs, hadds⟩ := hg.refsOK hu h.ok.wellFormed hroot h.refs
  have hhanded : ∀ pa, res.handed = some pa → t.mem.nodes pa = none := by
    rw [hres.handed]
    exact nofun
  refine ⟨h.changed hok htab ?_ hadds (fun q hq => (held_afterOp hq).imp_right (hhanded q))
    (strays_afterOp hstray), hadds, hhanded⟩
  refine ⟨hrefs.counted.congr rfl ?_ (fun _ => rfl), hrefs.leaf⟩
  intro o
  have ho := handles_afterOp s t op res htab o (by rw [hspent]; exact nofun)
  rw [hspent, hres.handed] at ho
  exact ho

/-- An operation that overwrites a leaf entry. -/
theorem afterOp_overwrite (h : OwnershipOK ucfg s) (hu : IsUserConfig ucfg) (hok : TablesOK t)
    (htab : t.tables = s.tables.tables) (hroot : IsRoot s.mem ucfg root)
    (hspent : ∀ pa, op.spent = some pa → 1 ≤ s.held pa ∧ s.mem.nodes pa = none)
    (hstray : res.stray = none) {m : Mem P}
    {c c' : Cursor} {e : Pte P} {q : ℕ} {n : Node P} (hg : Grow root s.mem m)
    (ho : Overwrites m t.mem ucfg root c c' e q n)
    (hw : Op.Writes c (n.entries (pteIndex c.va c.level)) e
      (fragOf (m.put q n (pteIndex c.va c.level) e) c (n.entries (pteIndex c.va c.level)))
      op res) :
    OwnershipOK ucfg (s.afterOp t op res) ∧ AddsNodes ucfg s.mem t.mem ∧
      ∀ pa, res.handed = some pa → t.mem.nodes pa = none := by
  have hW := h.ok.wellFormed
  obtain ⟨hrefs₁, hadds₁⟩ := hg.refsOK hu hW hroot h.refs
  have hnew : ∀ fpa prop, e = .frame fpa prop → m.nodes fpa = none := by
    rintro fpa prop rfl
    rcases hw.frame with hs | ⟨prop', hold⟩
    · obtain ⟨hpos, hnone⟩ := hspent fpa hs
      have hle := h.refs.counted.ext_le fpa
      have hpos' := handles_held s hpos
      exact hadds₁.none_of_used hnone (by omega)
    · exact (ho.old_frame hrefs₁ hold).1
  have hbalance : ∀ o, ((s.afterOp t op res).handles o + if e.target = some o then 1 else 0) =
      s.handles o + if (n.entries (pteIndex c.va c.level)).target = some o then 1 else 0 := by
    intro o
    have hb := hw.balance (hw.old_ne hstray) o
    have hh := handles_afterOp s t op res htab o (fun ho => (hspent o ho).1)
    omega
  obtain ⟨hrefs, hadds₂⟩ := ho.refsOK hrefs₁ (hw.old_ne hstray) hnew hbalance
  have hhanded : ∀ pa, res.handed = some pa → t.mem.nodes pa = none := by
    intro pa hh
    obtain ⟨prop, hold⟩ := hw.handed hh
    obtain ⟨hnone, hused⟩ := ho.old_frame hrefs₁ hold
    exact hadds₂.none_of_used hnone hused
  exact ⟨h.changed hok htab hrefs (hadds₁.trans hadds₂)
    (fun q hq => (held_afterOp hq).imp_right (hhanded q)) (strays_afterOp hstray),
    hadds₁.trans hadds₂, hhanded⟩

/-- A query that clones the item that it finds. -/
theorem afterOp_clone (h : OwnershipOK ucfg s) (hu : IsUserConfig ucfg) (hok : TablesOK t)
    (htab : t.tables = s.tables.tables) {va l : ℕ} {r : AddrRange} {item : Option (Item P)}
    (hnodes : t.mem.nodes = s.mem.nodes)
    (hrc : t.mem.refCount = cloneRefCount ucfg s.mem.refCount item)
    (hshow : ItemShown s.mem ucfg root l va item) :
    OwnershipOK ucfg (s.afterOp t (Op.query : Op ucfg) (.query (.ok (r, item)))) ∧
      AddsNodes ucfg s.mem t.mem ∧
      ∀ pa, (Res.query (.ok (r, item))).handed = some pa → t.mem.nodes pa = none := by
  have hadds : AddsNodes ucfg s.mem t.mem := AddsNodes.of_nodes hnodes (fun p hp => by
    rw [hrc]
    exact cloneRefCount_ne_zero hp)
  have hhandles := fun o =>
    handles_afterOp s t (Op.query : Op ucfg) (.query (.ok (r, item))) htab o nofun
  have hslot : ∀ x, slotRef ucfg t.mem x = slotRef ucfg s.mem x :=
    fun x => slotRef_congr (by rw [hnodes])
  have hhanded : ∀ pa, (Res.query (.ok (r, item))).handed = some pa → t.mem.nodes pa = none := by
    intro pa hh
    cases item with
    | none => cases hh
    | some item =>
        obtain rfl : item.pa = pa := Option.some.inj hh
        obtain ⟨-, ⟨p, i, hleaf⟩, -⟩ := hshow
        rw [hnodes]
        exact h.refs.leaf _ _ _ _ _ hleaf
  refine ⟨h.changed hok htab ⟨?_, ?_⟩ hadds (fun q hq => (held_afterOp hq).imp_right (hhanded q))
    (strays_afterOp rfl), hadds, hhanded⟩
  · cases item with
    | none => exact h.refs.counted.congr hrc (fun o => hhandles o) hslot
    | some item =>
        refine (h.refs.counted.clone item.pa).congr ?_ ?_ hslot
        · show t.mem.refCount = _
          rw [hrc, cloneRefCount, if_pos (hu.tracked _)]
        · intro o
          have ho := hhandles o
          by_cases hpa : o = item.pa
          · subst hpa
            rw [update_self]
            simpa [Res.handed, Res.cloned, Res.stray, Op.spent] using ho
          · rw [update_of_ne hpa]
            simpa [Res.handed, Res.cloned, Res.stray, Op.spent, Ne.symm hpa] using ho
  · intro q i lv pa prop hleaf
    show t.mem.nodes pa = none
    rw [hnodes]
    exact h.refs.leaf _ _ _ _ _ ((leafAt_congr hnodes).mp hleaf)

/-- **An operation keeps the counts exact.** -/
theorem afterOp (h : OwnershipOK ucfg s) (hu : IsUserConfig ucfg) (hok : TablesOK t)
    (htab : t.tables = s.tables.tables) (hroot : IsRoot s.mem ucfg root)
    (hspent : ∀ pa, op.spent = some pa → 1 ≤ s.held pa ∧ s.mem.nodes pa = none)
    (hidle : res.IsIdle → op.spent = none) (hstray : res.stray = none)
    (heff : OpEffect s.mem ucfg root op res t.mem) :
    OwnershipOK ucfg (s.afterOp t op res) ∧ AddsNodes ucfg s.mem t.mem ∧
      ∀ pa, res.handed = some pa → t.mem.nodes pa = none := by
  cases heff with
  | idle hg hres => exact h.afterOp_idle hu hok htab hroot (hidle hres) hstray hg hres
  | overwrite hg ho hw => exact h.afterOp_overwrite hu hok htab hroot hspent hstray hg ho hw
  | clone hnodes hrc hshow => exact h.afterOp_clone hu hok htab hnodes hrc hshow

end OwnershipOK

/-! ## Runs -/

/-- Nodes of other configurations do not change, nor do the handles of them. -/
def Holdings.Foreign (ucfg : PageTableConfig P) (s s' : Holdings P) : Prop :=
  ∀ p n, s.mem.nodes p = some n → n.cfg ≠ ucfg →
    ∃ n', s'.mem.nodes p = some n' ∧ n'.cfg = n.cfg ∧ n'.entries = n.entries ∧
      s'.held p = s.held p

section

variable {ucfg : PageTableConfig P} {s s' : Holdings P} {a : OwnAction P}

theorem Holdings.Foreign.of_adds (h : AddsNodes ucfg s.mem s'.mem)
    (hheld : ∀ p n, s.mem.nodes p = some n → s'.held p = s.held p) : s.Foreign ucfg s' := by
  intro p n hn hc
  obtain ⟨n', hn', hc', he⟩ := h.old p n hn
  exact ⟨n', hn', hc', he hc, hheld p n hn⟩

theorem Holdings.Foreign.of_dropped (h : Dropped ucfg s.mem s'.mem)
    (hheld : ∀ p n, s.mem.nodes p = some n → s'.held p = s.held p) : s.Foreign ucfg s' := by
  intro p n hn hc
  exact ⟨n, h.other hn hc, rfl, rfl, hheld p n hn⟩

/-- The handle of a frame that is no node is made. -/
theorem OwnershipOK.addHandle_foreign {pa : ℕ} (hdata : s.mem.nodes pa = none) :
    s.Foreign ucfg (s.addHandle pa) := by
  intro p n hn _
  refine ⟨n, hn, rfl, rfl, update_of_ne ?_ _ _⟩
  rintro rfl
  rw [hdata] at hn
  cases hn

/-- The handle of an item is dropped. -/
theorem OwnershipOK.dropHandle (h : OwnershipOK ucfg s) (hu : IsUserConfig ucfg) {pa : ℕ}
    {m' : Mem P} (hheld : 1 ≤ s.held pa) (hdata : s.mem.nodes pa = none)
    (hdrop : s.mem.dropFrame (NR_LEVELS + 1) pa = .ok m') (hs' : s' =
      { s.withMem m' with held := update s.held pa (s.held pa - 1) }) :
    OwnershipOK ucfg s' ∧ s.Foreign ucfg s' := by
  subst hs'
  obtain ⟨hd, hW', hrefs⟩ := (h.drop_ok hu (OwnershipOK.handles_held s hheld)
    (fun n hn => by rw [hdata] at hn; cases hn) (noLeafBelow_of_none hdata)).of_ok hdrop
  refine ⟨h.dropped hd hW' hrefs ?_ rfl (fun t ht => ht) (fun i l hl => h.ok.live i l hl) ?_ rfl,
    Holdings.Foreign.of_dropped hd ?_⟩
  · intro o
    unfold Holdings.handles Holdings.withMem
    simp only
    by_cases ho : o = pa
    · rw [ho, update_self, update_self]
      omega
    · rw [update_of_ne ho, update_of_ne ho]
  · intro q
    show update s.held pa (s.held pa - 1) q ≤ s.held q
    by_cases hq : q = pa
    · rw [hq, update_self]
      omega
    · rw [update_of_ne hq]
  · intro p n hn
    refine update_of_ne ?_ _ _
    rintro rfl
    rw [hdata] at hn
    cases hn

/-- A table without cursors is dropped. -/
theorem OwnershipOK.dropTable (h : OwnershipOK ucfg s) (hu : IsUserConfig ucfg) {root : ℕ}
    {pre post : List (PageTableConfig P × ℕ)} {m' : Mem P}
    (htable : s.tables.tables = pre ++ (ucfg, root) :: post)
    (hidle : ∀ i l, s.tables.cursors i = some l → l.root ≠ root)
    (hleaf : NoLeafBelow s.mem root) (hdrop : s.mem.dropFrame (NR_LEVELS + 1) root = .ok m')
    (hs' : s' = { s with tables := { s.tables with mem := m', tables := pre ++ post } }) :
    OwnershipOK ucfg s' ∧ s.Foreign ucfg s' := by
  subst hs'
  have hmem : (ucfg, root) ∈ s.tables.tables := by
    rw [htable]
    exact List.mem_append_right _ List.mem_cons_self
  obtain ⟨hd, hW', hrefs⟩ := (h.drop_ok hu (OwnershipOK.handles_root s hmem)
    (fun n hn => h.root_cfg hmem hn) hleaf).of_ok hdrop
  refine ⟨h.dropped hd hW' hrefs ?_ rfl ?_ ?_ (fun q => le_rfl) rfl,
    Holdings.Foreign.of_dropped hd (fun _ _ _ => rfl)⟩
  · intro o
    unfold Holdings.handles
    simp only [htable, List.map_append, List.map_cons, List.count_append]
    by_cases ho : o = root
    · rw [ho, update_self, List.count_cons_self]
      omega
    · rw [update_of_ne ho, List.count_cons_of_ne (Ne.symm ho)]
  · intro t ht
    rw [htable]
    rcases List.mem_append.mp ht with h1 | h2
    · exact List.mem_append_left _ h1
    · exact List.mem_append_right _ (List.mem_cons_of_mem _ h2)
  · intro i l hl
    have hlive := h.ok.live i l hl
    rw [htable] at hlive
    rcases List.mem_append.mp hlive with h1 | h2
    · exact List.mem_append_left _ h1
    · rcases List.mem_cons.mp h2 with heq | h2
      · exact absurd (Prod.mk.inj heq).2 (hidle i l hl)
      · exact List.mem_append_right _ h2

/-- A cursor is opened or closed. -/
theorem OwnershipOK.openOrClose (h : OwnershipOK ucfg s) (hu : IsUserConfig ucfg) {a : Action P}
    {t : Tables P} (ha : a.OpensOrCloses) (hstep : CursorStep s.tables a t)
    (hs' : s' = { s with tables := t }) : OwnershipOK ucfg s' ∧ s.Foreign ucfg s' := by
  subst hs'
  have hW := h.ok.wellFormed
  obtain ⟨hok, htab, -⟩ := hstep.effect h.ok
  cases hstep with
  | @openCursor i cfg root r c locked m' hroot hfree hdis hnew =>
      obtain ⟨hg, -⟩ := opened_of_new hW (h.ok.isRoot _ hroot) hnew
      obtain rfl : cfg = ucfg := h.user _ hroot
      obtain ⟨hrefs, hadds⟩ := hg.refsOK hu hW (h.ok.isRoot _ hroot) h.refs
      exact ⟨h.changed hok rfl hrefs hadds (fun q hq => Or.inl hq) rfl,
        Holdings.Foreign.of_adds hadds (fun _ _ _ => rfl)⟩
  | closeCursor =>
      have hadds : AddsNodes ucfg s.mem s.mem := AddsNodes.refl _
      exact ⟨h.changed hok rfl h.refs hadds (fun q hq => Or.inl hq) rfl,
        Holdings.Foreign.of_adds hadds (fun _ _ _ => rfl)⟩
  | perform hlive hop => exact ha.elim

/-- The handles of nodes are not handed over. -/
theorem Holdings.Foreign.of_afterOp {t : Tables P} {cfg : PageTableConfig P} {op : Op cfg}
    {res : Res P} (hadds : AddsNodes ucfg s.mem t.mem)
    (hspent : ∀ pa, op.spent = some pa → 1 ≤ s.held pa ∧ s.mem.nodes pa = none)
    (hhanded : ∀ pa, res.handed = some pa → t.mem.nodes pa = none) :
    s.Foreign ucfg (s.afterOp t op res) := by
  refine Holdings.Foreign.of_adds hadds ?_
  intro p n hn
  have hnot : op.spent ≠ some p := by
    intro hsp
    rw [(hspent p hsp).2] at hn
    cases hn
  have hnot' : res.handed ≠ some p := by
    intro hh
    obtain ⟨n', hn', -⟩ := hadds.old p n hn
    rw [hhanded p hh] at hn'
    cases hn'
  simp only [Holdings.afterOp, if_neg hnot, if_neg hnot']
  omega

/-- **A step that loses no reference keeps the counts exact** and does not touch nodes of
other configurations. -/
theorem OwnStep.effect (hs : OwnStep ucfg s a s') (hkeeps : KeepsRefs s a) (hu : IsUserConfig ucfg)
    (h : OwnershipOK ucfg s) : OwnershipOK ucfg s' ∧ s.Foreign ucfg s' := by
  have hW := h.ok.wellFormed
  cases hs with
  | @newFrame pa hfree =>
      have hdata : s.mem.nodes pa = none := by
        by_contra hsome
        obtain ⟨k, hk⟩ := Option.ne_none_iff_exists'.mp hsome
        exact (hW.ok pa k hk).alive hfree
      exact ⟨h.addHandle hdata, OwnershipOK.addHandle_foreign hdata⟩
  | cloneHandle hheld hdata => exact ⟨h.addHandle hdata, OwnershipOK.addHandle_foreign hdata⟩
  | dropHandle hheld hdata hdrop => exact h.dropHandle hu hheld hdata hdrop rfl
  | newTable hnew =>
      obtain ⟨hf, hW', hroot⟩ := (post_emptyTable hW ucfg).of_ok hnew
      exact ⟨h.addTable hf hW' hroot (fun _ _ => rfl),
        Holdings.Foreign.of_adds (hf.addsNodes hW) (fun _ _ _ => rfl)⟩
  | createUser hcan hdis hkernel hk4 hkc hnew =>
      obtain ⟨hf, hW', hroot⟩ :=
        (post_createUserPageTable hW hcan hdis hkernel hk4 hkc).of_ok hnew
      refine ⟨h.addTable hf hW' hroot ?_,
        Holdings.Foreign.of_adds (hf.addsNodes hW) (fun _ _ _ => rfl)⟩
      intro i hi
      refine if_neg ?_
      rintro ⟨hlo, hhi⟩
      exact hdis i hi ⟨hlo, hhi⟩
  | cursor ha hstep => exact h.openOrClose hu ha hstep rfl
  | @perform i l op res m' c' hlive hitem hop =>
      obtain ⟨cfg, root, c⟩ := l
      obtain rfl : cfg = ucfg := h.user _ (h.ok.live i _ hlive)
      have hc := h.ok.cursorOK i _ hlive
      obtain ⟨hok, -, -⟩ := (CursorStep.perform hlive hop).effect h.ok
      obtain ⟨hown, hadds, hhanded⟩ := h.afterOp hu hok rfl hc.isRoot hitem
        (Op.spent_of_idle hop) (perform_noStray hu hW hc (hkeeps _ hlive) hop)
        ((effect_perform hW hc op).of_ok hop)
      exact ⟨hown, Holdings.Foreign.of_afterOp hadds hitem hhanded⟩
  | dropStray hstray hdrop =>
      rw [h.strays] at hstray
      cases hstray
  | dropTable htable hidle hdrop => exact h.dropTable hu htable hidle hkeeps hdrop rfl

end

end Vostd
