/-
# Cursors at work

The system that the users of page tables see: cursors are opened on tables,
perform operations in any order and are closed again.  Several cursors can be
alive at a time, also on one table, where the locks keep their ranges disjoint
(`Exclusion.lean`).

`TablesOK` is the invariant of this system, and `CursorStep.effect` says once what
a step can do: it keeps the invariant, and besides the range of its own cursor it
changes no translation.  The structural facts about a table, that its counters are
exact and that it is a tree, are read off the invariant at the end of the file.
-/
import Vostd.Lib.System
import Vostd.PageTable.OpEffect

namespace Vostd

open Exec Function

variable {P : Type}

/-! ## The system -/

/-- A cursor, with the table that it belongs to. -/
structure LiveCursor (P : Type) where
  cfg : PageTableConfig P
  root : ℕ
  cursor : Cursor

/-- The page tables of a machine and the cursors on them, each with an identifier. -/
structure Tables (P : Type) where
  mem : Mem P
  tables : List (PageTableConfig P × ℕ)
  cursors : ℕ → Option (LiveCursor P)

/-- What can be asked of the tables. -/
inductive Action (P : Type) : Type where
  | openCursor (i : ℕ) (cfg : PageTableConfig P) (root : ℕ) (r : AddrRange)
  | perform (i : ℕ) (cfg : PageTableConfig P) (op : Op cfg)
  | closeCursor (i : ℕ)
  | createUser (ucfg : PageTableConfig P)

/-- **The steps of cursors.** -/
inductive CursorStep : Tables P → Action P → Tables P → Prop
  /-- `Cursor::new` returns once no other cursor has locked a part of the range -/
  | openCursor {s : Tables P} {i : ℕ} {cfg : PageTableConfig P} {root : ℕ} {r : AddrRange}
      {c : Cursor} {locked : List ℕ} {m' : Mem P} (hroot : (cfg, root) ∈ s.tables)
      (hfree : s.cursors i = none)
      (hdis : ∀ j l, s.cursors j = some l → l.root = root →
        ∀ a, r.Contains a → ¬l.cursor.barrierVa.Contains a)
      (hnew : Cursor.new cfg s.mem root r = .ok (.ok (c, locked), m')) :
      CursorStep s (.openCursor i cfg root r)
        { s with mem := m', cursors := update s.cursors i (some ⟨cfg, root, c⟩) }
  | perform {s : Tables P} {i : ℕ} {l : LiveCursor P} {op : Op l.cfg} {res : Res P} {m' : Mem P}
      {c' : Cursor} (hlive : s.cursors i = some l)
      (hop : l.cursor.perform l.cfg s.mem op = .ok (res, m', c')) :
      CursorStep s (.perform i l.cfg op)
        { s with mem := m', cursors := update s.cursors i (some ⟨l.cfg, l.root, c'⟩) }
  | closeCursor {s : Tables P} {i : ℕ} :
      CursorStep s (.closeCursor i) { s with cursors := update s.cursors i none }

/-! ## The invariant -/

variable {cfg : PageTableConfig P} {s : Tables P} {m' : Mem P} {root : ℕ}

/-- **The invariant of page tables and cursors.** -/
structure TablesOK (s : Tables P) : Prop where
  wellFormed : WellFormed s.mem
  isRoot : ∀ t ∈ s.tables, IsRoot s.mem t.1 t.2
  cursorOK : ∀ i l, s.cursors i = some l → CursorOK s.mem l.cfg l.root l.cursor
  live : ∀ i l, s.cursors i = some l → (l.cfg, l.root) ∈ s.tables
  disjoint : ∀ i j l l', i ≠ j → s.cursors i = some l → s.cursors j = some l' → l.root = l'.root →
    ∀ a, l.cursor.barrierVa.Contains a → ¬l'.cursor.barrierVa.Contains a

/-- Managed addresses that agree in the translated bits are equal. -/
theorem PageTableConfig.Managed.eq_of_mod {a b : ℕ}
    (ha : cfg.Managed a) (hb : cfg.Managed b) (h : a % 2 ^ 48 = b % 2 ^ 48) : a = b := by
  have h1 := ha.mod_eq
  have h2 := hb.mod_eq
  have h3 := ha.base_le
  have h4 := hb.base_le
  omega

/-- What a step on the memory does to the tables and cursors that it does not
concern. -/
theorem TablesOK.frame (h : TablesOK s) {R : ℕ → Prop}
    (hk : Keeps s.mem m' root R) {j : ℕ} {l : LiveCursor P} (hl : s.cursors j = some l)
    (hR : root = l.root → ∀ a, l.cursor.barrierVa.Contains a → ¬R a) :
    CursorOK m' l.cfg l.root l.cursor :=
  ⟨(h.cursorOK j l hl).toCursorPath.of_keeps hk hR, (h.cursorOK j l hl).le_stop⟩

/-- One cursor changes, and with it the memory. -/
theorem TablesOK.of_update (h : TablesOK s) {i : ℕ} {R : ℕ → Prop}
    {l : LiveCursor P} (hW : WellFormed m') (hk : Keeps s.mem m' root R)
    (hlive : (l.cfg, l.root) ∈ s.tables) (hc : CursorOK m' l.cfg l.root l.cursor)
    (hR : ∀ j k, j ≠ i → s.cursors j = some k → root = k.root →
      ∀ a, k.cursor.barrierVa.Contains a → ¬R a)
    (hdis : ∀ j k, j ≠ i → s.cursors j = some k → k.root = l.root →
      ∀ a, l.cursor.barrierVa.Contains a → ¬k.cursor.barrierVa.Contains a) :
    TablesOK { s with mem := m', cursors := update s.cursors i (some l) } where
  wellFormed := hW
  isRoot := fun t ht => hk.isRoot (h.isRoot t ht)
  cursorOK := by
    intro j k hj
    by_cases hji : j = i
    · subst hji
      simp only [update_self, Option.some.injEq] at hj
      rwa [← hj]
    · simp only [update_of_ne hji] at hj
      exact h.frame hk hj (hR j k hji hj)
  live := by
    intro j k hj
    by_cases hji : j = i
    · subst hji
      simp only [update_self, Option.some.injEq] at hj
      rwa [← hj]
    · simp only [update_of_ne hji] at hj
      exact h.live j k hj
  disjoint := by
    intro j j' k k' hne hj hj' hroot a ha ha'
    by_cases hji : j = i
    · subst hji
      simp only [update_self, Option.some.injEq] at hj
      simp only [update_of_ne hne.symm] at hj'
      subst hj
      exact hdis j' k' hne.symm hj' hroot.symm a ha ha'
    · simp only [update_of_ne hji] at hj
      by_cases hji' : j' = i
      · subst hji'
        simp only [update_self, Option.some.injEq] at hj'
        subst hj'
        exact hdis j k hji hj hroot a ha' ha
      · simp only [update_of_ne hji'] at hj'
        exact h.disjoint j j' k k' hne hj hj' hroot a ha ha'

/-- A cursor is closed. -/
theorem TablesOK.erase (h : TablesOK s) (i : ℕ) :
    TablesOK { s with cursors := update s.cursors i none } := by
  have hold : ∀ j l, update s.cursors i none j = some l → s.cursors j = some l := by
    intro j l hj
    by_cases hji : j = i
    · subst hji
      rw [update_self] at hj
      cases hj
    · rwa [update_of_ne hji] at hj
  exact ⟨h.wellFormed, h.isRoot, fun j l hj => h.cursorOK j l (hold j l hj),
    fun j l hj => h.live j l (hold j l hj),
    fun j j' l l' hne hj hj' => h.disjoint j j' l l' hne (hold j l hj) (hold j' l' hj')⟩

/-- A new table does not touch the other ones and the cursors. -/
theorem TablesOK.addTable {n : Node P}
    (h : TablesOK s) (hf : FreshNode s.mem m' root n) (hW : WellFormed m')
    (hroot : IsRoot m' cfg root) :
    TablesOK { s with mem := m', tables := (cfg, root) :: s.tables } where
  wellFormed := hW
  isRoot := by
    intro t ht
    rcases List.mem_cons.mp ht with rfl | ht
    · exact hroot
    · exact (hf.keeps h.wellFormed root).isRoot (h.isRoot t ht)
  cursorOK := fun j l hl => h.frame (hf.keeps h.wellFormed root) hl (fun _ _ _ hR => hR)
  live := fun j l hl => List.mem_cons_of_mem _ (h.live j l hl)
  disjoint := h.disjoint

/-! ## What a step can do -/

/-- The table that an action is about. -/
def Tables.Targets (s : Tables P) : Action P → ℕ → Prop
  | .openCursor _ _ root _, r => r = root
  | .perform i _ _, r => ∃ l, s.cursors i = some l ∧ l.root = r
  | .closeCursor _, _ => False
  | .createUser _, _ => False

/-- The effect of a step on the memory: at most one table changes, and that only
where it is not fixed. -/
def Tables.Changes (s : Tables P) (a : Action P) (s' : Tables P) : Prop :=
  s'.mem = s.mem ∨ ∃ root, s.Targets a root ∧ Keeps s.mem s'.mem root (fun _ => True)

theorem Tables.Changes.top {s' : Tables P} {a : Action P} (h : s.Changes a s') {r : ℕ} {n : Node P}
    (hn : s.mem.nodes r = some n) (hl : n.level = 4) :
    ∃ n', s'.mem.nodes r = some n' ∧ n'.level = 4 ∧ n'.cfg = n.cfg ∧
      ∀ i, n.Fixed i → n'.entries i = n.entries i := by
  rcases h with hm | ⟨root, -, hk⟩
  · exact ⟨n, by rw [hm, hn], hl, rfl, fun _ _ => rfl⟩
  · obtain ⟨n', hn', hl', hc, -, he⟩ := hk.top r n hn hl
    exact ⟨n', hn', hl', hc, he⟩

/-- **A step keeps the invariant** and changes nothing but the table of its cursor. -/
theorem CursorStep.effect {s' : Tables P} {a : Action P} (hs : CursorStep s a s')
    (h : TablesOK s) : TablesOK s' ∧ s'.tables = s.tables ∧ s.Changes a s' := by
  cases hs with
  | @openCursor i cfg root r c locked m' hroot hfree hdis hnew =>
      obtain ⟨hg, ho⟩ := opened_of_new h.wellFormed (h.isRoot _ hroot) hnew
      simp only at hg ho
      have hk := hg.keeps h.wellFormed
      refine ⟨?_, rfl, Or.inr ⟨root, rfl, hk.mono (fun _ hf => hf.elim)⟩⟩
      refine h.of_update (hg.wellFormed h.wellFormed) hk hroot ho.cursor
        (fun _ _ _ _ _ _ _ hf => hf) ?_
      intro j k hji hk hkr a ha
      rw [show (⟨cfg, root, c⟩ : LiveCursor P).cursor.barrierVa = r from ho.barrierVa] at ha
      exact hdis j k hk hkr a ha
  | @perform i l op res m' c' hlive hop =>
      have hc := h.cursorOK i l hlive
      obtain ⟨hstep, -⟩ := (refines_perform h.wellFormed hc op).of_ok hop
      simp only at hstep
      have hb := hstep.same.barrierVa
      refine ⟨?_, rfl, Or.inr ⟨l.root, ⟨l, hlive, rfl⟩, hstep.keeps.mono (fun _ _ => trivial)⟩⟩
      refine h.of_update hstep.wellFormed hstep.keeps (h.live i l hlive) hstep.cursor ?_ ?_
      · -- another cursor of the table has no address that aliases the range
        rintro j k hji hk hroot a ha ⟨b, hmem, hmod⟩
        have hka := (h.cursorOK j k hk).managed a ha
        obtain ⟨n, hn, -, hcfg, -⟩ := (h.cursorOK j k hk).isRoot
        obtain ⟨n', hn', -, hcfg', -⟩ := hc.isRoot
        rw [hroot, hn] at hn'
        obtain rfl := Option.some.inj hn'
        have hlb := hc.managed b hmem
        rw [← hcfg', hcfg] at hlb
        obtain rfl := hlb.eq_of_mod hka hmod
        exact h.disjoint i j l k (Ne.symm hji) hlive hk hroot b hmem ha
      · intro j k hji hk hroot a ha
        rw [show (⟨l.cfg, l.root, c'⟩ : LiveCursor P).cursor.barrierVa = l.cursor.barrierVa from hb]
          at ha
        exact h.disjoint i j l k (Ne.symm hji) hlive hk hroot.symm a ha
  | closeCursor =>
      exact ⟨h.erase _, rfl, Or.inl rfl⟩

/-! ## One table from its creation -/

/-- Cursors on a table that starts empty. -/
def cursorSystem (cfg : PageTableConfig P) : System (Tables P) (Action P) where
  init := fun s => ∃ pool root m, emptyTable cfg (freshMem pool) = .ok (root, m) ∧
    s = ⟨m, [(cfg, root)], fun _ => none⟩
  step := CursorStep

/-- The entry `i` of the node `p` points to the node `q`, in any of the 512 slots. -/
def ChildAt (m : Mem P) (p i q : ℕ) : Prop := i < 512 ∧ m.entry p i = .table q

/-- The nodes of a table. -/
def InTable (m : Mem P) (root q : ℕ) : Prop :=
  Relation.ReflTransGen (fun p q => ∃ i, ChildAt m p i q) root q

/-- **The structure of a table**: it is a tree of nodes with exact counters. -/
structure TreeOK (m : Mem P) (root : ℕ) : Prop where
  /-- only the root is at the top level -/
  level : ∀ q n, InTable m root q → m.nodes q = some n → (n.level = 4 ↔ q = root)
  /-- the counter is the number of present entries in the managed slots -/
  count : ∀ q, InTable m root q → ∃ n, m.nodes q = some n ∧ n.nrChildren = n.presentCount ∧
    n.nrChildren < 2 ^ 16
  /-- a child is recorded one level lower -/
  child : ∀ q n i c, InTable m root q → m.nodes q = some n → ChildAt m q i c →
    ∃ k, m.nodes c = some k ∧ k.level + 1 = n.level
  /-- no node is the child of two slots -/
  unique : ∀ p i p' i' q, InTable m root p → InTable m root p' → ChildAt m p i q →
    ChildAt m p' i' q → p = p' ∧ i = i'

/-- The entries that the table of `root` does not manage are absent. -/
def OwnEntries (m : Mem P) (root : ℕ) : Prop :=
  ∃ n, m.nodes root = some n ∧ n.level = 4 ∧ ∀ i, ¬n.slots.Contains i → n.entries i = .absent

section

variable {m : Mem P} {root : ℕ}

/-- Every node of a table is live, and its entries are managed or absent. -/
theorem WellFormed.inTable (hW : WellFormed m) (ho : OwnEntries m root) {q : ℕ}
    (h : InTable m root q) : ∃ n, m.nodes q = some n ∧ (n.level = 4 ↔ q = root) ∧
      ∀ i, i < 512 → n.slots.Contains i ∨ n.entries i = .absent := by
  induction h with
  | refl =>
      obtain ⟨n, hn, hl, habs⟩ := ho
      refine ⟨n, hn, ⟨fun _ => rfl, fun _ => hl⟩, ?_⟩
      intro i _
      exact (em (n.slots.Contains i)).imp_right (habs i)
  | tail _ hstep ih =>
      obtain ⟨i, hi, he⟩ := hstep
      obtain ⟨n, hn, -, hslots⟩ := ih
      rw [Mem.entry_eq hn] at he
      have hs : n.slots.Contains i := (hslots i hi).resolve_right
        (fun h => by rw [h] at he; cases he)
      have hok := hW.ok _ n hn
      obtain ⟨k, hk, hkl, -⟩ := hok.child i _ hs he
      have hlt : k.level < 4 := by
        have := hok.level_le
        omega
      refine ⟨k, hk, ⟨fun h4 => by omega, ?_⟩, fun j hj => Or.inl (Node.slots_of_level_lt hlt hj)⟩
      rintro rfl
      obtain ⟨n', hn', hl', -⟩ := ho
      rw [hk] at hn'
      obtain rfl := Option.some.inj hn'
      omega

/-- A child in a table is in a managed slot. -/
theorem WellFormed.owns_of_childAt (hW : WellFormed m) (ho : OwnEntries m root) {p i q : ℕ}
    (h : InTable m root p) (hc : ChildAt m p i q) : Owns m p i q := by
  obtain ⟨n, hn, -, hslots⟩ := hW.inTable ho h
  obtain ⟨hi, he⟩ := hc
  rw [Mem.entry_eq hn] at he
  exact ⟨n, hn, (hslots i hi).resolve_right (fun h => by rw [h] at he; cases he), he⟩

theorem WellFormed.treeOK (hW : WellFormed m) (ho : OwnEntries m root) : TreeOK m root where
  level := by
    intro q n hq hn
    obtain ⟨n', hn', hl, -⟩ := hW.inTable ho hq
    rw [hn] at hn'
    obtain rfl := Option.some.inj hn'
    exact hl
  count := by
    intro q hq
    obtain ⟨n, hn, -⟩ := hW.inTable ho hq
    have hcount := (hW.ok q n hn).count
    have hle := n.presentCount_le
    exact ⟨n, hn, hcount, by omega⟩
  child := by
    intro q n i c hq hn hc
    obtain ⟨n', hn', hs, he⟩ := hW.owns_of_childAt ho hq hc
    rw [hn] at hn'
    obtain rfl := Option.some.inj hn'
    obtain ⟨k, hk, hkl, -⟩ := (hW.ok q n hn).child i c hs he
    exact ⟨k, hk, hkl⟩
  unique := by
    intro p i p' i' q hp hp' hc hc'
    exact hW.unique (hW.owns_of_childAt ho hp hc) (hW.owns_of_childAt ho hp' hc')

end

/-- The invariant of `cursorSystem`. -/
theorem cursorSystem_inv (h : (cursorSystem cfg).Reachable s) :
    TablesOK s ∧ ∀ t ∈ s.tables, OwnEntries s.mem t.2 := by
  refine System.invariant (I := fun s => TablesOK s ∧ ∀ t ∈ s.tables, OwnEntries s.mem t.2) ?_ ?_ h
  · rintro s ⟨pool, root, m, hm, rfl⟩
    obtain ⟨hf, hW, hroot⟩ := (post_emptyTable (wellFormed_of_no_nodes (fun _ => rfl)) cfg).of_ok hm
    refine ⟨⟨hW, ?_, nofun, nofun, nofun⟩, ?_⟩
    · intro t ht
      obtain rfl := List.mem_singleton.mp ht
      exact hroot
    · intro t ht
      obtain rfl := List.mem_singleton.mp ht
      exact ⟨_, hf.node, rfl, fun _ _ => rfl⟩
  · rintro s a s' - ⟨hok, hown⟩ hstep
    obtain ⟨hok', htables, hch⟩ := CursorStep.effect hstep hok
    refine ⟨hok', ?_⟩
    intro t ht
    rw [htables] at ht
    obtain ⟨n, hn, hl, habs⟩ := hown t ht
    obtain ⟨n', hn', hl', hc, he⟩ := hch.top hn hl
    refine ⟨n', hn', hl', ?_⟩
    intro i hi
    rw [Keeps.slots_eq hl hl' hc] at hi
    rw [he i (Or.inl hi), habs i hi]

/-- The item that an action maps, if any, is aligned to the page size of its level. -/
def MapsAligned (_ : Tables P) (a : Action P) : Prop :=
  ∀ i cfg item, a = .perform i cfg (.map item) → pageSize item.level ∣ item.pa

theorem cursorSystem_aligned
    (h : ((cursorSystem cfg).restrict MapsAligned).Reachable s) : s.mem.Aligned := by
  refine System.invariant (I := fun s => s.mem.Aligned) ?_ ?_ h
  · rintro s ⟨pool, root, m, hm, rfl⟩
    obtain ⟨hf, -⟩ := (post_emptyTable (wellFormed_of_no_nodes (fun _ => rfl)) cfg).of_ok hm
    rintro cfg q i l pa prop ⟨n, hn, -, -, -, he⟩
    rcases hf.cases hn with ⟨-, rfl⟩ | hold
    · cases he
    · cases hold
  · intro s a s' hreach ha hstep
    obtain ⟨hok, -⟩ := cursorSystem_inv hreach.of_restrict
    cases hstep.2 with
    | openCursor hroot _ _ hnew =>
        obtain ⟨hg, -⟩ := opened_of_new hok.wellFormed (hok.isRoot _ hroot) hnew
        exact hg.allLeaves hok.wellFormed passesToParts_dvd ha
    | perform hlive hop =>
        refine (aligned_perform hok.wellFormed (hok.cursorOK _ _ hlive) ha _ ?_).of_ok hop
        rintro item rfl
        exact hstep.1 _ _ item rfl
    | closeCursor => exact ha

/-- **The structure of a table over all runs.**  A table that starts empty is, after
any sequence of cursor operations, a tree of nodes with exact counters; no
operation can make a counter wrap; and its leaves are aligned if all items that
were mapped are. -/
theorem table_structure_over_runs {cfg : PageTableConfig P} {s : Tables P}
    (h : (cursorSystem cfg).Reachable s) :
    (∀ t ∈ s.tables, TreeOK s.mem t.2) ∧
      (∀ t ∈ s.tables, ∀ r, Cursor.new t.1 s.mem t.2 r ≠ .error .counter) ∧
      (∀ i l (op : Op l.cfg), s.cursors i = some l →
        l.cursor.perform l.cfg s.mem op ≠ .error .counter) ∧
      (((cursorSystem cfg).restrict MapsAligned).Reachable s → ∀ t ∈ s.tables, ∀ q n i pa prop,
        InTable s.mem t.2 q → s.mem.nodes q = some n → i < 512 → n.entries i = .frame pa prop →
          pageSize n.level ∣ pa) := by
  obtain ⟨hok, hown⟩ := cursorSystem_inv h
  refine ⟨fun t ht => hok.wellFormed.treeOK (hown t ht), ?_, ?_, ?_⟩
  · intro t ht r hfault
    exact (post_new (Fault.refusing_isPanic.alloc s.mem) (Or.inl trivial) hok.wellFormed
      (hok.isRoot t ht)).of_error hfault
  · intro i l op hl hfault
    exact (refines_perform hok.wellFormed (hok.cursorOK i l hl) op).of_error hfault
  · intro hal t ht q n i pa prop hq hn hi he
    obtain ⟨n', hn', -, hslots⟩ := hok.wellFormed.inTable (hown t ht) hq
    rw [hn] at hn'
    obtain rfl := Option.some.inj hn'
    have hs := (hslots i hi).resolve_right (fun habs => by rw [habs] at he; cases he)
    exact cursorSystem_aligned hal n.cfg q i n.level pa prop ⟨n, hn, rfl, rfl, hs, he⟩

/-- A sequence of operations is a sequence of steps. -/
theorem reachable_runOps {sys : System (Tables P) (Action P)}
    (i root : ℕ) (ops : List (Op cfg)) : ∀ (s : Tables P) (c : Cursor), sys.Reachable s →
    s.cursors i = some ⟨cfg, root, c⟩ →
    (∀ op ∈ ops, ∀ t t', CursorStep t (.perform i cfg op) t' → sys.step t (.perform i cfg op) t') →
    ∀ res, c.runOps cfg ops s.mem = .ok res → sys.Reachable
      { s with mem := res.2.1, cursors := update s.cursors i (some ⟨cfg, root, res.2.2⟩) } := by
  induction ops with
  | nil =>
      intro s c hs hc _ res hres
      cases hres
      have hsame : update s.cursors i (some ⟨cfg, root, c⟩) = s.cursors := by
        rw [← hc, update_eq_self]
      rwa [hsame]
  | cons op ops ih =>
      intro s c hs hc hstep res hres
      rw [Cursor.runOps] at hres
      obtain ⟨⟨r, m₁, c₁⟩, hop, hres⟩ := bind_eq_ok.mp hres
      obtain ⟨⟨rs, m₂, c₂⟩, hrun, hres⟩ := bind_eq_ok.mp hres
      cases hres
      have hfirst := System.Reachable.step hs
        (hstep op List.mem_cons_self _ _ (CursorStep.perform (l := ⟨cfg, root, c⟩) hc hop))
      have hrest := ih _ c₁ hfirst (update_self _ _ _)
        (fun op' hop' => hstep op' (List.mem_cons_of_mem _ hop')) _ hrun
      simpa only [update_idem] using hrest

/-- So is the run of a new cursor. -/
theorem reachable_openRun {sys : System (Tables P) (Action P)} {i : ℕ}
    {r : AddrRange} {ops : List (Op cfg)} {res : List (Res P) × Mem P × Cursor}
    (hs : sys.Reachable s) (hroot : (cfg, root) ∈ s.tables) (hfree : s.cursors i = none)
    (hdis : ∀ j l, s.cursors j = some l → l.root ≠ root)
    (hopen : ∀ t t', CursorStep t (.openCursor i cfg root r) t' →
      sys.step t (.openCursor i cfg root r) t')
    (hstep : ∀ op ∈ ops, ∀ t t', CursorStep t (.perform i cfg op) t' →
      sys.step t (.perform i cfg op) t') (hrun : openRun cfg s.mem root r ops = .ok res) :
    sys.Reachable
      { s with mem := res.2.1, cursors := update s.cursors i (some ⟨cfg, root, res.2.2⟩) } := by
  obtain ⟨c, locked, m₀, hnew, hops⟩ := openRun_eq_ok hrun
  have hfirst := hs.step (hopen _ _ (CursorStep.openCursor hroot hfree
    (fun j l hl heq => absurd heq (hdis j l hl)) hnew))
  have hrest := reachable_runOps i root ops _ c hfirst (update_self _ _ _) hstep res hops
  simpa only [update_idem] using hrest

theorem table_structure_sample : ∃ s : Tables Unit,
    (cursorSystem (userPtConfig 2 (by decide))).Reachable s ∧ s.cursors 0 ≠ none ∧
      (∀ t ∈ s.tables, TreeOK s.mem t.2) ∧ ∀ t ∈ s.tables, ∀ q n i pa prop,
        InTable s.mem t.2 q → s.mem.nodes q = some n → i < 512 → n.entries i = .frame pa prop →
          pageSize n.level ∣ pa := by
  obtain ⟨res, hs, -⟩ := exists_of_returns (p := fun _ => true)
    (show returns (session _ samplePool ⟨0, 4096⟩ sampleOps) _ = true by decide)
  obtain ⟨⟨root, m⟩, hm, hrun⟩ := bind_eq_ok.mp hs
  have hinit : ((cursorSystem (userPtConfig 2 (by decide))).restrict MapsAligned).Reachable
      ⟨m, [(userPtConfig 2 (by decide), root)], fun _ => none⟩ :=
    System.Reachable.init ⟨_, root, m, hm, rfl⟩
  have hrun' := reachable_openRun (i := 0) hinit (List.mem_singleton_self _) rfl nofun
    (fun _ _ h => ⟨fun _ _ _ hmap => (by cases hmap), h⟩) ?_ hrun
  · have h := table_structure_over_runs hrun'.of_restrict
    refine ⟨_, hrun'.of_restrict, ?_, h.1, h.2.2.2 hrun'⟩
    simp only [update_self]
    exact Option.some_ne_none _
  · intro op hop t t' hstep
    refine ⟨?_, hstep⟩
    rintro i cfg item ⟨⟩
    simp only [sampleOps, List.mem_cons, Op.map.injEq, reduceCtorEq, List.not_mem_nil,
      or_false] at hop
    rw [hop]
    decide

end Vostd
