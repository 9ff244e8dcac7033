/-
# Page table nodes

The memory that page tables live in, and the operations of `node/mod.rs` and
`node/entry.rs` on a single node.

A node is a frame of 512 entries together with the metadata of
`PageTablePageMeta`.  Nodes refer to each other by physical address, so a page
table is a graph inside a memory `Mem`, and several tables can share nodes.  An
entry is given decoded: absent, a mapped frame with its property, or a child
node (what `Child::from_pte` reads from the raw word).

The frame allocator is outside the repository (`extern "Rust"`).  `Mem.pool` is
the sequence of addresses it is going to return; nothing is assumed about it,
and an allocation of a frame that is in use stops as `Frame::from_unused` does.
-/
import Vostd.PageTable.Config

namespace Vostd

variable {P : Type}

/-! ## Memory -/

/-- A decoded page table entry. -/
inductive Pte (P : Type) : Type where
  | absent
  | frame (pa : ℕ) (prop : P)
  | table (pa : ℕ)
  deriving DecidableEq, Repr

namespace Pte

/-- `PageTableEntryTrait::is_present`. -/
def isPresent : Pte P → Bool
  | absent => false
  | frame _ _ | table _ => true

/-- The node an entry points to. -/
def node? : Pte P → Option ℕ
  | table pa => some pa
  | absent | frame _ _ => none

@[simp] theorem isPresent_absent : (absent : Pte P).isPresent = false := rfl

@[simp] theorem isPresent_frame (pa : ℕ) (prop : P) : (frame pa prop).isPresent = true := rfl

@[simp] theorem isPresent_table (pa : ℕ) : (table pa : Pte P).isPresent = true := rfl

@[simp] theorem node?_eq_some {e : Pte P} {q : ℕ} : e.node? = some q ↔ e = table q := by
  cases e <;> simp [node?]

end Pte

/-- A page table node: the entries of its frame and its `PageTablePageMeta`.
`cfg` is the configuration that the type of the node names. -/
structure Node (P : Type) where
  cfg : PageTableConfig P
  level : ℕ
  nrChildren : ℕ
  stray : Bool
  entries : ℕ → Pte P

namespace Node

/-- The slots of a node that its table manages (`PageTablePageMeta::on_drop`). -/
def slots (n : Node P) : AddrRange :=
  if n.level = NR_LEVELS then n.cfg.topLevelIndexRange else ⟨0, NR_ENTRIES⟩

/-- A freshly zeroed node. -/
def empty (cfg : PageTableConfig P) (level : ℕ) : Node P where
  cfg := cfg
  level := level
  nrChildren := 0
  stray := false
  entries := fun _ => .absent

/-- The number of present entries in the given slots. -/
def countPresent (slots : AddrRange) (entries : ℕ → Pte P) : ℕ :=
  ((Finset.range 512).filter (fun i => slots.Contains i ∧ (entries i).isPresent = true)).card

/-- The number of present entries in the managed slots. -/
def presentCount (n : Node P) : ℕ := countPresent n.slots n.entries

end Node

/-- The memory: the live page table nodes, the reference count of every frame
(`0` for `REF_COUNT_UNUSED`) and what the frame allocator is going to return. -/
structure Mem (P : Type) where
  nodes : ℕ → Option (Node P)
  refCount : ℕ → ℕ
  pool : List ℕ

namespace Mem

/-- Access to a node through a reference to it. -/
def node (m : Mem P) (q : ℕ) : Exec (Node P) :=
  match m.nodes q with
  | some n => .ok n
  | none => .error .badAccess

/-- Writing a node back. -/
def setNode (m : Mem P) (q : ℕ) (n : Node P) : Mem P :=
  { m with nodes := Function.update m.nodes q (some n) }

/-- What an entry holds; an entry of no node is absent. -/
def entry (m : Mem P) (q i : ℕ) : Pte P :=
  match m.nodes q with
  | some n => n.entries i
  | none => .absent

theorem entry_eq {m : Mem P} {q : ℕ} {n : Node P} (h : m.nodes q = some n) (i : ℕ) :
    m.entry q i = n.entries i := by
  simp only [entry, h]

@[simp] theorem setNode_nodes_self (m : Mem P) (q : ℕ) (n : Node P) :
    (m.setNode q n).nodes q = some n := by
  simp [setNode]

theorem setNode_nodes_of_ne (m : Mem P) {q q' : ℕ} (n : Node P) (h : q' ≠ q) :
    (m.setNode q n).nodes q' = m.nodes q' := by
  simp [setNode, h]

@[simp] theorem setNode_refCount (m : Mem P) (q : ℕ) (n : Node P) :
    (m.setNode q n).refCount = m.refCount := rfl

/-- `PageTableNode::alloc`: a zeroed frame of the allocator becomes a node. -/
def alloc (m : Mem P) (cfg : PageTableConfig P) (level : ℕ) : Exec (ℕ × Mem P) :=
  match m.pool with
  | [] => .error .noMemory
  | pa :: rest => do
      Exec.check (m.refCount pa = 0)
      .ok (pa, { nodes := Function.update m.nodes pa (some (Node.empty cfg level))
                 refCount := Function.update m.refCount pa 1
                 pool := rest })

end Mem

/-! ## Operations on a node -/

/-- `Child`: what can be put into an entry. -/
inductive Child (P : Type) : Type where
  | none
  | frame (pa level : ℕ) (prop : P)
  | pageTable (pa : ℕ)

/-- `Child::into_pte`. -/
def Child.intoPte : Child P → Pte P
  | none => .absent
  | frame pa _ prop => .frame pa prop
  | pageTable pa => .table pa

/-- `*nr_children += 1` on the 16-bit counter. -/
def incNrChildren (nr : ℕ) : Exec ℕ :=
  if nr + 1 < 2 ^ 16 then .ok (nr + 1) else .error .counter

/-- `*nr_children -= 1`. -/
def decNrChildren (nr : ℕ) : Exec ℕ :=
  if 1 ≤ nr then .ok (nr - 1) else .error .counter

/-- The counter after an entry changed from `old` to `new`. -/
def updateNrChildren (nr : ℕ) (old new : Pte P) : Exec ℕ :=
  if !old.isPresent && new.isPresent then incNrChildren nr
  else if old.isPresent && !new.isPresent then decNrChildren nr
  else .ok nr

/-- The level check of `replace_child`. -/
def checkChildLevel (m : Mem P) (level : ℕ) : Child P → Exec Unit
  | .pageTable pa => do
      let n ← m.node pa
      Exec.check (n.level + 1 = level)
  | .frame _ l _ => Exec.check (l = level)
  | .none => .ok ()

/-- `PageTableGuard::replace_child`: puts a new child into an entry and returns
the old one. -/
def replaceChild (m : Mem P) (q idx : ℕ) (new : Child P) : Exec (Pte P × Mem P) := do
  let n ← m.node q
  checkChildLevel m n.level new
  let old := n.entries idx
  let nr ← updateNrChildren n.nrChildren old new.intoPte
  .ok (old, m.setNode q
    { n with nrChildren := nr, entries := Function.update n.entries idx new.intoPte })

/-- `PageTableGuard::alloc_absent_child`: a new empty node in an absent entry. -/
def allocAbsentChild (m : Mem P) (q idx : ℕ) : Exec (ℕ × Mem P) := do
  let n ← m.node q
  let level ← Exec.sub n.level 1
  let (pa, m) ← m.alloc n.cfg level
  let n ← m.node q
  let nr ← incNrChildren n.nrChildren
  .ok (pa, m.setNode q
    { n with nrChildren := nr, entries := Function.update n.entries idx (.table pa) })

/-- `Entry::alloc_if_none`. -/
def allocIfNone (m : Mem P) (q idx : ℕ) : Exec (Option ℕ × Mem P) := do
  let n ← m.node q
  if (n.entries idx).isPresent || decide (n.level ≤ 1) then .ok (none, m)
  else do
    let (pa, m) ← allocAbsentChild m q idx
    .ok (some pa, m)

/-- `PageTableGuard::replace_absent_with_frame`. -/
def replaceAbsentWithFrame (m : Mem P) (q idx pa : ℕ) (prop : P) : Exec (Mem P) := do
  let n ← m.node q
  let nr ← incNrChildren n.nrChildren
  .ok (m.setNode q
    { n with nrChildren := nr, entries := Function.update n.entries idx (.frame pa prop) })

/-- `Entry::split_if_mapped_huge`: replaces a huge page by a node of 512 pages of
the next lower level.  Returns the new node, or `None` if the entry is not a huge
page. -/
def splitIfMappedHuge (m : Mem P) (q idx : ℕ) : Exec (Option ℕ × Mem P) := do
  let n ← m.node q
  match n.entries idx with
  | .frame pa prop =>
      if 1 < n.level then do
        let (paddr, m) ← m.alloc n.cfg (n.level - 1)
        let m ← Exec.forRange (fun i m => do
            let smallPa ← Exec.add pa (i * pageSize (n.level - 1))
            replaceAbsentWithFrame m paddr i smallPa prop) 0 NR_ENTRIES m
        let n ← m.node q
        let m := m.setNode q { n with entries := Function.update n.entries idx (.table paddr) }
        .ok (some paddr, m)
      else .ok (none, m)
  | _ => .ok (none, m)

/-- `PageTableGuard::protect_child`; the entry has to be a mapped frame. -/
def protectChild (m : Mem P) (q idx : ℕ) (op : P → P) : Exec (Mem P) := do
  let n ← m.node q
  match n.entries idx with
  | .frame pa prop =>
      .ok (m.setNode q { n with entries := Function.update n.entries idx (.frame pa (op prop)) })
  | _ => .error .badAccess

end Vostd
