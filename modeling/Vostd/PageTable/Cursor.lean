/-
# The page table cursor

`Cursor` and `CursorMut` of `cursor/mod.rs`.  A cursor holds the guards of the
nodes on its path, from the subtree root at `guardLevel` down to its current
level; `path[level - 1]` is the node of that level.

The loops of the source become structural recursions on a bound.  Reaching the
bound is the fault `outOfFuel`; the proofs show that it does not happen.
-/
import Vostd.PageTable.NodeSpec

namespace Vostd

variable {P : Type}

/-- The errors of page table operations. -/
inductive PageTableError : Type where
  | invalidVaddrRange (start stop : ℕ)
  | invalidVaddr (va : ℕ)
  | unalignedVaddr
  deriving DecidableEq, Repr

/-- A mapped item in its raw form: `item_into_raw` returns these three values. -/
structure Item (P : Type) where
  pa : ℕ
  level : ℕ
  prop : P
  deriving DecidableEq, Repr

/-- `PageTableFrag`: what an entry held before it was replaced. -/
inductive PageTableFrag (P : Type) : Type where
  | mapped (va : ℕ) (item : Item P)
  | strayPageTable (pt va len numFrames : ℕ)
  deriving DecidableEq, Repr

namespace Mem

/-- `inc_ref_count`: aborts when the count is about to run over. -/
def incRefCount (m : Mem P) (pa : ℕ) : Exec (Mem P) := do
  Exec.check (m.refCount pa < REF_COUNT_MAX)
  .ok { m with refCount := Function.update m.refCount pa (m.refCount pa + 1) }

/-- `clone_item`: a tracked item takes another reference to its frame. -/
def cloneItem (cfg : PageTableConfig P) (m : Mem P) (item : Item P) : Exec (Mem P) :=
  if cfg.tracked item.prop then m.incRefCount item.pa else .ok m

/-- `dfs_mark_stray_and_unlock`: marks every node of a removed subtree and counts
the pages mapped in its lowest nodes.  The first argument bounds the depth. -/
def dfsMarkStrayAndUnlock : ℕ → Mem P → ℕ → Exec (ℕ × Mem P)
  | 0, _, _ => .error .outOfFuel
  | fuel + 1, m, q => do
      let n ← m.node q
      let m := m.setNode q { n with stray := true }
      if n.level = 1 then .ok (n.nrChildren, m)
      else
        Exec.forRange (fun i s => do
            let n ← s.2.node q
            match n.entries i with
            | .table pt => do
                let (k, m) ← dfsMarkStrayAndUnlock fuel s.2 pt
                .ok (s.1 + k, m)
            | _ => .ok s) 0 NR_ENTRIES (0, m)

end Mem

/-- `Cursor`. -/
structure Cursor where
  path : ℕ → Option ℕ
  level : ℕ
  guardLevel : ℕ
  va : ℕ
  barrierVa : AddrRange

namespace Cursor

/-! ## Moving on the path -/

/-- `pop_level`. -/
def popLevel (c : Cursor) : Exec Cursor := do
  let _ ← Exec.unwrap (c.path (c.level - 1))
  .ok { c with path := Function.update c.path (c.level - 1) none, level := c.level + 1 }

/-- `push_level`. -/
def pushLevel (c : Cursor) (childPt : ℕ) : Exec Cursor := do
  let level ← Exec.sub c.level 1
  let slot ← Exec.sub level 1
  .ok { c with level := level, path := Function.update c.path slot (some childPt) }

/-- The node at the current level. -/
def curNode (c : Cursor) : Exec ℕ := Exec.unwrap (c.path (c.level - 1))

/-- `cur_entry`, decoded by `to_ref`. -/
def curEntry (m : Mem P) (c : Cursor) : Exec (Pte P) := do
  let q ← c.curNode
  let n ← m.node q
  .ok (n.entries (pteIndex c.va c.level))

/-- `cur_va_range`: the addresses of the current slot. -/
def curVaRange (c : Cursor) : Exec AddrRange := do
  let start := alignDown c.va (pageSize c.level)
  let stop ← Exec.add start (pageSize c.level)
  .ok ⟨start, stop⟩

/-- The loop of `move_forward`: leaves the nodes that end at `nextVa`. -/
def leaveNodes (nextVa : ℕ) : ℕ → Cursor → Exec Cursor
  | 0, c => .ok c
  | fuel + 1, c =>
      if c.level < c.guardLevel ∧ pteIndex nextVa c.level = 0 then do
        let c ← c.popLevel
        leaveNodes nextVa fuel c
      else .ok c

/-- `move_forward`: goes to the first address after the current slot. -/
def moveForward (c : Cursor) : Exec Cursor := do
  let r ← c.curVaRange
  let c ← leaveNodes r.stop (c.guardLevel - c.level) c
  .ok { c with va := r.stop }

/-- The loop of `jump`. -/
def jumpLoop (va : ℕ) : ℕ → Cursor → Exec Cursor
  | 0, _ => .error .outOfFuel
  | fuel + 1, c =>
      let nodeSize := pageSize (c.level + 1)
      let nodeStart := alignDown c.va nodeSize
      if c.level ≤ c.guardLevel ∧ nodeStart ≤ va ∧ va - nodeStart < nodeSize then
        .ok { c with va := va }
      else do
        let c ← c.popLevel
        jumpLoop va fuel c

/-- `jump`. -/
def jump (c : Cursor) (va : ℕ) : Exec (Except PageTableError Unit × Cursor) := do
  Exec.check (va % PAGE_SIZE = 0)
  if c.barrierVa.Contains va then do
    let c ← jumpLoop va (NR_LEVELS + 2) c
    .ok (.ok (), c)
  else .ok (.error (.invalidVaddr va), c)

/-! ## Reading -/

/-- The loop of `query`. -/
def queryLoop (cfg : PageTableConfig P) :
    ℕ → Mem P → Cursor → Exec ((AddrRange × Option (Item P)) × Mem P × Cursor)
  | 0, _, _ => .error .outOfFuel
  | fuel + 1, m, c => do
      match ← c.curEntry m with
      | .table pt => do
          let c ← c.pushLevel pt
          queryLoop cfg fuel m c
      | .absent => do
          let r ← c.curVaRange
          .ok ((r, none), m, c)
      | .frame pa prop => do
          let item : Item P := ⟨pa, c.level, prop⟩
          let m ← m.cloneItem cfg item
          let r ← c.curVaRange
          .ok ((r, some item), m, c)

/-- `query`: the slot of the current address and a clone of what is mapped there. -/
def query (cfg : PageTableConfig P) (m : Mem P) (c : Cursor) :
    Exec (Except PageTableError (AddrRange × Option (Item P)) × Mem P × Cursor) :=
  if c.barrierVa.stop ≤ c.va then .ok (.error (.invalidVaddr c.va), m, c)
  else do
    let (r, m, c) ← queryLoop cfg (NR_LEVELS + 1) m c
    .ok (.ok r, m, c)

/-- The loop of `find_next_impl`. -/
def findLoop (cfg : PageTableConfig P) (stop : ℕ) (findUnmapSubtree splitHuge : Bool) :
    ℕ → Mem P → Cursor → Exec (Option ℕ × Mem P × Cursor)
  | 0, _, _ => .error .outOfFuel
  | fuel + 1, m, c =>
      if c.va < stop then do
        let r ← c.curVaRange
        let fits := decide (c.va = r.start ∧ r.stop ≤ stop)
        match ← c.curEntry m with
        | .table pt =>
            if findUnmapSubtree && fits && (cfg.topLevelCanUnmap || c.level != NR_LEVELS) then
              .ok (some c.va, m, c)
            else do
              let n ← m.node pt
              if n.nrChildren ≠ 0 then do
                let c ← c.pushLevel pt
                findLoop cfg stop findUnmapSubtree splitHuge fuel m c
              else do
                let c ← c.moveForward
                findLoop cfg stop findUnmapSubtree splitHuge fuel m c
        | .absent => do
            let c ← c.moveForward
            findLoop cfg stop findUnmapSubtree splitHuge fuel m c
        | .frame _ _ =>
            if fits || !splitHuge then .ok (some c.va, m, c)
            else do
              let q ← c.curNode
              let (child, m) ← splitIfMappedHuge m q (pteIndex c.va c.level)
              let child ← Exec.unwrap child
              let c ← c.pushLevel child
              findLoop cfg stop findUnmapSubtree splitHuge fuel m c
      else
        .ok (none, m, if c.barrierVa.stop < c.va then { c with va := c.barrierVa.stop } else c)

/-- `find_next_impl`. -/
def findNextImpl (cfg : PageTableConfig P) (m : Mem P) (c : Cursor) (len : ℕ)
    (findUnmapSubtree splitHuge : Bool) : Exec (Option ℕ × Mem P × Cursor) := do
  Exec.check (len % PAGE_SIZE = 0)
  let rest ← Exec.sub c.barrierVa.stop c.va
  Exec.check (len ≤ rest)
  let stop ← Exec.add c.va len
  findLoop cfg stop findUnmapSubtree splitHuge (5 * (len / PAGE_SIZE) + 5) m c

/-- `find_next`. -/
def findNext (cfg : PageTableConfig P) (m : Mem P) (c : Cursor) (len : ℕ) :
    Exec (Option ℕ × Mem P × Cursor) :=
  c.findNextImpl cfg m len false false

/-! ## Writing -/

/-- `replace_cur_entry`.  The fragment of a child node holds a reference of its own, that of
`pt.clone()`.  The reference of the entry is in `pt`, which goes out of scope here, and a
`Frame` that goes out of scope gives nothing back: its `Drop` implementation is a comment. -/
def replaceCurEntry (cfg : PageTableConfig P) (m : Mem P) (c : Cursor) (newChild : Child P) :
    Exec (Option (PageTableFrag P) × Mem P) := do
  let q ← c.curNode
  let (old, m) ← replaceChild m q (pteIndex c.va c.level) newChild
  match old with
  | .absent => .ok (none, m)
  | .frame pa prop => .ok (some (.mapped c.va ⟨pa, c.level, prop⟩), m)
  | .table pt =>
      if !cfg.topLevelCanUnmap && c.level == NR_LEVELS then .error .assertion
      else do
        let (numFrames, m) ← m.dfsMarkStrayAndUnlock NR_LEVELS pt
        let m ← m.incRefCount pt
        .ok (some (.strayPageTable pt c.va (pageSize c.level) numFrames), m)

/-- `map_loop`: goes to the given level, making nodes on the way down. -/
def mapLoop (level : ℕ) : ℕ → Mem P → Cursor → Exec (Mem P × Cursor)
  | 0, _, _ => .error .outOfFuel
  | fuel + 1, m, c =>
      if c.level = level then .ok (m, c)
      else if c.level < level then do
        let c ← c.popLevel
        mapLoop level fuel m c
      else do
        match ← c.curEntry m with
        | .table pt => do
            let c ← c.pushLevel pt
            mapLoop level fuel m c
        | .absent => do
            let q ← c.curNode
            let (child, m) ← allocAbsentChild m q (pteIndex c.va c.level)
            let c ← c.pushLevel child
            mapLoop level fuel m c
        | .frame _ _ => do
            let q ← c.curNode
            let (child, m) ← splitIfMappedHuge m q (pteIndex c.va c.level)
            let child ← Exec.unwrap child
            let c ← c.pushLevel child
            mapLoop level fuel m c

/-- `map`.  Returns the fragment that the item replaced (the `Err` of the source). -/
def map (cfg : PageTableConfig P) (m : Mem P) (c : Cursor) (item : Item P) :
    Exec (Option (PageTableFrag P) × Mem P × Cursor) := do
  Exec.check (c.va < c.barrierVa.stop)
  Exec.check (item.level ≤ cfg.highestTranslationLevel ∧ item.level ≤ c.guardLevel)
  let _ ← Exec.sub item.level 1
  let size := pageSize item.level
  Exec.check (c.va % size = 0)
  let rest ← Exec.sub c.barrierVa.stop c.va
  Exec.check (size ≤ rest)
  let (m, c) ← mapLoop item.level (NR_LEVELS + 1) m c
  let (frag, m) ← c.replaceCurEntry cfg m (.frame item.pa item.level item.prop)
  let c ← c.moveForward
  .ok (frag, m, c)

/-- `take_next`: removes the next mapped frame or whole subtree. -/
def takeNext (cfg : PageTableConfig P) (m : Mem P) (c : Cursor) (len : ℕ) :
    Exec (Option (PageTableFrag P) × Mem P × Cursor) := do
  let (found, m, c) ← c.findNextImpl cfg m len true true
  match found with
  | none => .ok (none, m, c)
  | some _ => do
      let (frag, m) ← c.replaceCurEntry cfg m .none
      let c ← c.moveForward
      .ok (frag, m, c)

/-- `protect_next`: changes the property of the next mapped frame. -/
def protectNext (cfg : PageTableConfig P) (m : Mem P) (c : Cursor) (len : ℕ) (op : P → P) :
    Exec (Option AddrRange × Mem P × Cursor) := do
  let (found, m, c) ← c.findNextImpl cfg m len false true
  match found with
  | none => .ok (none, m, c)
  | some _ => do
      let q ← c.curNode
      let m ← protectChild m q (pteIndex c.va c.level) op
      let protectedVa ← c.curVaRange
      let c ← c.moveForward
      .ok (some protectedVa, m, c)

end Cursor

end Vostd
