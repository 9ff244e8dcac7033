/-
# The boot page table

`page_table/boot_pt.rs`: the table that is edited before the metadata of the frames
exists.  There are no cursors, no locks and no counters here; a frame is its 512 entries,
and `map_base_page` and `protect_base_page` walk down from the root to level 1, making
or splitting entries on the way.

A table is a tree when each of its frames has one position, a level and the number of the
slot it stands for (`TreeShape`).  Everything below follows from this: a walk of an
address reads, at each level, the frame at the position of that address, so an overwritten
entry concerns the addresses of its own slot only (`Rewrites.other`), and a frame without
a position is read by no walk.

`protect_base_page` splits a huge page of any level into entries that are one base page
apart.  This is right when the huge page is one level above the base pages, and wrong
at every level above (`protectWalk_moves`).
-/
import Vostd.PageTable.Refinement

namespace Vostd

open Exec

variable {P : Type}

/-- A `BootPageTable` with the physical memory it lives in: the entries of the frames, by
frame number and index, and the addresses that the early allocator will hand out. -/
structure BootPageTable (P : Type) where
  rootPt : ℕ
  entries : ℕ → ℕ → Pte P
  early : List ℕ

namespace BootPageTable

/-! ## The code -/

/-- `pte_ptr.write(e)` for the entry `index` of the frame `pt`. -/
def write (t : BootPageTable P) (pt index : ℕ) (e : Pte P) : BootPageTable P :=
  { t with entries := fun f i => if f = pt ∧ i = index then e else t.entries f i }

/-- `alloc_child`: the address of a zeroed frame, which the returned entry points to.
The allocation is `unwrap`ped. -/
def allocChild (t : BootPageTable P) : Exec (ℕ × BootPageTable P) :=
  match t.early with
  | [] => .error .noMemory
  | pa :: rest =>
      .ok (pa, { t with
        entries := fun f i => if f = pa / PAGE_SIZE then .absent else t.entries f i
        early := rest })

/-- What a call that is refused does: `panic!` with the feature `allow_panic`, and a
silent return without it. -/
def refuse (allowPanic : Bool) (t : BootPageTable P) : Exec (BootPageTable P) :=
  if allowPanic then .error .assertion else .ok t

/-- The loop of `map_base_page`, at level `n + 1`, and what follows it at level 1. -/
def mapWalk (allowPanic : Bool) (fromVa toFrame : ℕ) (prop : P) :
    ℕ → ℕ → BootPageTable P → Exec (BootPageTable P)
  | 0, pt, t =>
      match t.entries pt (pteIndex fromVa 1) with
      | .absent => do
          let pa ← mul toFrame PAGE_SIZE
          pure (t.write pt (pteIndex fromVa 1) (.frame pa prop))
      | .frame _ _ | .table _ => refuse allowPanic t
  | n + 1, pt, t =>
      match t.entries pt (pteIndex fromVa (n + 2)) with
      | .absent => do
          let (pa, t) ← t.allocChild
          mapWalk allowPanic fromVa toFrame prop n (pa / PAGE_SIZE)
            (t.write pt (pteIndex fromVa (n + 2)) (.table pa))
      | .frame _ _ => refuse allowPanic t
      | .table pa => mapWalk allowPanic fromVa toFrame prop n (pa / PAGE_SIZE) t

/-- `map_base_page`: maps the page of `from` to the frame number `to`. -/
def mapBasePage (t : BootPageTable P) (allowPanic : Bool) (fromVa toFrame : ℕ) (prop : P) :
    Exec (BootPageTable P) :=
  mapWalk allowPanic fromVa toFrame prop (NR_LEVELS - 1) t.rootPt t

/-- Splitting a huge page: the entries of the new child are one base page apart,
whatever its level. -/
def splitInto (childPa hugePa : ℕ) (prop : P) (t : BootPageTable P) : Exec (BootPageTable P) :=
  forRange (fun i t => do
    let pa ← add hugePa (i * PAGE_SIZE)
    pure (t.write (childPa / PAGE_SIZE) i (.frame pa prop))) 0 NR_ENTRIES t

/-- The loop of `protect_base_page`, at level `n + 1`, and what follows it at level 1.
An entry of level 1 never points to a node, so its property is that of a page. -/
def protectWalk (allowPanic : Bool) (va : ℕ) (op : P → P) :
    ℕ → ℕ → BootPageTable P → Exec (BootPageTable P)
  | 0, pt, t =>
      match t.entries pt (pteIndex va 1) with
      | .absent => refuse allowPanic t
      | .frame pa prop => .ok (t.write pt (pteIndex va 1) (.frame pa (op prop)))
      | .table _ => .error .badAccess
  | n + 1, pt, t =>
      match t.entries pt (pteIndex va (n + 2)) with
      | .absent => refuse allowPanic t
      | .frame hugePa prop => do
          let (childPa, t) ← t.allocChild
          let t ← splitInto childPa hugePa prop t
          protectWalk allowPanic va op n (childPa / PAGE_SIZE)
            (t.write pt (pteIndex va (n + 2)) (.table childPa))
      | .table pa => protectWalk allowPanic va op n (pa / PAGE_SIZE) t

/-- `protect_base_page`. -/
def protectBasePage (t : BootPageTable P) (allowPanic : Bool) (va : ℕ) (op : P → P) :
    Exec (BootPageTable P) :=
  protectWalk allowPanic va op (NR_LEVELS - 1) t.rootPt t

/-- `page_walk` from a frame of the given level. -/
def walkFrom (t : BootPageTable P) : ℕ → ℕ → ℕ → Option (ℕ × P)
  | 0, _, _ => none
  | l + 1, pt, va =>
      match t.entries pt (pteIndex va (l + 1)) with
      | .absent => none
      | .frame pa prop => some (pa + (va &&& (pageSize (l + 1) - 1)), prop)
      | .table pa => walkFrom t l (pa / PAGE_SIZE) va

/-- `page_walk` of the table. -/
def pageWalk (t : BootPageTable P) (va : ℕ) : Option (ℕ × P) :=
  t.walkFrom NR_LEVELS t.rootPt va

/-- The level and the entry at which the walk of an address stops. -/
def leafFrom (t : BootPageTable P) : ℕ → ℕ → ℕ → ℕ × Pte P
  | 0, _, _ => (0, .absent)
  | l + 1, pt, va =>
      match t.entries pt (pteIndex va (l + 1)) with
      | .table pa => leafFrom t l (pa / PAGE_SIZE) va
      | e => (l + 1, e)

/-- The level of the page that maps an address. -/
def leafLevel (t : BootPageTable P) (va : ℕ) : ℕ := (t.leafFrom NR_LEVELS t.rootPt va).1

section Walks

variable {t : BootPageTable P} {l pt va : ℕ}

theorem walkFrom_leaf {e : Pte P} (h : t.entries pt (pteIndex va (l + 1)) = e)
    (he : e.node? = none) : t.walkFrom (l + 1) pt va = e.translate (l + 1) va := by
  cases e with
  | absent => simp only [walkFrom, h, Pte.translate]
  | frame pa prop => simp only [walkFrom, h, Pte.translate, and_pageSize]
  | table pa => cases he

theorem walkFrom_table {pa : ℕ} (h : t.entries pt (pteIndex va (l + 1)) = .table pa) :
    t.walkFrom (l + 1) pt va = t.walkFrom l (pa / PAGE_SIZE) va := by
  simp only [walkFrom, h]

theorem leafFrom_leaf {e : Pte P} (h : t.entries pt (pteIndex va (l + 1)) = e)
    (he : e.node? = none) : t.leafFrom (l + 1) pt va = (l + 1, e) := by
  cases e with
  | absent => simp only [leafFrom, h]
  | frame pa prop => simp only [leafFrom, h]
  | table pa => cases he

theorem leafFrom_table {pa : ℕ} (h : t.entries pt (pteIndex va (l + 1)) = .table pa) :
    t.leafFrom (l + 1) pt va = t.leafFrom l (pa / PAGE_SIZE) va := by
  simp only [leafFrom, h]

end Walks

/-! ## Trees -/

/-- The frames of a tree, each with its position: the level of the frame and the number of
the slot above that points to it.  What the allocator holds has no position. -/
structure TreeShape (t : BootPageTable P) (pos : ℕ → Option (ℕ × ℕ)) : Prop where
  root : pos t.rootPt = some (4, 0)
  child : ∀ {q l s i pa}, pos q = some (l, s) → i < 512 → t.entries q i = .table pa →
    2 ≤ l ∧ PAGE_SIZE ∣ pa ∧ pos (pa / PAGE_SIZE) = some (l - 1, s * 512 + i)
  fresh : ∀ pa ∈ t.early, PAGE_SIZE ∣ pa ∧ pos (pa / PAGE_SIZE) = none
  nodup : t.early.Nodup

/-- A well-formed tree: each leaf is at a level that is translated, aligned to the size of
its page and inside the physical address space. -/
def WellFormed (cfg : PageTableConfig P) (t : BootPageTable P) : Prop :=
  ∃ pos, TreeShape t pos ∧ ∀ q l s i pa prop, pos q = some (l, s) → i < 512 →
    t.entries q i = .frame pa prop →
      l ≤ cfg.highestTranslationLevel ∧ pageSize l ∣ pa ∧ pa + pageSize l ≤ 2 ^ 64

/-- The frames that the walk of `va` visits: `Path t va l q` says that it is at `q` when it
comes to level `l`. -/
inductive Path (t : BootPageTable P) (va : ℕ) : ℕ → ℕ → Prop
  | root : Path t va 4 t.rootPt
  | child {l q pa : ℕ} (h : Path t va (l + 1) q)
      (he : t.entries q (pteIndex va (l + 1)) = .table pa) : Path t va l (pa / PAGE_SIZE)

section Shape

variable {t : BootPageTable P} {pos : ℕ → Option (ℕ × ℕ)} {l q va x : ℕ}

/-- The slot number of an address, from the node above and its index there. -/
theorem slotNo_eq_index (hl : 1 ≤ l) (h4 : l ≤ 4) (x : ℕ) :
    slotNo l x = slotNo (l + 1) x * 512 + pteIndex x l := by
  rw [slotNo_succ hl, pteIndex_eq_slotNo hl h4]
  omega

/-- A walk goes down. -/
theorem Path.level_le (h : Path t va l q) : l ≤ 4 := by
  induction h with
  | root => exact le_rfl
  | child _ _ ih => omega

/-- **The walk of an address visits the frames at its position.** -/
theorem Path.pos_eq (h : Path t va l q) (hS : TreeShape t pos) :
    pos q = some (l, slotNo (l + 1) va) := by
  induction h with
  | root => rw [hS.root, slotNo_five]
  | @child l q pa h he ih =>
      obtain ⟨hl, -, hp⟩ := hS.child ih (pteIndex_lt _ _) he
      rw [hp, slotNo_eq_index (by omega) h.level_le, Nat.add_sub_cancel]

/-- A frame that the walk visits at a table entry is not at the last level. -/
theorem Path.level_pos {pa : ℕ} (h : Path t va (l + 1) q) (hS : TreeShape t pos)
    (he : t.entries q (pteIndex va (l + 1)) = .table pa) : 1 ≤ l := by
  have h2 := (hS.child (h.pos_eq hS) (pteIndex_lt _ _) he).1
  omega

/-- Addresses that share the slot above a frame are walked through that frame. -/
theorem Path.pageWalk_eq (h : Path t va l q) (hS : TreeShape t pos)
    (hx : slotNo (l + 1) x = slotNo (l + 1) va) : t.pageWalk x = t.walkFrom l q x := by
  induction h with
  | root => rfl
  | @child l q pa h he ih =>
      have hl := h.level_pos hS he
      have h4 := h.level_le
      obtain ⟨hup, hidx⟩ := (slotNo_eq_iff (by omega) h4 x va).mp hx
      rw [ih hup]
      exact walkFrom_table (hidx ▸ he)

/-- A walk depends on the entries at the positions of its address. -/
theorem walkFrom_congr {t' : BootPageTable P} (hS : TreeShape t pos)
    (hsame : ∀ q l, 1 ≤ l → l ≤ 4 → pos q = some (l, slotNo (l + 1) x) →
      t'.entries q (pteIndex x l) = t.entries q (pteIndex x l)) :
    ∀ l q, l ≤ 4 → pos q = some (l, slotNo (l + 1) x) →
      t'.walkFrom l q x = t.walkFrom l q x := by
  intro l
  induction l with
  | zero =>
      intro q _ _
      rfl
  | succ l ih =>
      intro q h4 hq
      have he := hsame q (l + 1) (by omega) h4 hq
      cases hte : t.entries q (pteIndex x (l + 1)) with
      | absent =>
          rw [walkFrom_leaf hte rfl, walkFrom_leaf (he.trans hte) rfl]
      | frame pa prop =>
          rw [walkFrom_leaf hte rfl, walkFrom_leaf (he.trans hte) rfl]
      | table pa =>
          rw [walkFrom_table hte, walkFrom_table (he.trans hte)]
          obtain ⟨hl, -, hp⟩ := hS.child hq (pteIndex_lt _ _) hte
          rw [← slotNo_eq_index (by omega) h4, Nat.add_sub_cancel] at hp
          exact ih _ (by omega) hp

end Shape

/-! ## Overwriting one entry -/

/-- Among the frames with a position, `t'` differs from `t` in one entry only. -/
structure Rewrites (pos : ℕ → Option (ℕ × ℕ)) (t t' : BootPageTable P) (q i : ℕ)
    (e : Pte P) : Prop where
  root : t'.rootPt = t.rootPt
  entry : t'.entries q i = e
  same : ∀ f j, pos f ≠ none → ¬(f = q ∧ j = i) → t'.entries f j = t.entries f j

theorem rewrites_write (pos : ℕ → Option (ℕ × ℕ)) (t : BootPageTable P) (q i : ℕ) (e : Pte P) :
    Rewrites pos t (t.write q i e) q i e := by
  refine ⟨rfl, if_pos ⟨rfl, rfl⟩, ?_⟩
  intro f j _ hne
  exact if_neg hne

namespace Rewrites

variable {t t' : BootPageTable P} {pos : ℕ → Option (ℕ × ℕ)} {l q va x : ℕ} {e : Pte P}

/-- **An entry concerns the addresses of its slot only.** -/
theorem other (h : Rewrites pos t t' q (pteIndex va l) e) (hS : TreeShape t pos)
    (hq : Path t va l q) (hl : 1 ≤ l) (hx : slotNo l x ≠ slotNo l va) :
    t'.pageWalk x = t.pageWalk x := by
  unfold pageWalk
  rw [h.root]
  refine walkFrom_congr hS ?_ NR_LEVELS t.rootPt le_rfl ?_
  · intro f k hk hk4 hf
    apply h.same f _ (by rw [hf]; exact Option.some_ne_none _)
    rintro ⟨rfl, hidx⟩
    -- the overwritten entry is at the position of `va`
    have hpos := hq.pos_eq hS
    rw [hf] at hpos
    simp only [Option.some.injEq, Prod.mk.injEq] at hpos
    obtain ⟨rfl, hup⟩ := hpos
    exact hx ((slotNo_eq_iff hl hq.level_le x va).mpr ⟨hup, hidx⟩)
  · rw [hS.root]
    exact congrArg some (congrArg (Prod.mk 4) (slotNo_five x).symm)

/-- The walk still comes to the frame with the overwritten entry. -/
theorem path (h : Rewrites pos t t' q (pteIndex va l) e) (hS : TreeShape t pos)
    (hq : Path t va l q) : Path t' va l q := by
  -- the frames above have another level, so none of them is the overwritten one
  have habove : ∀ k f, Path t va k f → l ≤ k → Path t' va k f := by
    intro k f hf
    induction hf with
    | root =>
        intro _
        rw [← h.root]
        exact Path.root
    | @child k f pa hf he ih =>
        intro hlk
        refine Path.child (ih (by omega)) ?_
        have hfpos := hf.pos_eq hS
        rw [h.same f _ (by rw [hfpos]; exact Option.some_ne_none _) ?_]
        · exact he
        · rintro ⟨rfl, -⟩
          have hqpos := hq.pos_eq hS
          rw [hfpos] at hqpos
          simp only [Option.some.injEq, Prod.mk.injEq] at hqpos
          omega
  exact habove l q hq le_rfl

end Rewrites

/-! ## Linking a new node -/

/-- The step that puts a node in the place of an entry that was none: `c` is the frame the
allocator gave, and `f` its entries. -/
structure Links (pos : ℕ → Option (ℕ × ℕ)) (t t' : BootPageTable P) (q i c : ℕ)
    (f : ℕ → Pte P) : Prop where
  rewrites : Rewrites pos t t' q i (.table c)
  early : t.early = c :: t'.early
  fill : ∀ j, j < 512 → t'.entries (c / PAGE_SIZE) j = f j

namespace Links

variable {t t' : BootPageTable P} {pos : ℕ → Option (ℕ × ℕ)} {l q va x c : ℕ} {f : ℕ → Pte P}

/-- The positions after the step. -/
def newPos (pos : ℕ → Option (ℕ × ℕ)) (l va c : ℕ) : ℕ → Option (ℕ × ℕ) :=
  Function.update pos (c / PAGE_SIZE) (some (l, slotNo (l + 1) va))

theorem mem_early (h : Links pos t t' q (pteIndex va l) c f) : c ∈ t.early := by
  rw [h.early]
  exact List.mem_cons_self

/-- **The tree grows by one frame.** -/
theorem shape (h : Links pos t t' q (pteIndex va (l + 1)) c f) (hS : TreeShape t pos)
    (hq : Path t va (l + 1) q) (hl : 1 ≤ l) (hf : ∀ j, (f j).node? = none) :
    TreeShape t' (newPos pos l va c) := by
  obtain ⟨hc, hcnone⟩ := hS.fresh c h.mem_early
  have hold : ∀ g, g ≠ c / PAGE_SIZE → newPos pos l va c g = pos g := by
    intro g hg
    exact Function.update_of_ne hg _ _
  have hnew : newPos pos l va c (c / PAGE_SIZE) = some (l, slotNo (l + 1) va) :=
    Function.update_self _ _ _
  have hlab : ∀ g p, pos g = some p → g ≠ c / PAGE_SIZE := by
    intro g p hg heq
    rw [heq, hcnone] at hg
    cases hg
  refine ⟨?_, ?_, ?_, ?_⟩
  · rw [h.rewrites.root, hold _ (hlab _ _ hS.root)]
    exact hS.root
  · intro g k s i pa hg hi he
    by_cases hgc : g = c / PAGE_SIZE
    · rw [hgc, h.fill i hi] at he
      have hnode := hf i
      rw [he] at hnode
      cases hnode
    · rw [hold g hgc] at hg
      by_cases hslot : g = q ∧ i = pteIndex va (l + 1)
      · obtain ⟨rfl, rfl⟩ := hslot
        rw [h.rewrites.entry] at he
        obtain rfl := Pte.table.inj he
        rw [hq.pos_eq hS] at hg
        simp only [Option.some.injEq, Prod.mk.injEq] at hg
        obtain ⟨rfl, rfl⟩ := hg
        refine ⟨by omega, hc, ?_⟩
        rw [hnew, Nat.add_sub_cancel, slotNo_eq_index (by omega) hq.level_le]
      · rw [h.rewrites.same g i (by rw [hg]; exact Option.some_ne_none _) hslot] at he
        obtain ⟨h2, hdvd, hpa⟩ := hS.child hg hi he
        refine ⟨h2, hdvd, ?_⟩
        rw [hold _ (hlab _ _ hpa)]
        exact hpa
  · intro pa hpa
    have hmem : pa ∈ t.early := by
      rw [h.early]
      exact List.mem_cons_of_mem _ hpa
    obtain ⟨hdvd, hnone⟩ := hS.fresh pa hmem
    refine ⟨hdvd, ?_⟩
    rw [hold]
    · exact hnone
    · intro heq
      -- two page-aligned addresses of one frame number are equal
      have hsame : pa = c := by
        rw [← Nat.div_mul_cancel hdvd, ← Nat.div_mul_cancel hc, heq]
      have hnd := hS.nodup
      rw [h.early, List.nodup_cons] at hnd
      exact hnd.1 (hsame ▸ hpa)
  · have hnd := hS.nodup
    rw [h.early, List.nodup_cons] at hnd
    exact hnd.2

theorem path (h : Links pos t t' q (pteIndex va (l + 1)) c f) (hS : TreeShape t pos)
    (hq : Path t va (l + 1) q) : Path t' va l (c / PAGE_SIZE) :=
  Path.child (h.rewrites.path hS hq) h.rewrites.entry

/-- How the addresses of the slot translate through the new node. -/
theorem pageWalk_slot (h : Links pos t t' q (pteIndex va (l + 2)) c f) (hS : TreeShape t pos)
    (hq : Path t va (l + 2) q) (hf : ∀ j, (f j).node? = none)
    (hx : slotNo (l + 2) x = slotNo (l + 2) va) :
    t'.pageWalk x = (f (pteIndex x (l + 1))).translate (l + 1) x := by
  have hS' := h.shape hS hq (by omega) hf
  rw [(h.path hS hq).pageWalk_eq hS' hx]
  exact walkFrom_leaf (h.fill _ (pteIndex_lt _ _)) (hf _)

end Links

/-- The part of the step before the link: the frame `c` is taken from the allocator and
filled. -/
structure Filled (t t' : BootPageTable P) (c : ℕ) (f : ℕ → Pte P) : Prop where
  root : t'.rootPt = t.rootPt
  early : t.early = c :: t'.early
  fill : ∀ j, j < 512 → t'.entries (c / PAGE_SIZE) j = f j
  same : ∀ g j, g ≠ c / PAGE_SIZE → t'.entries g j = t.entries g j

section Steps

variable {t t' : BootPageTable P} {pos : ℕ → Option (ℕ × ℕ)} {A : Fault → Prop}

theorem Filled.links {q i c : ℕ} {f : ℕ → Pte P} (h : Filled t t' c f) (hS : TreeShape t pos)
    (hq : pos q ≠ none) : Links pos t (t'.write q i (.table c)) q i c f := by
  have hcnone := (hS.fresh c (by rw [h.early]; exact List.mem_cons_self)).2
  have hlab : ∀ g, pos g ≠ none → g ≠ c / PAGE_SIZE := by
    intro g hg heq
    exact hg (heq ▸ hcnone)
  refine ⟨⟨h.root, if_pos ⟨rfl, rfl⟩, ?_⟩, h.early, ?_⟩
  · intro g j hg hne
    rw [← h.same g j (hlab g hg)]
    exact if_neg hne
  · intro j hj
    rw [← h.fill j hj]
    exact if_neg (fun hh => hlab q hq hh.1.symm)

theorem post_allocChild (hA : A .noMemory) :
    Post A t.allocChild (fun r => Filled t r.2 r.1 (fun _ => .absent)) := by
  unfold allocChild
  cases he : t.early with
  | nil => exact hA
  | cons pa rest =>
      refine ⟨rfl, he, ?_, ?_⟩
      · intro j _
        exact if_pos rfl
      · intro g j hg
        exact if_neg hg

theorem post_splitInto {c hugePa : ℕ} {f : ℕ → Pte P} (prop : P) (h : Filled t t' c f)
    (hA : A .overflow ∨ hugePa + 512 * 4096 ≤ 2 ^ 64) :
    Post A (splitInto c hugePa prop t')
      (fun t'' => Filled t t'' c (fun j => .frame (hugePa + j * PAGE_SIZE) prop)) := by
  -- after `k` rounds the first `k` entries of the child are written
  let part (k : ℕ) : ℕ → Pte P :=
    fun j => if j < k then .frame (hugePa + j * PAGE_SIZE) prop else f j
  have hloop := post_forRange (A := A)
    (f := fun i (t : BootPageTable P) => do
      let pa ← add hugePa (i * PAGE_SIZE)
      pure (t.write (c / PAGE_SIZE) i (.frame pa prop)))
    (fun k (b : BootPageTable P) => Filled t b c (part k)) NR_ENTRIES 0 t' ?_ ?_
  · refine hloop.mono ?_
    intro t'' h''
    refine ⟨h''.root, h''.early, ?_, h''.same⟩
    intro j hj
    rw [h''.fill j hj]
    apply if_pos
    unfold NR_ENTRIES
    omega
  · refine ⟨h.root, h.early, ?_, h.same⟩
    intro j hj
    rw [h.fill j hj]
    exact (if_neg (Nat.not_lt_zero j)).symm
  · intro k b _ hk hb
    refine (post_add ?_).bind ?_
    · intro hover
      refine hA.resolve_right ?_
      unfold NR_ENTRIES at hk
      unfold PAGE_SIZE at hover
      omega
    · rintro pa ⟨rfl, -⟩
      refine ⟨hb.root, hb.early, ?_, ?_⟩
      · intro j hj
        by_cases hjk : j = k
        · subst hjk
          simp only [write, part]
          rw [if_pos ⟨trivial, trivial⟩, if_pos (Nat.lt_succ_self j)]
        · have hlt : j < k + 1 ↔ j < k := by omega
          simp only [write, part, hlt]
          rw [if_neg (fun hh => hjk hh.2)]
          exact hb.fill j hj
      · intro g j hg
        rw [← hb.same g j hg]
        exact if_neg (fun hh => hg hh.1)

end Steps

/-! ## `map_base_page` -/

section Map

variable {t t' : BootPageTable P} {pos : ℕ → Option (ℕ × ℕ)} {A : Fault → Prop} {l q va x : ℕ}

/-- The frame that a walk visits has a position. -/
theorem Path.pos_ne_none (h : Path t va l q) (hS : TreeShape t pos) : pos q ≠ none := by
  rw [h.pos_eq hS]
  exact Option.some_ne_none _

/-- Addresses of a slot translate by the entry of the slot. -/
theorem Path.pageWalk_leaf {e : Pte P} (h : Path t va (l + 1) q) (hS : TreeShape t pos)
    (he : t.entries q (pteIndex va (l + 1)) = e) (hnode : e.node? = none)
    (hx : slotNo (l + 1) x = slotNo (l + 1) va) : t.pageWalk x = e.translate (l + 1) x := by
  obtain ⟨hup, hidx⟩ := (slotNo_eq_iff (by omega) h.level_le x va).mp hx
  rw [h.pageWalk_eq hS hup]
  exact walkFrom_leaf (hidx ▸ he) hnode

/-- Linking an empty node in the place of an absent entry maps nothing. -/
theorem Links.pageWalk_of_absent {c : ℕ}
    (h : Links pos t t' q (pteIndex va (l + 2)) c (fun _ => .absent)) (hS : TreeShape t pos)
    (hq : Path t va (l + 2) q) (he : t.entries q (pteIndex va (l + 2)) = .absent) (x : ℕ) :
    t'.pageWalk x = t.pageWalk x := by
  by_cases hx : slotNo (l + 2) x = slotNo (l + 2) va
  · rw [h.pageWalk_slot hS hq (fun _ => rfl) hx, hq.pageWalk_leaf hS he rfl hx]
    rfl
  · exact h.rewrites.other hS hq (by omega) hx

/-- Overwriting an entry by a leaf keeps the tree. -/
theorem TreeShape.write_leaf {e : Pte P} (hS : TreeShape t pos) (q i : ℕ) (he : e.node? = none) :
    TreeShape (t.write q i e) pos := by
  refine ⟨hS.root, ?_, hS.fresh, hS.nodup⟩
  intro g k s j pa hg hj hpa
  by_cases hslot : g = q ∧ j = i
  · have hentry : (t.write q i e).entries g j = e := if_pos hslot
    rw [hentry] at hpa
    rw [hpa] at he
    cases he
  · have hentry : (t.write q i e).entries g j = t.entries g j := if_neg hslot
    rw [hentry] at hpa
    exact hS.child hg hj hpa

/-- Overwriting the entry of a base page. -/
theorem pageWalk_write_base {e : Pte P} (hS : TreeShape t pos) (hq : Path t va 1 q)
    (he : e.node? = none) (x : ℕ) : (t.write q (pteIndex va 1) e).pageWalk x =
      if slotNo 1 x = slotNo 1 va then e.translate 1 x else t.pageWalk x := by
  have hr := rewrites_write pos t q (pteIndex va 1) e
  split
  · next hx =>
    exact (hr.path hS hq).pageWalk_leaf (hS.write_leaf q _ he) hr.entry he hx
  · next hx => exact hr.other hS hq le_rfl hx

/-- **`map_base_page` from a frame on the way.** -/
theorem post_mapWalk (allowPanic : Bool) {toFrame : ℕ} (prop : P) (hA : A .noMemory)
    (hto : toFrame * PAGE_SIZE < 2 ^ 64) : ∀ n q (t : BootPageTable P) pos,
      TreeShape t pos → Path t va (n + 1) q → t.pageWalk va = none →
      Post A (mapWalk allowPanic va toFrame prop n q t) (fun t' => ∀ x, t'.pageWalk x =
        if slotNo 1 x = slotNo 1 va then some (toFrame * PAGE_SIZE + x % PAGE_SIZE, prop)
        else t.pageWalk x) := by
  intro n
  induction n with
  | zero =>
      intro q t pos hS hq hnone
      unfold mapWalk
      cases he : t.entries q (pteIndex va 1) with
      | absent =>
          refine (post_mul (fun hover => absurd hto (by omega))).bind ?_
          rintro pa ⟨rfl, -⟩ x
          rw [pageWalk_write_base hS hq rfl]
          rfl
      | frame pa pr =>
          rw [hq.pageWalk_leaf hS he rfl rfl] at hnone
          cases hnone
      | table pa => exact absurd (hq.level_pos hS he) (by omega)
  | succ n ih =>
      intro q t pos hS hq hnone
      unfold mapWalk
      cases he : t.entries q (pteIndex va (n + 2)) with
      | absent =>
          refine (post_allocChild hA).bind ?_
          rintro ⟨c, t1⟩ hfill
          have hlink := hfill.links (i := pteIndex va (n + 2)) hS (hq.pos_ne_none hS)
          have hsame := hlink.pageWalk_of_absent hS hq he
          refine (ih _ _ _ (hlink.shape hS hq (by omega) (fun _ => rfl)) (hlink.path hS hq)
            ((hsame va).trans hnone)).mono ?_
          intro t' ht' x
          rw [ht' x, hsame x]
      | frame pa pr =>
          rw [hq.pageWalk_leaf hS he rfl rfl] at hnone
          cases hnone
      | table pa => exact ih _ _ _ hS (hq.child he) hnone

end Map

/-! ## `protect_base_page` -/

section Protect

variable {t t' : BootPageTable P} {pos : ℕ → Option (ℕ × ℕ)} {A : Fault → Prop} {l q va x : ℕ}

/-- The entries that a split writes. -/
def splitEntry (hugePa : ℕ) (prop : P) (j : ℕ) : Pte P := .frame (hugePa + j * PAGE_SIZE) prop

/-- One round of the loop at a huge page: the page is split, and the walk goes on in the
new node. -/
theorem post_protectWalk_split {allowPanic : Bool} {op : P → P} {n hugePa : ℕ} {prop : P}
    {R : BootPageTable P → Prop} (hS : TreeShape t pos) (hq : Path t va (n + 2) q)
    (he : t.entries q (pteIndex va (n + 2)) = .frame hugePa prop) (hmem : A .noMemory)
    (hA : A .overflow ∨ hugePa + 512 * 4096 ≤ 2 ^ 64)
    (hrest : ∀ c t', Links pos t t' q (pteIndex va (n + 2)) c (splitEntry hugePa prop) →
      Post A (protectWalk allowPanic va op n (c / PAGE_SIZE) t') R) :
    Post A (protectWalk allowPanic va op (n + 1) q t) R := by
  unfold protectWalk
  rw [he]
  refine (post_allocChild hmem).bind ?_
  rintro ⟨c, t1⟩ hfill
  refine (post_splitInto prop hfill hA).bind ?_
  intro t2 hsplit
  exact hrest c _ (hsplit.links hS (hq.pos_ne_none hS))

/-- **What the call can change.**  From a frame on the way, only addresses of the slot that
is walked next. -/
theorem protectWalk_other (allowPanic : Bool) (op : P → P) : ∀ n q (t : BootPageTable P) pos,
    TreeShape t pos → Path t va (n + 1) q →
    Post (fun _ => True) (protectWalk allowPanic va op n q t)
      (fun t' => ∀ x, slotNo (n + 1) x ≠ slotNo (n + 1) va → t'.pageWalk x = t.pageWalk x) := by
  have hrefuse : ∀ (t : BootPageTable P) n, Post (fun _ => True) (refuse allowPanic t)
      (fun t' => ∀ x, slotNo (n + 1) x ≠ slotNo (n + 1) va → t'.pageWalk x = t.pageWalk x) := by
    intro t n
    unfold refuse
    exact post_ite (fun _ => trivial) (fun _ _ _ => rfl)
  intro n
  induction n with
  | zero =>
      intro q t pos hS hq
      unfold protectWalk
      cases he : t.entries q (pteIndex va 1) with
      | absent => exact hrefuse t 0
      | frame pa prop =>
          intro x hx
          rw [pageWalk_write_base hS hq rfl, if_neg hx]
      | table pa => trivial
  | succ n ih =>
      intro q t pos hS hq
      have hup : ∀ x, slotNo (n + 2) x ≠ slotNo (n + 2) va →
          slotNo (n + 1) x ≠ slotNo (n + 1) va := by
        intro x hx hx'
        exact hx (slotNo_mono (by omega) (by omega) hx')
      cases he : t.entries q (pteIndex va (n + 2)) with
      | absent =>
          unfold protectWalk
          rw [he]
          exact hrefuse t (n + 1)
      | frame hugePa prop =>
          refine post_protectWalk_split hS hq he trivial (Or.inl trivial) ?_
          intro c t1 hlink
          refine (ih _ _ _ (hlink.shape hS hq (by omega) (fun _ => rfl)) (hlink.path hS hq)).mono ?_
          intro t' ht' x hx
          rw [ht' x (hup x hx)]
          exact hlink.rewrites.other hS hq (by omega) hx
      | table pa =>
          unfold protectWalk
          rw [he]
          refine (ih _ _ _ hS (hq.child he)).mono ?_
          intro t' ht' x hx
          exact ht' x (hup x hx)

/-- A huge page one level above the base pages is split into its base pages. -/
theorem Links.pageWalk_of_split {c hugePa : ℕ} {prop : P}
    (h : Links pos t t' q (pteIndex va 2) c (splitEntry hugePa prop)) (hS : TreeShape t pos)
    (hq : Path t va 2 q) (he : t.entries q (pteIndex va 2) = .frame hugePa prop) (x : ℕ) :
    t'.pageWalk x = t.pageWalk x := by
  by_cases hx : slotNo 2 x = slotNo 2 va
  · rw [h.pageWalk_slot (l := 0) hS hq (fun _ => rfl) hx, hq.pageWalk_leaf hS he rfl hx]
    simp only [splitEntry, Pte.translate, Nat.zero_add, Nat.reduceAdd, pageSize_one, pageSize_two,
      pteIndex_eq, PAGE_SIZE]
    congr 2
    omega
  · exact h.rewrites.other hS hq (by omega) hx

/-- **`protect_base_page` on a page of the lowest two levels.** -/
theorem post_protectWalk (allowPanic : Bool) (op : P → P) (hmem : A .noMemory) :
    ∀ n q (t : BootPageTable P) pos k pa prop, TreeShape t pos → Path t va (n + 1) q →
      t.leafFrom (n + 1) q va = (k, .frame pa prop) → k ≤ 2 → pa + pageSize k ≤ 2 ^ 64 →
      Post A (protectWalk allowPanic va op n q t) (fun t' => ∀ x, t'.pageWalk x =
        if slotNo 1 x = slotNo 1 va then (t.pageWalk x).map (fun r => (r.1, op r.2))
        else t.pageWalk x) := by
  intro n
  induction n with
  | zero =>
      intro q t pos k pa prop hS hq hleaf _ _
      cases he : t.entries q (pteIndex va 1) with
      | absent =>
          rw [leafFrom_leaf he rfl] at hleaf
          cases hleaf
      | frame pa' prop' =>
          unfold protectWalk
          rw [he]
          intro x
          rw [pageWalk_write_base hS hq rfl]
          split
          · next hx =>
            rw [hq.pageWalk_leaf hS he rfl hx]
            rfl
          · rfl
      | table pa' => exact absurd (hq.level_pos hS he) (by omega)
  | succ n ih =>
      intro q t pos k pa prop hS hq hleaf hk hpa
      cases he : t.entries q (pteIndex va (n + 2)) with
      | absent =>
          rw [leafFrom_leaf he rfl] at hleaf
          cases hleaf
      | frame hugePa prop' =>
          rw [leafFrom_leaf he rfl] at hleaf
          simp only [Prod.mk.injEq, Pte.frame.injEq] at hleaf
          obtain ⟨rfl, rfl, rfl⟩ := hleaf
          obtain rfl : n = 0 := by omega
          have hbound : hugePa + 512 * 4096 ≤ 2 ^ 64 := by
            rw [pageSize_two] at hpa
            omega
          refine post_protectWalk_split hS hq he hmem (Or.inr hbound) ?_
          intro c t1 hlink
          have hsame := hlink.pageWalk_of_split hS hq he
          refine (ih _ t1 _ 1 (hugePa + pteIndex va 1 * PAGE_SIZE) prop'
            (hlink.shape hS hq (by omega) (fun _ => rfl)) (hlink.path hS hq)
            (leafFrom_leaf (hlink.fill _ (pteIndex_lt _ _)) rfl) (by omega) ?_).mono ?_
          · have hidx := pteIndex_lt va 1
            rw [pageSize_one]
            unfold PAGE_SIZE
            omega
          · intro t' ht' x
            rw [ht' x, hsame x]
      | table pa' =>
          unfold protectWalk
          rw [he]
          rw [leafFrom_table he] at hleaf
          exact ih _ _ _ _ _ _ hS (hq.child he) hleaf hk hpa

/-- Another part of a huge page: a canonical address of the same slot, at the start of a
sub-page that is neither the first one nor that of `va`. -/
theorem exists_other_part {cfg : PageTableConfig P} (hva : cfg.Canonical va) (hl : 1 ≤ l)
    (h3 : l ≤ 3) : ∃ x, cfg.Canonical x ∧ slotNo (l + 1) x = slotNo (l + 1) va ∧
      slotNo l x ≠ slotNo l va ∧ 1 ≤ pteIndex x l ∧
      x % pageSize (l + 1) = pteIndex x l * pageSize l := by
  -- the second or the third sub-page
  obtain ⟨j, hj1, hj2, hne⟩ : ∃ j, 1 ≤ j ∧ j ≤ 2 ∧ j ≠ pteIndex va l := by
    by_cases h1 : pteIndex va l = 1
    · exact ⟨2, by omega, by omega, by omega⟩
    · exact ⟨1, by omega, by omega, by omega⟩
  have hsize := pageSize_succ hl
  have hpos := pageSize_pos l
  have hlt : j * pageSize l < pageSize (l + 1) := by
    rw [hsize]
    exact Nat.mul_lt_mul_of_pos_right (by omega) hpos
  obtain ⟨k, hk⟩ := dvd_alignDown va (pageSize (l + 1))
  let x := alignDown va (pageSize (l + 1)) + j * pageSize l
  have hmod : x % pageSize (l + 1) = j * pageSize l := by
    show (alignDown va (pageSize (l + 1)) + j * pageSize l) % _ = _
    rw [hk, Nat.mul_add_mod, Nat.mod_eq_of_lt hlt]
  have hidx : pteIndex x l = j := by
    show pteIndex (alignDown va (pageSize (l + 1)) + j * pageSize l) l = j
    rw [pteIndex_eq, hk, hsize,
      show 512 * pageSize l * k + j * pageSize l = pageSize l * (512 * k + j) from by ring,
      Nat.mul_div_cancel_left _ hpos, Nat.mul_add_mod, Nat.mod_eq_of_lt (by omega)]
  have hcan : cfg.Canonical x :=
    canonical_of_slot hva (by omega) (by omega) (Nat.le_add_right _ _) (Nat.add_lt_add_left hlt _)
  have hslot : slotNo (l + 1) x = slotNo (l + 1) va :=
    (hcan.mem_slot_iff hva (by omega) (by omega)).mpr
      ⟨Nat.le_add_right _ _, Nat.add_lt_add_left hlt _⟩
  refine ⟨x, hcan, hslot, ?_, by omega, by rw [hmod, hidx]⟩
  intro hsame
  have := ((slotNo_eq_iff hl (by omega) x va).mp hsame).2
  omega

/-- **A split above level 2 moves mapped bytes.**  Some byte of the huge page outside the
page of `va` gets another physical address. -/
theorem protectWalk_moves {cfg : PageTableConfig P} (hva : cfg.Canonical va) (allowPanic : Bool)
    (op : P → P) : ∀ n q (t : BootPageTable P) pos k pa prop, TreeShape t pos →
      Path t va (n + 1) q → t.leafFrom (n + 1) q va = (k, .frame pa prop) → 3 ≤ k →
      Post (fun _ => True) (protectWalk allowPanic va op n q t) (fun t' =>
        ∃ x, cfg.Canonical x ∧ slotNo 1 x ≠ slotNo 1 va ∧ t'.pageWalk x ≠ t.pageWalk x) := by
  intro n
  induction n with
  | zero =>
      intro q t pos k pa prop _ _ hleaf hk
      cases he : t.entries q (pteIndex va 1) with
      | absent =>
          rw [leafFrom_leaf he rfl] at hleaf
          cases hleaf
      | frame pa' prop' =>
          rw [leafFrom_leaf he rfl] at hleaf
          simp only [Prod.mk.injEq] at hleaf
          omega
      | table pa' =>
          rw [leafFrom_table he] at hleaf
          cases hleaf
  | succ n ih =>
      intro q t pos k pa prop hS hq hleaf hk
      cases he : t.entries q (pteIndex va (n + 2)) with
      | absent =>
          rw [leafFrom_leaf he rfl] at hleaf
          cases hleaf
      | frame hugePa prop' =>
          rw [leafFrom_leaf he rfl] at hleaf
          simp only [Prod.mk.injEq, Pte.frame.injEq] at hleaf
          have hn : 2 ≤ n + 1 := by omega
          have h4 := hq.level_le
          obtain ⟨x, hcan, hslot, hother, hidx, hmod⟩ :=
            exists_other_part (l := n + 1) hva (by omega) (by omega)
          refine post_protectWalk_split hS hq he trivial (Or.inl trivial) ?_
          intro c t1 hlink
          refine (protectWalk_other allowPanic op n _ _ _
            (hlink.shape hS hq (by omega) (fun _ => rfl)) (hlink.path hS hq)).mono ?_
          intro t' ht'
          refine ⟨x, hcan, fun h1 => hother (slotNo_mono le_rfl (by omega) h1), ?_⟩
          -- the rest of the call does not touch `x`, so the split decides where it goes
          rw [ht' x hother, hlink.pageWalk_slot hS hq (fun _ => rfl) hslot,
            hq.pageWalk_leaf hS he rfl hslot]
          simp only [splitEntry, Pte.translate, ne_eq, Option.some.injEq, Prod.mk.injEq, not_and]
          intro haddr
          exfalso
          have hdvd : pageSize (n + 1) ∣ x % pageSize (n + 2) := ⟨_, by rw [hmod, Nat.mul_comm]⟩
          have hzero : x % pageSize (n + 1) = 0 := by
            rw [← Nat.mod_mod_of_dvd x (pageSize_dvd (by omega : n + 1 ≤ n + 2))]
            exact Nat.mod_eq_zero_of_dvd hdvd
          have hbig : 2097152 ≤ pageSize (n + 1) := by
            rw [← pageSize_two]
            exact pageSize_le hn
          have hgrow : pteIndex x (n + 1) * 2097152 ≤ pteIndex x (n + 1) * pageSize (n + 1) :=
            Nat.mul_le_mul_left _ hbig
          rw [hzero, hmod] at haddr
          unfold PAGE_SIZE at haddr
          omega
      | table pa' =>
          unfold protectWalk
          rw [he]
          rw [leafFrom_table he] at hleaf
          exact ih _ _ _ _ _ _ hS (hq.child he) hleaf hk

end Protect

/-! ## The calls on a whole table -/

/-- What `protect_base_page` is for: the property of one base page changes, and no byte
moves. -/
def Protects (cfg : PageTableConfig P) (t t' : BootPageTable P) (a : ℕ) (op : P → P) : Prop :=
  ∀ x, cfg.Canonical x → t'.pageWalk x =
    if x / PAGE_SIZE = a / PAGE_SIZE then (t.pageWalk x).map (fun r => (r.1, op r.2))
    else t.pageWalk x

/-- What `map_base_page` is for: one base page translates to the frame. -/
def Maps (cfg : PageTableConfig P) (t t' : BootPageTable P) (v frame : ℕ) (prop : P) : Prop :=
  ∀ x, cfg.Canonical x → t'.pageWalk x =
    if x / PAGE_SIZE = v / PAGE_SIZE then some (frame * PAGE_SIZE + x % PAGE_SIZE, prop)
    else t.pageWalk x

section Calls

variable {cfg : PageTableConfig P} {t : BootPageTable P} {a x : ℕ}

/-- The page of a canonical address is its slot of level 1. -/
theorem page_eq_iff (hx : cfg.Canonical x) (ha : cfg.Canonical a) :
    x / PAGE_SIZE = a / PAGE_SIZE ↔ slotNo 1 x = slotNo 1 a := by
  rw [hx.slotNo_eq_iff ha le_rfl (by omega), pageSize_one]
  rfl

/-- The walk of a mapped address stops at a page of the tree. -/
theorem exists_leaf : ∀ l q, Path t a l q → (t.walkFrom l q a).isSome →
    ∃ k f pa prop, Path t a (k + 1) f ∧
      t.entries f (pteIndex a (k + 1)) = .frame pa prop ∧
      t.leafFrom l q a = (k + 1, .frame pa prop) := by
  intro l
  induction l with
  | zero =>
      intro q _ h
      cases h
  | succ l ih =>
      intro q hq h
      cases he : t.entries q (pteIndex a (l + 1)) with
      | absent =>
          rw [walkFrom_leaf he rfl] at h
          cases h
      | frame pa prop => exact ⟨l, q, pa, prop, hq, he, leafFrom_leaf he rfl⟩
      | table pa =>
          rw [walkFrom_table he] at h
          rw [leafFrom_table he]
          exact ih _ (hq.child he) h

/-- `protect_base_page` is right on the pages of the lowest two levels, and only there. -/
theorem protectBasePage_iff (hW : t.WellFormed cfg) (ha : cfg.Canonical a)
    (hmapped : (t.pageWalk a).isSome) (allowPanic : Bool) (op : P → P)
    (hmem : t.protectBasePage allowPanic a op ≠ .error .noMemory) :
    (∃ t', t.protectBasePage allowPanic a op = .ok t' ∧ Protects cfg t t' a op) ↔
      t.leafLevel a ≤ 2 := by
  obtain ⟨pos, hS, hleaves⟩ := hW
  obtain ⟨k, f, pa, prop, hf, he, hleaf⟩ := exists_leaf NR_LEVELS t.rootPt Path.root hmapped
  obtain ⟨-, -, hpa⟩ := hleaves f (k + 1) _ _ pa prop (hf.pos_eq hS) (pteIndex_lt _ _) he
  have hlevel : t.leafLevel a = k + 1 := by
    unfold leafLevel
    rw [hleaf]
  rw [hlevel]
  constructor
  · rintro ⟨t', hrun, hprot⟩
    by_contra hk
    have hmoves := protectWalk_moves ha allowPanic op 3 t.rootPt t pos (k + 1) pa prop hS
      Path.root hleaf (by omega)
    obtain ⟨x, hx, hpage, hne⟩ := hmoves.of_ok hrun
    apply hne
    rw [hprot x hx, if_neg (fun h => hpage ((page_eq_iff hx ha).mp h))]
  · intro hk
    have hpost := post_protectWalk (A := fun e => e = .noMemory) allowPanic op rfl 3 t.rootPt t pos
      (k + 1) pa prop hS Path.root hleaf hk hpa
    cases hrun : t.protectBasePage allowPanic a op with
    | error e => exact absurd (hpost.of_error hrun ▸ hrun) hmem
    | ok t' =>
        refine ⟨t', rfl, ?_⟩
        intro x hx
        rw [hpost.of_ok hrun x]
        exact if_congr (page_eq_iff hx ha).symm rfl rfl

/-- `map_base_page` is right on every unmapped page. -/
theorem mapBasePage_maps (hW : t.WellFormed cfg) (ha : cfg.Canonical a)
    (hnone : t.pageWalk a = none) (allowPanic : Bool) {frame : ℕ} (prop : P)
    (hframe : frame * PAGE_SIZE < 2 ^ 64)
    (hmem : t.mapBasePage allowPanic a frame prop ≠ .error .noMemory) :
    ∃ t', t.mapBasePage allowPanic a frame prop = .ok t' ∧ Maps cfg t t' a frame prop := by
  obtain ⟨pos, hS, -⟩ := hW
  have hpost := post_mapWalk (A := fun e => e = .noMemory) allowPanic prop rfl hframe 3 t.rootPt t
    pos hS Path.root hnone
  cases hrun : t.mapBasePage allowPanic a frame prop with
  | error e => exact absurd (hpost.of_error hrun ▸ hrun) hmem
  | ok t' =>
      refine ⟨t', rfl, ?_⟩
      intro x hx
      rw [hpost.of_ok hrun x]
      exact if_congr (page_eq_iff hx ha).symm rfl rfl

end Calls

/-- **The two calls on a well-formed table.**  `protect_base_page` does what it is for
exactly when the page that maps the address is at level 1 or 2; `map_base_page` always
does. -/
theorem boot_pages_iff (cfg : PageTableConfig P) (t : BootPageTable P) (hW : t.WellFormed cfg)
    (allowPanic : Bool) :
    (∀ a op, cfg.Canonical a → (t.pageWalk a).isSome →
      t.protectBasePage allowPanic a op ≠ .error .noMemory →
      ((∃ t', t.protectBasePage allowPanic a op = .ok t' ∧ Protects cfg t t' a op) ↔
        t.leafLevel a ≤ 2)) ∧
    ∀ v frame prop, cfg.Canonical v → t.pageWalk v = none → frame * PAGE_SIZE < 2 ^ 64 →
      t.mapBasePage allowPanic v frame prop ≠ .error .noMemory →
      ∃ t', t.mapBasePage allowPanic v frame prop = .ok t' ∧ Maps cfg t t' v frame prop := by
  constructor
  · intro a op ha hmapped hmem
    exact protectBasePage_iff hW ha hmapped allowPanic op hmem
  · intro v frame prop hv hnone hframe hmem
    exact mapBasePage_maps hW hv hnone allowPanic prop hframe hmem

/-- A table of the boot stage: a page of 1 GiB at address 0, and after it a page of 2 MiB. -/
def firmwareTable : BootPageTable Bool where
  rootPt := 1
  entries
    | 1, 0 => .table 0x2000
    | 2, 0 => .frame 0 true
    | 2, 1 => .table 0x3000
    | 3, 0 => .frame 0x200000 true
    | _, _ => .absent
  early := [0x4000, 0x5000, 0x6000]

/-- The positions of its three frames. -/
def firmwarePos : ℕ → Option (ℕ × ℕ)
  | 1 => some (4, 0)
  | 2 => some (3, 0)
  | 3 => some (2, 1)
  | _ => none

/-- The configuration whose walk reads the table, with pages of up to 1 GiB. -/
def gigabyteConfig : PageTableConfig Bool := kernelPtConfig 3 (by decide) (fun _ => false)

/-- The entries of the table that are present. -/
theorem firmwareTable_entries (q i : ℕ) : (q = 1 ∧ i = 0) ∨ (q = 2 ∧ i = 0) ∨ (q = 2 ∧ i = 1) ∨
    (q = 3 ∧ i = 0) ∨ firmwareTable.entries q i = .absent := by
  show _ ∨ _ ∨ _ ∨ _ ∨ (match q, i with
    | 1, 0 => .table 0x2000
    | 2, 0 => .frame 0 true
    | 2, 1 => .table 0x3000
    | 3, 0 => .frame 0x200000 true
    | _, _ => .absent : Pte Bool) = .absent
  split <;> simp

theorem firmwareTable_wellFormed : firmwareTable.WellFormed gigabyteConfig := by
  refine ⟨firmwarePos, ⟨rfl, ?_, by decide, by decide⟩, ?_⟩
  · intro q l s i pa hq _ he
    rcases firmwareTable_entries q i with
      ⟨rfl, rfl⟩ | ⟨rfl, rfl⟩ | ⟨rfl, rfl⟩ | ⟨rfl, rfl⟩ | habs
    · cases hq
      cases he
      decide
    · cases he
    · cases hq
      cases he
      decide
    · cases he
    · rw [habs] at he
      cases he
  · intro q l s i pa prop hq _ he
    rcases firmwareTable_entries q i with
      ⟨rfl, rfl⟩ | ⟨rfl, rfl⟩ | ⟨rfl, rfl⟩ | ⟨rfl, rfl⟩ | habs
    · cases he
    · cases hq
      cases he
      decide
    · cases he
    · cases hq
      cases he
      decide
    · rw [habs] at he
      cases he

/-- The first byte of the page of 2 MiB. -/
def afterGigabyte : ℕ := 0x40000000

/-- Protecting a page inside the page of 2 MiB, and mapping a page behind it. -/
theorem boot_pages_iff_sample :
    (∃ t', firmwareTable.protectBasePage true afterGigabyte not = .ok t' ∧
      Protects gigabyteConfig firmwareTable t' afterGigabyte not) ∧
    ∃ t', firmwareTable.mapBasePage true 0x40200000 7 false = .ok t' ∧
      Maps gigabyteConfig firmwareTable t' 0x40200000 7 false := by
  obtain ⟨hprotect, hmap⟩ := boot_pages_iff gigabyteConfig firmwareTable
    firmwareTable_wellFormed true
  constructor
  · apply (hprotect afterGigabyte not (by decide) (by decide) ?_).mpr (by decide)
    have hok : (firmwareTable.protectBasePage true afterGigabyte not).isOk = true := by
      decide +kernel
    intro herr
    rw [herr] at hok
    cases hok
  · apply hmap 0x40200000 7 false (by decide) (by decide) (by decide)
    have hok : (firmwareTable.mapBasePage true 0x40200000 7 false).isOk = true := by
      decide +kernel
    intro herr
    rw [herr] at hok
    cases hok

/-- **A page of 1 GiB falls apart.**  Protecting its first base page moves the bytes of its
other parts: the one that was at 2 MiB is now at 4 KiB. -/
theorem protect_moves_gigabyte : firmwareTable.WellFormed gigabyteConfig ∧
    (firmwareTable.pageWalk 0).isSome ∧
    firmwareTable.pageWalk 0x200000 = some (0x200000, true) ∧
    (firmwareTable.protectBasePage true 0 not).map (fun t' => t'.pageWalk 0x200000) =
      .ok (some (0x1000, true)) :=
  ⟨firmwareTable_wellFormed, by decide, by decide, by decide +kernel⟩

end BootPageTable

end Vostd
