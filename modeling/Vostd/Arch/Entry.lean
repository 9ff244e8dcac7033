/-
# Page properties and raw page table entries

`PageProperty` of `mm/page_prop.rs`, and `PageTableEntryTrait` of `mm/page_table/mod.rs`: the
operations that each architecture has on the raw word of an entry.  `Child::into_pte` and
`Child::from_pte` (`node/child.rs`) are written in terms of them.

The privileged flags have a further bit, SHARED, if the feature `cvm_guest` is on; `cvm` says
whether it is.

An architecture keeps its promises if an entry describes the page that it was made for, and
goes on doing so whatever properties it is given afterwards (`Records`).
-/
import Vostd.Lib.BitFields
import Vostd.PageTable.Node

namespace Vostd

open Exec

/-! ## Page properties -/

/-- `CachePolicy` -/
inductive CachePolicy : Type where
  | uncacheable
  | writeCombining
  | writeProtected
  | writethrough
  | writeback
  deriving DecidableEq, Repr

/-- A `bitflags!` type over `u8`: its bits are among those that have been declared. -/
structure Flags (all : BitVec 8) where
  bits : BitVec 8
  declared : bits &&& all = bits
  deriving DecidableEq

namespace Flags

variable {all : BitVec 8}

/-- `from_bits` -/
def fromBits (bits : BitVec 8) : Option (Flags all) :=
  if h : bits &&& all = bits then some ⟨bits, h⟩ else none

/-- `contains` -/
def contains (f : Flags all) (flag : BitVec 8) : Bool := decide (f.bits &&& flag = flag)

theorem contains_twoPow (f : Flags all) {i : ℕ} (hi : i < 8) :
    f.contains (BitVec.twoPow 8 i) = f.bits.getLsbD i := by
  unfold contains
  rw [Bool.eq_iff_iff, decide_eq_true_iff]
  constructor
  · intro heq
    have hbit : (f.bits &&& BitVec.twoPow 8 i).getLsbD i = (BitVec.twoPow 8 i).getLsbD i := by
      rw [heq]
    rw [BitVec.getLsbD_and, BitVec.getLsbD_twoPow] at hbit
    simpa [hi] using hbit
  · intro hbit
    rw [BitVec.and_comm]
    apply and_eq_self_of_forall
    intro k hk
    rw [BitVec.getLsbD_twoPow, Bool.and_eq_true, decide_eq_true_iff, decide_eq_true_iff] at hk
    rw [← hk.2]
    exact hbit

theorem fromBits_bits (f : Flags all) : fromBits f.bits = some f := by
  unfold fromBits
  rw [dif_pos f.declared]

/-- A bit that is not declared is not set. -/
theorem getLsbD_of_not_declared (f : Flags all) {i : ℕ} (h : all.getLsbD i = false) :
    f.bits.getLsbD i = false := by
  rw [← f.declared, BitVec.getLsbD_and, h, Bool.and_false]

end Flags

/-- The declared bits of `PageFlags`. -/
def pageFlagsAll : BitVec 8 := BitVec.ofNat 8 0b11011111

/-- The declared bits of `PrivilegedPageFlags`. -/
def privFlagsAll (cvm : Bool) : BitVec 8 :=
  if cvm then BitVec.ofNat 8 0b10000011 else BitVec.ofNat 8 0b00000011

abbrev PageFlags : Type := Flags pageFlagsAll

abbrev PrivFlags (cvm : Bool) : Type := Flags (privFlagsAll cvm)

namespace PageFlags

/-- Readable. -/
def R : BitVec 8 := BitVec.twoPow 8 0
/-- Writable. -/
def W : BitVec 8 := BitVec.twoPow 8 1
/-- Executable. -/
def X : BitVec 8 := BitVec.twoPow 8 2
/-- Has the memory page been read or written. -/
def ACCESSED : BitVec 8 := BitVec.twoPow 8 3
/-- Has the memory page been written. -/
def DIRTY : BitVec 8 := BitVec.twoPow 8 4
/-- The first bit available for software use. -/
def AVAIL1 : BitVec 8 := BitVec.twoPow 8 6
/-- The second bit available for software use. -/
def AVAIL2 : BitVec 8 := BitVec.twoPow 8 7

end PageFlags

namespace PrivFlags

/-- Accessible from user mode. -/
def USER : BitVec 8 := BitVec.twoPow 8 0
/-- Not evicted by a normal TLB flush. -/
def GLOBAL : BitVec 8 := BitVec.twoPow 8 1
/-- The page is shared with the host. -/
def SHARED : BitVec 8 := BitVec.twoPow 8 7

end PrivFlags

/-- `PageProperty` -/
structure PageProperty (cvm : Bool) where
  flags : PageFlags
  cache : CachePolicy
  privFlags : PrivFlags cvm
  deriving DecidableEq

/-! ## Raw entries -/

/-- `PageTableEntry` -/
structure PageTableEntry where
  raw : BitVec 64
  deriving DecidableEq, Repr

/-- `PageTableEntryTrait`; `set_prop` returns the changed entry. -/
structure PageTableEntryTrait (P : Type) where
  newAbsent : PageTableEntry
  isPresent : PageTableEntry → Bool
  newPage : BitVec 64 → ℕ → P → Exec PageTableEntry
  newPt : BitVec 64 → PageTableEntry
  paddr : PageTableEntry → BitVec 64
  prop : PageTableEntry → Exec P
  setProp : PageTableEntry → P → Exec PageTableEntry
  isLast : PageTableEntry → ℕ → Bool

/-- A page-aligned physical address below `2 ^ width`. -/
structure FrameAddr (width : ℕ) (paddr : BitVec 64) : Prop where
  dvd : PAGE_SIZE ∣ paddr.toNat
  lt : paddr.toNat < 2 ^ width

instance FrameAddr.decidable (width : ℕ) (paddr : BitVec 64) : Decidable (FrameAddr width paddr) :=
  decidable_of_iff (PAGE_SIZE ∣ paddr.toNat ∧ paddr.toNat < 2 ^ width)
    ⟨fun h => ⟨h.1, h.2⟩, fun h => ⟨h.dvd, h.lt⟩⟩

/-- The bits of a frame address. -/
theorem FrameAddr.of_getLsbD {width : ℕ} {paddr : BitVec 64} (h : FrameAddr width paddr) {k : ℕ}
    (hk : paddr.getLsbD k = true) : 12 ≤ k ∧ k < width :=
  getLsbD_of_dvd_of_lt (m := 12) h.dvd h.lt hk

namespace PageTableEntryTrait

variable {P : Type} (E : PageTableEntryTrait P)

/-- The entry maps the page at `paddr` with the property `p`. -/
structure Describes (e : PageTableEntry) (level : ℕ) (paddr : BitVec 64) (p : P) : Prop where
  present : E.isPresent e = true
  last : E.isLast e level = true
  paddr : E.paddr e = paddr
  prop : E.prop e = .ok p

/-- A new entry that is given further properties, one after the other. -/
def setProps (paddr : BitVec 64) (level : ℕ) (p : P) (ps : List P) : Exec PageTableEntry := do
  let e ← E.newPage paddr level p
  ps.foldlM E.setProp e

/-- **The entry follows**: it describes the page with the property that was set last. -/
def Records (paddr : BitVec 64) (level : ℕ) (p : P) (ps : List P) : Prop :=
  ∃ e, E.setProps paddr level p ps = .ok e ∧ E.Describes e level paddr (ps.getLastD p)

variable {E} {paddr : BitVec 64} {level : ℕ} {p : P}

theorem setProps_concat {ps : List P} {q : P} :
    E.setProps paddr level p (ps ++ [q]) = (do
      let e ← E.setProps paddr level p ps
      E.setProp e q) := by
  unfold setProps
  cases E.newPage paddr level p with
  | error f => rfl
  | ok e =>
      show (ps ++ [q]).foldlM E.setProp e = ps.foldlM E.setProp e >>= fun e => E.setProp e q
      rw [List.foldlM_append]
      simp only [List.foldlM_cons, List.foldlM_nil, bind_pure]

/-- **The rule for entries.**  A representation that a new entry has and that setting a
property keeps is kept by any number of them. -/
theorem setProps_of_step {I : P → Prop} (R : PageTableEntry → P → Prop)
    (hnew : ∀ p, I p → ∃ e, E.newPage paddr level p = .ok e ∧ R e p)
    (hset : ∀ e p q, R e p → I q → ∃ e', E.setProp e q = .ok e' ∧ R e' q) (hp : I p)
    {ps : List P} (hps : ∀ q ∈ ps, I q) :
    ∃ e, E.setProps paddr level p ps = .ok e ∧ R e (ps.getLastD p) ∧ I (ps.getLastD p) := by
  induction ps using List.reverseRecOn with
  | nil =>
      obtain ⟨e, he, hR⟩ := hnew p hp
      exact ⟨e, by rw [setProps, he]; rfl, hR, hp⟩
  | append_singleton ps q ih =>
      obtain ⟨e, he, hR, -⟩ := ih (fun r hr => hps r (List.mem_append_left _ hr))
      have hq : I q := hps q (List.mem_append_right _ (List.mem_singleton_self q))
      obtain ⟨e', he', hR'⟩ := hset e _ q hR hq
      rw [List.getLastD_concat]
      refine ⟨e', ?_, hR', hq⟩
      rw [setProps_concat, he]
      exact he'

theorem records_of_step {I : P → Prop} (R : PageTableEntry → P → Prop)
    (hnew : ∀ p, I p → ∃ e, E.newPage paddr level p = .ok e ∧ R e p)
    (hset : ∀ e p q, R e p → I q → ∃ e', E.setProp e q = .ok e' ∧ R e' q)
    (hread : ∀ e p, R e p → I p → E.Describes e level paddr p) (hp : I p) {ps : List P}
    (hps : ∀ q ∈ ps, I q) : E.Records paddr level p ps := by
  obtain ⟨e, he, hR, hlast⟩ := setProps_of_step R hnew hset hp hps
  exact ⟨e, he, hread e _ hR hlast⟩

/-- **Entries that read some properties back as others** follow a sequence of properties exactly
if each of them is read back as it is. -/
theorem records_iff_of_read {I : P → Prop} (R : PageTableEntry → P → Prop) (read : P → P)
    (hnew : ∀ p, I p → ∃ e, E.newPage paddr level p = .ok e ∧ R e p)
    (hset : ∀ e p q, R e p → I q → ∃ e', E.setProp e q = .ok e' ∧ R e' q)
    (hread : ∀ e p, R e p → I p → E.Describes e level paddr (read p)) {ps : List P}
    (hps : ∀ q ∈ p :: ps, I q) :
    (∀ qs, qs <+: ps → E.Records paddr level p qs) ↔ ∀ q ∈ p :: ps, read q = q := by
  have hone : ∀ qs, qs <+: ps →
      (E.Records paddr level p qs ↔ read (qs.getLastD p) = qs.getLastD p) := by
    intro qs hqs
    obtain ⟨e, he, hR, hlast⟩ := setProps_of_step R hnew hset (hps p List.mem_cons_self)
      (fun q hq => hps q (List.mem_cons_of_mem p (hqs.subset hq)))
    have hd := hread e _ hR hlast
    constructor
    · rintro ⟨e', he', hd'⟩
      obtain rfl := Except.ok.inj (he.symm.trans he')
      exact Except.ok.inj (hd.prop.symm.trans hd'.prop)
    · intro heq
      rw [heq] at hd
      exact ⟨e, he, hd⟩
  constructor
  · intro hall q hq
    rcases List.mem_cons.mp hq with rfl | hq
    · exact (hone [] List.nil_prefix).mp (hall [] List.nil_prefix)
    · obtain ⟨before, behind, rfl⟩ := List.append_of_mem hq
      have hprefix : before ++ [q] <+: before ++ q :: behind := ⟨behind, by simp⟩
      have hq' := (hone _ hprefix).mp (hall _ hprefix)
      rwa [List.getLastD_concat] at hq'
  · intro hall qs hqs
    rw [hone qs hqs]
    apply hall
    rcases List.eq_nil_or_concat qs with rfl | ⟨rs, q, rfl⟩
    · exact List.mem_cons_self
    · rw [List.concat_eq_append] at hqs ⊢
      rw [List.getLastD_concat]
      exact List.mem_cons_of_mem p (hqs.subset (by simp))

end PageTableEntryTrait

/-! ## Children -/

/-- `Child` of `node/child.rs`; a node is given by the address of its metadata. -/
inductive RawChild (P : Type) : Type where
  | pageTable (ptr : ℕ)
  | frame (paddr : BitVec 64) (level : ℕ) (prop : P)
  | none
  deriving DecidableEq

/-- `FRAME_METADATA_RANGE` -/
def frameMetadataRange : AddrRange := ⟨0xffffe00000000000, 0xffffe10000000000⟩

/-- `META_SLOT_SIZE` -/
def metaSlotSize : ℕ := 64

/-- `frame_to_meta` -/
def frameToMeta (paddr : ℕ) : ℕ := frameMetadataRange.start + paddr / PAGE_SIZE * metaSlotSize

/-- `meta_to_frame` -/
def metaToFrame (vaddr : ℕ) : ℕ := (vaddr - frameMetadataRange.start) / metaSlotSize * PAGE_SIZE

/-- The address of a metadata slot. -/
def IsMetaSlot (ptr : ℕ) : Prop := frameMetadataRange.Contains ptr ∧ metaSlotSize ∣ ptr

theorem frameToMeta_metaToFrame {ptr : ℕ} (h : IsMetaSlot ptr) :
    frameToMeta (metaToFrame ptr) = ptr := by
  obtain ⟨⟨hlo, -⟩, k, rfl⟩ := h
  unfold frameToMeta metaToFrame frameMetadataRange metaSlotSize PAGE_SIZE at *
  simp only at *
  omega

theorem IsMetaSlot.frameAddr {ptr : ℕ} (h : IsMetaSlot ptr) :
    FrameAddr 52 (BitVec.ofNat 64 (metaToFrame ptr)) ∧
      (BitVec.ofNat 64 (metaToFrame ptr)).toNat = metaToFrame ptr := by
  obtain ⟨⟨hlo, hhi⟩, -⟩ := h
  have hlt : metaToFrame ptr < 2 ^ 52 := by
    unfold metaToFrame frameMetadataRange metaSlotSize PAGE_SIZE at *
    simp only at *
    omega
  have hnat : (BitVec.ofNat 64 (metaToFrame ptr)).toNat = metaToFrame ptr := by
    rw [BitVec.toNat_ofNat, Nat.mod_eq_of_lt (by omega)]
  refine ⟨⟨?_, ?_⟩, hnat⟩
  · rw [hnat]
    exact Nat.dvd_mul_left _ _
  · rw [hnat]
    exact hlt

namespace RawChild

variable {P : Type} (E : PageTableEntryTrait P)

/-- `Child::into_pte` -/
def intoPte : RawChild P → Exec PageTableEntry
  | pageTable ptr => .ok (E.newPt (BitVec.ofNat 64 (metaToFrame ptr)))
  | frame paddr level prop => E.newPage paddr level prop
  | none => .ok E.newAbsent

/-- `Child::from_pte` -/
def fromPte (pte : PageTableEntry) (level : ℕ) : Exec (RawChild P) :=
  if !E.isPresent pte then .ok none
  else
    let paddr := E.paddr pte
    if !E.isLast pte level then .ok (pageTable (frameToMeta paddr.toNat))
    else do
      let prop ← E.prop pte
      .ok (frame paddr level prop)

end RawChild

end Vostd
