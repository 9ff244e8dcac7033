/-
# The boot allocator of the 32-bit setup

`setup/src/x86/legacy_i386/alloc.rs`.  The setup code of a legacy boot runs in a 32-bit
address space; it takes memory at addresses it asks for, checks them against the E820 table
that the boot loader left, and writes what is in use into sixteen slots.  A slot with an empty
range is free.  Addresses and sizes of the setup code are numbers below `2 ^ 32`, those of the
table are numbers below `2 ^ 64`.
-/
import Vostd.PageTable.Config

namespace Vostd.BootAlloc

open Exec

/-! ## The code -/

/-- `E820Type` -/
inductive E820Type where
  | ram
  | reserved
  | acpi
  | nvs
  | unusable
  | pmem
  | pram
  | softReserved
  | reservedKern
  deriving DecidableEq, Repr

/-- `BootE820Entry` -/
structure BootE820Entry where
  addr : ℕ
  size : ℕ
  typ : E820Type
  deriving DecidableEq, Repr

/-- What the allocator reads of `BootParams`. -/
structure BootParams where
  e820Entries : ℕ
  e820Table : List BootE820Entry
  cmdLinePtr : ℕ
  cmdlineSize : ℕ
  ramdiskImage : ℕ
  ramdiskSize : ℕ

/-- `core::mem::size_of::<BootParams>()` -/
def SIZE_OF_BOOT_PARAMS : ℕ := 0x1000

def NUM_USED_RANGES : ℕ := 16

/-- `isize::MAX` of the 32-bit target. -/
def ISIZE_MAX : ℕ := 2 ^ 31 - 1

structure State where
  e820 : List BootE820Entry
  used : List AddrRange
  deriving DecidableEq

/-- `x as usize` -/
def asUsize (x : ℕ) : ℕ := x % 2 ^ 32

/-- `a.checked_add(b)` on 32-bit words. -/
def checkedAdd32 (a b : ℕ) : Option ℕ := if a + b < 2 ^ 32 then some (a + b) else none

/-- `Range::is_empty` -/
def isEmpty (r : AddrRange) : Bool := !decide (r.start < r.stop)

def rangeFromStartAndLen (start len : ℕ) : Exec AddrRange := do
  let stop ← Exec.unwrap (checkedAdd32 start len)
  .ok ⟨start, stop⟩

/-- `init`, where `executable` is the range between the two linker symbols and `bootParamsAddr`
the address of the boot parameters. -/
def init (executable : AddrRange) (bootParamsAddr : ℕ) (bootParams : BootParams) :
    Exec State := do
  let params ← rangeFromStartAndLen bootParamsAddr SIZE_OF_BOOT_PARAMS
  let cmdLine ← rangeFromStartAndLen bootParams.cmdLinePtr bootParams.cmdlineSize
  let ramdisk ← rangeFromStartAndLen bootParams.ramdiskImage bootParams.ramdiskSize
  Exec.check (bootParams.e820Entries ≤ bootParams.e820Table.length)
  .ok
    { e820 := bootParams.e820Table.take bootParams.e820Entries
      used := [executable, params, cmdLine, ramdisk] ++
        List.replicate (NUM_USED_RANGES - 4) ⟨0, 0⟩ }

/-- The test of one entry.  Its sum is one of 64-bit words, which are cut off after it. -/
def usableIn (entry : BootE820Entry) (range : AddrRange) : Exec Bool :=
  if entry.typ = .ram ∧ asUsize entry.addr ≤ range.start then do
    let stop ← Exec.add entry.addr entry.size
    .ok (decide (range.stop ≤ asUsize stop))
  else .ok false

/-- `state.e820.iter().any(..)` -/
def anyUsable : List BootE820Entry → AddrRange → Exec Bool
  | [], _ => .ok false
  | entry :: rest, range => do
    let usable ← usableIn entry range
    if usable then .ok true else anyUsable rest range

/-- The test of one slot. -/
def overlaps (range used : AddrRange) : Bool :=
  decide (used.start < range.stop) && decide (range.start < used.stop)

/-- `alloc_at`: the state it leaves and the range of the slice it returns. -/
def allocAt (s : State) (addr size : ℕ) : Exec (State × AddrRange) := do
  Exec.check (addr ≠ 0)
  Exec.check (size ≤ ISIZE_MAX)
  let stop ← Exec.unwrap (checkedAdd32 addr size)
  let usable ← anyUsable s.e820 ⟨addr, stop⟩
  Exec.check (usable = true)
  Exec.check (s.used.find? (overlaps ⟨addr, stop⟩) = none)
  let empty ← Exec.unwrap (s.used.findIdx? isEmpty)
  .ok ({ s with used := s.used.set empty ⟨addr, stop⟩ }, ⟨addr, stop⟩)

/-- A sequence of calls, and the ranges they return. -/
def allocAll : State → List (ℕ × ℕ) → Exec (State × List AddrRange)
  | s, [] => .ok (s, [])
  | s, (addr, size) :: calls => do
    let (s', range) ← allocAt s addr size
    let (s'', given) ← allocAll s' calls
    .ok (s'', range :: given)

/-! ## When a call returns -/

/-- The test of an entry as the code makes it, on the low 32 bits. -/
def Admits (range : AddrRange) (entry : BootE820Entry) : Prop :=
  entry.typ = .ram ∧ asUsize entry.addr ≤ range.start ∧
    range.stop ≤ asUsize (entry.addr + entry.size)

/-- The range lies in the memory of the entry. -/
def Inside (range : AddrRange) (entry : BootE820Entry) : Prop :=
  entry.typ = .ram ∧ entry.addr ≤ range.start ∧ range.stop ≤ entry.addr + entry.size

instance decidableAdmits (range : AddrRange) (entry : BootE820Entry) :
    Decidable (Admits range entry) := by
  unfold Admits
  infer_instance

instance decidableInside (range : AddrRange) (entry : BootE820Entry) :
    Decidable (Inside range entry) := by
  unfold Inside
  infer_instance

/-- The entries of the table do not reach over the end of the 64-bit addresses. -/
def Fits (e820 : List BootE820Entry) : Prop := ∀ entry ∈ e820, entry.addr + entry.size < 2 ^ 64

/-- The cut to 32 bits does not matter: an entry that reaches 4 GiB is taken for memory around
the range exactly when it is. -/
def CastsAgree (e820 : List BootE820Entry) (range : AddrRange) : Prop :=
  ∀ entry ∈ e820, 2 ^ 32 ≤ entry.addr + entry.size → (Admits range entry ↔ Inside range entry)

instance decidableFits (e820 : List BootE820Entry) : Decidable (Fits e820) := by
  unfold Fits
  infer_instance

instance decidableCastsAgree (e820 : List BootE820Entry) (range : AddrRange) :
    Decidable (CastsAgree e820 range) := by
  unfold CastsAgree
  infer_instance

section

variable {entry : BootE820Entry} {e820 : List BootE820Entry} {range u : AddrRange}

theorem usableIn_eq (hfit : entry.addr + entry.size < 2 ^ 64) :
    usableIn entry range = .ok (decide (Admits range entry)) := by
  unfold usableIn Exec.add
  rw [if_pos hfit]
  by_cases h : entry.typ = .ram ∧ asUsize entry.addr ≤ range.start
  · rw [if_pos h]
    show Except.ok (decide _) = _
    congr 1
    rw [decide_eq_decide]
    exact ⟨fun hstop => ⟨h.1, h.2, hstop⟩, fun hadm => hadm.2.2⟩
  · rw [if_neg h]
    congr 1
    rw [eq_comm, decide_eq_false_iff_not]
    exact fun hadm => h ⟨hadm.1, hadm.2.1⟩

theorem anyUsable_eq (hfit : Fits e820) :
    anyUsable e820 range = .ok (decide (∃ entry ∈ e820, Admits range entry)) := by
  induction e820 with
  | nil => simp [anyUsable]
  | cons entry rest ih =>
    have hrest : Fits rest := fun e he => hfit e (List.mem_cons_of_mem _ he)
    unfold anyUsable
    rw [usableIn_eq (hfit entry List.mem_cons_self), ih hrest]
    show (if decide (Admits range entry) = true then _ else _) = _
    by_cases h : Admits range entry
    · simp [h]
    · simp [h]

/-- An entry below 4 GiB is read as it is. -/
theorem admits_iff_inside (h : entry.addr + entry.size < 2 ^ 32) :
    Admits range entry ↔ Inside range entry := by
  unfold Admits Inside asUsize
  rw [Nat.mod_eq_of_lt h, Nat.mod_eq_of_lt (by omega)]

theorem CastsAgree.admits_iff (hcast : CastsAgree e820 range) (he : entry ∈ e820) :
    Admits range entry ↔ Inside range entry := by
  by_cases h : entry.addr + entry.size < 2 ^ 32
  · exact admits_iff_inside h
  · exact hcast entry he (not_lt.mp h)

theorem isEmpty_eq_false_iff : isEmpty u = false ↔ u.start < u.stop := by
  simp [isEmpty]

/-- Ranges that do not overlap have no address in common. -/
theorem not_contains_of_not_overlaps (h : overlaps range u = false) (a : ℕ) :
    ¬(u.Contains a ∧ range.Contains a) := by
  rintro ⟨⟨hu, hu'⟩, hr, hr'⟩
  have hyes : overlaps range u = true := by
    simp only [overlaps, Bool.and_eq_true, decide_eq_true_eq]
    omega
  rw [h] at hyes
  contradiction

end

section

variable {s s' : State} {addr size : ℕ} {range : AddrRange}

/-- **A call returns exactly when its tests pass**, and then with the first free slot taken. -/
theorem allocAt_eq_ok_iff (hfit : Fits s.e820) :
    allocAt s addr size = .ok (s', range) ↔
      (addr ≠ 0 ∧ size ≤ ISIZE_MAX ∧ addr + size < 2 ^ 32) ∧ range = ⟨addr, addr + size⟩ ∧
      (∃ entry ∈ s.e820, Admits range entry) ∧ (∀ u ∈ s.used, overlaps range u = false) ∧
      ∃ empty, s.used.findIdx? isEmpty = some empty ∧
        s' = { s with used := s.used.set empty range } := by
  unfold allocAt
  simp only [bind_eq_ok, check_eq_ok, unwrap_eq_ok, anyUsable_eq hfit, Except.ok.injEq,
    Prod.mk.injEq, exists_const, List.find?_eq_none, Bool.not_eq_true]
  constructor
  · rintro ⟨hzero, hmax, stop, hstop, usable, rfl, husable, hfree, empty, hempty, hs', rfl⟩
    obtain ⟨hend, rfl⟩ : addr + size < 2 ^ 32 ∧ addr + size = stop := by
      simpa [checkedAdd32] using hstop
    exact ⟨⟨hzero, hmax, hend⟩, rfl, of_decide_eq_true husable, hfree, empty, hempty, hs'.symm⟩
  · rintro ⟨⟨hzero, hmax, hend⟩, rfl, husable, hfree, empty, hempty, rfl⟩
    refine ⟨hzero, hmax, addr + size, ?_, _, rfl, decide_eq_true husable, hfree, empty, hempty,
      rfl, rfl⟩
    rw [checkedAdd32, if_pos hend]

end

/-! ## Every history of calls -/

/-- What the slots hold after some calls: the ranges in use from the start and those given
out since, save empty ones. -/
structure Keeps (s₀ : State) (given : List AddrRange) (s : State) : Prop where
  e820 : s.e820 = s₀.e820
  only : ∀ u ∈ s.used, u ∈ s₀.used ∨ u ∈ given
  all : ∀ u, u ∈ s₀.used ∨ u ∈ given → isEmpty u = false → u ∈ s.used

section

variable {s₀ s s' : State} {past given : List AddrRange} {addr size : ℕ} {range : AddrRange}

theorem init_e820 {executable : AddrRange} {bootParamsAddr : ℕ} {bootParams : BootParams}
    (hinit : init executable bootParamsAddr bootParams = .ok s) :
    s.e820 = bootParams.e820Table.take bootParams.e820Entries := by
  unfold init at hinit
  simp only [bind_eq_ok, Except.ok.injEq] at hinit
  obtain ⟨-, -, -, -, -, -, -, -, rfl⟩ := hinit
  rfl

theorem keeps_init (s : State) : Keeps s [] s where
  e820 := rfl
  only _ hu := Or.inl hu
  all _ hu _ := hu.resolve_right List.not_mem_nil

/-- **One call.**  The slot it takes is free, so nothing in use is forgotten. -/
theorem Keeps.allocAt (h : Keeps s₀ past s) (hfit : Fits s₀.e820)
    (hcall : allocAt s addr size = .ok (s', range)) : Keeps s₀ (past ++ [range]) s' := by
  rw [allocAt_eq_ok_iff (by rw [h.e820]; exact hfit)] at hcall
  obtain ⟨-, -, -, -, empty, hempty, rfl⟩ := hcall
  obtain ⟨hlt, hfree, -⟩ := List.findIdx?_eq_some_iff_getElem.mp hempty
  constructor
  · exact h.e820
  · intro u hu
    rcases List.mem_or_eq_of_mem_set hu with hold | rfl
    · rcases h.only u hold with h₀ | hpast
      · exact Or.inl h₀
      · exact Or.inr (List.mem_append_left _ hpast)
    · exact Or.inr (List.mem_append_right _ List.mem_cons_self)
  · intro u hu hne
    show u ∈ s.used.set empty range
    by_cases hlast : u = range
    · rw [hlast]
      exact List.mem_set hlt range
    · have hold : u ∈ s.used := by
        apply h.all u _ hne
        rcases hu with h₀ | hgiven
        · exact Or.inl h₀
        · rcases List.mem_append.mp hgiven with hpast | hnew
          · exact Or.inr hpast
          · exact absurd (List.mem_singleton.mp hnew) hlast
      obtain ⟨i, hi, rfl⟩ := List.getElem_of_mem hold
      -- the slot of `u` is another one, since the free slot is empty and `u` is not
      have hother : empty ≠ i := by
        rintro rfl
        rw [hne] at hfree
        contradiction
      rw [List.mem_iff_getElem]
      exact ⟨i, by rw [List.length_set]; exact hi, List.getElem_set_ne hother _⟩

/-- **Every run.** -/
theorem Keeps.allocAll (hfit : Fits s₀.e820) (calls : List (ℕ × ℕ)) :
    ∀ {past s given s'}, Keeps s₀ past s → allocAll s calls = .ok (s', given) →
      Keeps s₀ (past ++ given) s' := by
  induction calls with
  | nil =>
    intro past s given s' h hrun
    obtain ⟨rfl, rfl⟩ : s = s' ∧ [] = given := by simpa [BootAlloc.allocAll] using hrun
    rwa [List.append_nil]
  | cons call calls ih =>
    intro past s given s' h hrun
    unfold BootAlloc.allocAll at hrun
    rw [bind_eq_ok] at hrun
    obtain ⟨⟨s₁, range⟩, hcall, hrun⟩ := hrun
    rw [bind_eq_ok] at hrun
    obtain ⟨⟨s₂, later⟩, hlater, hrun⟩ := hrun
    obtain ⟨rfl, rfl⟩ : s₂ = s' ∧ range :: later = given := by simpa using hrun
    have hstep := ih (h.allocAt hfit hcall) hlater
    rwa [List.append_assoc] at hstep

/-- Nothing that is given out meets what is in use. -/
theorem Keeps.disjoint (h : Keeps s₀ past s) (hfit : Fits s₀.e820)
    (hcall : BootAlloc.allocAt s addr size = .ok (s', range)) {u : AddrRange}
    (hu : u ∈ s₀.used ∨ u ∈ past) (a : ℕ) : ¬(u.Contains a ∧ range.Contains a) := by
  rw [allocAt_eq_ok_iff (by rw [h.e820]; exact hfit)] at hcall
  obtain ⟨-, -, -, hfree, -⟩ := hcall
  by_cases hne : isEmpty u = false
  · exact not_contains_of_not_overlaps (hfree u (h.all u hu hne)) a
  · rintro ⟨⟨hle, hlt⟩, -⟩
    rw [isEmpty_eq_false_iff] at hne
    omega

end

/-- **The boot allocator.**  After every sequence of calls that returned, a call that returns
gives a range that meets no range in use from the start and none given out before, and it lies
in memory wherever the table is read right; and a range in memory that fits, meets no slot and
finds a free one is given out. -/
theorem allocAt_history {executable : AddrRange} {bootParamsAddr : ℕ} {bootParams : BootParams}
    {s₀ s : State} {calls : List (ℕ × ℕ)} {given : List AddrRange}
    (hfit : Fits (bootParams.e820Table.take bootParams.e820Entries))
    (hinit : init executable bootParamsAddr bootParams = .ok s₀)
    (hrun : allocAll s₀ calls = .ok (s, given)) (addr size : ℕ) :
    (∀ s' range, allocAt s addr size = .ok (s', range) →
      range = ⟨addr, addr + size⟩ ∧
      (CastsAgree s₀.e820 range → ∃ entry ∈ s₀.e820, Inside range entry) ∧
      (∀ u ∈ s₀.used, ∀ a, ¬(u.Contains a ∧ range.Contains a)) ∧
      (∀ u ∈ given, ∀ a, ¬(u.Contains a ∧ range.Contains a))) ∧
    (CastsAgree s₀.e820 ⟨addr, addr + size⟩ → addr ≠ 0 → size ≤ ISIZE_MAX →
      addr + size < 2 ^ 32 → (∃ entry ∈ s₀.e820, Inside ⟨addr, addr + size⟩ entry) →
      (∀ u ∈ s.used, overlaps ⟨addr, addr + size⟩ u = false) →
      (∃ u ∈ s.used, isEmpty u = true) →
      ∃ s', allocAt s addr size = .ok (s', ⟨addr, addr + size⟩)) := by
  have hfit₀ : Fits s₀.e820 := by
    rw [init_e820 hinit]
    exact hfit
  have hkeeps := (keeps_init s₀).allocAll hfit₀ calls hrun
  rw [List.nil_append] at hkeeps
  have hfits : Fits s.e820 := by
    rw [hkeeps.e820]
    exact hfit₀
  constructor
  · intro s' range hcall
    have hspec := (allocAt_eq_ok_iff hfits).mp hcall
    obtain ⟨-, hrange, ⟨entry, he, hadm⟩, -⟩ := hspec
    rw [hkeeps.e820] at he
    refine ⟨hrange, ?_, ?_, ?_⟩
    · intro hcast
      exact ⟨entry, he, (hcast.admits_iff he).mp hadm⟩
    · exact fun u hu => hkeeps.disjoint hfit₀ hcall (Or.inl hu)
    · exact fun u hu => hkeeps.disjoint hfit₀ hcall (Or.inr hu)
  · rintro hcast hzero hmax hend ⟨entry, he, hin⟩ hfree ⟨u, hu, hempty⟩
    have hslot : (s.used.findIdx? isEmpty).isSome := by
      rw [List.findIdx?_isSome]
      exact List.any_eq_true.mpr ⟨u, hu, hempty⟩
    obtain ⟨empty, hfound⟩ := Option.isSome_iff_exists.mp hslot
    refine ⟨_, (allocAt_eq_ok_iff hfits).mpr ⟨⟨hzero, hmax, hend⟩, rfl, ⟨entry, ?_, ?_⟩, hfree,
      empty, hfound, rfl⟩⟩
    · rw [hkeeps.e820]
      exact he
    · exact (hcast.admits_iff he).mpr hin

/-! A machine with three gigabytes of memory below 4 GiB and one megabyte above, which was booted
with an empty command line at `0x300000` and without a ramdisk. -/

def sampleExecutable : AddrRange := ⟨0x100000, 0x120000⟩

def sampleParams : BootParams where
  e820Entries := 2
  e820Table := [⟨0x100000, 0xC0000000, .ram⟩, ⟨0x100000000, 0x100000, .ram⟩]
  cmdLinePtr := 0x300000
  cmdlineSize := 0
  ramdiskImage := 0
  ramdiskSize := 0

def sampleState : State where
  e820 := sampleParams.e820Table
  used := [sampleExecutable, ⟨0x90000, 0x91000⟩, ⟨0x300000, 0x300000⟩] ++
    List.replicate 13 ⟨0, 0⟩

/-- The first free slot is the one of the command line. -/
def sampleNext : State :=
  { sampleState with used := sampleState.used.set 2 ⟨0x400000, 0x401000⟩ }

/-- After one call a second range beside the first is given out. -/
theorem allocAt_history_sample :
    init sampleExecutable 0x90000 sampleParams = .ok sampleState ∧
      allocAll sampleState [(0x400000, 0x1000)] = .ok (sampleNext, [⟨0x400000, 0x401000⟩]) ∧
      ∃ s', allocAt sampleNext 0x401000 0x1000 = .ok (s', ⟨0x401000, 0x402000⟩) := by
  have hinit : init sampleExecutable 0x90000 sampleParams = .ok sampleState := by decide
  have hrun : allocAll sampleState [(0x400000, 0x1000)] =
      .ok (sampleNext, [⟨0x400000, 0x401000⟩]) := by decide
  refine ⟨hinit, hrun, ?_⟩
  obtain ⟨-, hgiven⟩ := allocAt_history (by decide) hinit hrun 0x401000 0x1000
  exact hgiven (by decide) (by decide) (by decide) (by decide) (by decide) (by decide)
    (by decide)

/-- A range of `2 ^ 31` bytes in memory that meets nothing is rejected for its size, and one of
two megabytes because the empty command line lies inside it; and a page that is in no memory of
the table is given out, since the entry above 4 GiB is read as one at address zero. -/
theorem allocAt_rejects_and_admits :
    init sampleExecutable 0x90000 sampleParams = .ok sampleState ∧
      (∃ u ∈ sampleState.used, isEmpty u = true) ∧
      ((∃ entry ∈ sampleState.e820, Inside ⟨0x400000, 0x80400000⟩ entry) ∧
        (∀ u ∈ sampleState.used, overlaps ⟨0x400000, 0x80400000⟩ u = false) ∧
        allocAt sampleState 0x400000 0x80000000 = .error .assertion) ∧
      ((∃ entry ∈ sampleState.e820, Inside ⟨0x200000, 0x400000⟩ entry) ∧
        (∀ u ∈ sampleState.used, isEmpty u = false → overlaps ⟨0x200000, 0x400000⟩ u = false) ∧
        allocAt sampleState 0x200000 0x200000 = .error .assertion) ∧
      (∃ s', allocAt sampleState 0x1000 0x1000 = .ok (s', ⟨0x1000, 0x2000⟩)) ∧
      ¬∃ entry ∈ sampleState.e820, Inside ⟨0x1000, 0x2000⟩ entry := by
  refine ⟨by decide, by decide, ⟨by decide, by decide, by decide⟩,
    ⟨by decide, by decide, by decide⟩, ⟨_, rfl⟩, by decide⟩

end Vostd.BootAlloc
