/-
# Shares of a metadata slot

Everything that has to do with a frame has a share of its slot: a `Frame` or a `Segment` that
covers it, a `UniqueFrame`, and a thread that is initialising or destroying it.  The shares of
all handles and of all operations in progress add up to a ledger, and the slot is right if it
says what the ledger says (`SlotOK`): nothing, a number of shared references, or one holder of
another kind and no one else.  An access of an operation changes one slot and the share of the
operation in it, and the slot stays right (`Pending.access_ok`).
-/
import Vostd.Frame.Handles

namespace Vostd

namespace FrameHandles

/-! ## Shares -/

/-- What a share of a slot entitles to. -/
inductive Share
  /-- a reference of a `Frame` or of a `Segment` -/
  | shared
  /-- the reference of a `UniqueFrame` -/
  | unique
  /-- the reference of a `UniqueFrame` while `repurpose` is between its two accesses -/
  | bare
  /-- `get_from_unused` has acquired the slot -/
  | initialising
  /-- `get_from_unused` has written the metadata -/
  | initialised
  /-- the last reference is gone -/
  | destroying
  /-- the metadata is dropped -/
  | destroyed
  deriving DecidableEq, Repr

/-- The numbers of shares, for each slot and kind. -/
abbrev Ledger : Type := ℕ → Share → ℕ

/-- Shares of one slot. -/
def ledgerAt (i : ℕ) (x : Share → ℕ) : Ledger := fun j => if i = j then x else 0

/-- One share. -/
def one (k : Share) : Share → ℕ := Pi.single k 1

/-- The frames from `start` on, up to the page that reaches `stop`. -/
def Covers (start stop j : ℕ) : Prop :=
  start / PAGE_SIZE ≤ j ∧ j < start / PAGE_SIZE + (stop - start + (PAGE_SIZE - 1)) / PAGE_SIZE

instance decidableCovers (start stop j : ℕ) : Decidable (Covers start stop j) :=
  inferInstanceAs (Decidable (_ ∧ _))

/-- One reference to each frame of a segment. -/
def segmentShares (start stop : ℕ) : Ledger :=
  fun j => if Covers start stop j then one .shared else 0

def Handle.shares : Handle → Ledger
  | frame i => ledgerAt i (one .shared)
  | unique i => ledgerAt i (one .unique)
  | segment range => segmentShares range.start range.stop

/-- What remains to be dropped. -/
def Rest.shares : Rest → Ledger
  | nothing => 0
  | drop paddr stop => segmentShares paddr stop
  | recycle _ paddr stop => segmentShares paddr stop

/-- The segment that is being filled. -/
def Creator.shares : Creator → Ledger
  | frame _ | unique _ => 0
  | segment f => segmentShares f.range.start f.segEnd

def Pending.shares : Pending → Ledger
  | acquire k => k.shares
  | writeMeta k => k.shares + ledgerAt k.index (one .initialising)
  | publish k => k.shares + ledgerAt k.index (one .initialised)
  | load _ | increment _ _ | cloneFrame _ => 0
  | incRefCount a _ => segmentShares a.range.start a.paddr
  | release i k => k.shares + ledgerAt i (one .shared)
  | dropMeta i k => k.shares + ledgerAt i (one .destroying)
  | retire i k => k.shares + ledgerAt i (one .destroyed)
  | close i | repurpose i | fromUnique i => ledgerAt i (one .unique)
  | rewrite i => ledgerAt i (one .bare)
  | tryFromShared i => ledgerAt i (one .shared)

def Outcome.shares : Outcome → Ledger
  | running p => p.shares
  | returns hs _ => (hs.map Handle.shares).sum
  | aborts => 0

/-! ## The frames of a segment -/

section

variable {start stop paddr offset i j : ℕ}

/-- Two parts without a common element. -/
theorem ite_eq_add {P Q R : Prop} [Decidable P] [Decidable Q] [Decidable R] {M : Type*}
    [AddMonoid M] (x : M) (h : P ↔ Q ∨ R) (hne : ¬(Q ∧ R)) :
    (if P then x else 0) = (if Q then x else 0) + (if R then x else 0) := by
  by_cases hQ : Q
  · have hR : ¬R := fun hR => hne ⟨hQ, hR⟩
    rw [if_pos (h.mpr (Or.inl hQ)), if_pos hQ, if_neg hR, add_zero]
  · by_cases hR : R
    · rw [if_pos (h.mpr (Or.inr hR)), if_neg hQ, if_pos hR, zero_add]
    · have hP : ¬P := fun hP => (h.mp hP).elim hQ hR
      rw [if_neg hP, if_neg hQ, if_neg hR, add_zero]

/-- The first frame of a segment. -/
theorem segmentShares_cons (h : paddr < stop) :
    segmentShares paddr stop =
      segmentShares (paddr + PAGE_SIZE) stop + ledgerAt (paddr / PAGE_SIZE) (one .shared) := by
  funext j
  refine ite_eq_add _ ?_ ?_
  · unfold Covers PAGE_SIZE
    omega
  · unfold Covers PAGE_SIZE
    omega

/-- A segment without frames. -/
theorem segmentShares_nil (h : stop ≤ paddr) : segmentShares paddr stop = 0 := by
  funext j
  unfold segmentShares
  rw [if_neg]
  · rfl
  · unfold Covers PAGE_SIZE
    omega

/-- One frame more at the end. -/
theorem segmentShares_concat (hle : start ≤ paddr) (hdvd : PAGE_SIZE ∣ paddr - start) :
    segmentShares start (paddr + PAGE_SIZE) =
      segmentShares start paddr + ledgerAt (paddr / PAGE_SIZE) (one .shared) := by
  obtain ⟨k, hk⟩ := hdvd
  unfold PAGE_SIZE at hk
  funext j
  refine ite_eq_add _ ?_ ?_
  · unfold Covers PAGE_SIZE
    omega
  · unfold Covers PAGE_SIZE
    omega

/-- A segment in two parts. -/
theorem segmentShares_split (hdvd : PAGE_SIZE ∣ offset) (h : start + offset ≤ stop) :
    segmentShares start stop =
      segmentShares start (start + offset) + segmentShares (start + offset) stop := by
  obtain ⟨k, rfl⟩ := hdvd
  funext j
  refine ite_eq_add _ ?_ ?_
  · unfold Covers PAGE_SIZE at *
    omega
  · unfold Covers PAGE_SIZE at *
    omega

/-- A segment of one frame. -/
theorem segmentShares_single :
    segmentShares (i * PAGE_SIZE) (i * PAGE_SIZE + PAGE_SIZE) = ledgerAt i (one .shared) := by
  have hpos : i * PAGE_SIZE < i * PAGE_SIZE + PAGE_SIZE := by
    unfold PAGE_SIZE
    omega
  rw [segmentShares_cons hpos, segmentShares_nil le_rfl, zero_add,
    Nat.mul_div_cancel _ (by decide)]

/-- What is counted covers the whole range when the loop ends. -/
theorem segmentShares_of_counted (hle : start ≤ paddr) (hdvd : PAGE_SIZE ∣ paddr - start)
    (hend : paddr = start ∨ paddr < stop + PAGE_SIZE) (hstop : stop ≤ paddr) :
    segmentShares start paddr = segmentShares start stop := by
  obtain ⟨k, hk⟩ := hdvd
  unfold PAGE_SIZE at hk hend
  funext j
  unfold segmentShares
  have hiff : Covers start paddr j ↔ Covers start stop j := by
    unfold Covers PAGE_SIZE
    omega
  by_cases h : Covers start paddr j
  · rw [if_pos h, if_pos (hiff.mp h)]
  · rw [if_neg h, if_neg (fun h' => h (hiff.mpr h'))]

/-- A frame of a part is a frame of the segment. -/
theorem Covers.of_within {source range : AddrRange}
    (hwithin : source.start ≤ range.start ∧ range.stop ≤ source.stop ∧
      PAGE_SIZE ∣ range.start - source.start)
    (h : Covers range.start range.stop j) : Covers source.start source.stop j := by
  obtain ⟨hle, hstop, k, hk⟩ := hwithin
  unfold PAGE_SIZE at hk
  unfold Covers PAGE_SIZE at h ⊢
  omega

/-- The frame that is counted next is one of the range. -/
theorem covers_next (hle : start ≤ paddr) (hdvd : PAGE_SIZE ∣ paddr - start)
    (h : paddr < stop) : Covers start stop (paddr / PAGE_SIZE) := by
  obtain ⟨k, hk⟩ := hdvd
  unfold PAGE_SIZE at hk
  unfold Covers PAGE_SIZE
  omega

end

/-! ## The shares between the accesses -/

theorem shares_dropSegment (paddr stop : ℕ) :
    (dropSegment paddr stop).shares = segmentShares paddr stop := by
  unfold dropSegment
  split_ifs with h
  · rw [segmentShares_nil h]
    rfl
  · rw [segmentShares_cons (not_le.mp h)]
    rfl

theorem shares_recycleSegment (e : GetFrameError) (paddr stop : ℕ) :
    (recycleSegment e paddr stop).shares = segmentShares paddr stop := by
  unfold recycleSegment
  split_ifs with h
  · rw [segmentShares_cons h]
    rfl
  · rw [segmentShares_nil (not_lt.mp h)]
    rfl

theorem Rest.shares_resume (k : Rest) : k.resume.shares = k.shares := by
  cases k with
  | nothing => rfl
  | drop paddr stop => exact shares_dropSegment paddr stop
  | recycle e paddr stop => exact shares_recycleSegment e paddr stop

theorem Creator.shares_fails (e : GetFrameError) (k : Creator) :
    (k.fails e).shares = k.shares := by
  cases k with
  | frame i => rfl
  | unique i => rfl
  | segment f => exact shares_recycleSegment e _ _

theorem Filling.shares_resume (f : Filling) :
    f.resume.shares = segmentShares f.range.start f.segEnd := by
  unfold Filling.resume
  split_ifs with h
  · cases getSlot (f.range.start + f.i * PAGE_SIZE) with
    | error e => exact Creator.shares_fails e (.segment f)
    | ok i => rfl
  · show (List.map Handle.shares [_]).sum = _
    rw [List.map_singleton, List.sum_singleton]
    rfl

/-- The share that `get_from_unused` returns. -/
def Creator.share (k : Creator) : Share := if k.asUniquePtr then .unique else .shared

theorem Creator.shares_succeeds (k : Creator) :
    k.succeeds.shares = k.shares + ledgerAt k.index (one k.share) := by
  cases k with
  | frame i =>
    show (List.map Handle.shares [_]).sum = 0 + _
    rw [List.map_singleton, List.sum_singleton, zero_add]
    rfl
  | unique i =>
    show (List.map Handle.shares [_]).sum = 0 + _
    rw [List.map_singleton, List.sum_singleton, zero_add]
    rfl
  | segment f =>
    show f.push.resume.shares = segmentShares f.range.start f.segEnd + _
    rw [Filling.shares_resume]
    show segmentShares f.range.start (f.range.start + f.i * PAGE_SIZE + PAGE_SIZE) = _
    rw [segmentShares_concat (Nat.le_add_right _ _) (by simp), f.made]
    rfl

theorem Adding.shares_resume (a : Adding) :
    a.resume.shares = segmentShares a.range.start a.paddr := by
  obtain ⟨hle, hdvd, hend⟩ := a.counted
  unfold Adding.resume
  split_ifs with h
  · show (List.map Handle.shares [_]).sum = _
    rw [List.map_singleton, List.sum_singleton, segmentShares_of_counted hle hdvd hend h]
    rfl
  · rfl

/-! ## The slots -/

/-- The slot of a holder that is not one of several. -/
def heldSlot : Share → MetaSlot
  | .shared => ⟨1, true⟩
  | .unique => ⟨REF_COUNT_UNIQUE, true⟩
  | .bare => ⟨REF_COUNT_UNIQUE, false⟩
  | .initialising => ⟨0, false⟩
  | .initialised => ⟨0, true⟩
  | .destroying => ⟨0, true⟩
  | .destroyed => ⟨0, false⟩

/-- **The slot says what the ledger says.** -/
inductive SlotOK : MetaSlot → (Share → ℕ) → Prop
  | unused : SlotOK ⟨REF_COUNT_UNUSED, false⟩ 0
  | shared (n : ℕ) (hpos : 0 < n) (hlt : n < REF_COUNT_MAX) :
      SlotOK ⟨n, true⟩ (Pi.single .shared n)
  | held (k : Share) (hk : k ≠ .shared) : SlotOK (heldSlot k) (one k)

section

variable {slot : MetaSlot} {w x : Share → ℕ} {k : Share} {n : ℕ} {b : Bool}

theorem one_apply_self (k : Share) : one k k = 1 := Pi.single_eq_same k 1

theorem one_apply_of_ne {k k' : Share} (h : k' ≠ k) : one k k' = 0 := Pi.single_eq_of_ne h 1

/-- With a holder of another kind no one else has a share. -/
theorem SlotOK.of_held (h : SlotOK slot (w + one k)) (hk : k ≠ .shared) :
    slot = heldSlot k ∧ w = 0 := by
  generalize hx : w + one k = x at h
  have hat (k' : Share) : w k' + one k k' = x k' := congrFun hx k'
  cases h with
  | unused =>
    have := hat k
    rw [one_apply_self] at this
    exact absurd this (Nat.succ_ne_zero _)
  | shared m hpos hlt =>
    have := hat k
    rw [one_apply_self, Pi.single_eq_of_ne hk] at this
    exact absurd this (Nat.succ_ne_zero _)
  | held k' hk' =>
    obtain rfl : k = k' := by
      by_contra hne
      have := hat k
      rw [one_apply_self, one_apply_of_ne hne] at this
      exact absurd this (Nat.succ_ne_zero _)
    refine ⟨rfl, ?_⟩
    funext k'
    have := hat k'
    simpa using this

/-- With a reference there are only references, and the slot counts them. -/
theorem SlotOK.of_shared (h : SlotOK slot (w + one .shared)) :
    ∃ n, slot = ⟨n + 1, true⟩ ∧ n + 1 < REF_COUNT_MAX ∧ w = Pi.single .shared n := by
  generalize hx : w + one .shared = x at h
  have hat (k' : Share) : w k' + one .shared k' = x k' := congrFun hx k'
  cases h with
  | unused =>
    have := hat .shared
    rw [one_apply_self] at this
    exact absurd this (Nat.succ_ne_zero _)
  | held k' hk' =>
    have := hat .shared
    rw [one_apply_self, one_apply_of_ne hk'.symm] at this
    exact absurd this (Nat.succ_ne_zero _)
  | shared m hpos hlt =>
    refine ⟨m - 1, ?_, by omega, ?_⟩
    · rw [Nat.sub_add_cancel hpos]
    · funext k'
      have := hat k'
      by_cases hk' : k' = .shared
      · subst hk'
        rw [one_apply_self, Pi.single_eq_same] at this
        rw [Pi.single_eq_same]
        omega
      · rw [one_apply_of_ne hk', Pi.single_eq_of_ne hk'] at this
        rw [Pi.single_eq_of_ne hk']
        exact this

theorem SlotOK.of_unused (h : SlotOK slot w) (hcount : slot.refCount = REF_COUNT_UNUSED) :
    slot = ⟨REF_COUNT_UNUSED, false⟩ ∧ w = 0 := by
  cases h with
  | unused => exact ⟨rfl, rfl⟩
  | shared m hpos hlt =>
    have hm : m = REF_COUNT_UNUSED := hcount
    unfold REF_COUNT_UNUSED at hm
    unfold REF_COUNT_MAX at hlt
    omega
  | held k hk => cases k <;> first | exact absurd rfl hk | exact absurd hcount (by decide)

/-- A count that can be incremented is the number of references. -/
theorem SlotOK.of_count (h : SlotOK slot w) (hpos : 0 < slot.refCount)
    (hlt : slot.refCount < REF_COUNT_MAX) :
    slot = ⟨slot.refCount, true⟩ ∧ w = Pi.single .shared slot.refCount := by
  cases h with
  | unused => exact absurd hlt (by decide)
  | shared m hpos hlt => exact ⟨rfl, rfl⟩
  | held k hk =>
    cases k <;> first | exact absurd rfl hk | exact absurd hpos (by decide) |
      exact absurd hlt (by decide)

/-- A count that is no mark of its own is one that can be incremented. -/
theorem SlotOK.refCount_lt (h : SlotOK slot w) (hunused : slot.refCount ≠ REF_COUNT_UNUSED)
    (hunique : slot.refCount ≠ REF_COUNT_UNIQUE) (hzero : slot.refCount ≠ 0) :
    slot.refCount < REF_COUNT_MAX := by
  cases h with
  | unused => exact absurd rfl hunused
  | shared m hpos hlt => exact hlt
  | held k hk =>
    cases k <;> first | exact absurd rfl hk | exact absurd rfl hunique | exact absurd rfl hzero

/-- One reference more. -/
theorem SlotOK.add_shared (h : n + 1 < REF_COUNT_MAX) :
    SlotOK ⟨n + 1, true⟩ (Pi.single .shared n + one .shared) := by
  rw [one, ← Pi.single_add]
  exact .shared (n + 1) (Nat.succ_pos n) h

/-- A slot that no one else has a share of. -/
theorem SlotOK.alone (k : Share) (hk : k ≠ .shared) : SlotOK (heldSlot k) (0 + one k) := by
  rw [zero_add]
  exact .held k hk

end

/-! ## The accesses -/

/-- What an operation relies on: a count that was read is one that can be incremented. -/
def Pending.OK : Pending → Prop
  | increment _ last => 0 < last ∧ last < REF_COUNT_MAX
  | _ => True

/-- What an access comes to is no abort, and an operation that goes on borrows nothing but the
handle that it has borrowed from the beginning. -/
def Outcome.OK (bs : Option Handle) : Outcome → Prop
  | running p => p.OK ∧ ∀ b, p.borrows = some b → bs = some b
  | returns _ _ => True
  | aborts => False

section

variable (bs : Option Handle)

theorem Outcome.running_ok {p : Pending} (hp : p.OK) (hborrows : p.borrows = none) :
    (Outcome.running p).OK bs := by
  refine ⟨hp, fun b hb => ?_⟩
  rw [hborrows] at hb
  contradiction

theorem dropSegment_ok (paddr stop : ℕ) : (dropSegment paddr stop).OK bs := by
  unfold dropSegment
  split_ifs
  · trivial
  · exact Outcome.running_ok bs trivial rfl

theorem recycleSegment_ok (e : GetFrameError) (paddr stop : ℕ) :
    (recycleSegment e paddr stop).OK bs := by
  unfold recycleSegment
  split_ifs
  · exact Outcome.running_ok bs trivial rfl
  · trivial

theorem Rest.resume_ok (k : Rest) : k.resume.OK bs := by
  cases k with
  | nothing => trivial
  | drop paddr stop => exact dropSegment_ok bs paddr stop
  | recycle e paddr stop => exact recycleSegment_ok bs e paddr stop

theorem Creator.fails_ok (e : GetFrameError) (k : Creator) : (k.fails e).OK bs := by
  cases k with
  | frame i => trivial
  | unique i => trivial
  | segment f => exact recycleSegment_ok bs e _ _

theorem Filling.resume_ok (f : Filling) : f.resume.OK bs := by
  unfold Filling.resume
  split_ifs
  · cases getSlot (f.range.start + f.i * PAGE_SIZE) with
    | error e => exact Creator.fails_ok bs e (.segment f)
    | ok i => exact Outcome.running_ok bs trivial rfl
  · trivial

theorem Creator.succeeds_ok (k : Creator) : k.succeeds.OK bs := by
  cases k with
  | frame i => trivial
  | unique i => trivial
  | segment f => exact f.push.resume_ok bs

theorem Adding.resume_ok (a : Adding) : a.resume.OK (some (.segment a.source)) := by
  unfold Adding.resume
  split_ifs
  · trivial
  · exact ⟨trivial, fun b hb => hb⟩

end

/-- The slots are right, with the given shares. -/
def AllOK (slots : ℕ → MetaSlot) (w : Ledger) : Prop := ∀ j, SlotOK (slots j) (w j)

section

variable {slots : ℕ → MetaSlot} {d : Ledger} {i : ℕ} {x y : Share → ℕ} {v : MetaSlot}
  {k k' : Share}

theorem ledgerAt_self : ledgerAt i x i = x := if_pos rfl

theorem ledgerAt_of_ne {j : ℕ} (h : i ≠ j) : ledgerAt i x j = 0 := if_neg h

theorem ledgerAt_zero : ledgerAt i 0 = 0 := by
  funext j
  unfold ledgerAt
  split_ifs
  · rfl
  · rfl

/-- **One slot changes**, and one share of it. -/
theorem AllOK.exchange (h : AllOK slots (d + ledgerAt i x))
    (hv : SlotOK (slots i) (d i + x) → SlotOK v (d i + y)) :
    AllOK (Function.update slots i v) (d + ledgerAt i y) := by
  intro j
  have hj := h j
  by_cases hij : i = j
  · subst hij
    rw [Pi.add_apply, ledgerAt_self] at hj ⊢
    rw [Function.update_self]
    exact hv hj
  · rw [Pi.add_apply, ledgerAt_of_ne hij] at hj ⊢
    rw [Function.update_of_ne (Ne.symm hij)]
    exact hj

/-- A holder becomes one of another kind. -/
theorem AllOK.exchange_held (h : AllOK slots (d + ledgerAt i (one k))) (hk : k ≠ .shared)
    (hk' : k' ≠ .shared) (hv : slots i = heldSlot k → v = heldSlot k') :
    AllOK (Function.update slots i v) (d + ledgerAt i (one k')) := by
  apply h.exchange
  intro hi
  obtain ⟨hslot, hd⟩ := hi.of_held hk
  rw [hv hslot, hd]
  exact SlotOK.alone k' hk'

/-- A holder becomes the first reference. -/
theorem AllOK.exchange_first (h : AllOK slots (d + ledgerAt i (one k))) (hk : k ≠ .shared)
    (hv : slots i = heldSlot k → v = ⟨1, true⟩) :
    AllOK (Function.update slots i v) (d + ledgerAt i (one .shared)) := by
  apply h.exchange
  intro hi
  obtain ⟨hslot, hd⟩ := hi.of_held hk
  rw [hv hslot, hd, zero_add]
  exact SlotOK.shared 1 Nat.one_pos (by decide)

/-- A reference is added to others. -/
theorem AllOK.exchange_add (h : AllOK slots d) {n : ℕ} (hpos : 0 < n) (hlt : n < REF_COUNT_MAX)
    (hslot : (slots i).refCount = n)
    (hfew : (d + ledgerAt i (one .shared)) i .shared < REF_COUNT_MAX) :
    AllOK (setRefCount slots i (n + 1)) (d + ledgerAt i (one .shared)) := by
  rw [← add_zero d, ← ledgerAt_zero (i := i)] at h
  apply h.exchange
  intro hi
  rw [add_zero] at hi
  obtain ⟨hcount, hw⟩ := hi.of_count (by omega) (by omega)
  rw [hslot] at hcount hw
  rw [Pi.add_apply, ledgerAt_self, hw, Pi.add_apply, Pi.single_eq_same, one_apply_self] at hfew
  rw [hw, hcount]
  exact SlotOK.add_shared hfew

/-- Where there is a reference, the slot counts the references. -/
theorem AllOK.refCount_of_shared (h : AllOK slots d) (hd : 1 ≤ d i .shared) :
    0 < (slots i).refCount ∧ (slots i).refCount < REF_COUNT_MAX := by
  have hi := h i
  generalize hw : d i = w at hi hd
  generalize slots i = slot at hi
  cases hi with
  | unused => exact absurd hd (by decide)
  | shared n hpos hlt => exact ⟨hpos, hlt⟩
  | held k hk =>
    rw [one_apply_of_ne hk.symm] at hd
    exact absurd hd (by decide)

/-- A reference is taken away. -/
theorem AllOK.release (h : AllOK slots (d + ledgerAt i (one .shared))) :
    (slots i).refCount = 1 ∧
        AllOK (setRefCount slots i 0) (d + ledgerAt i (one .destroying)) ∨
      (slots i).refCount ≠ 1 ∧ AllOK (setRefCount slots i ((slots i).refCount - 1)) d := by
  have hi := h i
  rw [Pi.add_apply, ledgerAt_self] at hi
  obtain ⟨n, hslot, hlt, hd⟩ := hi.of_shared
  by_cases hn : n = 0
  · subst hn
    refine Or.inl ⟨by rw [hslot], ?_⟩
    apply h.exchange
    intro _
    rw [hd, Pi.single_zero, hslot]
    exact SlotOK.alone .destroying (by decide)
  · refine Or.inr ⟨by rw [hslot]; show n + 1 ≠ 1; omega, ?_⟩
    have hless : AllOK (setRefCount slots i ((slots i).refCount - 1)) (d + ledgerAt i 0) := by
      apply h.exchange
      intro _
      rw [hd, add_zero, hslot]
      exact SlotOK.shared n (by omega) (by omega)
    rwa [ledgerAt_zero, add_zero] at hless

/-- What is to be shown of an access, where everything else has the shares `d`. -/
def Keeps (d : Ledger) (bs : Option Handle) (r : (ℕ → MetaSlot) × Outcome) : Prop :=
  r.2.OK bs ∧ ((∀ j, (d + r.2.shares) j .shared < REF_COUNT_MAX) → AllOK r.1 (d + r.2.shares))

theorem shares_returns_one (b : Handle) (err : Option GetFrameError) :
    (Outcome.returns [b] err).shares = b.shares := by
  show (List.map Handle.shares [b]).sum = _
  rw [List.map_singleton, List.sum_singleton]

variable {bs : Option Handle}

theorem keeps_acquire {c : Creator} (h : AllOK slots (d + c.shares)) (weak : Bool) :
    Keeps d bs (Pending.access slots weak (.acquire c)) := by
  unfold Pending.access
  dsimp only
  by_cases hval : (slots c.index).refCount = REF_COUNT_UNUSED
  · rw [if_pos hval]
    refine ⟨Outcome.running_ok bs trivial rfl, fun _ => ?_⟩
    show AllOK _ (d + (c.shares + ledgerAt c.index (one .initialising)))
    rw [← add_zero (d + c.shares), ← ledgerAt_zero (i := c.index)] at h
    rw [← add_assoc]
    apply h.exchange
    intro hi
    obtain ⟨hslot, hw⟩ := hi.of_unused hval
    rw [add_zero] at hw
    rw [hw, hslot]
    exact SlotOK.alone .initialising (by decide)
  · rw [if_neg hval]
    refine ⟨Creator.fails_ok bs _ c, fun _ => ?_⟩
    rw [Creator.shares_fails]
    exact h

theorem keeps_writeMeta {c : Creator}
    (h : AllOK slots (d + (c.shares + ledgerAt c.index (one .initialising)))) (weak : Bool) :
    Keeps d bs (Pending.access slots weak (.writeMeta c)) := by
  refine ⟨Outcome.running_ok bs trivial rfl, fun _ => ?_⟩
  show AllOK _ (d + (c.shares + ledgerAt c.index (one .initialised)))
  rw [← add_assoc] at h ⊢
  apply h.exchange_held (by decide) (by decide)
  intro hslot
  rw [hslot]
  rfl

theorem keeps_publish {c : Creator}
    (h : AllOK slots (d + (c.shares + ledgerAt c.index (one .initialised)))) (weak : Bool) :
    Keeps d bs (Pending.access slots weak (.publish c)) := by
  refine ⟨c.succeeds_ok bs, fun _ => ?_⟩
  show AllOK (setRefCount slots c.index (if c.asUniquePtr then REF_COUNT_UNIQUE else 1))
    (d + c.succeeds.shares)
  rw [c.shares_succeeds, Creator.share]
  rw [← add_assoc] at h ⊢
  cases c.asUniquePtr with
  | true =>
    apply h.exchange_held (by decide) (by decide)
    intro hslot
    rw [hslot]
    rfl
  | false =>
    apply h.exchange_first (by decide)
    intro hslot
    rw [hslot]
    rfl

theorem keeps_load (h : AllOK slots d) (i : ℕ) (weak : Bool) :
    Keeps d bs (Pending.access slots weak (.load i)) := by
  have hreturns (e : GetFrameError) : Keeps d bs (slots, .returns [] (some e)) := by
    refine ⟨trivial, fun _ => ?_⟩
    show AllOK slots (d + 0)
    rw [add_zero]
    exact h
  unfold Pending.access
  dsimp only
  by_cases hunused : (slots i).refCount = REF_COUNT_UNUSED
  · rw [if_pos hunused]
    exact hreturns _
  · rw [if_neg hunused]
    by_cases hunique : (slots i).refCount = REF_COUNT_UNIQUE
    · rw [if_pos hunique]
      exact hreturns _
    · rw [if_neg hunique]
      by_cases hzero : (slots i).refCount = 0
      · rw [if_pos hzero]
        exact hreturns _
      · have hlt := (h i).refCount_lt hunused hunique hzero
        rw [if_neg hzero, if_neg (not_le.mpr hlt)]
        refine ⟨Outcome.running_ok bs ⟨Nat.pos_of_ne_zero hzero, hlt⟩ rfl, fun _ => ?_⟩
        show AllOK slots (d + 0)
        rw [add_zero]
        exact h

theorem keeps_increment (h : AllOK slots d) {i last : ℕ} (hpos : 0 < last)
    (hlt : last < REF_COUNT_MAX) (weak : Bool) :
    Keeps d bs (Pending.access slots weak (.increment i last)) := by
  unfold Pending.access
  dsimp only
  by_cases hval : (slots i).refCount = last ∧ weak = false
  · rw [if_pos hval]
    refine ⟨trivial, fun hfew => ?_⟩
    rw [shares_returns_one] at hfew ⊢
    exact h.exchange_add hpos hlt hval.1 (hfew i)
  · rw [if_neg hval]
    refine ⟨Outcome.running_ok bs trivial rfl, fun _ => ?_⟩
    show AllOK slots (d + 0)
    rw [add_zero]
    exact h

/-- `inc_ref_count`, of a frame to which there is a reference. -/
theorem AllOK.incRefCount (h : AllOK slots d) (hd : 1 ≤ d i .shared)
    (hfew : (d + ledgerAt i (one .shared)) i .shared < REF_COUNT_MAX) :
    AllOK (setRefCount slots i (((slots i).refCount + 1) % 2 ^ 64))
      (d + ledgerAt i (one .shared)) := by
  obtain ⟨hpos, hlt⟩ := h.refCount_of_shared hd
  rw [Nat.mod_eq_of_lt (by unfold REF_COUNT_MAX at hlt; omega)]
  exact h.exchange_add hpos hlt rfl hfew

theorem keeps_cloneFrame (h : AllOK slots d) {i : ℕ} (hd : 1 ≤ d i .shared) (weak : Bool) :
    Keeps d bs (Pending.access slots weak (.cloneFrame i)) := by
  obtain ⟨-, hlt⟩ := h.refCount_of_shared hd
  unfold Pending.access
  dsimp only
  rw [if_neg (not_le.mpr hlt)]
  refine ⟨trivial, fun hfew => ?_⟩
  rw [shares_returns_one] at hfew ⊢
  exact h.incRefCount hd (hfew i)

theorem keeps_incRefCount {a : Adding} (ha : a.paddr < a.range.stop)
    (h : AllOK slots (d + segmentShares a.range.start a.paddr))
    (hd : 1 ≤ d (a.paddr / PAGE_SIZE) .shared) (weak : Bool) :
    Keeps d (some (.segment a.source)) (Pending.access slots weak (.incRefCount a ha)) := by
  have hd' : 1 ≤ (d + segmentShares a.range.start a.paddr) (a.paddr / PAGE_SIZE) .shared :=
    hd.trans (Nat.le_add_right _ _)
  obtain ⟨-, hlt⟩ := h.refCount_of_shared hd'
  have hshares : (a.push ha).resume.shares =
      segmentShares a.range.start a.paddr + ledgerAt (a.paddr / PAGE_SIZE) (one .shared) := by
    rw [Adding.shares_resume]
    exact segmentShares_concat a.counted.1 a.counted.2.1
  unfold Pending.access
  dsimp only
  rw [if_neg (not_le.mpr hlt)]
  refine ⟨(a.push ha).resume_ok, fun hfew => ?_⟩
  dsimp only at hfew ⊢
  rw [hshares, ← add_assoc] at hfew ⊢
  exact h.incRefCount hd' (hfew _)

theorem keeps_release {i : ℕ} {k : Rest}
    (h : AllOK slots (d + (k.shares + ledgerAt i (one .shared)))) (weak : Bool) :
    Keeps d bs (Pending.access slots weak (.release i k)) := by
  rw [← add_assoc] at h
  unfold Pending.access
  dsimp only
  rcases h.release with ⟨hlast, hrest⟩ | ⟨hlast, hrest⟩
  · rw [if_pos hlast, hlast]
    refine ⟨Outcome.running_ok bs trivial rfl, fun _ => ?_⟩
    show AllOK _ (d + (k.shares + ledgerAt i (one .destroying)))
    rw [← add_assoc]
    exact hrest
  · have hpos := h.refCount_of_shared (i := i) (by
      rw [Pi.add_apply, Pi.add_apply, ledgerAt_self, one_apply_self]
      omega)
    have hdec : ((slots i).refCount + (2 ^ 64 - 1)) % 2 ^ 64 = (slots i).refCount - 1 := by
      unfold REF_COUNT_MAX at hpos
      omega
    rw [if_neg hlast, hdec]
    refine ⟨k.resume_ok bs, fun _ => ?_⟩
    dsimp only
    rw [k.shares_resume]
    exact hrest

theorem keeps_retire {i : ℕ} {k : Rest}
    (h : AllOK slots (d + (k.shares + ledgerAt i (one .destroyed)))) (weak : Bool) :
    Keeps d bs (Pending.access slots weak (.retire i k)) := by
  refine ⟨k.resume_ok bs, fun _ => ?_⟩
  show AllOK _ (d + k.resume.shares)
  rw [k.shares_resume]
  rw [← add_assoc] at h
  rw [← add_zero (d + k.shares), ← ledgerAt_zero (i := i)]
  apply h.exchange
  intro hi
  obtain ⟨hslot, hw⟩ := hi.of_held (by decide)
  rw [hslot, hw]
  exact SlotOK.unused

theorem keeps_tryFromShared {i : ℕ} (h : AllOK slots (d + ledgerAt i (one .shared)))
    (weak : Bool) : Keeps d bs (Pending.access slots weak (.tryFromShared i)) := by
  unfold Pending.access
  dsimp only
  by_cases hone : (slots i).refCount = 1
  · rw [if_pos hone]
    refine ⟨trivial, fun _ => ?_⟩
    rw [shares_returns_one]
    apply h.exchange
    intro hi
    obtain ⟨n, hslot, -, hw⟩ := hi.of_shared
    obtain rfl : n = 0 := by
      rw [hslot] at hone
      exact Nat.succ.inj hone
    rw [hw, Pi.single_zero, hslot]
    exact SlotOK.alone .unique (by decide)
  · rw [if_neg hone]
    refine ⟨trivial, fun _ => ?_⟩
    rw [shares_returns_one]
    exact h

/-- A holder changes its slot and becomes one of another kind. -/
theorem keeps_held {i : ℕ} {rest : Ledger} {out : Outcome} (k' : Share)
    (h : AllOK slots (d + (rest + ledgerAt i (one k)))) (hk : k ≠ .shared) (hk' : k' ≠ .shared)
    (hv : slots i = heldSlot k → v = heldSlot k') (hok : out.OK bs)
    (hout : out.shares = rest + ledgerAt i (one k')) :
    Keeps d bs (Function.update slots i v, out) := by
  refine ⟨hok, fun _ => ?_⟩
  dsimp only
  rw [hout]
  rw [← add_assoc] at h ⊢
  exact h.exchange_held hk hk' hv

/-- **An access keeps the slots right** and does not abort, as long as there are not too many
references. -/
theorem Pending.access_ok {p : Pending} (hp : p.OK) (h : AllOK slots (d + p.shares))
    (hborrow : ∀ b, p.borrows = some b → ∀ j, b.shares j .shared ≤ d j .shared) (weak : Bool) :
    Keeps d p.borrows (p.access slots weak) := by
  cases p with
  | acquire c => exact keeps_acquire h weak
  | writeMeta c => exact keeps_writeMeta h weak
  | publish c => exact keeps_publish h weak
  | load i =>
    change AllOK slots (d + 0) at h
    rw [add_zero] at h
    exact keeps_load h i weak
  | increment i last =>
    change AllOK slots (d + 0) at h
    rw [add_zero] at h
    exact keeps_increment h hp.1 hp.2 weak
  | cloneFrame i =>
    change AllOK slots (d + 0) at h
    rw [add_zero] at h
    have hd := hborrow (.frame i) rfl i
    rw [Handle.shares, ledgerAt_self, one_apply_self] at hd
    exact keeps_cloneFrame h hd weak
  | incRefCount a ha =>
    have hcovers := (covers_next a.counted.1 a.counted.2.1 ha).of_within a.within
    have hd := hborrow (.segment a.source) rfl (a.paddr / PAGE_SIZE)
    rw [Handle.shares, segmentShares, if_pos hcovers, one_apply_self] at hd
    exact keeps_incRefCount ha h hd weak
  | release i k => exact keeps_release h weak
  | dropMeta i k =>
    refine keeps_held .destroyed h (by decide) (by decide) ?_
      (Outcome.running_ok _ trivial rfl) rfl
    intro hslot
    rw [hslot]
    rfl
  | retire i k => exact keeps_retire h weak
  | close i =>
    rw [Pending.shares, ← zero_add (ledgerAt i _)] at h
    refine keeps_held .destroying h (by decide) (by decide) ?_
      (Outcome.running_ok _ trivial rfl) rfl
    intro hslot
    rw [hslot]
    rfl
  | repurpose i =>
    rw [Pending.shares, ← zero_add (ledgerAt i _)] at h
    refine keeps_held .bare h (by decide) (by decide) ?_
      (Outcome.running_ok _ trivial rfl) ?_
    · intro hslot
      rw [hslot]
      rfl
    · rw [zero_add]
      rfl
  | rewrite i =>
    rw [Pending.shares, ← zero_add (ledgerAt i _)] at h
    refine keeps_held .unique h (by decide) (by decide) ?_ trivial ?_
    · intro hslot
      rw [hslot]
      rfl
    · rw [zero_add, shares_returns_one]
      rfl
  | fromUnique i =>
    refine ⟨trivial, fun _ => ?_⟩
    show AllOK _ (d + (Outcome.returns [.frame i] none).shares)
    rw [shares_returns_one]
    apply h.exchange_first (by decide)
    intro hslot
    rw [hslot]
    rfl
  | tryFromShared i => exact keeps_tryFromShared h weak

end

end FrameHandles

end Vostd
