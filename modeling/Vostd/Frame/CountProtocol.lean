/-
# The reference-count protocol

What `ref_count` means in every state that any number of threads can reach with operations on
handles: the shares of all live and forgotten handles and of all operations in progress add up
to a ledger, each access keeps the slots in agreement with it (`Pending.access_ok`), and the
steps between accesses keep the ledger.  The metadata of a frame is initialised as long as a
handle covers it, is only written when it is not initialised and only dropped when it is.
-/
import Vostd.Frame.Shares

namespace Vostd

open Function

namespace FrameHandles

variable {ι : Type} [DecidableEq ι] [Fintype ι]

/-! ## The ledger of a state -/

/-- The shares of what a thread does. -/
def threadShares (o : Option Pending) : Ledger := o.elim 0 Pending.shares

/-- The shares of a forgotten handle. -/
def RawHandle.shares (r : RawHandle) : Ledger := r.fromRaw.shares

namespace State

/-- All shares. -/
def shares (s : State ι) : Ledger :=
  (s.live.map Handle.shares).sum + (s.forgotten.map RawHandle.shares).sum +
    total threadShares s.threads

/-- There are fewer than `REF_COUNT_MAX` references to each frame. -/
def Few (s : State ι) : Prop := ∀ j, s.shares j .shared < REF_COUNT_MAX

end State

theorem Handle.fromRaw_intoRaw (h : Handle) : h.intoRaw.fromRaw = h := by
  have hpos : 0 < PAGE_SIZE := by decide
  cases h with
  | frame i => exact congrArg Handle.frame (Nat.mul_div_cancel i hpos)
  | unique i => exact congrArg Handle.unique (Nat.mul_div_cancel i hpos)
  | segment range => rfl

/-! ## The steps between accesses -/

theorem shares_getFromUnused (paddr : ℕ) {k : ℕ → Creator} (hk : ∀ i, (k i).shares = 0) :
    (getFromUnused paddr k).shares = 0 := by
  unfold getFromUnused
  cases getSlot paddr with
  | error e => rfl
  | ok i => exact hk i

/-- **An operation begins with the shares of the handle it has taken.** -/
theorem Op.shares_start {op : Op} (h : op.start ≠ .aborts) :
    op.start.shares = op.takes.elim 0 Handle.shares := by
  cases op with
  | frameFromUnused paddr => exact shares_getFromUnused paddr (fun _ => rfl)
  | uniqueFromUnused paddr => exact shares_getFromUnused paddr (fun _ => rfl)
  | segmentFromUnused range =>
    unfold Op.start at h ⊢
    dsimp only at h ⊢
    split_ifs at h ⊢ with h₁ h₂ h₃
    · rfl
    · rfl
    · rw [Filling.shares_resume]
      exact segmentShares_nil le_rfl
    · exact absurd rfl h
  | fromInUse paddr =>
    unfold Op.start
    dsimp only
    cases getSlot paddr with
    | error e => rfl
    | ok i => rfl
  | cloneFrame i => rfl
  | cloneSegment range =>
    unfold Op.start
    dsimp only
    rw [Adding.shares_resume]
    exact segmentShares_nil le_rfl
  | slice range sub =>
    unfold Op.start at h ⊢
    dsimp only at h ⊢
    split_ifs at h ⊢ with hsub
    · rw [Adding.shares_resume]
      exact segmentShares_nil le_rfl
    · exact absurd rfl h
  | dropFrame i => exact zero_add _
  | dropSegment range => exact shares_dropSegment range.start range.stop
  | dropUnique i => rfl
  | resetAsUnused i => rfl
  | repurpose i => rfl
  | fromUnique i => rfl
  | tryFromShared i => rfl
  | split range offset =>
    unfold Op.start at h ⊢
    dsimp only at h ⊢
    split_ifs at h ⊢ with hoff
    · obtain ⟨hmod, -, hlt⟩ := hoff
      show (List.map Handle.shares [_, _]).sum = segmentShares range.start range.stop
      rw [segmentShares_split (Nat.dvd_of_mod_eq_zero hmod) hlt.le, List.map_cons,
        List.sum_cons, List.map_singleton, List.sum_singleton]
      rfl
    · exact absurd rfl h
  | next range =>
    unfold Op.start
    dsimp only
    split_ifs with hlt
    · show (List.map Handle.shares [_, _]).sum = segmentShares range.start range.stop
      rw [segmentShares_cons hlt, List.map_cons, List.sum_cons, List.map_singleton,
        List.sum_singleton]
      exact add_comm _ _
    · exact shares_returns_one _ _
  | segmentFrom i =>
    unfold Op.start
    dsimp only
    rw [shares_returns_one]
    exact segmentShares_single

theorem getFromUnused_ok (bs : Option Handle) (paddr : ℕ) {k : ℕ → Creator} :
    (getFromUnused paddr k).OK bs := by
  unfold getFromUnused
  cases getSlot paddr with
  | error e => trivial
  | ok i => exact Outcome.running_ok bs trivial rfl

theorem Op.start_ok {op : Op} (h : op.start ≠ .aborts) : op.start.OK op.borrows := by
  cases op with
  | frameFromUnused paddr => exact getFromUnused_ok _ paddr
  | uniqueFromUnused paddr => exact getFromUnused_ok _ paddr
  | segmentFromUnused range =>
    unfold Op.start at h ⊢
    dsimp only at h ⊢
    split_ifs at h ⊢
    · trivial
    · trivial
    · exact Filling.resume_ok _ _
    · exact absurd rfl h
  | fromInUse paddr =>
    unfold Op.start
    dsimp only
    cases getSlot paddr with
    | error e => trivial
    | ok i => exact Outcome.running_ok _ trivial rfl
  | cloneFrame i => exact ⟨trivial, fun b hb => hb⟩
  | cloneSegment range => exact Adding.resume_ok _
  | slice range sub =>
    unfold Op.start at h ⊢
    dsimp only at h ⊢
    split_ifs at h ⊢
    · exact Adding.resume_ok _
    · exact absurd rfl h
  | dropSegment range => exact dropSegment_ok _ _ _
  | split range offset =>
    unfold Op.start at h ⊢
    dsimp only at h ⊢
    split_ifs at h ⊢
    · trivial
    · exact absurd rfl h
  | next range =>
    unfold Op.start
    dsimp only
    split_ifs
    · trivial
    · trivial
  | dropFrame i => exact Outcome.running_ok _ trivial rfl
  | dropUnique i => exact Outcome.running_ok _ trivial rfl
  | resetAsUnused i => exact Outcome.running_ok _ trivial rfl
  | repurpose i => exact Outcome.running_ok _ trivial rfl
  | fromUnique i => exact Outcome.running_ok _ trivial rfl
  | tryFromShared i => exact Outcome.running_ok _ trivial rfl
  | segmentFrom i => trivial

/-! ## The invariant -/

/-- The slots agree with the ledger, and what is borrowed is live. -/
structure Invariant (s : State ι) : Prop where
  slots : AllOK s.slots s.shares
  pending : ∀ t p, s.threads t = some p → p.OK ∧ ∀ b, p.borrows = some b → b ∈ s.live

section

variable {s s' : State ι} {t : ι} {p : Pending} {out : Outcome} {h : Handle}

/-- A live handle has its shares in the ledger. -/
theorem Handle.shares_le_sum {live : Multiset Handle} (hh : h ∈ live) (j : ℕ) (k : Share) :
    h.shares j k ≤ (live.map Handle.shares).sum j k := by
  obtain ⟨rest, rfl⟩ := Multiset.exists_cons_of_mem hh
  rw [Multiset.map_cons, Multiset.sum_cons]
  exact Nat.le_add_right _ _

/-- **What everything but one thread has**, whatever the thread does next. -/
theorem State.exists_shares_eq (s : State ι) (t : ι) :
    ∃ d : Ledger, s.shares = d + threadShares (s.threads t) ∧
      (∀ b ∈ s.live, ∀ j, b.shares j .shared ≤ d j .shared) ∧
      ∀ slots out s', ({ s with slots := slots } : State ι).settle t out = some s' →
        s'.slots = slots ∧ s'.shares = d + out.shares := by
  obtain ⟨d, hd, hupd⟩ := exists_total_eq threadShares s.threads t
  refine ⟨(s.live.map Handle.shares).sum + (s.forgotten.map RawHandle.shares).sum + d, ?_, ?_, ?_⟩
  · unfold State.shares
    rw [hd, add_assoc, add_assoc, add_assoc]
  · intro b hb j
    have hle := Handle.shares_le_sum hb j .shared
    show _ ≤ (s.live.map Handle.shares).sum j .shared +
      (s.forgotten.map RawHandle.shares).sum j .shared + d j .shared
    omega
  · intro slots out s' hsettle
    cases out with
    | running p =>
      obtain rfl := Option.some.inj hsettle
      refine ⟨rfl, ?_⟩
      show _ + _ + total threadShares (update s.threads t (some p)) = _
      rw [hupd, add_assoc _ d]
      rfl
    | returns hs err =>
      obtain rfl := Option.some.inj hsettle
      refine ⟨rfl, ?_⟩
      show ((s.live + (hs : Multiset Handle)).map Handle.shares).sum + _ +
        total threadShares (update s.threads t none) = _
      rw [hupd, Multiset.map_add, Multiset.sum_add, Multiset.map_coe, Multiset.sum_coe]
      show _ + (hs.map Handle.shares).sum + _ + (d + 0) = _ + _ + d + (hs.map Handle.shares).sum
      abel
    | aborts => contradiction

omit [DecidableEq ι] [Fintype ι] in
/-- What is borrowed stays live when a handle is taken. -/
theorem State.Takes.mem_erase (htakes : s.Takes h) (ht : s.threads t = some p) {b : Handle}
    (hb : p.borrows = some b) (hlive : b ∈ s.live) : b ∈ s.live.erase h := by
  by_cases hbh : b = h
  · subst hbh
    apply htakes.2 t
    rw [ht]
    exact hb
  · exact (Multiset.mem_erase_of_ne hbh).mpr hlive

omit [Fintype ι] in
/-- The operations in progress after one thread has gone on. -/
theorem State.settle_pending {bs : Option Handle} (hok : out.OK bs)
    (hbs : ∀ b, bs = some b → b ∈ s.live)
    (hothers : ∀ t' p, s.threads t' = some p → p.OK ∧ ∀ b, p.borrows = some b → b ∈ s.live)
    (hsettle : s.settle t out = some s') :
    ∀ t' p, s'.threads t' = some p → p.OK ∧ ∀ b, p.borrows = some b → b ∈ s'.live := by
  intro t' p hp
  cases out with
  | running q =>
    obtain rfl := Option.some.inj hsettle
    by_cases htt : t' = t
    · subst htt
      obtain rfl : q = p :=
        Option.some.inj ((update_self t' (some q) s.threads).symm.trans hp)
      exact ⟨hok.1, fun b hb => hbs b (hok.2 b hb)⟩
    · exact hothers t' p ((update_of_ne htt (some q) s.threads).symm.trans hp)
  | returns hs err =>
    obtain rfl := Option.some.inj hsettle
    by_cases htt : t' = t
    · subst htt
      exact absurd ((update_self t' none s.threads).symm.trans hp) (by simp)
    · obtain ⟨hpok, hborrows⟩ :=
        hothers t' p ((update_of_ne htt none s.threads).symm.trans hp)
      exact ⟨hpok, fun b hb => Multiset.mem_add.mpr (Or.inl (hborrows b hb))⟩
  | aborts => contradiction

omit [DecidableEq ι] in
/-- The ledger without a live handle. -/
theorem State.shares_erase (hh : h ∈ s.live) :
    s.shares = ({ s with live := s.live.erase h } : State ι).shares + h.shares := by
  unfold State.shares
  dsimp only
  conv_lhs => rw [← Multiset.cons_erase hh]
  rw [Multiset.map_cons, Multiset.sum_cons]
  abel

/-- **A thread begins an operation**, with its handle. -/
theorem Invariant.start (hs : Invariant s) {op : Op} (hidle : (s.threads t).isNone)
    (htakes : ∀ h ∈ op.takes, s.Takes h) (hborrows : ∀ h ∈ op.borrows, h ∈ s.live)
    (hsettle : ({ s with live := op.takes.elim s.live s.live.erase } : State ι).settle t op.start =
      some s') : Invariant s' := by
  have hstart : op.start ≠ .aborts := by
    intro habort
    rw [habort] at hsettle
    contradiction
  set s₁ : State ι := { s with live := op.takes.elim s.live s.live.erase } with hs₁
  have htaken : s.shares = s₁.shares + op.takes.elim 0 Handle.shares := by
    cases htake : op.takes with
    | none =>
      rw [hs₁, htake]
      exact (add_zero _).symm
    | some h =>
      rw [hs₁, htake]
      exact State.shares_erase (htakes h htake).1
  obtain ⟨d, hd, -, hafter⟩ := s₁.exists_shares_eq t
  obtain ⟨hslots, hshares⟩ := hafter s₁.slots op.start s' hsettle
  have hidle' : threadShares (s₁.threads t) = 0 := by
    show threadShares (s.threads t) = 0
    rw [Option.isNone_iff_eq_none.mp hidle]
    rfl
  rw [hidle', add_zero] at hd
  have hsame : s'.shares = s.shares := by
    rw [hshares, Op.shares_start hstart, htaken, hd]
  constructor
  · rw [hsame, hslots]
    exact hs.slots
  · -- what is borrowed is still live
    refine State.settle_pending (Op.start_ok hstart) ?_ ?_ hsettle
    · intro b hb
      have htake : op.takes = none := by
        cases op <;> first | rfl | contradiction
      show b ∈ op.takes.elim s.live s.live.erase
      rw [htake]
      exact hborrows b hb
    · intro t' p hp
      obtain ⟨hpok, hlive⟩ := hs.pending t' p hp
      refine ⟨hpok, fun b hb => ?_⟩
      show b ∈ op.takes.elim s.live s.live.erase
      cases htake : op.takes with
      | none => exact hlive b hb
      | some h => exact (htakes h htake).mem_erase hp hb (hlive b hb)

/-- **A thread makes its next access.** -/
theorem Invariant.access (hs : Invariant s) (ht : s.threads t = some p) {weak : Bool}
    (hsettle : ({ s with slots := (p.access s.slots weak).1 } : State ι).settle t
      (p.access s.slots weak).2 = some s') (hfew : s'.Few) : Invariant s' := by
  obtain ⟨hp, hborrows⟩ := hs.pending t p ht
  obtain ⟨d, hd, hlive, hafter⟩ := s.exists_shares_eq t
  obtain ⟨hslots, hshares⟩ := hafter _ _ s' hsettle
  rw [ht] at hd
  have hbefore := hs.slots
  rw [hd] at hbefore
  obtain ⟨hok, hkeeps⟩ := Pending.access_ok hp hbefore
    (fun b hb => hlive b (hborrows b hb)) weak
  constructor
  · rw [hslots, hshares]
    apply hkeeps
    intro j
    have := hfew j
    rwa [hshares] at this
  · exact State.settle_pending (s := { s with slots := (p.access s.slots weak).1 }) hok hborrows
      hs.pending hsettle

omit [DecidableEq ι] in
/-- A handle is forgotten. -/
theorem Invariant.intoRaw (hs : Invariant s) (htakes : s.Takes h) :
    Invariant
      { s with live := s.live.erase h, forgotten := h.intoRaw ::ₘ s.forgotten } := by
  constructor
  · have hsame : s.shares =
        ({ s with live := s.live.erase h, forgotten := h.intoRaw ::ₘ s.forgotten } :
          State ι).shares := by
      rw [State.shares_erase htakes.1]
      unfold State.shares
      dsimp only
      rw [Multiset.map_cons, Multiset.sum_cons, RawHandle.shares, Handle.fromRaw_intoRaw]
      abel
    rw [← hsame]
    exact hs.slots
  · intro t p hp
    obtain ⟨hpok, hlive⟩ := hs.pending t p hp
    exact ⟨hpok, fun b hb => htakes.mem_erase hp hb (hlive b hb)⟩

omit [DecidableEq ι] in
/-- A handle is restored. -/
theorem Invariant.fromRaw (hs : Invariant s) {r : RawHandle} (hr : r ∈ s.forgotten) :
    Invariant
      { s with live := r.fromRaw ::ₘ s.live, forgotten := s.forgotten.erase r } := by
  constructor
  · have hsame : s.shares =
        ({ s with live := r.fromRaw ::ₘ s.live, forgotten := s.forgotten.erase r } :
          State ι).shares := by
      unfold State.shares
      dsimp only
      conv_lhs => rw [← Multiset.cons_erase hr]
      rw [Multiset.map_cons, Multiset.sum_cons, Multiset.map_cons, Multiset.sum_cons,
        RawHandle.shares]
      abel
    rw [← hsame]
    exact hs.slots
  · intro t p hp
    obtain ⟨hpok, hlive⟩ := hs.pending t p hp
    exact ⟨hpok, fun b hb => Multiset.mem_cons_of_mem (hlive b hb)⟩

/-- **Every step keeps the invariant.** -/
theorem Invariant.next (hs : Invariant s) {l : Label ι} (hnext : s.next l = some s')
    (hfew : s'.Few) : Invariant s' := by
  cases l with
  | start t op =>
    unfold State.next at hnext
    dsimp only at hnext
    split_ifs at hnext with hcond
    obtain ⟨hidle, htakes, hborrows⟩ := hcond
    exact hs.start hidle htakes hborrows hnext
  | access t weak =>
    obtain ⟨p, hp, hsettle⟩ := Option.bind_eq_some_iff.mp hnext
    exact hs.access hp hsettle hfew
  | intoRaw h =>
    unfold State.next at hnext
    dsimp only at hnext
    split_ifs at hnext with htakes
    obtain rfl := Option.some.inj hnext
    exact hs.intoRaw htakes
  | fromRaw r =>
    unfold State.next at hnext
    dsimp only at hnext
    split_ifs at hnext with hr
    obtain rfl := Option.some.inj hnext
    exact hs.fromRaw hr

omit [DecidableEq ι] in
theorem invariant_init : Invariant (State.init : State ι) := by
  have hzero : (State.init : State ι).shares = 0 := by
    have hidle : total threadShares (fun _ : ι => none) = 0 := total_eq_zero (fun _ => rfl)
    unfold State.shares State.init
    dsimp only
    rw [Multiset.map_zero, Multiset.sum_zero, Multiset.map_zero, Multiset.sum_zero, hidle,
      add_zero, add_zero]
  constructor
  · intro j
    rw [hzero]
    exact SlotOK.unused
  · intro t p hp
    contradiction

end

/-! ## What the counts mean -/

/-- A `Frame` of the frame, or a `Segment` that covers it. -/
def Handle.Refers (j : ℕ) : Handle → Prop
  | frame i => i = j
  | unique _ => False
  | segment range => Covers range.start range.stop j

instance decidableRefers (j : ℕ) : DecidablePred (Handle.Refers j)
  | .frame i => inferInstanceAs (Decidable (i = j))
  | .unique _ => inferInstanceAs (Decidable False)
  | .segment range => inferInstanceAs (Decidable (Covers range.start range.stop j))

/-- The handle is one of the frame. -/
def Handle.Holds (j : ℕ) (h : Handle) : Prop := h.Refers j ∨ h = .unique j

/-- The operation is initialising or destroying the frame. -/
def Pending.Busy (j : ℕ) : Pending → Prop
  | writeMeta c | publish c => c.index = j
  | dropMeta i _ | retire i _ => i = j
  | _ => False

instance decidableBusy (j : ℕ) : DecidablePred (Pending.Busy j)
  | .writeMeta c => inferInstanceAs (Decidable (c.index = j))
  | .publish c => inferInstanceAs (Decidable (c.index = j))
  | .dropMeta i _ => inferInstanceAs (Decidable (i = j))
  | .retire i _ => inferInstanceAs (Decidable (i = j))
  | .acquire _ | .load _ | .increment _ _ | .cloneFrame _ | .incRefCount _ _ | .release _ _ =>
      inferInstanceAs (Decidable False)
  | .close _ | .repurpose _ | .rewrite _ | .fromUnique _ | .tryFromShared _ =>
      inferInstanceAs (Decidable False)

/-- The next access of the operation writes the metadata of the frame. -/
def Pending.Writes (j : ℕ) : Pending → Prop
  | writeMeta c => c.index = j
  | rewrite i => i = j
  | _ => False

/-- The next access of the operation drops the metadata of the frame. -/
def Pending.Drops (j : ℕ) : Pending → Prop
  | dropMeta i _ => i = j
  | repurpose i => i = j
  | _ => False

namespace State

/-- The number of `Frame`s of a frame and of `Segment`s that cover it: live, forgotten, or held
by an operation. -/
def references (s : State ι) (j : ℕ) : ℕ :=
  s.live.countP (Handle.Refers j) + s.forgotten.countP (fun r => r.fromRaw.Refers j) +
    total (fun o => threadShares o j .shared) s.threads

/-- The number of `UniqueFrame`s of a frame: live, forgotten, or held by an operation. -/
def uniques (s : State ι) (j : ℕ) : ℕ :=
  s.live.countP (· = .unique j) + s.forgotten.countP (fun r => r.fromRaw = .unique j) +
    total (fun o => threadShares o j .unique + threadShares o j .bare) s.threads

/-- The number of threads that are initialising or destroying a frame. -/
def busy (s : State ι) (j : ℕ) : ℕ :=
  (Finset.univ.filter fun t => ∃ p ∈ s.threads t, p.Busy j).card

end State

section

variable {i j : ℕ} {k k' : Share}

theorem ledgerAt_one_apply :
    ledgerAt i (one k) j k' = if i = j ∧ k' = k then 1 else 0 := by
  unfold ledgerAt
  by_cases hij : i = j
  · rw [if_pos hij]
    by_cases hk : k' = k
    · rw [hk, one_apply_self, if_pos ⟨hij, rfl⟩]
    · rw [one_apply_of_ne hk, if_neg (fun hc => hk hc.2)]
  · rw [if_neg hij, if_neg (fun hc => hij hc.1)]
    rfl

theorem segmentShares_apply {start stop : ℕ} :
    segmentShares start stop j k = if Covers start stop j ∧ k = .shared then 1 else 0 := by
  unfold segmentShares
  by_cases hcov : Covers start stop j
  · rw [if_pos hcov]
    by_cases hk : k = .shared
    · rw [hk, one_apply_self, if_pos ⟨hcov, rfl⟩]
    · rw [one_apply_of_ne hk, if_neg (fun hc => hk hc.2)]
  · rw [if_neg hcov, if_neg (fun hc => hcov hc.1)]
    rfl

theorem Handle.shares_shared (h : Handle) (j : ℕ) :
    h.shares j .shared = if h.Refers j then 1 else 0 := by
  cases h with
  | frame i => exact ledgerAt_one_apply.trans (if_congr (and_iff_left rfl) rfl rfl)
  | unique i => exact ledgerAt_one_apply.trans (if_neg (fun hc => Share.noConfusion hc.2))
  | segment range => exact segmentShares_apply.trans (if_congr (and_iff_left rfl) rfl rfl)

theorem Handle.shares_unique (h : Handle) (j : ℕ) :
    h.shares j .unique = if h = .unique j then 1 else 0 := by
  cases h with
  | frame i => simp [Handle.shares, ledgerAt_one_apply]
  | unique i => simp [Handle.shares, ledgerAt_one_apply]
  | segment range => simp [Handle.shares, segmentShares_apply]

/-- A handle has no other shares. -/
theorem Handle.shares_other (h : Handle) (j : ℕ) (hk : k ≠ .shared) (hk' : k ≠ .unique) :
    h.shares j k = 0 := by
  cases h with
  | frame i => simp [Handle.shares, ledgerAt_one_apply, hk]
  | unique i => simp [Handle.shares, ledgerAt_one_apply, hk']
  | segment range => simp [Handle.shares, segmentShares_apply, hk]

theorem sum_map_apply {α : Type} (f : α → Ledger) (m : Multiset α) (j : ℕ) (k : Share) :
    (m.map f).sum j k = (m.map fun a => f a j k).sum := by
  induction m using Multiset.induction_on with
  | empty => rfl
  | cons a m ih =>
    rw [Multiset.map_cons, Multiset.sum_cons, Multiset.map_cons, Multiset.sum_cons, ← ih]
    rfl

theorem sum_map_ite {α : Type} (q : α → Prop) [DecidablePred q] (m : Multiset α) :
    (m.map fun a => if q a then 1 else 0).sum = m.countP q := by
  induction m using Multiset.induction_on with
  | empty => rfl
  | cons a m ih =>
    rw [Multiset.map_cons, Multiset.sum_cons, ih, Multiset.countP_cons, add_comm]

omit [DecidableEq ι] in
/-- The shares of the handles and of the operations, at one slot. -/
theorem State.shares_apply (s : State ι) (j : ℕ) (k : Share) :
    s.shares j k = (s.live.map fun h => h.shares j k).sum +
      (s.forgotten.map fun r => r.fromRaw.shares j k).sum +
        total (fun o => threadShares o j k) s.threads := by
  unfold State.shares
  rw [Pi.add_apply, Pi.add_apply, Pi.add_apply, Pi.add_apply, sum_map_apply, sum_map_apply]
  unfold total
  rw [Finset.sum_apply, Finset.sum_apply]
  rfl

omit [DecidableEq ι] in
theorem State.shares_shared (s : State ι) (j : ℕ) : s.shares j .shared = s.references j := by
  rw [State.shares_apply]
  unfold State.references
  simp only [Handle.shares_shared, sum_map_ite]

omit [DecidableEq ι] in
theorem State.shares_unique (s : State ι) (j : ℕ) :
    s.shares j .unique + s.shares j .bare = s.uniques j := by
  have hbare : ∀ h : Handle, h.shares j .bare = 0 :=
    fun h => h.shares_other j (by decide) (by decide)
  rw [State.shares_apply, State.shares_apply]
  unfold State.uniques total
  simp only [Handle.shares_unique, sum_map_ite, hbare, Multiset.map_const', Multiset.sum_replicate,
    smul_zero, Finset.sum_add_distrib]
  omega

theorem Creator.shares_other (c : Creator) (j : ℕ) (hk : k ≠ .shared) : c.shares j k = 0 := by
  cases c with
  | frame i => rfl
  | unique i => rfl
  | segment f => exact segmentShares_apply.trans (if_neg (fun hc => hk hc.2))

theorem Rest.shares_other (r : Rest) (j : ℕ) (hk : k ≠ .shared) : r.shares j k = 0 := by
  cases r with
  | nothing => rfl
  | drop paddr stop => exact segmentShares_apply.trans (if_neg (fun hc => hk hc.2))
  | recycle e paddr stop => exact segmentShares_apply.trans (if_neg (fun hc => hk hc.2))

/-- The shares of those that initialise or destroy a frame. -/
def busyShares (x : Share → ℕ) : ℕ :=
  x .initialising + x .initialised + x .destroying + x .destroyed

theorem busyShares_add {r : Share → ℕ} (hr : ∀ k, k ≠ .shared → r k = 0) (x : Share → ℕ) :
    busyShares (r + x) = busyShares x := by
  have hadd : ∀ k, k ≠ .shared → (r + x) k = x k := by
    intro k hk
    rw [Pi.add_apply, hr k hk, zero_add]
  unfold busyShares
  rw [hadd _ (by decide), hadd _ (by decide), hadd _ (by decide), hadd _ (by decide)]

theorem busyShares_eq_zero {x : Share → ℕ} (hx : ∀ k, k ≠ .shared → x k = 0) :
    busyShares x = 0 := by
  rw [← add_zero x, busyShares_add hx]
  rfl

theorem busyShares_ledgerAt (i : ℕ) (k : Share) (j : ℕ) :
    busyShares (ledgerAt i (one k) j) = if i = j then busyShares (one k) else 0 := by
  unfold ledgerAt
  split_ifs
  · rfl
  · rfl

theorem Pending.busyShares_shares (p : Pending) (j : ℕ) :
    busyShares (p.shares j) = if p.Busy j then 1 else 0 := by
  cases p with
  | acquire c => exact busyShares_eq_zero (fun k hk => c.shares_other j hk)
  | writeMeta c =>
    exact (busyShares_add (fun k hk => c.shares_other j hk) _).trans (busyShares_ledgerAt _ _ j)
  | publish c =>
    exact (busyShares_add (fun k hk => c.shares_other j hk) _).trans (busyShares_ledgerAt _ _ j)
  | release i r =>
    rw [Pending.shares, Pi.add_apply, busyShares_add (fun k hk => r.shares_other j hk),
      busyShares_ledgerAt]
    exact ite_self 0
  | dropMeta i r =>
    exact (busyShares_add (fun k hk => r.shares_other j hk) _).trans (busyShares_ledgerAt _ _ j)
  | retire i r =>
    exact (busyShares_add (fun k hk => r.shares_other j hk) _).trans (busyShares_ledgerAt _ _ j)
  | load i => rfl
  | increment i last => rfl
  | cloneFrame i => rfl
  | incRefCount a h =>
    exact busyShares_eq_zero
      (fun k hk => segmentShares_apply.trans (if_neg (fun hc => hk hc.2)))
  | close i => exact (busyShares_ledgerAt i _ j).trans (ite_self 0)
  | repurpose i => exact (busyShares_ledgerAt i _ j).trans (ite_self 0)
  | rewrite i => exact (busyShares_ledgerAt i _ j).trans (ite_self 0)
  | fromUnique i => exact (busyShares_ledgerAt i _ j).trans (ite_self 0)
  | tryFromShared i => exact (busyShares_ledgerAt i _ j).trans (ite_self 0)

omit [DecidableEq ι] in
theorem State.busyShares_shares (s : State ι) (j : ℕ) : busyShares (s.shares j) = s.busy j := by
  have hhandles : ∀ k, k ≠ .shared → k ≠ .unique →
      s.shares j k = total (fun o => threadShares o j k) s.threads := by
    intro k hk hk'
    rw [State.shares_apply]
    simp [Handle.shares_other _ j hk hk']
  have hthread : ∀ o : Option Pending,
      busyShares (threadShares o j) = if ∃ p ∈ o, p.Busy j then 1 else 0 := by
    intro o
    cases o with
    | none => simp [threadShares, busyShares]
    | some p =>
      show busyShares (p.shares j) = _
      rw [Pending.busyShares_shares]
      simp
  calc busyShares (s.shares j)
      = total (fun o => busyShares (threadShares o j)) s.threads := by
        unfold busyShares
        rw [hhandles _ (by decide) (by decide), hhandles _ (by decide) (by decide),
          hhandles _ (by decide) (by decide), hhandles _ (by decide) (by decide)]
        unfold total
        rw [Finset.sum_add_distrib, Finset.sum_add_distrib, Finset.sum_add_distrib]
    _ = s.busy j := by
        unfold State.busy total
        rw [Finset.card_filter]
        exact Finset.sum_congr rfl (fun t _ => hthread (s.threads t))

end

/-! ## Every reachable state -/

namespace State

/-- **What the count of a frame says.** -/
structure Counted (s : State ι) (j : ℕ) : Prop where
  unused_iff : (s.slots j).refCount = REF_COUNT_UNUSED ↔
    s.references j = 0 ∧ s.uniques j = 0 ∧ s.busy j = 0
  unique_iff : (s.slots j).refCount = REF_COUNT_UNIQUE ↔
    s.uniques j = 1 ∧ s.references j = 0 ∧ s.busy j = 0
  zero : (s.slots j).refCount = 0 → s.busy j = 1 ∧ s.references j = 0 ∧ s.uniques j = 0
  count : (s.slots j).refCount ≠ REF_COUNT_UNUSED → (s.slots j).refCount ≠ REF_COUNT_UNIQUE →
    (s.slots j).refCount ≠ 0 → (s.slots j).refCount = s.references j

/-- **When the metadata of a frame is initialised.** -/
structure MetaSafe (s : State ι) (j : ℕ) : Prop where
  live : ∀ h ∈ s.live, h.Holds j → (s.slots j).hasMeta = true
  forgotten : ∀ r ∈ s.forgotten, r.fromRaw.Holds j → (s.slots j).hasMeta = true
  writes : ∀ t p, s.threads t = some p → p.Writes j → (s.slots j).hasMeta = false
  drops : ∀ t p, s.threads t = some p → p.Drops j → (s.slots j).hasMeta = true

end State

section

variable {slot : MetaSlot} {x : Share → ℕ} {k : Share} {s : State ι} {j : ℕ}

/-- The slot of someone who is not one of several. -/
theorem SlotOK.eq_heldSlot (h : SlotOK slot x) (hk : k ≠ .shared) (hpos : 0 < x k) :
    slot = heldSlot k := by
  have hx : x = update x k (x k - 1) + one k := by
    funext k'
    by_cases hkk : k' = k
    · subst hkk
      rw [Pi.add_apply, update_self, one_apply_self]
      omega
    · rw [Pi.add_apply, update_of_ne hkk, one_apply_of_ne hkk, add_zero]
  rw [hx] at h
  exact (h.of_held hk).1

theorem SlotOK.hasMeta_of_shared (h : SlotOK slot x) (hpos : 0 < x .shared) :
    slot.hasMeta = true := by
  cases h with
  | unused => exact absurd hpos (lt_irrefl 0)
  | shared n hn hlt => rfl
  | held k hk =>
    rw [one_apply_of_ne (Ne.symm hk)] at hpos
    exact absurd hpos (lt_irrefl 0)

/-- A slot that agrees with its shares, in numbers. -/
theorem SlotOK.counted (h : SlotOK slot x) :
    (slot.refCount = REF_COUNT_UNUSED ↔
      x .shared = 0 ∧ x .unique + x .bare = 0 ∧ busyShares x = 0) ∧
    (slot.refCount = REF_COUNT_UNIQUE ↔
      x .unique + x .bare = 1 ∧ x .shared = 0 ∧ busyShares x = 0) ∧
    (slot.refCount = 0 → busyShares x = 1 ∧ x .shared = 0 ∧ x .unique + x .bare = 0) ∧
    (slot.refCount ≠ REF_COUNT_UNUSED → slot.refCount ≠ REF_COUNT_UNIQUE →
      slot.refCount ≠ 0 → slot.refCount = x .shared) := by
  cases h with
  | unused => decide
  | shared n hpos hlt =>
    unfold REF_COUNT_MAX at hlt
    simp only [busyShares, Pi.single_apply, REF_COUNT_UNUSED, REF_COUNT_UNIQUE]
    simp
    omega
  | held k hk =>
    cases k with
    | shared => exact absurd rfl hk
    | _ => decide

omit [DecidableEq ι] in
theorem Invariant.counted (hs : Invariant s) (j : ℕ) : s.Counted j := by
  obtain ⟨hunused, hunique, hzero, hcount⟩ := (hs.slots j).counted
  rw [State.shares_shared, State.shares_unique, State.busyShares_shares] at hunused hunique hzero
  rw [State.shares_shared] at hcount
  exact ⟨hunused, hunique, hzero, hcount⟩

theorem Handle.hasMeta_of_shares {h : Handle} (hslot : SlotOK slot x) (hh : h.Holds j)
    (hle : ∀ k, h.shares j k ≤ x k) : slot.hasMeta = true := by
  rcases hh with hrefers | rfl
  · have hle := hle .shared
    rw [Handle.shares_shared, if_pos hrefers] at hle
    exact hslot.hasMeta_of_shared hle
  · have hle := hle .unique
    rw [Handle.shares_unique, if_pos rfl] at hle
    rw [hslot.eq_heldSlot (by decide) hle]
    rfl

omit [DecidableEq ι] in
/-- An operation has its shares in the ledger. -/
theorem Pending.shares_le (s : State ι) {t : ι} {p : Pending} (hp : s.threads t = some p)
    (j : ℕ) (k : Share) : p.shares j k ≤ s.shares j k := by
  have hle := apply_le_total (fun o => threadShares o j k) s.threads t
  rw [hp] at hle
  rw [State.shares_apply]
  exact hle.trans (Nat.le_add_left _ _)

/-- Who writes metadata has one of the shares of a slot without metadata. -/
theorem Pending.Writes.shares {p : Pending} (h : p.Writes j) :
    ∃ k, k ≠ .shared ∧ (heldSlot k).hasMeta = false ∧ 0 < p.shares j k := by
  cases p with
  | writeMeta c =>
    obtain rfl : c.index = j := h
    refine ⟨.initialising, by decide, rfl, ?_⟩
    rw [Pending.shares, Pi.add_apply, Pi.add_apply, ledgerAt_self, one_apply_self]
    exact Nat.succ_pos _
  | rewrite i =>
    obtain rfl : i = j := h
    refine ⟨.bare, by decide, rfl, ?_⟩
    rw [Pending.shares, ledgerAt_self, one_apply_self]
    exact Nat.one_pos
  | _ => contradiction

/-- Who drops metadata has one of the shares of a slot with metadata. -/
theorem Pending.Drops.shares {p : Pending} (h : p.Drops j) :
    ∃ k, k ≠ .shared ∧ (heldSlot k).hasMeta = true ∧ 0 < p.shares j k := by
  cases p with
  | dropMeta i r =>
    obtain rfl : i = j := h
    refine ⟨.destroying, by decide, rfl, ?_⟩
    rw [Pending.shares, Pi.add_apply, Pi.add_apply, ledgerAt_self, one_apply_self]
    exact Nat.succ_pos _
  | repurpose i =>
    obtain rfl : i = j := h
    refine ⟨.unique, by decide, rfl, ?_⟩
    rw [Pending.shares, ledgerAt_self, one_apply_self]
    exact Nat.one_pos
  | _ => contradiction

omit [DecidableEq ι] in
theorem Invariant.metaSafe (hs : Invariant s) (j : ℕ) : s.MetaSafe j where
  live := by
    intro h hh hholds
    refine h.hasMeta_of_shares (hs.slots j) hholds (fun k => ?_)
    rw [State.shares_erase hh]
    exact Nat.le_add_left _ _
  forgotten := by
    intro r hr hholds
    -- after `from_raw` the handle would be live, with the same shares
    obtain hraw := hs.fromRaw hr
    refine r.fromRaw.hasMeta_of_shares (hraw.slots j) hholds (fun k => ?_)
    rw [State.shares_erase (Multiset.mem_cons_self _ _)]
    exact Nat.le_add_left _ _
  writes := by
    intro t p hp hw
    obtain ⟨k, hk, hheld, hpos⟩ := hw.shares
    rw [(hs.slots j).eq_heldSlot hk (hpos.trans_le (Pending.shares_le s hp j k))]
    exact hheld
  drops := by
    intro t p hp hd
    obtain ⟨k, hk, hheld, hpos⟩ := hd.shares
    rw [(hs.slots j).eq_heldSlot hk (hpos.trans_le (Pending.shares_le s hp j k))]
    exact hheld

end

/-- The runs of any threads, with fewer than `REF_COUNT_MAX` references to each frame. -/
def countSystem (ι : Type) [DecidableEq ι] [Fintype ι] : System (State ι) (Label ι) where
  init s := s = State.init
  step s l s' := s.next l = some s' ∧ s'.Few

theorem invariant_of_reachable {s : State ι} (h : (countSystem ι).Reachable s) : Invariant s := by
  refine System.invariant ?_ ?_ h
  · rintro s rfl
    exact invariant_init
  · intro s l s' _ hs hstep
    exact hs.next hstep.1 hstep.2

/-- **The reference-count protocol.**  In every reachable state the count of every frame says
who has the frame, and the metadata is initialised for those who have it. -/
theorem countSystem_counted {s : State ι} (h : (countSystem ι).Reachable s) (j : ℕ) :
    s.Counted j ∧ s.MetaSafe j := by
  have hs := invariant_of_reachable h
  exact ⟨hs.counted j, hs.metaSafe j⟩

/-! ## A run -/

/-- An upper bound of the number of references to a frame. -/
def State.bound (s : State ι) : ℕ :=
  s.live.card + s.forgotten.card + 2 * Fintype.card ι

theorem Pending.shares_le_two (p : Pending) (j : ℕ) : p.shares j .shared ≤ 2 := by
  have hseg (start stop : ℕ) : segmentShares start stop j .shared ≤ 1 := by
    rw [segmentShares_apply]
    split_ifs <;> omega
  have hat (i : ℕ) (k : Share) : ledgerAt i (one k) j .shared ≤ 1 := by
    rw [ledgerAt_one_apply]
    split_ifs <;> omega
  have hcreator (c : Creator) : c.shares j .shared ≤ 1 := by
    cases c with
    | segment f => exact hseg _ _
    | _ => exact Nat.zero_le _
  have hrest (r : Rest) : r.shares j .shared ≤ 1 := by
    cases r with
    | nothing => exact Nat.zero_le _
    | _ => exact hseg _ _
  cases p with
  | acquire c => exact (hcreator c).trans one_le_two
  | writeMeta c => exact Nat.add_le_add (hcreator c) (hat _ _)
  | publish c => exact Nat.add_le_add (hcreator c) (hat _ _)
  | incRefCount a h => exact (hseg _ _).trans one_le_two
  | release i r => exact Nat.add_le_add (hrest r) (hat _ _)
  | dropMeta i r => exact Nat.add_le_add (hrest r) (hat _ _)
  | retire i r => exact Nat.add_le_add (hrest r) (hat _ _)
  | load i => exact Nat.zero_le _
  | increment i last => exact Nat.zero_le _
  | cloneFrame i => exact Nat.zero_le _
  | _ => exact (hat _ _).trans one_le_two

omit [DecidableEq ι] in
theorem State.few_of_bound {s : State ι} (h : s.bound < REF_COUNT_MAX) : s.Few := by
  intro j
  have hlive := Multiset.countP_le_card (Handle.Refers j) s.live
  have hforgotten := Multiset.countP_le_card (fun r : RawHandle => r.fromRaw.Refers j) s.forgotten
  have hthreads : total (fun o => threadShares o j .shared) s.threads ≤ Fintype.card ι * 2 := by
    refine Finset.sum_le_card_nsmul Finset.univ _ 2 (fun t _ => ?_)
    cases s.threads t with
    | none => exact Nat.zero_le _
    | some p => exact p.shares_le_two j
  rw [State.shares_shared]
  unfold State.references
  unfold State.bound at h
  omega

/-- A step to a state with few handles. -/
def State.nextFew (s : State ι) (l : Label ι) : Option (State ι) :=
  (s.next l).filter (fun s' => s'.bound < REF_COUNT_MAX)

theorem State.step_of_nextFew {s s' : State ι} {l : Label ι} (h : s.nextFew l = some s') :
    (countSystem ι).step s l s' := by
  obtain ⟨hnext, hbound⟩ := Option.filter_eq_some_iff.mp h
  exact ⟨hnext, State.few_of_bound (of_decide_eq_true hbound)⟩

/-- One thread makes a frame, the other one clones the handle while the first one gets another
from the address, and one of the three handles is forgotten. -/
def sampleRun : List (Label Bool) :=
  [.start true (.frameFromUnused 4096), .access true false, .access true false,
    .access true false, .start false (.cloneFrame 1), .start true (.fromInUse 4096),
    .access true false, .access false false, .access true false, .access true false,
    .access true false, .intoRaw (.frame 1)]

theorem countSystem_counted_sample :
    ∃ s, (countSystem Bool).Reachable s ∧ (s.slots 1).refCount = 3 ∧ s.references 1 = 3 ∧
      (s.Counted 1 ∧ s.MetaSafe 1) := by
  obtain ⟨s, hs, hcount⟩ := (countSystem Bool).exists_of_runAll State.nextFew sampleRun
    (fun s => (s.slots 1).refCount == 3) (fun _ _ _ h => State.step_of_nextFew h) rfl (by rfl)
  have hcount : (s.slots 1).refCount = 3 := beq_iff_eq.mp hcount
  have hcounted := countSystem_counted hs 1
  refine ⟨s, hs, hcount, ?_, hcounted⟩
  rw [← hcounted.1.count, hcount]
  all_goals
    rw [hcount]
    decide

end FrameHandles

end Vostd
