/-
# Tagged pointers

Pointer types that can be kept as one non-null word (`rcu/non_null/mod.rs`) and the sum of
two of them (`rcu/non_null/either.rs`).  `Either` tells its sides apart by one bit of the
address, the highest one that the alignment of both sides leaves free, and hands the bits
below it on to the type it is nested in.  What makes the nesting work is one statement about
words: a tag written at a bit that is zero can be read and taken off again (`removeBits_right`).
-/
import Vostd.Lib.BitFields

namespace Vostd

/-! ## A tag in a zero bit -/

section

variable {w : ℕ} {a : BitVec w} {b : ℕ}

/-- A number is a multiple of a power of two when its low bits are zero. -/
theorem two_pow_dvd_iff_getLsbD : 2 ^ b ∣ a.toNat ↔ ∀ j < b, a.getLsbD j = false := by
  constructor
  · rintro ⟨q, hq⟩ j hj
    rw [BitVec.getLsbD, hq, Nat.testBit_two_pow_mul]
    simp [hj]
  · intro h
    apply Nat.dvd_of_mod_eq_zero
    apply Nat.eq_of_testBit_eq
    intro j
    rw [Nat.testBit_mod_two_pow, Nat.zero_testBit]
    by_cases hj : j < b
    · have hbit : a.toNat.testBit j = false := h j hj
      rw [hbit, Bool.and_false]
    · simp [hj]

theorem getLsbD_of_two_pow_succ_dvd (h : 2 ^ (b + 1) ∣ a.toNat) : a.getLsbD b = false :=
  two_pow_dvd_iff_getLsbD.mp h b (Nat.lt_succ_self b)

/-- A word that is not zero is a multiple of powers of two below its width only. -/
theorem lt_width_of_two_pow_dvd (h : 2 ^ b ∣ a.toNat) (hne : a ≠ 0) : b < w := by
  by_contra hb
  apply hne
  apply BitVec.eq_of_getLsbD_eq
  intro j hj
  rw [two_pow_dvd_iff_getLsbD.mp h j (by omega)]
  simp

/-- The mask of a bit that is zero selects nothing. -/
theorem and_twoPow_of_getLsbD (h : a.getLsbD b = false) : a &&& BitVec.twoPow w b = 0 := by
  apply and_eq_zero_of_forall
  intro k hk
  rw [BitVec.getLsbD_twoPow]
  by_cases hbk : b = k
  · subst hbk
    rw [h] at hk
    contradiction
  · simp [hbk]

/-- A bit that is zero can be cleared. -/
theorem and_not_twoPow_of_getLsbD (h : a.getLsbD b = false) :
    a &&& ~~~BitVec.twoPow w b = a := by
  apply BitVec.eq_of_getLsbD_eq
  intro k hk
  by_cases hbk : b = k
  · subst hbk
    simp [h]
  · rw [BitVec.getLsbD_and, BitVec.getLsbD_not, BitVec.getLsbD_twoPow]
    simp [hk, hbk]

/-- The tag is taken off. -/
theorem or_twoPow_and_not (h : a.getLsbD b = false) :
    (a ||| BitVec.twoPow w b) &&& ~~~BitVec.twoPow w b = a := by
  apply or_and_of_disjoint (and_not_twoPow_of_getLsbD h)
  exact BitVec.and_not_self _

/-- The tag is read. -/
theorem or_twoPow_and (hb : b < w) : (a ||| BitVec.twoPow w b) &&& BitVec.twoPow w b ≠ 0 := by
  rw [and_twoPow_ne_zero hb]
  simp [hb]

/-- The bits below the tag are those of the address. -/
theorem two_pow_dvd_or_twoPow (h : 2 ^ b ∣ a.toNat) :
    2 ^ b ∣ (a ||| BitVec.twoPow w b).toNat := by
  rw [two_pow_dvd_iff_getLsbD] at h ⊢
  intro j hj
  have hne : b ≠ j := by omega
  simp [BitVec.getLsbD_twoPow, h j hj, hne]

end

namespace NonNullPtr

variable {w : ℕ}

/-! ## The pointer types -/

/-- A type with a `NonNullPtr` implementation, together with the `Ref` type of its
`NonNullPtrRef` implementation, on a machine with addresses of `w` bits. -/
structure Pointer (w : ℕ) where
  Val : Type
  Ref : Type
  /-- `ALIGN_BITS`: that many low bits of the raw pointers are zero. -/
  alignBits : ℕ
  intoRaw : Val → BitVec w
  fromRaw : BitVec w → Val
  rawAsRef : BitVec w → Ref
  refAsRaw : Ref → BitVec w

/-- `Box<T>`: a `BoxRef` is the raw pointer it was made from. -/
def box (Box : Type) (alignBits : ℕ) (intoRaw : Box → BitVec w) (fromRaw : BitVec w → Box) :
    Pointer w where
  Val := Box
  Ref := BitVec w
  alignBits := alignBits
  intoRaw := intoRaw
  fromRaw := fromRaw
  rawAsRef raw := raw
  refAsRaw inner := inner

/-- `Arc<T>`: an `ArcRef` is an `Arc` made from the raw pointer that is never dropped. -/
def arc (Arc : Type) (alignBits : ℕ) (intoRaw : Arc → BitVec w) (fromRaw : BitVec w → Arc) :
    Pointer w where
  Val := Arc
  Ref := Arc
  alignBits := alignBits
  intoRaw := intoRaw
  fromRaw := fromRaw
  rawAsRef := fromRaw
  refAsRaw := intoRaw

/-- `remove_bits`: the bits of the address that are removed, and the address without them. -/
def removeBits (ptr bits : BitVec w) : BitVec w × BitVec w :=
  (ptr &&& bits, ptr &&& ~~~bits)

/-- `min(L::ALIGN_BITS, R::ALIGN_BITS).checked_sub(1)`, the constant that fails to evaluate
for sides without an alignment bit. -/
def eitherAlignBits (L R : Pointer w) : Option ℕ :=
  if 1 ≤ min L.alignBits R.alignBits then some (min L.alignBits R.alignBits - 1) else none

/-- `1 << Self::ALIGN_BITS` -/
def tag (w bits : ℕ) : BitVec w :=
  1#w <<< bits

/-- The `NonNullPtr` implementation of `Either<L, R>`, where `bits` is its `ALIGN_BITS`. -/
def either (L R : Pointer w) (bits : ℕ) : Pointer w where
  Val := L.Val ⊕ R.Val
  Ref := L.Ref ⊕ R.Ref
  alignBits := bits
  intoRaw
    | .inl left => L.intoRaw left
    | .inr right => R.intoRaw right ||| tag w bits
  fromRaw ptr :=
    let (isRight, realPtr) := removeBits ptr (tag w bits)
    if isRight = 0 then .inl (L.fromRaw realPtr) else .inr (R.fromRaw realPtr)
  rawAsRef raw :=
    let (isRight, realPtr) := removeBits raw (tag w bits)
    if isRight = 0 then .inl (L.rawAsRef realPtr) else .inr (R.rawAsRef realPtr)
  refAsRaw
    | .inl left => L.refAsRaw left
    | .inr right => R.refAsRaw right ||| tag w bits

/-! ## Nestings

A nesting is a tree of `Either`s over leaf types.  It exists only where `ALIGN_BITS` does at
each of its `Either`s, which is what the compiler checks. -/

/-- The pointer types built from the leaf types by `Either`. -/
inductive Nesting {κ : Type} (leafType : κ → Pointer w) : Pointer w → Type 1
  | leaf (k : κ) : Nesting leafType (leafType k)
  | either {L R : Pointer w} {bits : ℕ} (left : Nesting leafType L)
      (right : Nesting leafType R) (hbits : eitherAlignBits L R = some bits) :
      Nesting leafType (either L R bits)

/-- One choice of a side. -/
inductive Side where
  | left
  | right
  deriving DecidableEq, Repr

section

variable {κ : Type} {leafType : κ → Pointer w}

/-- The choices a value makes, from the outermost `Either` inwards. -/
def Nesting.choices : {P : Pointer w} → Nesting leafType P → P.Val → List Side
  | _, .leaf _, _ => []
  | _, .either left _ _, .inl l => .left :: left.choices l
  | _, .either _ right _, .inr r => .right :: right.choices r

/-- The leaf type a value belongs to and the value of it. -/
def Nesting.leafVal : {P : Pointer w} → Nesting leafType P → P.Val → Σ k, (leafType k).Val
  | _, .leaf k, v => ⟨k, v⟩
  | _, .either left _ _, .inl l => left.leafVal l
  | _, .either _ right _, .inr r => right.leafVal r

/-- The choices a reference makes. -/
def Nesting.refChoices : {P : Pointer w} → Nesting leafType P → P.Ref → List Side
  | _, .leaf _, _ => []
  | _, .either left _ _, .inl l => .left :: left.refChoices l
  | _, .either _ right _, .inr r => .right :: right.refChoices r

/-- The leaf type a reference is to and the reference to it. -/
def Nesting.leafRef : {P : Pointer w} → Nesting leafType P → P.Ref → Σ k, (leafType k).Ref
  | _, .leaf k, v => ⟨k, v⟩
  | _, .either left _ _, .inl l => left.leafRef l
  | _, .either _ right _, .inr r => right.leafRef r

end

/-! ## The contract -/

/-- What `NonNullPtr` asks of an implementation. -/
structure Lawful (P : Pointer w) : Prop where
  nonNull : ∀ v, P.intoRaw v ≠ 0
  aligned : ∀ v, 2 ^ P.alignBits ∣ (P.intoRaw v).toNat
  fromRaw_intoRaw : ∀ v, P.fromRaw (P.intoRaw v) = v
  refAsRaw_rawAsRef : ∀ v, P.refAsRaw (P.rawAsRef (P.intoRaw v)) = P.intoRaw v

/-- The references of a `Box` keep the address. -/
theorem box_lawful {Box : Type} {bits : ℕ} {into : Box → BitVec w} {back : BitVec w → Box}
    (hnull : ∀ v, into v ≠ 0) (haligned : ∀ v, 2 ^ bits ∣ (into v).toNat)
    (hback : ∀ v, back (into v) = v) : Lawful (box Box bits into back) where
  nonNull := hnull
  aligned := haligned
  fromRaw_intoRaw := hback
  refAsRaw_rawAsRef _ := rfl

/-- The references of an `Arc` give the address of the `Arc` they keep. -/
theorem arc_lawful {Arc : Type} {bits : ℕ} {into : Arc → BitVec w} {back : BitVec w → Arc}
    (hnull : ∀ v, into v ≠ 0) (haligned : ∀ v, 2 ^ bits ∣ (into v).toNat)
    (hback : ∀ v, back (into v) = v) : Lawful (arc Arc bits into back) where
  nonNull := hnull
  aligned := haligned
  fromRaw_intoRaw := hback
  refAsRaw_rawAsRef v := by
    exact congrArg into (hback v)

/-! ## One `Either` -/

section

variable {L R : Pointer w} {bits : ℕ}

theorem lt_of_eitherAlignBits (hbits : eitherAlignBits L R = some bits) :
    bits + 1 ≤ L.alignBits ∧ bits + 1 ≤ R.alignBits := by
  unfold eitherAlignBits at hbits
  split at hbits
  · rw [Option.some.injEq] at hbits
    omega
  · contradiction

theorem tag_eq_twoPow : tag w bits = BitVec.twoPow w bits := by
  rfl

/-- The bit of the tag is zero in the addresses of both sides. -/
theorem Lawful.getLsbD_intoRaw {P : Pointer w} (hP : Lawful P) (h : bits + 1 ≤ P.alignBits)
    (v : P.Val) : (P.intoRaw v).getLsbD bits = false :=
  getLsbD_of_two_pow_succ_dvd ((pow_dvd_pow 2 h).trans (hP.aligned v))

theorem Lawful.lt_width {P : Pointer w} (hP : Lawful P) (h : bits + 1 ≤ P.alignBits)
    (v : P.Val) : bits < w := by
  have := lt_width_of_two_pow_dvd (hP.aligned v) (hP.nonNull v)
  omega

/-- An address of the left side carries no tag. -/
theorem removeBits_left (hL : Lawful L) (h : bits + 1 ≤ L.alignBits) (l : L.Val) :
    removeBits (L.intoRaw l) (tag w bits) = (0, L.intoRaw l) := by
  have hzero := hL.getLsbD_intoRaw h l
  unfold removeBits
  rw [tag_eq_twoPow, and_twoPow_of_getLsbD hzero, and_not_twoPow_of_getLsbD hzero]

/-- An address of the right side carries one, and it comes off. -/
theorem removeBits_right (hR : Lawful R) (h : bits + 1 ≤ R.alignBits) (r : R.Val) :
    (removeBits (R.intoRaw r ||| tag w bits) (tag w bits)).1 ≠ 0 ∧
      (removeBits (R.intoRaw r ||| tag w bits) (tag w bits)).2 = R.intoRaw r := by
  unfold removeBits
  rw [tag_eq_twoPow]
  constructor
  · exact or_twoPow_and (hR.lt_width h r)
  · exact or_twoPow_and_not (hR.getLsbD_intoRaw h r)

theorem either_fromRaw_left (hL : Lawful L) (h : bits + 1 ≤ L.alignBits) (l : L.Val) :
    (either L R bits).fromRaw (L.intoRaw l) = .inl l := by
  unfold either
  dsimp only
  rw [removeBits_left hL h]
  dsimp only
  rw [if_pos rfl, hL.fromRaw_intoRaw]

theorem either_fromRaw_right (hR : Lawful R) (h : bits + 1 ≤ R.alignBits) (r : R.Val) :
    (either L R bits).fromRaw (R.intoRaw r ||| tag w bits) = .inr r := by
  obtain ⟨htag, hreal⟩ := removeBits_right hR h r
  unfold either
  dsimp only
  rw [if_neg htag, hreal, hR.fromRaw_intoRaw]

theorem either_rawAsRef_left (hL : Lawful L) (h : bits + 1 ≤ L.alignBits) (l : L.Val) :
    (either L R bits).rawAsRef (L.intoRaw l) = .inl (L.rawAsRef (L.intoRaw l)) := by
  unfold either
  dsimp only
  rw [removeBits_left hL h]
  dsimp only
  rw [if_pos rfl]

theorem either_rawAsRef_right (hR : Lawful R) (h : bits + 1 ≤ R.alignBits) (r : R.Val) :
    (either L R bits).rawAsRef (R.intoRaw r ||| tag w bits) =
      .inr (R.rawAsRef (R.intoRaw r)) := by
  obtain ⟨htag, hreal⟩ := removeBits_right hR h r
  unfold either
  dsimp only
  rw [if_neg htag, hreal]

/-- **`Either` keeps the contract.** -/
theorem Lawful.either (hL : Lawful L) (hR : Lawful R)
    (hbits : eitherAlignBits L R = some bits) : Lawful (either L R bits) := by
  obtain ⟨hl, hr⟩ := lt_of_eitherAlignBits hbits
  constructor
  case nonNull =>
    rintro (l | r) hzero
    · exact hL.nonNull l hzero
    · obtain ⟨htag, -⟩ := removeBits_right hR hr r
      apply htag
      have hzero' : R.intoRaw r ||| tag w bits = 0 := hzero
      rw [hzero', removeBits]
      exact BitVec.zero_and
  case aligned =>
    rintro (l | r)
    · exact (pow_dvd_pow 2 (by omega : bits ≤ L.alignBits)).trans (hL.aligned l)
    · show 2 ^ bits ∣ (R.intoRaw r ||| tag w bits).toNat
      rw [tag_eq_twoPow]
      apply two_pow_dvd_or_twoPow
      exact (pow_dvd_pow 2 (by omega : bits ≤ R.alignBits)).trans (hR.aligned r)
  case fromRaw_intoRaw =>
    rintro (l | r)
    · exact either_fromRaw_left hL hl l
    · exact either_fromRaw_right hR hr r
  case refAsRaw_rawAsRef =>
    rintro (l | r)
    · show (NonNullPtr.either L R bits).refAsRaw ((NonNullPtr.either L R bits).rawAsRef _) = _
      rw [show (NonNullPtr.either L R bits).intoRaw (.inl l) = L.intoRaw l from rfl,
        either_rawAsRef_left hL hl]
      exact hL.refAsRaw_rawAsRef l
    · show (NonNullPtr.either L R bits).refAsRaw ((NonNullPtr.either L R bits).rawAsRef _) = _
      rw [show (NonNullPtr.either L R bits).intoRaw (.inr r) =
        R.intoRaw r ||| tag w bits from rfl, either_rawAsRef_right hR hr]
      show R.refAsRaw (R.rawAsRef (R.intoRaw r)) ||| _ = _
      rw [hR.refAsRaw_rawAsRef]

end

/-! ## Every nesting -/

section

variable {κ : Type} {leafType : κ → Pointer w} {P : Pointer w}

theorem Nesting.lawful (hleaf : ∀ k, Lawful (leafType k)) (N : Nesting leafType P) :
    Lawful P := by
  induction N with
  | leaf k => exact hleaf k
  | either left right hbits ihl ihr => exact ihl.either ihr hbits

/-- `raw_as_ref` finds the leaf the value was put into, by the same choices. -/
theorem Nesting.rawAsRef_spec (hleaf : ∀ k, Lawful (leafType k)) (N : Nesting leafType P)
    (v : P.Val) :
    N.refChoices (P.rawAsRef (P.intoRaw v)) = N.choices v ∧
      N.leafRef (P.rawAsRef (P.intoRaw v)) =
        ⟨(N.leafVal v).1, (leafType _).rawAsRef ((leafType _).intoRaw (N.leafVal v).2)⟩ := by
  induction N with
  | leaf k => exact ⟨rfl, rfl⟩
  | @either L R bits left right hbits ihl ihr =>
    obtain ⟨hl, hr⟩ := lt_of_eitherAlignBits hbits
    rcases v with l | r
    · rw [show (NonNullPtr.either L R bits).intoRaw (.inl l) = L.intoRaw l from rfl,
        either_rawAsRef_left (left.lawful hleaf) hl]
      exact ⟨congrArg (Side.left :: ·) (ihl l).1, (ihl l).2⟩
    · rw [show (NonNullPtr.either L R bits).intoRaw (.inr r) =
        R.intoRaw r ||| tag w bits from rfl, either_rawAsRef_right (right.lawful hleaf) hr]
      exact ⟨congrArg (Side.right :: ·) (ihr r).1, (ihr r).2⟩

/-- **Tagged pointers.**  Under every nesting of `Either` an address is non-null and aligned,
gives its value back with all its choices, refers to the leaf it was made from, and is not the
address of a value with other choices. -/
theorem nesting_tagged_pointers (hleaf : ∀ k, Lawful (leafType k)) (N : Nesting leafType P) :
    (∀ v, P.intoRaw v ≠ 0 ∧ 2 ^ P.alignBits ∣ (P.intoRaw v).toNat) ∧
    (∀ v, P.fromRaw (P.intoRaw v) = v ∧
      N.choices (P.fromRaw (P.intoRaw v)) = N.choices v) ∧
    (∀ v, N.refChoices (P.rawAsRef (P.intoRaw v)) = N.choices v ∧
      N.leafRef (P.rawAsRef (P.intoRaw v)) =
        ⟨(N.leafVal v).1, (leafType _).rawAsRef ((leafType _).intoRaw (N.leafVal v).2)⟩ ∧
      P.refAsRaw (P.rawAsRef (P.intoRaw v)) = P.intoRaw v) ∧
    (∀ v v', N.choices v ≠ N.choices v' → P.intoRaw v ≠ P.intoRaw v') := by
  have hP := N.lawful hleaf
  refine ⟨?_, ?_, ?_, ?_⟩
  · intro v
    exact ⟨hP.nonNull v, hP.aligned v⟩
  · intro v
    rw [hP.fromRaw_intoRaw]
    exact ⟨rfl, rfl⟩
  · intro v
    obtain ⟨hchoices, href⟩ := N.rawAsRef_spec hleaf v
    exact ⟨hchoices, href, hP.refAsRaw_rawAsRef v⟩
  · intro v v' hne heq
    apply hne
    rw [← hP.fromRaw_intoRaw v, heq, hP.fromRaw_intoRaw]

end

/-! A nesting of two levels over addresses that are multiples of eight. -/

/-- A value at a multiple of eight. -/
abbrev Aligned8 := {a : BitVec 64 // a ≠ 0 ∧ 2 ^ 3 ∣ a.toNat}

def Aligned8.ofRaw (a : BitVec 64) : Aligned8 :=
  if h : a ≠ 0 ∧ 2 ^ 3 ∣ a.toNat then ⟨a, h⟩ else ⟨8, by decide⟩

theorem Aligned8.ofRaw_val (v : Aligned8) : Aligned8.ofRaw v.1 = v := by
  unfold Aligned8.ofRaw
  rw [dif_pos v.2]

/-- A `Box` and an `Arc` of something of alignment eight. -/
def sampleLeaf : Bool → Pointer 64
  | false => box Aligned8 3 Subtype.val Aligned8.ofRaw
  | true => arc Aligned8 3 Subtype.val Aligned8.ofRaw

theorem sampleLeaf_lawful (k : Bool) : Lawful (sampleLeaf k) := by
  cases k
  · exact box_lawful (fun v => v.2.1) (fun v => v.2.2) Aligned8.ofRaw_val
  · exact arc_lawful (fun v => v.2.1) (fun v => v.2.2) Aligned8.ofRaw_val

/-- `Either<Either<Box, Arc>, Arc>`. -/
def sampleNesting :
    Nesting sampleLeaf (either (either (sampleLeaf false) (sampleLeaf true) 2)
      (sampleLeaf true) 1) :=
  .either (.either (.leaf false) (.leaf true) rfl) (.leaf true) rfl

/-- The inner `Arc` at 16 and the outer `Arc` at 16 get the addresses 20 and 18. -/
theorem nesting_tagged_pointers_sample :
    (∀ k, Lawful (sampleLeaf k)) ∧
      (either (either (sampleLeaf false) (sampleLeaf true) 2) (sampleLeaf true) 1).intoRaw
        (.inl (.inr ⟨16, by decide⟩)) = 20 ∧
      (either (either (sampleLeaf false) (sampleLeaf true) 2) (sampleLeaf true) 1).intoRaw
        (.inr ⟨16, by decide⟩) = 18 ∧
      sampleNesting.choices
        ((either (either (sampleLeaf false) (sampleLeaf true) 2) (sampleLeaf true) 1).fromRaw
          20) = [.left, .right] := by
  refine ⟨sampleLeaf_lawful, by decide, by decide, ?_⟩
  obtain ⟨-, hback, -, -⟩ := nesting_tagged_pointers sampleLeaf_lawful sampleNesting
  exact (hback (.inl (.inr ⟨16, by decide⟩))).2

end NonNullPtr

end Vostd
