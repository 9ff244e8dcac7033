/-
# The DMAR table

`Dmar::new` reads the table that the firmware left in memory: a header of forty-eight bytes
with the table's length, then remapping structures up to that length.  The bytes come from
outside of the kernel, so the question is what the routine does on any bytes at all.

It returns on exactly the tables that are a concatenation of well-formed structures
(`Dmar.new_eq_ok_iff`), it panics on every other one, and its debug assertions never decide
anything (`Dmar.new_total`).
-/
import Vostd.Acpi.Remapping

namespace Vostd.Acpi

open Exec

variable {slice piece : List UInt8} {r : Remapping} {index : ℕ} {debug : Bool}

/-! ## The model -/

/-- The header of the system description tables, as far as it is read. -/
structure SdtHeader where
  signature : Layout.Bytes 4
  length : UInt32
  rest : Layout.Bytes 28
  deriving DecidableEq

structure DmarHeader where
  header : SdtHeader
  hostAddressWidth : UInt8
  flags : UInt8
  reserved : Layout.Bytes 10
  deriving DecidableEq

def SdtHeader.layout : Layout SdtHeader :=
  Layout.map
    { toFun := fun p => ⟨p.1, p.2.1, p.2.2⟩
      invFun := fun h => (h.signature, h.length, h.rest)
      left_inv := fun _ => rfl
      right_inv := fun _ => rfl }
    ((Layout.bytes 4).prod (Layout.u32.prod (Layout.bytes 28)))

def DmarHeader.layout : Layout DmarHeader :=
  Layout.map
    { toFun := fun p => ⟨p.1, p.2.1, p.2.2.1, p.2.2.2⟩
      invFun := fun h => (h.header, h.hostAddressWidth, h.flags, h.reserved)
      left_inv := fun _ => rfl
      right_inv := fun _ => rfl }
    (SdtHeader.layout.prod (Layout.u8.prod (Layout.u8.prod (Layout.bytes 10))))

inductive Remapping : Type where
  | drhd (d : Drhd)
  | rmrr (r : Rmrr)
  | atsr (a : Atsr)
  | rhsa (r : Rhsa)
  | andd (a : Andd)
  | satc (s : Satc)
  | sidp (s : Sidp)
  deriving DecidableEq, Repr

structure Dmar where
  header : DmarHeader
  remappingStructures : List Remapping
  deriving DecidableEq

/-- `&slice[start..stop]`. -/
def subslice (slice : List UInt8) (start stop : ℕ) : Exec (List UInt8) :=
  if start ≤ stop ∧ stop ≤ slice.length then .ok (window slice start stop) else .error .assertion

/-- The `match` on the type of a remapping structure. -/
def Remapping.fromBytes (debug : Bool) (typ : ℕ) (bytes : List UInt8) : Exec Remapping :=
  match typ with
  | 0 => Remapping.drhd <$> Drhd.fromBytes debug bytes
  | 1 => Remapping.rmrr <$> Rmrr.fromBytes debug bytes
  | 2 => Remapping.atsr <$> Atsr.fromBytes debug bytes
  | 3 => Remapping.rhsa <$> Rhsa.fromBytes debug bytes
  | 4 => Remapping.andd <$> Andd.fromBytes debug bytes
  | 5 => Remapping.satc <$> Satc.fromBytes debug bytes
  | 6 => Remapping.sidp <$> Sidp.fromBytes debug bytes
  | _ => .error .assertion

/-- One round of the loop: the common header, the slice it delimits, the structure in it. -/
def remappingAt (debug : Bool) (slice : List UInt8) (index : ℕ) : Exec (Remapping × ℕ) := do
  let typ ← subslice slice index (index + 2)
  let length ← subslice slice (index + 2) (index + 4)
  let bytes ← subslice slice index (index + (Layout.u16.ofBytes length).toNat)
  let remapping ← Remapping.fromBytes debug (Layout.u16.ofBytes typ).toNat bytes
  .ok (remapping, (Layout.u16.ofBytes length).toNat)

/-- `Dmar::new()`, for the bytes that `find_table` maps if there is such a table. -/
def Dmar.new (debug : Bool) (table : Option (List UInt8)) : Exec (Option Dmar) :=
  match table with
  | none => .ok none
  | some slice => do
    let header ← podFromBytes DmarHeader.layout 48 slice
    let remappingStructures ←
      records (remappingAt debug slice) header.header.length.toNat (slice.length + 1) 48
    .ok (some ⟨header, remappingStructures⟩)

/-! ## The format -/

/-- A structure with scopes of a given type is written as the piece. -/
def Scoped.Encodes {H : Type} (L : HeaderLayout H) (typ : ℕ) (s : Scoped H)
    (piece : List UInt8) : Prop :=
  piece = s.toBytes L ∧ s.WF L ∧ (L.typ s.header).toNat = typ

/-- The piece is a well-formed encoding of the structure.  The bytes of an RHSA structure
behind its fields are not looked at, but the first four of them have to be there. -/
def Remapping.Encodes : Remapping → List UInt8 → Prop
  | .drhd d, piece => d.Encodes DrhdHeader.layout 0 piece
  | .rmrr r, piece => r.Encodes RmrrHeader.layout 1 piece
  | .atsr a, piece => a.Encodes AtsrHeader.layout 2 piece
  | .rhsa r, piece => 24 ≤ piece.length ∧ piece.take 20 = Rhsa.layout.toBytes r ∧
      r.length.toNat = piece.length ∧ r.typ.toNat = 3
  | .andd a, piece => piece = a.toBytes ∧ a.header.length.toNat = piece.length ∧
      a.header.typ.toNat = 4
  | .satc s, piece => s.Encodes SatcHeader.layout 5 piece
  | .sidp s, piece => s.Encodes SidpHeader.layout 6 piece

/-- The table is written as the start of the bytes. -/
def Dmar.Encodes (t : Dmar) (slice : List UInt8) : Prop :=
  ∃ body rest, slice = DmarHeader.layout.toBytes t.header ++ body ++ rest ∧
    Pieces Remapping.Encodes t.remappingStructures body ∧
    t.header.header.length.toNat = 48 + body.length

/-! ## One structure -/

theorem subslice_eq_ok {bytes : List UInt8} {start stop : ℕ} :
    subslice slice start stop = .ok bytes ↔
      start ≤ stop ∧ stop ≤ slice.length ∧ window slice start stop = bytes := by
  unfold subslice
  by_cases h : start ≤ stop ∧ stop ≤ slice.length
  · rw [if_pos h]
    constructor
    · intro heq
      exact ⟨h.1, h.2, Except.ok.inj heq⟩
    · rintro ⟨_, _, rfl⟩
      rfl
  · rw [if_neg h]
    constructor
    · intro heq
      cases heq
    · rintro ⟨h1, h2, _⟩
      exact absurd ⟨h1, h2⟩ h

theorem panics_subslice (slice : List UInt8) (start stop : ℕ) :
    Panics (subslice slice start stop) :=
  post_ite (fun _ => trivial) (fun _ => rfl)

theorem map_eq_ok {α β : Type} {f : α → β} {x : Exec α} {b : β} :
    f <$> x = .ok b ↔ ∃ a, x = .ok a ∧ f a = b := by
  cases x with
  | ok a => simp [Functor.map, Except.map]
  | error e => simp [Functor.map, Except.map]

theorem panics_map {α β : Type} {f : α → β} {x : Exec α} (h : Panics x) : Panics (f <$> x) := by
  cases x with
  | ok a => trivial
  | error e => exact h

/-- The type and length that the structure's own header has are the ones in front of it. -/
theorem HeaderLayout.common_toBytes {H : Type} (L : HeaderLayout H) (h : H) (rest : List UInt8) :
    commonHeader.ofBytes (L.toBytes h ++ rest) = (L.typ h, L.length h) := by
  rw [L.common_ofBytes, L.ofBytes_append]

theorem Scoped.encodes_iff {H : Type} (debug : Bool) {L : HeaderLayout H} {s : Scoped H}
    (hlen : (commonHeader.ofBytes piece).2.toNat = piece.length) (typ : ℕ) :
    (commonHeader.ofBytes piece).1.toNat = typ ∧ Scoped.fromBytes debug L piece = .ok s ↔
      s.Encodes L typ piece := by
  rw [Scoped.fromBytes_eq_ok hlen, Scoped.Encodes]
  constructor
  · rintro ⟨htyp, rfl, hwf⟩
    refine ⟨rfl, hwf, ?_⟩
    rw [Scoped.toBytes, L.common_toBytes] at htyp
    exact htyp
  · rintro ⟨rfl, hwf, htyp⟩
    refine ⟨?_, rfl, hwf⟩
    rw [Scoped.toBytes, L.common_toBytes]
    exact htyp

theorem Rhsa.encodes_iff (debug : Bool) {r : Rhsa}
    (hlen : (commonHeader.ofBytes piece).2.toNat = piece.length) :
    (commonHeader.ofBytes piece).1.toNat = 3 ∧ Rhsa.fromBytes debug piece = .ok r ↔
      (Remapping.rhsa r).Encodes piece := by
  rw [Rhsa.fromBytes_eq_ok hlen, Remapping.Encodes]
  constructor
  · rintro ⟨htyp, hsize, rfl⟩
    rw [Rhsa.layout.common_ofBytes] at htyp hlen
    have h20 : Rhsa.layout.size ≤ piece.length := Nat.le_trans (by decide) hsize
    exact ⟨hsize, (Rhsa.layout.toBytes_ofBytes piece h20).symm, hlen, htyp⟩
  · rintro ⟨hsize, htake, -, htyp⟩
    have hsplit : piece = Rhsa.layout.toBytes r ++ piece.drop 20 := by
      rw [← htake, List.take_append_drop]
    refine ⟨?_, hsize, ?_⟩
    · rw [hsplit, Rhsa.layout.common_toBytes]
      exact htyp
    · rw [hsplit, Layout.ofBytes_append]

theorem Andd.encodes_iff (debug : Bool) {a : Andd}
    (hlen : (commonHeader.ofBytes piece).2.toNat = piece.length) :
    (commonHeader.ofBytes piece).1.toNat = 4 ∧ Andd.fromBytes debug piece = .ok a ↔
      (Remapping.andd a).Encodes piece := by
  rw [Andd.fromBytes_eq_ok hlen, Remapping.Encodes]
  constructor
  · rintro ⟨htyp, rfl, hwf⟩
    refine ⟨rfl, hwf, ?_⟩
    rw [Andd.toBytes, AnddHeader.layout.common_toBytes] at htyp
    exact htyp
  · rintro ⟨rfl, hwf, htyp⟩
    refine ⟨?_, rfl, hwf⟩
    rw [Andd.toBytes, AnddHeader.layout.common_toBytes]
    exact htyp

/-- An encoding starts with its own type and length. -/
theorem Remapping.Encodes.common (h : r.Encodes piece) :
    4 ≤ piece.length ∧ (commonHeader.ofBytes piece).2.toNat = piece.length := by
  have hscoped : ∀ {H : Type} (L : HeaderLayout H) (typ : ℕ) (s : Scoped H),
      s.Encodes L typ piece →
        4 ≤ piece.length ∧ (commonHeader.ofBytes piece).2.toNat = piece.length := by
    rintro H L typ s ⟨rfl, hwf, -⟩
    constructor
    · rw [Scoped.toBytes, List.length_append, L.length_toBytes]
      exact Nat.le_trans L.four_le_size (Nat.le_add_right _ _)
    · rw [Scoped.toBytes, L.common_toBytes]
      exact hwf.length_eq
  cases r with
  | drhd d => exact hscoped _ _ d h
  | rmrr r => exact hscoped _ _ r h
  | atsr a => exact hscoped _ _ a h
  | rhsa r =>
    obtain ⟨hsize, htake, hlen, -⟩ := h
    refine ⟨by omega, ?_⟩
    rw [← List.take_append_drop 20 piece, htake, Rhsa.layout.common_toBytes,
      ← htake, List.take_append_drop]
    exact hlen
  | andd a =>
    obtain ⟨rfl, hlen, -⟩ := h
    constructor
    · rw [Andd.toBytes, List.length_append, Layout.length_toBytes]
      exact Nat.le_trans AnddHeader.layout.four_le_size (Nat.le_add_right _ _)
    · rw [Andd.toBytes, AnddHeader.layout.common_toBytes, ← Andd.toBytes]
      exact hlen
  | satc s => exact hscoped _ _ s h
  | sidp s => exact hscoped _ _ s h

/-- The `match` reads a piece of its own length exactly when the piece is an encoding. -/
theorem Remapping.fromBytes_eq_ok (debug : Bool)
    (hlen : (commonHeader.ofBytes piece).2.toNat = piece.length) :
    Remapping.fromBytes debug (commonHeader.ofBytes piece).1.toNat piece = .ok r ↔
      r.Encodes piece := by
  constructor
  · intro h
    unfold Remapping.fromBytes at h
    split at h
    case h_8 => cases h
    all_goals
      rename_i htyp
      obtain ⟨val, hval, rfl⟩ := map_eq_ok.mp h
    · exact (Scoped.encodes_iff debug hlen 0).mp ⟨htyp, hval⟩
    · exact (Scoped.encodes_iff debug hlen 1).mp ⟨htyp, hval⟩
    · exact (Scoped.encodes_iff debug hlen 2).mp ⟨htyp, hval⟩
    · exact (Rhsa.encodes_iff debug hlen).mp ⟨htyp, hval⟩
    · exact (Andd.encodes_iff debug hlen).mp ⟨htyp, hval⟩
    · exact (Scoped.encodes_iff debug hlen 5).mp ⟨htyp, hval⟩
    · exact (Scoped.encodes_iff debug hlen 6).mp ⟨htyp, hval⟩
  · intro h
    cases r with
    | drhd d =>
      obtain ⟨htyp, hval⟩ := (Scoped.encodes_iff debug hlen 0).mpr h
      rw [htyp, fromBytes]
      exact map_eq_ok.mpr ⟨d, hval, rfl⟩
    | rmrr r =>
      obtain ⟨htyp, hval⟩ := (Scoped.encodes_iff debug hlen 1).mpr h
      rw [htyp, fromBytes]
      exact map_eq_ok.mpr ⟨r, hval, rfl⟩
    | atsr a =>
      obtain ⟨htyp, hval⟩ := (Scoped.encodes_iff debug hlen 2).mpr h
      rw [htyp, fromBytes]
      exact map_eq_ok.mpr ⟨a, hval, rfl⟩
    | rhsa r =>
      obtain ⟨htyp, hval⟩ := (Rhsa.encodes_iff debug hlen).mpr h
      rw [htyp, fromBytes]
      exact map_eq_ok.mpr ⟨r, hval, rfl⟩
    | andd a =>
      obtain ⟨htyp, hval⟩ := (Andd.encodes_iff debug hlen).mpr h
      rw [htyp, fromBytes]
      exact map_eq_ok.mpr ⟨a, hval, rfl⟩
    | satc s =>
      obtain ⟨htyp, hval⟩ := (Scoped.encodes_iff debug hlen 5).mpr h
      rw [htyp, fromBytes]
      exact map_eq_ok.mpr ⟨s, hval, rfl⟩
    | sidp s =>
      obtain ⟨htyp, hval⟩ := (Scoped.encodes_iff debug hlen 6).mpr h
      rw [htyp, fromBytes]
      exact map_eq_ok.mpr ⟨s, hval, rfl⟩

theorem Remapping.panics_fromBytes (debug : Bool) (typ : ℕ) (bytes : List UInt8) :
    Panics (Remapping.fromBytes debug typ bytes) := by
  unfold Remapping.fromBytes
  split
  · exact panics_map (Scoped.panics_fromBytes _ _ _)
  · exact panics_map (Scoped.panics_fromBytes _ _ _)
  · exact panics_map (Scoped.panics_fromBytes _ _ _)
  · exact panics_map (Rhsa.panics_fromBytes _ _)
  · exact panics_map (Andd.panics_fromBytes _ _)
  · exact panics_map (Scoped.panics_fromBytes _ _ _)
  · exact panics_map (Scoped.panics_fromBytes _ _ _)
  · rfl

/-! ## The loop -/

/-- The two words that a round reads first. -/
theorem commonHeader_window (h : index + 4 ≤ slice.length) :
    commonHeader.ofBytes (slice.drop index) =
      (Layout.u16.ofBytes (window slice index (index + 2)),
        Layout.u16.ofBytes (window slice (index + 2) (index + 4))) := by
  have hlen : 4 ≤ (slice.drop index).length := by rw [List.length_drop]; omega
  have h1 := Layout.u16.ofBytes_take (slice.drop index) (n := 2) le_rfl (by omega)
  have h2 := Layout.u16.ofBytes_take (slice.drop (index + 2)) (n := 2) le_rfl
    (by rw [List.length_drop]; omega)
  unfold window
  rw [Nat.add_sub_cancel_left, show index + 4 - (index + 2) = 2 from by omega, h1, h2,
    ← List.drop_drop]
  rfl

theorem panics_remappingAt (debug : Bool) (slice : List UInt8) (index : ℕ) :
    Panics (remappingAt debug slice index) :=
  Post.bind (panics_subslice _ _ _) fun _ _ =>
    Post.bind (panics_subslice _ _ _) fun _ _ =>
      Post.bind (panics_subslice _ _ _) fun _ _ =>
        Post.bind (Remapping.panics_fromBytes _ _ _) fun _ _ => trivial

/-- A round with its four slices taken. -/
theorem remappingAt_eq {n : ℕ} (h4 : index + 4 ≤ slice.length)
    (hn : (commonHeader.ofBytes (slice.drop index)).2.toNat = n) (hle : index + n ≤ slice.length) :
    remappingAt debug slice index =
      (Remapping.fromBytes debug (commonHeader.ofBytes (slice.drop index)).1.toNat
        (window slice index (index + n)) >>= fun r => .ok (r, n)) := by
  rw [commonHeader_window h4] at hn ⊢
  unfold remappingAt
  rw [subslice_eq_ok.mpr ⟨by omega, by omega, rfl⟩, ok_bind,
    subslice_eq_ok.mpr ⟨by omega, h4, rfl⟩, ok_bind, hn,
    subslice_eq_ok.mpr ⟨by omega, hle, rfl⟩, ok_bind]

/-- Every structure has the four bytes of the common header. -/
theorem Remapping.four_le_length {typ : ℕ} {bytes : List UInt8}
    (h : Remapping.fromBytes debug typ bytes = .ok r) : 4 ≤ bytes.length := by
  have hscoped : ∀ {H : Type} (L : HeaderLayout H) (s : Scoped H),
      Scoped.fromBytes debug L bytes = .ok s → 4 ≤ bytes.length := by
    intro H L s hs
    obtain ⟨_, hheader, -⟩ := bind_eq_ok.mp hs
    exact Nat.le_trans L.four_le_size (podFromBytes_eq_ok.mp hheader).1
  unfold Remapping.fromBytes at h
  split at h
  case h_8 => cases h
  all_goals obtain ⟨val, hval, -⟩ := map_eq_ok.mp h
  case h_4 =>
    obtain ⟨_, hheader, -⟩ := bind_eq_ok.mp hval
    exact Nat.le_trans (by decide) (podFromBytes_eq_ok.mp hheader).1
  case h_5 =>
    obtain ⟨_, hheader, -⟩ := bind_eq_ok.mp hval
    exact Nat.le_trans (by decide) (podFromBytes_eq_ok.mp hheader).1
  all_goals exact hscoped _ val hval

/-- A round accepts exactly the encodings of a structure. -/
theorem reads_remappingAt (debug : Bool) (slice : List UInt8) :
    Reads slice (remappingAt debug slice) Remapping.Encodes where
  eq_ok_iff := by
    intro index r n hindex
    constructor
    · intro h
      unfold remappingAt at h
      obtain ⟨_, htyp, h⟩ := bind_eq_ok.mp h
      obtain ⟨_, hlength, h⟩ := bind_eq_ok.mp h
      obtain ⟨bytes, hbytes, h⟩ := bind_eq_ok.mp h
      obtain ⟨remapping, hremapping, h⟩ := bind_eq_ok.mp h
      cases h
      obtain ⟨-, -, rfl⟩ := subslice_eq_ok.mp htyp
      obtain ⟨-, h4, rfl⟩ := subslice_eq_ok.mp hlength
      obtain ⟨-, hle, rfl⟩ := subslice_eq_ok.mp hbytes
      have hcommon := commonHeader_window h4
      generalize hn : (Layout.u16.ofBytes (window slice (index + 2) (index + 4))).toNat = n at *
      have hlen : (window slice index (index + n)).length = n := by
        rw [length_window hle, Nat.add_sub_cancel_left]
      have hfour := Remapping.four_le_length hremapping
      -- the piece starts with the words that delimit it
      have hpiece : commonHeader.ofBytes (window slice index (index + n)) =
          commonHeader.ofBytes (slice.drop index) := by
        unfold window
        rw [Nat.add_sub_cancel_left]
        refine commonHeader.ofBytes_take _ ?_ (by rw [List.length_drop]; omega)
        rw [hlen] at hfour
        exact hfour
      have hown : (commonHeader.ofBytes (window slice index (index + n))).2.toNat =
          (window slice index (index + n)).length := by
        rw [hpiece, hcommon, hlen]
        exact hn
      refine ⟨window slice index (index + n), (slice.drop index).drop n, ?_, hlen, ?_⟩
      · rw [window, Nat.add_sub_cancel_left, List.take_append_drop]
      · refine (Remapping.fromBytes_eq_ok debug hown).mp ?_
        rw [hpiece, hcommon]
        exact hremapping
    · rintro ⟨piece, rest, hdrop, rfl, henc⟩
      obtain ⟨hfour, hown⟩ := henc.common
      have hsum := congrArg List.length hdrop
      rw [List.length_drop, List.length_append] at hsum
      have hcommon : commonHeader.ofBytes (slice.drop index) = commonHeader.ofBytes piece := by
        rw [hdrop]
        exact commonHeader.ofBytes_append_of_le piece hfour rest
      have hwin : window slice index (index + piece.length) = piece := by
        rw [window, Nat.add_sub_cancel_left, hdrop, List.take_left' rfl]
      have hn : (commonHeader.ofBytes (slice.drop index)).2.toNat = piece.length := by
        rw [hcommon, hown]
      rw [remappingAt_eq (by omega) hn (by omega), hwin, hcommon,
        (Remapping.fromBytes_eq_ok debug hown).mpr henc, ok_bind]
  length_pos := by
    intro r piece h
    have := h.common.1
    omega

/-! ## The table -/

theorem Dmar.new_some (debug : Bool) (slice : List UInt8) :
    Dmar.new debug (some slice) =
      (podFromBytes DmarHeader.layout 48 slice >>= fun header =>
        records (remappingAt debug slice) header.header.length.toNat (slice.length + 1) 48 >>=
          fun remappingStructures => .ok (some ⟨header, remappingStructures⟩)) := rfl

/-- **What the table's reader accepts**: the bytes that start with the encoding of a table,
a header whose length is met exactly by well-formed structures; and it returns that table. -/
theorem Dmar.new_eq_ok_iff (debug : Bool) (slice : List UInt8) (t : Dmar) :
    Dmar.new debug (some slice) = .ok (some t) ↔ t.Encodes slice := by
  rw [Dmar.new_some]
  constructor
  · intro h
    obtain ⟨header, hheader, h⟩ := bind_eq_ok.mp h
    obtain ⟨structures, hstructures, h⟩ := bind_eq_ok.mp h
    cases h
    obtain ⟨hsize, rfl⟩ := podFromBytes_eq_ok.mp hheader
    obtain ⟨hle, hstop, hpieces⟩ :=
      (records_eq_ok_iff (reads_remappingAt debug slice) _ _ _ _ hsize (by omega)).mp hstructures
    refine ⟨_, slice.drop (DmarHeader.layout.ofBytes slice).header.length.toNat, ?_, hpieces, ?_⟩
    · have hsplit := DmarHeader.layout.toBytes_ofBytes_append slice hsize
      have hrest := drop_of_window_eq hle (List.append_nil (window slice 48 _)).symm
      rw [List.nil_append] at hrest
      rw [List.append_assoc, ← hrest]
      exact hsplit.symm
    · rw [length_window hstop]
      exact (Nat.add_sub_cancel' hle).symm
  · rintro ⟨body, rest, rfl, hpieces, hlen⟩
    have hheadlen : (DmarHeader.layout.toBytes t.header).length = 48 := Layout.length_toBytes _ _
    have htotal : (DmarHeader.layout.toBytes t.header ++ body ++ rest).length =
        48 + body.length + rest.length := by
      rw [List.length_append, List.length_append, hheadlen]
    have hheader : podFromBytes DmarHeader.layout 48
        (DmarHeader.layout.toBytes t.header ++ body ++ rest) = .ok t.header := by
      refine podFromBytes_eq_ok.mpr ⟨by omega, ?_⟩
      rw [List.append_assoc, Layout.ofBytes_append]
    have hwin : window (DmarHeader.layout.toBytes t.header ++ body ++ rest) 48
        t.header.header.length.toNat = body := by
      rw [window, List.append_assoc, List.drop_left' hheadlen, hlen, Nat.add_sub_cancel_left,
        List.take_left' rfl]
    generalize DmarHeader.layout.toBytes t.header ++ body ++ rest = slice at *
    have hrecords := (records_eq_ok_iff (reads_remappingAt debug slice)
      t.header.header.length.toNat t.remappingStructures (slice.length + 1) 48
      (by omega) (by omega)).mpr ⟨by omega, by omega, by rw [hwin]; exact hpieces⟩
    rw [hheader, ok_bind, hrecords, ok_bind]

theorem Dmar.panics_new (debug : Bool) (table : Option (List UInt8)) :
    Panics (Dmar.new debug table) := by
  cases table with
  | none => trivial
  | some slice =>
    rw [Dmar.new_some]
    by_cases hsize : 48 ≤ slice.length
    · refine Post.bind (panics_podFromBytes _ _ _) fun header _ => ?_
      exact Post.bind (post_records (reads_remappingAt debug slice) (panics_remappingAt debug slice)
        _ _ _ hsize (by omega)) fun _ _ => trivial
    · rw [podFromBytes, if_neg hsize]
      rfl

theorem Dmar.new_ne_none (debug : Bool) (slice : List UInt8) :
    Dmar.new debug (some slice) ≠ .ok none := by
  intro h
  rw [Dmar.new_some] at h
  obtain ⟨_, -, h⟩ := bind_eq_ok.mp h
  obtain ⟨_, -, h⟩ := bind_eq_ok.mp h
  cases h

/-- **The reader decides on every table.**  If the bytes start with the encoding of a table there
is only one, and it is returned; otherwise the reader panics.  Builds with and without debug
assertions do the same. -/
theorem Dmar.new_total (slice : List UInt8) :
    (∃ t : Dmar, t.Encodes slice ∧ (∀ t' : Dmar, t'.Encodes slice → t' = t) ∧
      ∀ debug, Dmar.new debug (some slice) = .ok (some t)) ∨
    ((¬∃ t : Dmar, t.Encodes slice) ∧
      ∀ debug, Dmar.new debug (some slice) = .error .assertion) := by
  by_cases h : ∃ t : Dmar, t.Encodes slice
  · obtain ⟨t, ht⟩ := h
    refine Or.inl ⟨t, ht, fun t' ht' => ?_, fun debug => (Dmar.new_eq_ok_iff debug slice t).mpr ht⟩
    have h₁ := (Dmar.new_eq_ok_iff false slice t).mpr ht
    have h₂ := (Dmar.new_eq_ok_iff false slice t').mpr ht'
    rw [h₁] at h₂
    cases h₂
    rfl
  · refine Or.inr ⟨h, fun debug => ?_⟩
    cases hnew : Dmar.new debug (some slice) with
    | error e => rw [(Dmar.panics_new debug (some slice)).of_error hnew]
    | ok o =>
      cases o with
      | none => exact absurd hnew (Dmar.new_ne_none debug slice)
      | some t => exact absurd ⟨t, (Dmar.new_eq_ok_iff debug slice t).mp hnew⟩ h

/-- The encodings of type 3 have the bytes that are copied for an RHSA structure. -/
theorem Remapping.Encodes.rhsa_length (h : r.Encodes piece)
    (htyp : (commonHeader.ofBytes piece).1 = 3) : 24 ≤ piece.length := by
  have hread := (Remapping.fromBytes_eq_ok false h.common.2).mpr h
  rw [htyp] at hread
  obtain ⟨val, hval, -⟩ := map_eq_ok.mp (hread : Remapping.rhsa <$> Rhsa.fromBytes false piece = _)
  obtain ⟨_, hheader, -⟩ := bind_eq_ok.mp hval
  exact (podFromBytes_eq_ok.mp hheader).1

/-- A round refuses an RHSA structure that is shorter than its type. -/
theorem remappingAt_short_rhsa
    (hindex : index ≤ slice.length) (htyp : (commonHeader.ofBytes (slice.drop index)).1 = 3)
    (hshort : (commonHeader.ofBytes (slice.drop index)).2.toNat < 24) :
    remappingAt debug slice index = .error .assertion := by
  cases hround : remappingAt debug slice index with
  | error e => rw [(panics_remappingAt debug slice index).of_error hround]
  | ok r =>
    obtain ⟨r, n⟩ := r
    obtain ⟨piece, rest, hdrop, hn, henc⟩ :=
      ((reads_remappingAt debug slice).eq_ok_iff index r n hindex).mp hround
    obtain ⟨hfour, hlen⟩ := henc.common
    -- the piece starts with the four bytes at the index
    have hcommon : commonHeader.ofBytes (slice.drop index) = commonHeader.ofBytes piece := by
      rw [hdrop, commonHeader.ofBytes_append_of_le piece hfour rest]
    rw [hcommon] at htyp hshort
    have hlong := henc.rhsa_length htyp
    omega

/-- **An RHSA structure of the length that the format gives it is refused.**  Its fields take
twenty bytes, but twenty-four are copied: a table with such a structure behind any well-formed
ones makes the reader panic. -/
theorem Dmar.new_short_rhsa (debug : Bool) (header : DmarHeader) (rs : List Remapping)
    (before rest : List UInt8) (hbefore : Pieces Remapping.Encodes rs before)
    (htyp : (commonHeader.ofBytes rest).1 = 3) (hshort : (commonHeader.ofBytes rest).2.toNat < 24)
    (htable : 48 + before.length < header.header.length.toNat) :
    Dmar.new debug (some (DmarHeader.layout.toBytes header ++ before ++ rest)) =
      .error .assertion := by
  have hheadlen : (DmarHeader.layout.toBytes header).length = 48 := Layout.length_toBytes _ _
  have hdrop48 : (DmarHeader.layout.toBytes header ++ before ++ rest).drop 48 = before ++ rest := by
    rw [List.append_assoc, List.drop_left' hheadlen]
  have hof : DmarHeader.layout.ofBytes (DmarHeader.layout.toBytes header ++ before ++ rest)
      = header := by
    rw [List.append_assoc, Layout.ofBytes_append]
  have htotal : (DmarHeader.layout.toBytes header ++ before ++ rest).length =
      48 + before.length + rest.length := by
    rw [List.length_append, List.length_append, hheadlen]
  generalize DmarHeader.layout.toBytes header ++ before ++ rest = slice at *
  have hdrop : slice.drop (48 + before.length) = rest := by
    rw [← List.drop_drop, hdrop48, List.drop_left' rfl]
  have hwin : window slice 48 (48 + before.length) = before := by
    rw [window, Nat.add_sub_cancel_left, hdrop48, List.take_left' rfl]
  -- the rounds for the structures in front take as many units of the bound as there are bytes
  have hcount := hbefore.length_le (reads_remappingAt debug slice)
  obtain ⟨fuel, hfuel⟩ : ∃ fuel, slice.length + 1 = fuel + 1 + rs.length :=
    ⟨slice.length - rs.length, by omega⟩
  have hround : remappingAt debug slice (48 + before.length) = .error .assertion :=
    remappingAt_short_rhsa (by omega) (by rw [hdrop]; exact htyp) (by rw [hdrop]; exact hshort)
  rw [Dmar.new_some, podFromBytes_eq_ok.mpr ⟨by omega, hof⟩, ok_bind, hfuel,
    records_window (reads_remappingAt debug slice) (48 + before.length) (by omega) rs _ _
      (by omega) (by omega) (by rw [hwin]; exact hbefore),
    records_succ (by omega), hround]
  rfl

/-- A table of seventy-six bytes: a SIDP structure without scopes, then an RHSA structure. -/
theorem Dmar.new_short_rhsa_behind_sidp :
    Dmar.new false (some (DmarHeader.layout.toBytes (DmarHeader.layout.ofBytes
        ([0, 0, 0, 0, 76, 0, 0, 0] ++ List.replicate 40 0)) ++ [6, 0, 8, 0, 0, 0, 0, 0] ++
        ([3, 0, 20, 0] ++ List.replicate 16 0))) = .error .assertion := by
  refine Dmar.new_short_rhsa false _ [.sidp ⟨⟨6, 8, 0, 0⟩, []⟩] _ _ ?_ (by decide) (by decide)
    (by decide)
  refine ⟨[[6, 0, 8, 0, 0, 0, 0, 0]], List.Forall₂.cons ?_ List.Forall₂.nil, rfl⟩
  exact ⟨by decide, ⟨by decide, by simp⟩, by decide⟩

end Vostd.Acpi
