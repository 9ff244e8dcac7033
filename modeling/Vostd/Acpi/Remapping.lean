/-
# Remapping structures of the DMAR table

The structures that follow the header of the DMAR table are read from bytes by the routines
modelled here: a fixed header that is copied out of the bytes, then a list of device scopes
(or an object name).  A routine that meets bytes it cannot read panics.

For each routine there is one lemma that says which bytes it accepts: those that are the
encoding of a well-formed value.  The debug assertions are a parameter of the routines, and
the lemmas hold for both of its values.
-/
import Vostd.Lib.Layout
import Vostd.Lib.Sequences

namespace Vostd.Acpi

open Exec

/-! ## Reading plain data -/

/-- `T::from_bytes(bytes)`: the type's `size_of` bytes are copied out of the slice, which
panics if there are fewer. -/
def podFromBytes {α : Type} (L : Layout α) (sizeOf : ℕ) (bytes : List UInt8) : Exec α :=
  if sizeOf ≤ bytes.length then .ok (L.ofBytes bytes) else .error .assertion

/-- `core::str::from_utf8(bytes).unwrap()`. -/
def strFromUtf8 (bytes : List UInt8) : Exec String :=
  unwrap (String.fromUTF8? bytes.toByteArray)

/-- The bytes of a string. -/
def strBytes (s : String) : List UInt8 := s.toByteArray.data.toList

/-- The only way to stop is a panic. -/
abbrev Panics {α : Type} (x : Exec α) : Prop := Post (fun e => e = .assertion) x (fun _ => True)

theorem podFromBytes_eq_ok {α : Type} {L : Layout α} {sizeOf : ℕ} {bytes : List UInt8} {a : α} :
    podFromBytes L sizeOf bytes = .ok a ↔ sizeOf ≤ bytes.length ∧ L.ofBytes bytes = a := by
  unfold podFromBytes
  by_cases h : sizeOf ≤ bytes.length
  · simp [h]
  · simp [h]

theorem panics_podFromBytes {α : Type} (L : Layout α) (sizeOf : ℕ) (bytes : List UInt8) :
    Panics (podFromBytes L sizeOf bytes) :=
  post_ite (fun _ => trivial) (fun _ => rfl)

theorem strFromUtf8_eq_ok {bytes : List UInt8} {s : String} :
    strFromUtf8 bytes = .ok s ↔ bytes = strBytes s := by
  have hbytes : ∀ a : ByteArray, a = bytes.toByteArray ↔ bytes = a.data.toList := by
    intro a
    constructor
    · rintro rfl
      rw [List.data_toByteArray]
    · intro h
      apply ByteArray.ext
      rw [List.data_toByteArray, h]
  rw [strFromUtf8, unwrap_eq_ok, String.fromUTF8?, strBytes]
  constructor
  · intro h
    split at h
    · cases h
      exact (hbytes _).mp rfl
    · cases h
  · intro h
    have heq := (hbytes s.toByteArray).mpr h
    rw [← heq, dif_pos s.isValidUTF8]
    rfl

theorem panics_strFromUtf8 (bytes : List UInt8) : Panics (strFromUtf8 bytes) :=
  Post.mono (A := fun e => e = .assertion) (post_unwrap fun _ => rfl) fun _ _ => trivial

/-! ## Device scopes -/

structure DeviceScopeHeader where
  typ : UInt8
  length : UInt8
  flags : UInt8
  reserved : UInt8
  enumId : UInt8
  startBusNumber : UInt8
  deriving DecidableEq, Repr

def DeviceScopeHeader.layout : Layout DeviceScopeHeader :=
  Layout.map
    { toFun := fun p => ⟨p.1, p.2.1, p.2.2.1, p.2.2.2.1, p.2.2.2.2.1, p.2.2.2.2.2⟩
      invFun := fun h => (h.typ, h.length, h.flags, h.reserved, h.enumId, h.startBusNumber)
      left_inv := fun _ => rfl
      right_inv := fun _ => rfl }
    (Layout.u8.prod (Layout.u8.prod (Layout.u8.prod (Layout.u8.prod (Layout.u8.prod Layout.u8)))))

structure DeviceScope where
  header : DeviceScopeHeader
  path : List (UInt8 × UInt8)
  deriving DecidableEq, Repr

namespace DeviceScope

/-- `while index != stop { path.push((bytes[index], bytes[index + 1])); index += 2 }`, with
the bytes from the index on as the argument. -/
def pathLoop (stop : ℕ) : ℕ → List UInt8 → Exec (List (UInt8 × UInt8))
  | index, a :: b :: rest =>
    if index = stop then .ok []
    else do
      let path ← pathLoop stop (index + 2) rest
      .ok ((a, b) :: path)
  | index, _ => if index = stop then .ok [] else .error .assertion

def fromBytesPrefix (debug : Bool) (bytes : List UInt8) : Exec DeviceScope := do
  let header ← podFromBytes DeviceScopeHeader.layout 6 bytes
  debugAssert debug (header.length.toNat ≤ bytes.length)
  debugAssert debug (6 ≤ header.length.toNat)
  let path ← pathLoop header.length.toNat 6 (bytes.drop 6)
  .ok ⟨header, path⟩

/-- The bytes of a path. -/
def pathBytes (path : List (UInt8 × UInt8)) : List UInt8 := path.flatMap fun p => [p.1, p.2]

/-- The bytes of a scope. -/
def toBytes (s : DeviceScope) : List UInt8 :=
  DeviceScopeHeader.layout.toBytes s.header ++ pathBytes s.path

/-- The length field of a scope is its length. -/
def WF (s : DeviceScope) : Prop := s.header.length.toNat = 6 + 2 * s.path.length

instance instDecidableWF (s : DeviceScope) : Decidable s.WF :=
  inferInstanceAs (Decidable (_ = _))

theorem length_pathBytes (path : List (UInt8 × UInt8)) :
    (pathBytes path).length = 2 * path.length := by
  induction path with
  | nil => rfl
  | cons p path ih =>
    rw [pathBytes, List.flatMap_cons, List.length_append, ← pathBytes, ih, List.length_cons]
    simp only [List.length_cons, List.length_nil]
    omega

theorem length_toBytes (s : DeviceScope) : s.toBytes.length = 6 + 2 * s.path.length := by
  rw [toBytes, List.length_append, Layout.length_toBytes, length_pathBytes]
  rfl

/-- The loop reads the pairs up to a stop that it meets exactly. -/
theorem pathLoop_eq_ok {stop index : ℕ} {bytes : List UInt8} {path : List (UInt8 × UInt8)} :
    pathLoop stop index bytes = .ok path ↔
      ∃ rest, bytes = pathBytes path ++ rest ∧ stop = index + 2 * path.length := by
  induction index, bytes using pathLoop.induct stop generalizing path with
  | case1 a b rest =>
    rw [pathLoop, if_pos rfl]
    constructor
    · intro h
      cases h
      exact ⟨a :: b :: rest, rfl, rfl⟩
    · rintro ⟨_, _, hlen⟩
      have hnil : path = [] := List.eq_nil_of_length_eq_zero (by omega)
      rw [hnil]
  | case2 index a b rest hne ih =>
    rw [pathLoop, if_neg hne, bind_eq_ok]
    constructor
    · rintro ⟨tail, htail, hcons⟩
      cases hcons
      obtain ⟨rest', hrest, hlen⟩ := ih.mp htail
      refine ⟨rest', ?_, by rw [List.length_cons]; omega⟩
      rw [hrest]
      rfl
    · rintro ⟨rest', hbytes, hlen⟩
      cases path with
      | nil => exact absurd (by simpa using hlen.symm) hne
      | cons p tail =>
        injection hbytes with hp hbytes
        injection hbytes with hq hbytes
        subst hp hq
        rw [List.length_cons] at hlen
        exact ⟨tail, ih.mpr ⟨rest', hbytes, by omega⟩, rfl⟩
  | case3 bytes hshort =>
    have hloop : pathLoop stop stop bytes = .ok [] := by
      rw [pathLoop, if_pos rfl]
      exact hshort
    rw [hloop]
    constructor
    · intro h
      cases h
      exact ⟨bytes, rfl, rfl⟩
    · rintro ⟨_, _, hlen⟩
      have hnil : path = [] := List.eq_nil_of_length_eq_zero (by omega)
      rw [hnil]
  | case4 bytes index hne hshort =>
    have hloop : pathLoop stop index bytes = .error .assertion := by
      rw [pathLoop, if_neg hne]
      exact hshort
    rw [hloop]
    constructor
    · intro h
      cases h
    · rintro ⟨rest, hbytes, hlen⟩
      cases path with
      | nil => exact absurd (by simpa using hlen.symm) hne
      | cons p tail => exact (hshort p.1 p.2 _ hbytes).elim

theorem panics_pathLoop (stop index : ℕ) (bytes : List UInt8) :
    Panics (pathLoop stop index bytes) := by
  induction index, bytes using pathLoop.induct stop with
  | case1 a b rest =>
    rw [pathLoop, if_pos rfl]
    trivial
  | case2 index a b rest hne ih =>
    rw [pathLoop, if_neg hne]
    exact Post.bind ih fun _ _ => trivial
  | case3 bytes hshort =>
    rw [pathLoop, if_pos rfl]
    · trivial
    · exact hshort
  | case4 bytes index hne hshort =>
    rw [pathLoop, if_neg hne]
    · rfl
    · exact hshort

/-- **A scope is read from exactly the bytes that start with a well-formed scope**, with and
without debug assertions. -/
theorem fromBytesPrefix_eq_ok {debug : Bool} {bytes : List UInt8} {s : DeviceScope} :
    fromBytesPrefix debug bytes = .ok s ↔ ∃ rest, bytes = s.toBytes ++ rest ∧ s.WF := by
  unfold fromBytesPrefix
  constructor
  · intro h
    obtain ⟨header, hheader, h⟩ := bind_eq_ok.mp h
    obtain ⟨_, _, h⟩ := bind_eq_ok.mp h
    obtain ⟨_, _, h⟩ := bind_eq_ok.mp h
    obtain ⟨path, hpath, h⟩ := bind_eq_ok.mp h
    cases h
    obtain ⟨hsize, hof⟩ := podFromBytes_eq_ok.mp hheader
    obtain ⟨rest, hrest, hlen⟩ := pathLoop_eq_ok.mp hpath
    refine ⟨rest, ?_, hlen⟩
    have hsplit := DeviceScopeHeader.layout.toBytes_ofBytes_append bytes hsize
    rw [toBytes, List.append_assoc, ← hrest, ← hof]
    exact hsplit.symm
  · rintro ⟨rest, rfl, hwf⟩
    have hlen := length_toBytes s
    have hof : DeviceScopeHeader.layout.ofBytes (s.toBytes ++ rest) = s.header := by
      rw [toBytes, List.append_assoc, Layout.ofBytes_append]
    have hdrop : (s.toBytes ++ rest).drop 6 = pathBytes s.path ++ rest := by
      rw [toBytes, List.append_assoc]
      exact List.drop_left' (Layout.length_toBytes _ _)
    have hheader : podFromBytes DeviceScopeHeader.layout 6 (s.toBytes ++ rest) = .ok s.header :=
      podFromBytes_eq_ok.mpr ⟨by rw [List.length_append]; omega, hof⟩
    have hpath : pathLoop s.header.length.toNat 6 ((s.toBytes ++ rest).drop 6) = .ok s.path :=
      pathLoop_eq_ok.mpr ⟨rest, hdrop, hwf⟩
    unfold WF at hwf
    rw [hheader, ok_bind,
      debugAssert_pos debug (by rw [List.length_append]; omega), ok_bind,
      debugAssert_pos debug (by omega), ok_bind, hpath, ok_bind]

theorem panics_fromBytesPrefix (debug : Bool) (bytes : List UInt8) :
    Panics (fromBytesPrefix debug bytes) := by
  unfold fromBytesPrefix
  refine Post.bind (panics_podFromBytes _ _ _) fun header _ => ?_
  refine Post.bind (post_debugAssert fun _ => rfl) fun _ _ => ?_
  refine Post.bind (post_debugAssert fun _ => rfl) fun _ _ => ?_
  exact Post.bind (panics_pathLoop _ _ _) fun _ _ => trivial

end DeviceScope

/-! ## Headers -/

/-- The four bytes that every remapping structure starts with. -/
def commonHeader : Layout (UInt16 × UInt16) := Layout.u16.prod Layout.u16

/-- A header that starts with its type and the length of its structure. -/
structure HeaderLayout (H : Type) extends Layout H where
  typ : H → UInt16
  length : H → UInt16
  four_le_size : 4 ≤ size
  common_ofBytes : ∀ bytes, commonHeader.ofBytes bytes =
    (typ (ofBytes bytes), length (ofBytes bytes))

structure DrhdHeader where
  typ : UInt16
  length : UInt16
  flags : UInt8
  size : UInt8
  segmentNum : UInt16
  registerBaseAddr : UInt64
  deriving DecidableEq, Repr

structure RmrrHeader where
  typ : UInt16
  length : UInt16
  reserved : UInt16
  segmentNum : UInt16
  reservedMemoryRegionBaseAddr : UInt64
  reservedMemoryRegionLimitAddr : UInt64
  deriving DecidableEq, Repr

structure AtsrHeader where
  typ : UInt16
  length : UInt16
  flags : UInt8
  reserved : UInt8
  segmentNum : UInt16
  deriving DecidableEq, Repr

structure Rhsa where
  typ : UInt16
  length : UInt16
  flags : UInt32
  registerBaseAddr : UInt64
  proximityDomain : UInt32
  deriving DecidableEq, Repr

structure AnddHeader where
  typ : UInt16
  length : UInt16
  reserved : UInt8 × UInt8 × UInt8
  acpiDeviceNum : UInt8
  deriving DecidableEq, Repr

structure SatcHeader where
  typ : UInt16
  length : UInt16
  flags : UInt8
  reserved : UInt8
  segmentNum : UInt16
  deriving DecidableEq, Repr

structure SidpHeader where
  typ : UInt16
  length : UInt16
  reserved : UInt16
  segmentNum : UInt16
  deriving DecidableEq, Repr

def DrhdHeader.layout : HeaderLayout DrhdHeader where
  toLayout := Layout.map
    { toFun := fun p => ⟨p.1, p.2.1, p.2.2.1, p.2.2.2.1, p.2.2.2.2.1, p.2.2.2.2.2⟩
      invFun := fun h => (h.typ, h.length, h.flags, h.size, h.segmentNum, h.registerBaseAddr)
      left_inv := fun _ => rfl
      right_inv := fun _ => rfl }
    (Layout.u16.prod (Layout.u16.prod (Layout.u8.prod (Layout.u8.prod
      (Layout.u16.prod Layout.u64)))))
  typ := DrhdHeader.typ
  length := DrhdHeader.length
  four_le_size := Nat.le_add_right 4 12
  common_ofBytes := fun _ => rfl

def RmrrHeader.layout : HeaderLayout RmrrHeader where
  toLayout := Layout.map
    { toFun := fun p => ⟨p.1, p.2.1, p.2.2.1, p.2.2.2.1, p.2.2.2.2.1, p.2.2.2.2.2⟩
      invFun := fun h => (h.typ, h.length, h.reserved, h.segmentNum,
        h.reservedMemoryRegionBaseAddr, h.reservedMemoryRegionLimitAddr)
      left_inv := fun _ => rfl
      right_inv := fun _ => rfl }
    (Layout.u16.prod (Layout.u16.prod (Layout.u16.prod (Layout.u16.prod
      (Layout.u64.prod Layout.u64)))))
  typ := RmrrHeader.typ
  length := RmrrHeader.length
  four_le_size := Nat.le_add_right 4 20
  common_ofBytes := fun _ => rfl

def AtsrHeader.layout : HeaderLayout AtsrHeader where
  toLayout := Layout.map
    { toFun := fun p => ⟨p.1, p.2.1, p.2.2.1, p.2.2.2.1, p.2.2.2.2⟩
      invFun := fun h => (h.typ, h.length, h.flags, h.reserved, h.segmentNum)
      left_inv := fun _ => rfl
      right_inv := fun _ => rfl }
    (Layout.u16.prod (Layout.u16.prod (Layout.u8.prod (Layout.u8.prod Layout.u16))))
  typ := AtsrHeader.typ
  length := AtsrHeader.length
  four_le_size := Nat.le_add_right 4 4
  common_ofBytes := fun _ => rfl

/-- The fields of an RHSA structure.  They take twenty bytes; the type is aligned to eight, so
that its `size_of` is twenty-four. -/
def Rhsa.layout : HeaderLayout Rhsa where
  toLayout := Layout.map
    { toFun := fun p => ⟨p.1, p.2.1, p.2.2.1, p.2.2.2.1, p.2.2.2.2⟩
      invFun := fun h => (h.typ, h.length, h.flags, h.registerBaseAddr, h.proximityDomain)
      left_inv := fun _ => rfl
      right_inv := fun _ => rfl }
    (Layout.u16.prod (Layout.u16.prod (Layout.u32.prod (Layout.u64.prod Layout.u32))))
  typ := Rhsa.typ
  length := Rhsa.length
  four_le_size := Nat.le_add_right 4 16
  common_ofBytes := fun _ => rfl

def AnddHeader.layout : HeaderLayout AnddHeader where
  toLayout := Layout.map
    { toFun := fun p => ⟨p.1, p.2.1, p.2.2.1, p.2.2.2⟩
      invFun := fun h => (h.typ, h.length, h.reserved, h.acpiDeviceNum)
      left_inv := fun _ => rfl
      right_inv := fun _ => rfl }
    (Layout.u16.prod (Layout.u16.prod ((Layout.u8.prod (Layout.u8.prod Layout.u8)).prod Layout.u8)))
  typ := AnddHeader.typ
  length := AnddHeader.length
  four_le_size := Nat.le_add_right 4 4
  common_ofBytes := fun _ => rfl

def SatcHeader.layout : HeaderLayout SatcHeader where
  toLayout := Layout.map
    { toFun := fun p => ⟨p.1, p.2.1, p.2.2.1, p.2.2.2.1, p.2.2.2.2⟩
      invFun := fun h => (h.typ, h.length, h.flags, h.reserved, h.segmentNum)
      left_inv := fun _ => rfl
      right_inv := fun _ => rfl }
    (Layout.u16.prod (Layout.u16.prod (Layout.u8.prod (Layout.u8.prod Layout.u16))))
  typ := SatcHeader.typ
  length := SatcHeader.length
  four_le_size := Nat.le_add_right 4 4
  common_ofBytes := fun _ => rfl

def SidpHeader.layout : HeaderLayout SidpHeader where
  toLayout := Layout.map
    { toFun := fun p => ⟨p.1, p.2.1, p.2.2.1, p.2.2.2⟩
      invFun := fun h => (h.typ, h.length, h.reserved, h.segmentNum)
      left_inv := fun _ => rfl
      right_inv := fun _ => rfl }
    (Layout.u16.prod (Layout.u16.prod (Layout.u16.prod Layout.u16)))
  typ := SidpHeader.typ
  length := SidpHeader.length
  four_le_size := Nat.le_add_right 4 4
  common_ofBytes := fun _ => rfl

/-! ## Structures with device scopes -/

/-- A remapping structure that is a header and its device scopes. -/
structure Scoped (H : Type) where
  header : H
  deviceScopes : List DeviceScope
  deriving DecidableEq, Repr

/-- `DeviceScope::from_bytes_prefix(&bytes[index..])` and the length it is skipped by. -/
def scopeAt (debug : Bool) (bytes : List UInt8) (index : ℕ) : Exec (DeviceScope × ℕ) := do
  check (index ≤ bytes.length)
  let val ← DeviceScope.fromBytesPrefix debug (bytes.drop index)
  .ok (val, val.header.length.toNat)

/-- `impl_from_bytes!`: the header, then scopes until the header's length is reached. -/
def Scoped.fromBytes {H : Type} (debug : Bool) (L : HeaderLayout H) (bytes : List UInt8) :
    Exec (Scoped H) := do
  let header ← podFromBytes L.toLayout L.size bytes
  debugAssert debug ((L.length header).toNat = bytes.length)
  let deviceScopes ←
    records (scopeAt debug bytes) (L.length header).toNat (bytes.length + 1) L.size
  .ok ⟨header, deviceScopes⟩

abbrev Drhd : Type := Scoped DrhdHeader
abbrev Rmrr : Type := Scoped RmrrHeader
abbrev Atsr : Type := Scoped AtsrHeader
abbrev Satc : Type := Scoped SatcHeader
abbrev Sidp : Type := Scoped SidpHeader

def Drhd.fromBytes (debug : Bool) : List UInt8 → Exec Drhd :=
  Scoped.fromBytes debug DrhdHeader.layout
def Rmrr.fromBytes (debug : Bool) : List UInt8 → Exec Rmrr :=
  Scoped.fromBytes debug RmrrHeader.layout
def Atsr.fromBytes (debug : Bool) : List UInt8 → Exec Atsr :=
  Scoped.fromBytes debug AtsrHeader.layout
def Satc.fromBytes (debug : Bool) : List UInt8 → Exec Satc :=
  Scoped.fromBytes debug SatcHeader.layout
def Sidp.fromBytes (debug : Bool) : List UInt8 → Exec Sidp :=
  Scoped.fromBytes debug SidpHeader.layout

namespace Scoped

variable {H : Type}

/-- The bytes of a structure with scopes. -/
def toBytes (L : HeaderLayout H) (s : Scoped H) : List UInt8 :=
  L.toBytes s.header ++ s.deviceScopes.flatMap DeviceScope.toBytes

/-- The length field is the length, and the scopes are well formed. -/
structure WF (L : HeaderLayout H) (s : Scoped H) : Prop where
  length_eq : (L.length s.header).toNat = (s.toBytes L).length
  scopes : ∀ scope ∈ s.deviceScopes, scope.WF

theorem panics_scopeAt (debug : Bool) (bytes : List UInt8) (index : ℕ) :
    Panics (scopeAt debug bytes index) :=
  Post.bind (post_check fun _ => rfl) fun _ _ =>
    Post.bind (DeviceScope.panics_fromBytesPrefix _ _) fun _ _ => trivial

theorem reads_scopeAt (debug : Bool) (bytes : List UInt8) :
    Reads bytes (scopeAt debug bytes) (fun s piece => piece = s.toBytes ∧ s.WF) where
  eq_ok_iff := by
    intro index s n hindex
    unfold scopeAt
    rw [check_pos hindex, ok_bind, bind_eq_ok]
    constructor
    · rintro ⟨val, hval, h⟩
      cases h
      obtain ⟨rest, hrest, hwf⟩ := DeviceScope.fromBytesPrefix_eq_ok.mp hval
      exact ⟨s.toBytes, rest, hrest, by rw [DeviceScope.length_toBytes, ← hwf], rfl, hwf⟩
    · rintro ⟨piece, rest, hdrop, rfl, rfl, hwf⟩
      refine ⟨s, DeviceScope.fromBytesPrefix_eq_ok.mpr ⟨rest, hdrop, hwf⟩, ?_⟩
      rw [DeviceScope.length_toBytes, ← hwf]
  length_pos := by
    rintro s piece ⟨rfl, -⟩
    rw [DeviceScope.length_toBytes]
    omega

/-- The scopes of a window are the ones that it is written with. -/
theorem pieces_scopes {scopes : List DeviceScope} {window : List UInt8} :
    Pieces (fun s piece => piece = s.toBytes ∧ s.WF) scopes window ↔
      window = scopes.flatMap DeviceScope.toBytes ∧ ∀ s ∈ scopes, s.WF := by
  induction scopes generalizing window with
  | nil => rw [pieces_nil]; simp
  | cons s scopes ih =>
    rw [pieces_cons]
    constructor
    · rintro ⟨_, rest, rfl, ⟨rfl, hwf⟩, hrest⟩
      obtain ⟨rfl, hall⟩ := ih.mp hrest
      exact ⟨List.flatMap_cons.symm, List.forall_mem_cons.mpr ⟨hwf, hall⟩⟩
    · rintro ⟨rfl, hall⟩
      obtain ⟨hwf, hall⟩ := List.forall_mem_cons.mp hall
      exact ⟨_, _, List.flatMap_cons, ⟨rfl, hwf⟩, ih.mpr ⟨rfl, hall⟩⟩

/-- **The bytes that a structure with scopes is read from**: those of a well-formed one, where
the length field of the bytes is their number. -/
theorem fromBytes_eq_ok {debug : Bool} {L : HeaderLayout H} {bytes : List UInt8} {s : Scoped H}
    (hlen : (commonHeader.ofBytes bytes).2.toNat = bytes.length) :
    Scoped.fromBytes debug L bytes = .ok s ↔ bytes = s.toBytes L ∧ s.WF L := by
  have hlength : (L.length (L.ofBytes bytes)).toNat = bytes.length := by
    rw [← hlen, L.common_ofBytes]
  have hrecords : ∀ scopes : List DeviceScope, L.size ≤ bytes.length →
      (records (scopeAt debug bytes) bytes.length (bytes.length + 1) L.size = .ok scopes ↔
        bytes.drop L.size = scopes.flatMap DeviceScope.toBytes ∧ ∀ s ∈ scopes, s.WF) := by
    intro scopes hsize
    rw [records_eq_ok_iff (reads_scopeAt debug bytes) _ _ _ _ hsize (by omega), pieces_scopes,
      window, List.take_of_length_le (by rw [List.length_drop])]
    exact ⟨fun h => h.2.2, fun h => ⟨hsize, le_rfl, h⟩⟩
  unfold Scoped.fromBytes
  constructor
  · intro h
    obtain ⟨header, hheader, h⟩ := bind_eq_ok.mp h
    obtain ⟨_, _, h⟩ := bind_eq_ok.mp h
    obtain ⟨scopes, hscopes, h⟩ := bind_eq_ok.mp h
    cases h
    obtain ⟨hsize, rfl⟩ := podFromBytes_eq_ok.mp hheader
    rw [hlength] at hscopes
    obtain ⟨hdrop, hall⟩ := (hrecords scopes hsize).mp hscopes
    have hbytes : bytes = toBytes L ⟨L.ofBytes bytes, scopes⟩ := by
      rw [toBytes, ← hdrop]
      exact (L.toBytes_ofBytes_append bytes hsize).symm
    exact ⟨hbytes, by rw [← hbytes]; exact hlength, hall⟩
  · rintro ⟨hbytes, hwf⟩
    have hsize : L.size ≤ bytes.length := by
      rw [hbytes, toBytes, List.length_append, L.length_toBytes]
      omega
    have hof : L.ofBytes bytes = s.header := by rw [hbytes, toBytes, L.ofBytes_append]
    have hdrop : bytes.drop L.size = s.deviceScopes.flatMap DeviceScope.toBytes := by
      rw [hbytes, toBytes]
      exact List.drop_left' (L.length_toBytes _)
    have hlen' : (L.length s.header).toNat = bytes.length := by rw [← hof]; exact hlength
    rw [podFromBytes_eq_ok.mpr ⟨hsize, hof⟩, ok_bind,
      debugAssert_pos debug hlen', ok_bind, hlen',
      (hrecords _ hsize).mpr ⟨hdrop, hwf.scopes⟩, ok_bind]

/-- The bound on the rounds is never reached. -/
theorem panics_fromBytes (debug : Bool) (L : HeaderLayout H) (bytes : List UInt8) :
    Panics (Scoped.fromBytes debug L bytes) := by
  unfold Scoped.fromBytes
  by_cases hsize : L.size ≤ bytes.length
  · refine Post.bind (panics_podFromBytes _ _ _) fun header _ => ?_
    refine Post.bind (post_debugAssert fun _ => rfl) fun _ _ => ?_
    exact Post.bind (post_records (reads_scopeAt debug bytes) (panics_scopeAt debug bytes) _ _ _
      hsize (by omega)) fun _ _ => trivial
  · rw [podFromBytes, if_neg hsize]
    rfl

end Scoped

/-! ## The other structures -/

def Rhsa.fromBytes (debug : Bool) (bytes : List UInt8) : Exec Rhsa := do
  let val ← podFromBytes Rhsa.layout.toLayout 24 bytes
  debugAssert debug (val.length.toNat = bytes.length)
  .ok val

structure Andd where
  header : AnddHeader
  acpiObjectName : String
  deriving DecidableEq, Repr

def Andd.fromBytes (debug : Bool) (bytes : List UInt8) : Exec Andd := do
  let header ← podFromBytes AnddHeader.layout.toLayout 8 bytes
  debugAssert debug (header.length.toNat = bytes.length)
  let acpiObjectName ← strFromUtf8 (bytes.drop 8)
  .ok ⟨header, acpiObjectName⟩

/-- The bytes of an ANDD structure. -/
def Andd.toBytes (a : Andd) : List UInt8 :=
  AnddHeader.layout.toBytes a.header ++ strBytes a.acpiObjectName

theorem Rhsa.fromBytes_eq_ok {debug : Bool} {bytes : List UInt8} {r : Rhsa}
    (hlen : (commonHeader.ofBytes bytes).2.toNat = bytes.length) :
    Rhsa.fromBytes debug bytes = .ok r ↔ 24 ≤ bytes.length ∧ Rhsa.layout.ofBytes bytes = r := by
  have hlength : (Rhsa.layout.ofBytes bytes).length.toNat = bytes.length := by
    rw [← hlen, Rhsa.layout.common_ofBytes]
    rfl
  unfold Rhsa.fromBytes
  constructor
  · intro h
    obtain ⟨val, hval, h⟩ := bind_eq_ok.mp h
    obtain ⟨_, _, h⟩ := bind_eq_ok.mp h
    cases h
    exact podFromBytes_eq_ok.mp hval
  · rintro ⟨hsize, rfl⟩
    rw [podFromBytes_eq_ok.mpr ⟨hsize, rfl⟩, ok_bind,
      debugAssert_pos debug hlength, ok_bind]

theorem Rhsa.panics_fromBytes (debug : Bool) (bytes : List UInt8) :
    Panics (Rhsa.fromBytes debug bytes) :=
  Post.bind (panics_podFromBytes _ _ _) fun _ _ =>
    Post.bind (post_debugAssert fun _ => rfl) fun _ _ => trivial

theorem Andd.fromBytes_eq_ok {debug : Bool} {bytes : List UInt8} {a : Andd}
    (hlen : (commonHeader.ofBytes bytes).2.toNat = bytes.length) :
    Andd.fromBytes debug bytes = .ok a ↔
      bytes = a.toBytes ∧ a.header.length.toNat = bytes.length := by
  have hlength : (AnddHeader.layout.ofBytes bytes).length.toNat = bytes.length := by
    rw [← hlen, AnddHeader.layout.common_ofBytes]
    rfl
  unfold Andd.fromBytes
  constructor
  · intro h
    obtain ⟨header, hheader, h⟩ := bind_eq_ok.mp h
    obtain ⟨_, _, h⟩ := bind_eq_ok.mp h
    obtain ⟨name, hname, h⟩ := bind_eq_ok.mp h
    cases h
    obtain ⟨hsize, rfl⟩ := podFromBytes_eq_ok.mp hheader
    refine ⟨?_, hlength⟩
    rw [toBytes, ← strFromUtf8_eq_ok.mp hname]
    exact (AnddHeader.layout.toBytes_ofBytes_append bytes hsize).symm
  · rintro ⟨hbytes, hwf⟩
    have hsize : 8 ≤ bytes.length := by
      rw [hbytes, toBytes, List.length_append, Layout.length_toBytes]
      exact Nat.le_add_right _ _
    have hof : AnddHeader.layout.ofBytes bytes = a.header := by
      rw [hbytes, toBytes, Layout.ofBytes_append]
    have hdrop : bytes.drop 8 = strBytes a.acpiObjectName := by
      rw [hbytes, toBytes]
      exact List.drop_left' (Layout.length_toBytes _ _)
    rw [podFromBytes_eq_ok.mpr ⟨hsize, hof⟩, ok_bind,
      debugAssert_pos debug hwf, ok_bind, strFromUtf8_eq_ok.mpr hdrop, ok_bind]

theorem Andd.panics_fromBytes (debug : Bool) (bytes : List UInt8) :
    Panics (Andd.fromBytes debug bytes) :=
  Post.bind (panics_podFromBytes _ _ _) fun _ _ =>
    Post.bind (post_debugAssert fun _ => rfl) fun _ _ =>
      Post.bind (panics_strFromUtf8 _) fun _ _ => trivial

end Vostd.Acpi
