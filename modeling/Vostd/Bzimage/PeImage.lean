/-
# The EFI image as a loader sees it

A PE/COFF loader finds the header by the offset at `0x3c`, reads the section headers behind
the optional header, and copies each section to its relative virtual address.  The header that
`make_pe_coff_header` writes is a packed record, and the loader reads from it the sections it
was made of (`sections_headerItems`).
-/
import Vostd.Bzimage.FlatBinary

namespace Vostd.Bzimage

open Exec Record

/-! ## The loader -/

/-- What a loader reads of a section header. -/
structure PeSection where
  virtualSize : ℕ
  virtualAddress : ℕ
  rawDataSize : ℕ
  dataAddr : ℕ
  deriving DecidableEq, Repr

/-- The offset of the PE header. -/
def peOffset (file : List UInt8) : ℕ := readLe file 0x3c 4

/-- The offset of the optional header. -/
def optOffset (file : List UInt8) : ℕ := peOffset file + 24

/-- The offset of the section headers. -/
def tableOffset (file : List UInt8) : ℕ := optOffset file + readLe file (peOffset file + 20) 2

def numSections (file : List UInt8) : ℕ := readLe file (peOffset file + 6) 2

def entryPoint (file : List UInt8) : ℕ := readLe file (optOffset file + 16) 4

def imageSize (file : List UInt8) : ℕ := readLe file (optOffset file + 56) 4

/-- The section header at an offset. -/
def readSection (file : List UInt8) (offset : ℕ) : PeSection where
  virtualSize := readLe file (offset + 8) 4
  virtualAddress := readLe file (offset + 12) 4
  rawDataSize := readLe file (offset + 16) 4
  dataAddr := readLe file (offset + 20) 4

def sections (file : List UInt8) : List PeSection :=
  (List.range (numSections file)).map fun i => readSection file (tableOffset file + 40 * i)

/-- The address is in the section. -/
def PeSection.Holds (s : PeSection) (rva : ℕ) : Prop :=
  s.virtualAddress ≤ rva ∧ rva < s.virtualAddress + s.virtualSize

instance decidableHolds (s : PeSection) (rva : ℕ) : Decidable (s.Holds rva) := by
  unfold PeSection.Holds
  infer_instance

/-- The byte that is loaded at an address of a section: from the file as far as the raw data
goes, and zero behind it. -/
def PeSection.load (file : List UInt8) (rva : ℕ) (s : PeSection) : Option UInt8 :=
  if s.Holds rva then
    some (if rva - s.virtualAddress < s.rawDataSize then
      byteAt file (s.dataAddr + (rva - s.virtualAddress)) else 0)
  else none

/-- The byte of the loaded image at an address. -/
def loadedByte (file : List UInt8) (rva : ℕ) : Option UInt8 :=
  (sections file).findSome? (PeSection.load file rva)

/-! ## The header that is written -/

/-- The fields of the header before those of the sections. -/
def headFields (textSize dataSize entry codeBase size : ℕ) : List RecordField :=
  dosHdr ++ peHdr ++ peOptHdr textSize dataSize entry codeBase size ++ peOptHdrDataDirs

/-- What a loader is to read of a section header. -/
def PeSectionHdr.toSection (hdr : PeSectionHdr) : PeSection where
  virtualSize := hdr.virtualSize
  virtualAddress := hdr.virtualAddress
  rawDataSize := hdr.rawDataSize
  dataAddr := hdr.dataAddr

/-- A section header that can be written: a name of eight bytes, and words of 32 bits. -/
structure PeSectionHdr.Fits (hdr : PeSectionHdr) : Prop where
  name : hdr.name.length = 8
  virtualSize : hdr.virtualSize < 2 ^ 32
  virtualAddress : hdr.virtualAddress < 2 ^ 32
  rawDataSize : hdr.rawDataSize < 2 ^ 32
  dataAddr : hdr.dataAddr < 2 ^ 32

section

variable {hdr : PeSectionHdr} {before after : List RecordField} {rest : List UInt8}

theorem readSection_skip (before after : List RecordField) (rest : List UInt8) {offset : ℕ}
    (hoffset : Record.size before = offset) :
    readSection (encode (before ++ after) ++ rest) offset =
      readSection (encode after ++ rest) 0 := by
  subst hoffset
  unfold readSection
  simp only [readLe_encode_skip, Nat.zero_add]

theorem size_name {name : List ℕ} : Record.size (name.map (RecordField.mk 1)) = name.length := by
  induction name with
  | nil => rfl
  | cons c name ih =>
    unfold Record.size at ih ⊢
    rw [List.map_cons, List.map_cons, List.sum_cons, ih, List.length_cons, Nat.add_comm]

theorem size_fields (h : hdr.Fits) : Record.size hdr.fields = 40 := by
  unfold PeSectionHdr.fields
  rw [size_append, size_name, h.name]
  rfl

/-- Four words in a row. -/
theorem readLe_four_words {a b c d : ℕ} (ha : a < 2 ^ 32) (hb : b < 2 ^ 32) (hc : c < 2 ^ 32)
    (hd : d < 2 ^ 32) (after : List RecordField) (rest : List UInt8) :
    let file := encode (⟨4, a⟩ :: ⟨4, b⟩ :: ⟨4, c⟩ :: ⟨4, d⟩ :: after) ++ rest
    readLe file 0 4 = a ∧ readLe file 4 4 = b ∧ readLe file 8 4 = c ∧ readLe file 12 4 = d := by
  refine ⟨?_, ?_, ?_, ?_⟩
  · exact readLe_encode [] _ (f := ⟨4, a⟩) rest ha rfl
  · exact readLe_encode [⟨4, a⟩] _ (f := ⟨4, b⟩) rest hb rfl
  · exact readLe_encode [⟨4, a⟩, ⟨4, b⟩] _ (f := ⟨4, c⟩) rest hc rfl
  · exact readLe_encode [⟨4, a⟩, ⟨4, b⟩, ⟨4, c⟩] _ (f := ⟨4, d⟩) rest hd rfl

/-- **One section header is read back.** -/
theorem readSection_fields (h : hdr.Fits) :
    readSection (encode (hdr.fields ++ after) ++ rest) 0 = hdr.toSection := by
  have hname : Record.size (hdr.name.map (RecordField.mk 1)) = 8 := by
    rw [size_name]
    exact h.name
  -- the words behind the name
  set words : List RecordField := [⟨4, hdr.virtualSize⟩, ⟨4, hdr.virtualAddress⟩,
    ⟨4, hdr.rawDataSize⟩,
    ⟨4, hdr.dataAddr⟩, ⟨4, 0⟩, ⟨4, 0⟩, ⟨2, 0⟩, ⟨2, 0⟩, ⟨4, hdr.flags⟩] with hwords
  have hskip (o w : ℕ) : readLe (encode (hdr.fields ++ after) ++ rest) (8 + o) w =
      readLe (encode (words ++ after) ++ rest) o w := by
    unfold PeSectionHdr.fields
    rw [List.append_assoc, ← hname]
    exact readLe_encode_skip _ _ _ _ _
  obtain ⟨hsize, haddress, hraw, hdata⟩ := readLe_four_words h.virtualSize h.virtualAddress
    h.rawDataSize h.dataAddr ([⟨4, 0⟩, ⟨4, 0⟩, ⟨2, 0⟩, ⟨2, 0⟩, ⟨4, hdr.flags⟩] ++ after) rest
  unfold readSection PeSectionHdr.toSection
  rw [PeSection.mk.injEq]
  exact ⟨(hskip 0 4).trans hsize, (hskip 4 4).trans haddress, (hskip 8 4).trans hraw,
    (hskip 12 4).trans hdata⟩

end

/-! The head of the header. -/

section

variable {textSize dataSize entry codeBase imgSize : ℕ} {after : List RecordField}
  {rest : List UInt8}

theorem size_headFields :
    Record.size (headFields textSize dataSize entry codeBase imgSize) = 248 := by
  simp [headFields, Record.size, dosHdr, peHdr, peOptHdr, peOptHdrDataDirs]

theorem peOffset_head :
    peOffset (encode (headFields textSize dataSize entry codeBase imgSize ++ after) ++ rest) =
      64 := by
  exact readLe_encode [⟨2, 0x5a4d⟩, ⟨0x3c - 0x2, 0⟩] _ (f := ⟨4, 0x3c + 4⟩) rest
    (by norm_num) rfl

theorem numSections_head :
    numSections (encode (headFields textSize dataSize entry codeBase imgSize ++ after) ++ rest) =
      3 := by
  unfold numSections
  rw [peOffset_head]
  exact readLe_encode (dosHdr ++ [⟨4, 0x4550⟩, ⟨2, 0x8664⟩]) _ (f := ⟨2, 3⟩) rest
    (by norm_num) rfl

theorem tableOffset_head :
    tableOffset (encode (headFields textSize dataSize entry codeBase imgSize ++ after) ++ rest) =
      248 := by
  unfold tableOffset optOffset
  rw [peOffset_head]
  have hsize : readLe (encode (headFields textSize dataSize entry codeBase imgSize ++ after) ++
      rest) (64 + 20) 2 = 160 :=
    readLe_encode (dosHdr ++ peHdr.take 6) _ (f := ⟨2, 160⟩) rest (by norm_num) rfl
  rw [hsize]

theorem entryPoint_head (h : entry < 2 ^ 32) :
    entryPoint (encode (headFields textSize dataSize entry codeBase imgSize ++ after) ++ rest) =
      entry := by
  unfold entryPoint optOffset
  rw [peOffset_head]
  exact readLe_encode (dosHdr ++ peHdr ++
    (peOptHdr textSize dataSize entry codeBase imgSize).take 6) _ (f := ⟨4, entry⟩) rest h
    (by simp [Record.size, dosHdr, peHdr, peOptHdr])

theorem imageSize_head (h : imgSize < 2 ^ 32) :
    imageSize (encode (headFields textSize dataSize entry codeBase imgSize ++ after) ++ rest) =
      imgSize := by
  unfold imageSize optOffset
  rw [peOffset_head]
  exact readLe_encode (dosHdr ++ peHdr ++
    (peOptHdr textSize dataSize entry codeBase imgSize).take 18) _ (f := ⟨4, imgSize⟩) rest h
    (by simp [Record.size, dosHdr, peHdr, peOptHdr])

end

/-! The whole header. -/

/-- The fields that `make_pe_coff_header` writes. -/
def headerItems (elf : ElfFile) (hdrs : AllPeSectionHdrs) : List RecordField :=
  headFields hdrs.text.rawDataSize (hdrs.rodata.rawDataSize + hdrs.data.rawDataSize)
    (elf.entryPoint - hdrs.base) hdrs.text.virtualAddress
    (hdrs.data.virtualAddress + hdrs.data.virtualSize) ++
    (hdrs.text.fields ++ (hdrs.rodata.fields ++ hdrs.data.fields))

/-- Section headers that go into the header of an ELF file without a number being cut off. -/
structure AllPeSectionHdrs.Fits (elf : ElfFile) (hdrs : AllPeSectionHdrs) : Prop where
  text : hdrs.text.Fits
  rodata : hdrs.rodata.Fits
  data : hdrs.data.Fits
  dataSize : hdrs.rodata.rawDataSize + hdrs.data.rawDataSize < 2 ^ 32
  imageSize : hdrs.data.virtualAddress + hdrs.data.virtualSize < 2 ^ 32
  base_le : hdrs.base ≤ elf.entryPoint
  entry : elf.entryPoint - hdrs.base < 2 ^ 32

theorem asU32_eq {x : ℕ} (h : x < 2 ^ 32) : asU32 x = x := Nat.mod_eq_of_lt h

theorem add32_eq {a b : ℕ} (h : a + b < 2 ^ 32) : add32 a b = .ok (a + b) := if_pos h

section

variable {elf : ElfFile} {hdrs : AllPeSectionHdrs} {rest : List UInt8}

theorem makePeCoffHeader_eq (h : hdrs.Fits elf) (hbuild : buildPeSecHeadersFrom elf = .ok hdrs) :
    makePeCoffHeader elf = .ok (encode (headerItems elf hdrs)) := by
  unfold makePeCoffHeader headerItems headFields
  rw [hbuild, ok_bind, add32_eq h.dataSize, ok_bind, sub_eq h.base_le, ok_bind,
    add32_eq h.imageSize, ok_bind, asU32_eq h.entry]
  simp only [List.append_assoc]

theorem length_headerItems (h : hdrs.Fits elf) :
    (encode (headerItems elf hdrs)).length = 368 := by
  unfold headerItems
  rw [length_encode, size_append, size_append, size_append, size_headFields,
    size_fields h.text, size_fields h.rodata, size_fields h.data]

/-- **A loader finds the three sections.** -/
theorem sections_headerItems (h : hdrs.Fits elf) (rest : List UInt8) :
    sections (encode (headerItems elf hdrs) ++ rest) =
      [hdrs.text.toSection, hdrs.rodata.toSection, hdrs.data.toSection] := by
  unfold sections headerItems
  rw [numSections_head, tableOffset_head]
  show [readSection _ 248, readSection _ 288, readSection _ 328] = _
  refine congrArg₂ _ ?_ (congrArg₂ _ ?_ (congrArg₂ _ ?_ rfl))
  · rw [readSection_skip _ _ _ size_headFields]
    exact readSection_fields h.text
  · rw [← List.append_assoc, readSection_skip _ _ _
      (by rw [size_append, size_headFields, size_fields h.text])]
    exact readSection_fields h.rodata
  · rw [← List.append_assoc, ← List.append_assoc, readSection_skip _ _ _
      (by rw [size_append, size_append, size_headFields, size_fields h.text,
        size_fields h.rodata]), ← List.append_nil hdrs.data.fields]
    exact readSection_fields h.data

end

end Vostd.Bzimage
