/-
# The bzImage builder

`linux-bzimage/builder`: the setup ELF is turned into a flat binary in which file offsets and
addresses differ by a constant (`to_flat_binary`), and for an EFI image a PE/COFF header is
written over its start (`make_pe_coff_header`).  The ELF parser is third-party code: the model
takes the program headers, their data, the entry point and the relocation types as it returns
them.  Files and the integers of the builder are those of the build host, with 64-bit words.
-/
import Vostd.Util.AlignExt
import Vostd.Lib.Records

namespace Vostd.Bzimage

open Exec Record

/-! ## The setup ELF -/

/-- `xmas_elf::program::ProgramHeader`, with the data of the segment. -/
structure ProgramHeader where
  isLoad : Bool
  virtualAddr : ℕ
  memSize : ℕ
  data : List UInt8
  isExecute : Bool
  isRead : Bool
  isWrite : Bool
  deriving DecidableEq, Repr

/-- `file_size()`: the length of the data. -/
def ProgramHeader.fileSize (program : ProgramHeader) : ℕ := program.data.length

/-- `xmas_elf::ElfFile` -/
structure ElfFile where
  programs : List ProgramHeader
  entryPoint : ℕ
  /-- the types of the relocations in the section `.rela`, if there is such a section and it is
  one of `Rela64` records -/
  rela64 : Option (List ℕ)

/-! ## Addresses and file offsets -/

def LEGACY_SETUP_SECS : ℕ := 7

def LEGACY_SETUP_SEC_SIZE : ℕ := 0x200 * (LEGACY_SETUP_SECS + 1)

def SETUP32_LMA : ℕ := 0x100000

/-- `SetupFileOffset::from(SetupVA)` -/
def setupFileOffset (va : ℕ) : Exec ℕ := do
  let sum ← Exec.add va LEGACY_SETUP_SEC_SIZE
  Exec.sub sum SETUP32_LMA

/-! ## The flat binary -/

/-- `Vec::resize` with zeros. -/
def resize (bin : List UInt8) (len : ℕ) : List UInt8 :=
  bin.take len ++ List.replicate (len - bin.length) 0

/-- The bytes from `offset` on are replaced. -/
def copyAt (bin : List UInt8) (offset : ℕ) (data : List UInt8) : List UInt8 :=
  bin.take offset ++ data ++ bin.drop (offset + data.length)

/-- One round of the loop of `to_flat_binary`. -/
def flattenProgram (bin : List UInt8) (program : ProgramHeader) : Exec (List UInt8) :=
  if program.isLoad then do
    let dstFileOffset ← setupFileOffset program.virtualAddr
    let memEnd ← Exec.add dstFileOffset program.memSize
    let bin := if bin.length < memEnd then resize bin memEnd else bin
    let fileEnd ← Exec.add dstFileOffset program.fileSize
    Exec.check (fileEnd ≤ bin.length)
    .ok (copyAt bin dstFileOffset program.data)
  else .ok bin

def toFlatBinary (elf : ElfFile) : Exec (List UInt8) :=
  elf.programs.foldlM flattenProgram []

/-! ## The PE/COFF header -/

def SECTION_ALIGNMENT : ℕ := 4096

def FILE_ALIGNMENT : ℕ := 512

/-- `x as u32` -/
def asU32 (x : ℕ) : ℕ := x % 2 ^ 32

/-- `a + b` on words of 32 bits. -/
def add32 (a b : ℕ) : Exec ℕ :=
  if a + b < 2 ^ 32 then .ok (a + b) else .error .overflow

/-- `PeSectionHdr` -/
structure PeSectionHdr where
  /-- the eight bytes of the name -/
  name : List ℕ
  virtualSize : ℕ
  virtualAddress : ℕ
  rawDataSize : ℕ
  dataAddr : ℕ
  flags : ℕ
  deriving DecidableEq, Repr

def PeSectionHdr.newText (virtualSize virtualAddress rawDataSize dataAddr : ℕ) :
    PeSectionHdr where
  name := [46, 116, 101, 120, 116, 0, 0, 0]
  virtualSize := virtualSize
  virtualAddress := virtualAddress
  rawDataSize := rawDataSize
  dataAddr := dataAddr
  -- CNT_CODE, MEM_READ and MEM_EXECUTE
  flags := 1 <<< 5 ||| 1 <<< 30 ||| 1 <<< 29

def PeSectionHdr.newData (virtualSize virtualAddress rawDataSize dataAddr : ℕ) :
    PeSectionHdr where
  name := [46, 100, 97, 116, 97, 0, 0, 0]
  virtualSize := virtualSize
  virtualAddress := virtualAddress
  rawDataSize := rawDataSize
  dataAddr := dataAddr
  -- CNT_INITIALIZED_DATA, MEM_READ and MEM_WRITE
  flags := 1 <<< 6 ||| 1 <<< 30 ||| 1 <<< 31

def PeSectionHdr.newRodata (virtualSize virtualAddress rawDataSize dataAddr : ℕ) :
    PeSectionHdr where
  name := [46, 114, 111, 100, 97, 116, 97, 0]
  virtualSize := virtualSize
  virtualAddress := virtualAddress
  rawDataSize := rawDataSize
  dataAddr := dataAddr
  -- CNT_INITIALIZED_DATA and MEM_READ
  flags := 1 <<< 6 ||| 1 <<< 30

/-- The record as it is written; the fields about relocations and line numbers are zero. -/
def PeSectionHdr.fields (hdr : PeSectionHdr) : List RecordField :=
  hdr.name.map (RecordField.mk 1) ++
    [⟨4, hdr.virtualSize⟩, ⟨4, hdr.virtualAddress⟩, ⟨4, hdr.rawDataSize⟩, ⟨4, hdr.dataAddr⟩,
      ⟨4, 0⟩, ⟨4, 0⟩, ⟨2, 0⟩, ⟨2, 0⟩, ⟨4, hdr.flags⟩]

structure AllPeSectionHdrs where
  base : ℕ
  text : PeSectionHdr
  rodata : PeSectionHdr
  data : PeSectionHdr
  deriving DecidableEq, Repr

def newPeSecHeader (segment : ProgramHeader) (base : ℕ)
    (f : ℕ → ℕ → ℕ → ℕ → PeSectionHdr) : Exec PeSectionHdr := do
  Exec.check (segment.virtualAddr % SECTION_ALIGNMENT = 0)
  let len ← AlignExt.alignUp segment.memSize SECTION_ALIGNMENT
  let address ← Exec.sub segment.virtualAddr base
  let offset ← setupFileOffset segment.virtualAddr
  .ok (f (asU32 len) (asU32 address) (asU32 len) (asU32 offset))

def buildPeSecHeadersFrom (elf : ElfFile) : Exec AllPeSectionHdrs :=
  match elf.programs with
  | [_, text, rodata, data] => do
    Exec.check text.isExecute
    Exec.check rodata.isRead
    Exec.check data.isWrite
    let base ← Exec.sub text.virtualAddr SECTION_ALIGNMENT
    let textHdr ← newPeSecHeader text base PeSectionHdr.newText
    let rodataHdr ← newPeSecHeader rodata base PeSectionHdr.newRodata
    let dataHdr ← newPeSecHeader data base PeSectionHdr.newData
    .ok ⟨base, textHdr, rodataHdr, dataHdr⟩
  | _ => .error .assertion

/-- `PeHdr`, with its magic number, the machine, the number of sections, the size of the
optional header and the flags. -/
def peHdr : List RecordField :=
  [⟨4, 0x4550⟩, ⟨2, 0x8664⟩, ⟨2, 3⟩, ⟨4, 0⟩, ⟨4, 0⟩, ⟨4, 1⟩, ⟨2, 112 + 48⟩,
    -- EXECUTABLE_IMAGE, DEBUG_STRIPPED and LINE_NUMS_STRIPPED
    ⟨2, 1 <<< 1 ||| 1 <<< 9 ||| 1 <<< 2⟩]

/-- `Pe32PlusOptHdr` -/
def peOptHdr (textSize dataSize entryPoint codeBase imageSize : ℕ) : List RecordField :=
  [⟨2, 0x020b⟩, ⟨1, 0x02⟩, ⟨1, 0x14⟩, ⟨4, textSize⟩, ⟨4, dataSize⟩, ⟨4, 0⟩, ⟨4, entryPoint⟩,
    ⟨4, codeBase⟩, ⟨8, 0⟩, ⟨4, SECTION_ALIGNMENT⟩, ⟨4, FILE_ALIGNMENT⟩, ⟨2, 0⟩, ⟨2, 0⟩,
    ⟨2, 0x3⟩, ⟨2, 0⟩, ⟨2, 0⟩, ⟨2, 0⟩, ⟨4, 0⟩, ⟨4, imageSize⟩, ⟨4, LEGACY_SETUP_SEC_SIZE⟩,
    ⟨4, 0⟩, ⟨2, 10⟩, ⟨2, 0x100⟩, ⟨8, 0⟩, ⟨8, 0⟩, ⟨8, 0⟩, ⟨8, 0⟩, ⟨4, 0⟩, ⟨4, 6⟩]

/-- `Pe32PlusOptDataDirs`: six directories without a table. -/
def peOptHdrDataDirs : List RecordField := List.replicate 12 ⟨4, 0⟩

/-- The MS-DOS header, which holds the offset of the PE header. -/
def dosHdr : List RecordField := [⟨2, 0x5a4d⟩, ⟨0x3c - 0x2, 0⟩, ⟨4, 0x3c + 4⟩]

def makePeCoffHeader (elf : ElfFile) : Exec (List UInt8) := do
  let secHdrs ← buildPeSecHeadersFrom elf
  let dataSize ← add32 secHdrs.rodata.rawDataSize secHdrs.data.rawDataSize
  let entry ← Exec.sub elf.entryPoint secHdrs.base
  let imageSize ← add32 secHdrs.data.virtualAddress secHdrs.data.virtualSize
  let optHdr := peOptHdr secHdrs.text.rawDataSize dataSize (asU32 entry)
    secHdrs.text.virtualAddress imageSize
  .ok (encode (dosHdr ++ peHdr ++ optHdr ++ peOptHdrDataDirs ++ secHdrs.text.fields ++
    secHdrs.rodata.fields ++ secHdrs.data.fields))

/-! ## The image -/

/-- `BzImageType` -/
inductive BzImageType where
  | legacy32
  | efi64
  deriving DecidableEq, Repr

def R_X86_64_RELATIVE : ℕ := 8

def assertElf64RelocSupported (elf : ElfFile) : Exec Unit := do
  let rela64 ← Exec.unwrap elf.rela64
  Exec.check (∀ r ∈ rela64, r = R_X86_64_RELATIVE)

/-- `make_bzimage`: the bytes of the image file. -/
def makeBzimage (imageType : BzImageType) (elf : ElfFile) : Exec (List UInt8) := do
  let setup ← toFlatBinary elf
  let len ← AlignExt.alignUp setup.length SECTION_ALIGNMENT
  let setup := resize setup len
  match imageType with
  | .legacy32 => .ok setup
  | .efi64 =>
    assertElf64RelocSupported elf
    let peHeader ← makePeCoffHeader elf
    Exec.check (peHeader.length ≤ 0x1f1)
    .ok (copyAt setup 0 peHeader)

end Vostd.Bzimage
