/-
# The layout of the EFI image

The image that `make_bzimage` writes shows a loader the memory of the setup ELF.  Two
computations have to agree for that on every byte: the flat copy of the segments in the order of
the program headers, and the arithmetic of the header, which has its own base, one page below
the text, and its own rounding to whole pages.
-/
import Vostd.Bzimage.PeImage

namespace Vostd.Bzimage

open Exec Record

/-! ## The setup that is laid out -/

/-- The end of a segment, in whole pages. -/
def ProgramHeader.pagesEnd (p : ProgramHeader) : ℕ :=
  p.virtualAddr + roundUpTo p.memSize SECTION_ALIGNMENT

/-- The address is in the pages of the segment. -/
def ProgramHeader.InPages (p : ProgramHeader) (v : ℕ) : Prop :=
  p.virtualAddr ≤ v ∧ v < p.pagesEnd

instance decidableInPages (p : ProgramHeader) (v : ℕ) : Decidable (p.InPages v) := by
  unfold ProgramHeader.InPages
  infer_instance

/-- The setup ELF: four segments that are loaded, of which the last three are made of pages
that do not overlap. -/
structure SetupLayout (elf : ElfFile) (header text rodata data : ProgramHeader) : Prop where
  programs : elf.programs = [header, text, rodata, data]
  load : ∀ p ∈ elf.programs, p.isLoad = true
  fileSize_le : ∀ p ∈ elf.programs, p.fileSize ≤ p.memSize
  header_ge : SETUP32_LMA - LEGACY_SETUP_SEC_SIZE ≤ header.virtualAddr
  header_end : header.virtualAddr + header.memSize ≤ 2 ^ 32
  aligned : ∀ p ∈ [text, rodata, data], p.virtualAddr % SECTION_ALIGNMENT = 0
  ge : ∀ p ∈ [text, rodata, data], SETUP32_LMA ≤ p.virtualAddr
  pagesEnd_le : ∀ p ∈ [text, rodata, data], p.pagesEnd ≤ 2 ^ 32
  header_disjoint : ∀ p ∈ [text, rodata, data], ∀ v, p.InPages v →
    ¬(header.virtualAddr ≤ v ∧ v < header.virtualAddr + header.memSize)
  text_rodata_disjoint : ∀ v, ¬(text.InPages v ∧ rodata.InPages v)
  data_highest : text.pagesEnd ≤ data.virtualAddr ∧ rodata.pagesEnd ≤ data.virtualAddr
  entry_lt : elf.entryPoint < 2 ^ 32

/-- What the assertions of the builder ask for besides. -/
def Supported (elf : ElfFile) (text rodata data : ProgramHeader) : Prop :=
  (∃ rela64, elf.rela64 = some rela64 ∧ ∀ r ∈ rela64, r = R_X86_64_RELATIVE) ∧
    text.isExecute = true ∧ rodata.isRead = true ∧ data.isWrite = true

/-- The file is an image that a loader takes for the memory of the segments: its sections lie in
the file, do not overlap and end inside the image, and each byte of a segment's pages is loaded
at its address relative to the base, with zeros behind the data of the segment. -/
structure Reproduces (file : List UInt8) (base entry : ℕ) (segments : List ProgramHeader) :
    Prop where
  inFile : ∀ s ∈ sections file, s.dataAddr + s.rawDataSize ≤ file.length
  disjoint : (sections file).Pairwise fun s t => ∀ rva, ¬(s.Holds rva ∧ t.Holds rva)
  inImage : ∀ s ∈ sections file, s.virtualAddress + s.virtualSize ≤ imageSize file
  bytes : ∀ p ∈ segments, ∀ v, p.InPages v →
    loadedByte file (v - base) =
      some (if h : v - p.virtualAddr < p.fileSize then p.data.get ⟨v - p.virtualAddr, h⟩ else 0)
  entry : base + entryPoint file = entry

/-! ## The header of a setup -/

/-- A section header for a segment, with the constructor of its kind. -/
def sectionHdr (f : ℕ → ℕ → ℕ → ℕ → PeSectionHdr) (p : ProgramHeader) (base : ℕ) : PeSectionHdr :=
  f (roundUpTo p.memSize SECTION_ALIGNMENT) (p.virtualAddr - base)
    (roundUpTo p.memSize SECTION_ALIGNMENT) p.offset

/-- The section a loader is to find for a segment. -/
def sectionOf (p : ProgramHeader) (base : ℕ) : PeSection where
  virtualSize := roundUpTo p.memSize SECTION_ALIGNMENT
  virtualAddress := p.virtualAddr - base
  rawDataSize := roundUpTo p.memSize SECTION_ALIGNMENT
  dataAddr := p.offset

/-- A segment of pages above the base. -/
structure ProgramHeader.Paged (p : ProgramHeader) (base : ℕ) : Prop where
  placed : p.Placed
  aligned : p.virtualAddr % SECTION_ALIGNMENT = 0
  ge : SETUP32_LMA ≤ p.virtualAddr
  pagesEnd_le : p.pagesEnd ≤ 2 ^ 32
  base_pos : 0 < base
  base_le : base ≤ p.virtualAddr

section

variable {p : ProgramHeader} {base : ℕ}

theorem ProgramHeader.Paged.sizes (h : p.Paged base) :
    roundUpTo p.memSize SECTION_ALIGNMENT < 2 ^ 32 ∧ p.virtualAddr - base < 2 ^ 32 ∧
      p.offset < 2 ^ 32 ∧ 0x1000 ≤ p.offset := by
  have hend := h.pagesEnd_le
  have hge := h.ge
  have hpos := h.base_pos
  have hoff := h.placed.offset_add
  have hsize : LEGACY_SETUP_SEC_SIZE = 0x1000 := rfl
  have hlma : SETUP32_LMA = 0x100000 := rfl
  unfold ProgramHeader.pagesEnd at hend
  refine ⟨by omega, by omega, by omega, by omega⟩

/-- **The header of a section** is computed without a cut. -/
theorem newPeSecHeader_eq (h : p.Paged base) (f : ℕ → ℕ → ℕ → ℕ → PeSectionHdr) :
    newPeSecHeader p base f = .ok (sectionHdr f p base) := by
  obtain ⟨hlen, haddr, hoff, -⟩ := h.sizes
  have hend := h.placed.end_le
  have halign : SECTION_ALIGNMENT = 4096 := rfl
  unfold newPeSecHeader sectionHdr
  rw [check_pos h.aligned, ok_bind,
    alignUpTo_eq (n := SECTION_ALIGNMENT) (e := 12) rfl (by omega) (by omega), ok_bind,
    sub_eq h.base_le, ok_bind, setupFileOffset_eq h.placed.ge (by omega), ok_bind, asU32_eq hlen,
    asU32_eq haddr, asU32_eq hoff]

theorem holds_sectionOf (h : base ≤ p.virtualAddr) (rva : ℕ) :
    (sectionOf p base).Holds rva ↔ p.InPages (rva + base) := by
  unfold PeSection.Holds ProgramHeader.InPages ProgramHeader.pagesEnd sectionOf
  dsimp only
  omega

end

section

variable {elf : ElfFile} {header text rodata data : ProgramHeader}

/-- The base of the relative addresses, one page below the text. -/
def peBase (text : ProgramHeader) : ℕ := text.virtualAddr - SECTION_ALIGNMENT

/-- A setup whose addresses lie above the base. -/
structure Based (elf : ElfFile) (header text rodata data : ProgramHeader) : Prop where
  layout : SetupLayout elf header text rodata data
  rodata_ge : text.virtualAddr ≤ rodata.virtualAddr + SECTION_ALIGNMENT
  entry_ge : text.virtualAddr ≤ elf.entryPoint + SECTION_ALIGNMENT

theorem SetupLayout.placed (h : SetupLayout elf header text rodata data) :
    ∀ p ∈ elf.programs, p.Placed := by
  have hsegment (p : ProgramHeader) (hp : p ∈ [text, rodata, data]) :
      SETUP32_LMA - LEGACY_SETUP_SEC_SIZE ≤ p.virtualAddr ∧
        p.virtualAddr + p.memSize ≤ 2 ^ 32 := by
    have hge := h.ge p hp
    have hend := h.pagesEnd_le p hp
    have hround := le_roundUpTo p.memSize SECTION_ALIGNMENT
    unfold ProgramHeader.pagesEnd at hend
    omega
  intro p hp
  have hmem := hp
  rw [h.programs] at hmem
  rcases List.mem_cons.mp hmem with rfl | htail
  · exact ⟨h.load p hp, h.fileSize_le p hp, h.header_ge, h.header_end⟩
  · exact ⟨h.load p hp, h.fileSize_le p hp, (hsegment p htail).1, (hsegment p htail).2⟩

theorem Based.paged (h : Based elf header text rodata data) :
    ∀ p ∈ [text, rodata, data], p.Paged (peBase text) := by
  have htext := h.layout.ge text List.mem_cons_self
  have hrodata := h.rodata_ge
  obtain ⟨hhigh, -⟩ := h.layout.data_highest
  have halign : SECTION_ALIGNMENT = 4096 := rfl
  have hlma : SETUP32_LMA = 0x100000 := rfl
  have hbase : peBase text = text.virtualAddr - SECTION_ALIGNMENT := rfl
  intro p hp
  refine ⟨h.layout.placed p ?_, h.layout.aligned p hp, h.layout.ge p hp,
    h.layout.pagesEnd_le p hp, by omega, ?_⟩
  · rw [h.layout.programs]
    exact List.mem_cons_of_mem _ hp
  · unfold ProgramHeader.pagesEnd at hhigh
    simp only [List.mem_cons, List.not_mem_nil, or_false] at hp
    rcases hp with rfl | rfl | rfl
    · omega
    · omega
    · omega

/-- All section headers. -/
def sectionHdrs (text rodata data : ProgramHeader) : AllPeSectionHdrs where
  base := peBase text
  text := sectionHdr PeSectionHdr.newText text (peBase text)
  rodata := sectionHdr PeSectionHdr.newRodata rodata (peBase text)
  data := sectionHdr PeSectionHdr.newData data (peBase text)

theorem buildPeSecHeadersFrom_eq_ok_iff (h : Based elf header text rodata data)
    {hdrs : AllPeSectionHdrs} :
    buildPeSecHeadersFrom elf = .ok hdrs ↔
      (text.isExecute = true ∧ rodata.isRead = true ∧ data.isWrite = true) ∧
        hdrs = sectionHdrs text rodata data := by
  have htext := h.layout.ge text List.mem_cons_self
  have halign : SECTION_ALIGNMENT = 4096 := rfl
  have hlma : SETUP32_LMA = 0x100000 := rfl
  have hbase : sub text.virtualAddr SECTION_ALIGNMENT = .ok (peBase text) := sub_eq (by omega)
  have hpaged := h.paged
  unfold buildPeSecHeadersFrom
  rw [h.layout.programs]
  dsimp only
  rw [hbase]
  simp only [bind_eq_ok, check_eq_ok, exists_const, Except.ok.injEq, exists_eq_left',
    newPeSecHeader_eq (hpaged text (by simp)), newPeSecHeader_eq (hpaged rodata (by simp)),
    newPeSecHeader_eq (hpaged data (by simp))]
  constructor
  · rintro ⟨hx, hr, hw, rfl⟩
    exact ⟨⟨hx, hr, hw⟩, rfl⟩
  · rintro ⟨⟨hx, hr, hw⟩, rfl⟩
    exact ⟨hx, hr, hw, rfl⟩

theorem Based.fits (h : Based elf header text rodata data) :
    (sectionHdrs text rodata data).Fits elf := by
  obtain ⟨ht, ht', ht'', -⟩ := (h.paged text (by simp)).sizes
  obtain ⟨hr, hr', hr'', -⟩ := (h.paged rodata (by simp)).sizes
  obtain ⟨hd, hd', hd'', -⟩ := (h.paged data (by simp)).sizes
  obtain ⟨-, hhigh⟩ := h.layout.data_highest
  have hdata := h.paged data (by simp)
  have hpos := hdata.base_pos
  have hle := hdata.base_le
  have hend := hdata.pagesEnd_le
  have hrodata := h.layout.ge rodata (by simp)
  have hlt := h.layout.entry_lt
  have hentry := h.entry_ge
  have hlma : SETUP32_LMA = 0x100000 := rfl
  have hbase : peBase text = text.virtualAddr - SECTION_ALIGNMENT := rfl
  unfold ProgramHeader.pagesEnd at hhigh hend
  unfold sectionHdrs
  constructor
  case text => exact ⟨rfl, ht, ht', ht, ht''⟩
  case rodata => exact ⟨rfl, hr, hr', hr, hr''⟩
  case data => exact ⟨rfl, hd, hd', hd, hd''⟩
  case dataSize =>
    show roundUpTo rodata.memSize SECTION_ALIGNMENT +
      roundUpTo data.memSize SECTION_ALIGNMENT < 2 ^ 32
    omega
  case imageSize =>
    show data.virtualAddr - peBase text + roundUpTo data.memSize SECTION_ALIGNMENT < 2 ^ 32
    omega
  case base_le =>
    show peBase text ≤ elf.entryPoint
    omega
  case entry =>
    show elf.entryPoint - peBase text < 2 ^ 32
    omega

/-! ## The image -/

/-- The file that is written over a flat binary. -/
def imageOf (elf : ElfFile) (hdrs : AllPeSectionHdrs) (bin : List UInt8) : List UInt8 :=
  copyAt (resize bin (roundUpTo bin.length SECTION_ALIGNMENT)) 0 (encode (headerItems elf hdrs))

theorem makeBzimage_eq_ok_iff (h : Based elf header text rodata data) {bin image : List UInt8}
    (hbin : toFlatBinary elf = .ok bin) (hlen : bin.length ≤ 2 ^ 32) :
    makeBzimage .efi64 elf = .ok image ↔
      Supported elf text rodata data ∧
        image = imageOf elf (sectionHdrs text rodata data) bin := by
  have halign : SECTION_ALIGNMENT = 4096 := rfl
  have hheader := length_headerItems h.fits
  unfold makeBzimage assertElf64RelocSupported Supported imageOf
  rw [hbin, ok_bind, alignUpTo_eq (n := SECTION_ALIGNMENT) (e := 12) rfl (by omega) (by omega),
    ok_bind]
  simp only [bind_eq_ok, unwrap_eq_ok, check_eq_ok, exists_const, Except.ok.injEq]
  constructor
  · rintro ⟨hrela, bytes, hbytes, -, rfl⟩
    have hbuild : ∃ hdrs, buildPeSecHeadersFrom elf = .ok hdrs := by
      unfold makePeCoffHeader at hbytes
      rw [bind_eq_ok] at hbytes
      obtain ⟨hdrs, hhdrs, -⟩ := hbytes
      exact ⟨hdrs, hhdrs⟩
    obtain ⟨hdrs, hhdrs⟩ := hbuild
    obtain ⟨hflags, rfl⟩ := (buildPeSecHeadersFrom_eq_ok_iff h).mp hhdrs
    rw [makePeCoffHeader_eq h.fits hhdrs, Except.ok.injEq] at hbytes
    subst hbytes
    exact ⟨⟨hrela, hflags⟩, rfl⟩
  · rintro ⟨⟨hrela, hflags⟩, rfl⟩
    have hbuild := (buildPeSecHeadersFrom_eq_ok_iff h).mpr ⟨hflags, rfl⟩
    refine ⟨hrela, _, makePeCoffHeader_eq h.fits hbuild, ?_, rfl⟩
    rw [hheader]
    decide

theorem imageOf_eq_append (elf : ElfFile) (hdrs : AllPeSectionHdrs) (bin : List UInt8) :
    ∃ rest, imageOf elf hdrs bin = encode (headerItems elf hdrs) ++ rest := by
  unfold imageOf copyAt
  rw [List.take_zero, List.nil_append]
  exact ⟨_, rfl⟩

theorem sections_imageOf (h : Based elf header text rodata data) (bin : List UInt8) :
    sections (imageOf elf (sectionHdrs text rodata data) bin) =
      [sectionOf text (peBase text), sectionOf rodata (peBase text),
        sectionOf data (peBase text)] := by
  obtain ⟨rest, hrest⟩ := imageOf_eq_append elf (sectionHdrs text rodata data) bin
  rw [hrest]
  exact sections_headerItems h.fits rest

theorem imageSize_imageOf (h : Based elf header text rodata data) (bin : List UInt8) :
    imageSize (imageOf elf (sectionHdrs text rodata data) bin) =
      data.virtualAddr - peBase text + roundUpTo data.memSize SECTION_ALIGNMENT := by
  obtain ⟨rest, hrest⟩ := imageOf_eq_append elf (sectionHdrs text rodata data) bin
  rw [hrest]
  exact imageSize_head h.fits.imageSize

theorem entryPoint_imageOf (h : Based elf header text rodata data) (bin : List UInt8) :
    entryPoint (imageOf elf (sectionHdrs text rodata data) bin) =
      elf.entryPoint - peBase text := by
  obtain ⟨rest, hrest⟩ := imageOf_eq_append elf (sectionHdrs text rodata data) bin
  rw [hrest]
  exact entryPoint_head h.fits.entry

/-- The segments of pages do not meet. -/
theorem SetupLayout.pairwise (h : SetupLayout elf header text rodata data) :
    [text, rodata, data].Pairwise fun p q => ∀ v, ¬(p.InPages v ∧ q.InPages v) := by
  obtain ⟨htext, hrodata⟩ := h.data_highest
  have hbelow {p : ProgramHeader} (hp : p.pagesEnd ≤ data.virtualAddr) (v : ℕ) :
      ¬(p.InPages v ∧ data.InPages v) := by
    rintro ⟨⟨-, hlt⟩, hle, -⟩
    omega
  refine List.Pairwise.cons ?_ (List.Pairwise.cons ?_ (List.pairwise_singleton _ _))
  · intro q hq
    simp only [List.mem_cons, List.not_mem_nil, or_false] at hq
    rcases hq with rfl | rfl
    · exact h.text_rodata_disjoint
    · exact hbelow htext
  · intro q hq
    rw [List.mem_singleton.mp hq]
    exact hbelow hrodata

section

variable {p q : ProgramHeader} {i v : ℕ}

theorem ProgramHeader.Placed.covers_iff (h : q.Placed)
    (hi : i + SETUP32_LMA = v + LEGACY_SETUP_SEC_SIZE) :
    q.Covers i ↔ q.virtualAddr ≤ v ∧ v < q.virtualAddr + q.fileSize := by
  have hoff := h.offset_add
  unfold ProgramHeader.Covers
  omega

theorem ProgramHeader.Placed.inPages (h : q.Placed) (hle : q.virtualAddr ≤ v)
    (hlt : v < q.virtualAddr + q.fileSize) : q.InPages v := by
  have hfile := h.fileSize_le
  have hround := le_roundUpTo q.memSize SECTION_ALIGNMENT
  unfold ProgramHeader.InPages ProgramHeader.pagesEnd
  omega

end

/-- **The flat binary at an address of a segment's pages** is the byte of the segment: no other
segment puts anything there. -/
theorem SetupLayout.byteAt_flat (h : SetupLayout elf header text rodata data)
    {p : ProgramHeader} (hp : p ∈ [text, rodata, data]) {v i : ℕ} (hv : p.InPages v)
    (hi : i + SETUP32_LMA = v + LEGACY_SETUP_SEC_SIZE) :
    elf.programs.foldl (overlay i) 0 = byteAt p.data (v - p.virtualAddr) := by
  have hplaced := h.placed
  rw [h.programs] at hplaced ⊢
  have hoff := (hplaced p (List.mem_cons_of_mem _ hp)).offset_add
  have hge : p.offset ≤ i := by
    have := hv.1
    omega
  have hsame : i - p.offset = v - p.virtualAddr := by
    omega
  -- what covers the offset lies around the address
  have hheader : ¬header.Covers i := by
    rw [(hplaced header List.mem_cons_self).covers_iff hi]
    intro hcov
    have hfile := (hplaced header List.mem_cons_self).fileSize_le
    exact h.header_disjoint p hp v hv ⟨hcov.1, by omega⟩
  have hother (q : ProgramHeader) (hq : q ∈ [text, rodata, data])
      (hne : ¬(p.InPages v ∧ q.InPages v)) : ¬q.Covers i := by
    rw [(hplaced q (List.mem_cons_of_mem _ hq)).covers_iff hi]
    intro hcov
    exact hne ⟨hv, (hplaced q (List.mem_cons_of_mem _ hq)).inPages hcov.1 hcov.2⟩
  obtain ⟨before, after, hsplit⟩ := List.append_of_mem hp
  have hpairs := h.pairwise
  rw [hsplit, List.pairwise_append, List.pairwise_cons] at hpairs
  obtain ⟨-, ⟨hafter, -⟩, hbefore⟩ := hpairs
  rw [hsplit] at hother ⊢
  rw [← hsame, ← List.cons_append]
  apply foldl_overlay_eq hge
  · intro q hq
    rcases List.mem_cons.mp hq with rfl | hq
    · exact hheader
    · apply hother q (List.mem_append_left _ hq)
      rw [and_comm]
      exact hbefore q hq p List.mem_cons_self v
  · intro q hq
    exact hother q (List.mem_append_right _ (List.mem_cons_of_mem _ hq)) (hafter q hq v)

theorem length_imageOf (h : Based elf header text rodata data) {bin : List UInt8}
    (hbin : 368 ≤ bin.length) :
    (imageOf elf (sectionHdrs text rodata data) bin).length =
      roundUpTo bin.length SECTION_ALIGNMENT := by
  have hround := le_roundUpTo bin.length SECTION_ALIGNMENT
  unfold imageOf
  rw [length_copyAt, length_resize]
  rw [length_headerItems h.fits, length_resize]
  omega

/-- Behind the header the file is the flat binary. -/
theorem byteAt_imageOf (h : Based elf header text rodata data) {bin : List UInt8} {i : ℕ}
    (hi : 368 ≤ i) :
    byteAt (imageOf elf (sectionHdrs text rodata data) bin) i = byteAt bin i := by
  unfold imageOf
  rw [byteAt_copyAt (Nat.zero_le _), length_headerItems h.fits, if_neg (by omega),
    byteAt_resize (le_roundUpTo _ _)]

/-- **The loaded bytes.** -/
theorem Based.loadedByte_imageOf (h : Based elf header text rodata data) {bin : List UInt8}
    (hbytes : ∀ i, byteAt bin i = elf.programs.foldl (overlay i) 0) {p : ProgramHeader}
    (hp : p ∈ [text, rodata, data]) {v : ℕ} (hv : p.InPages v) :
    loadedByte (imageOf elf (sectionHdrs text rodata data) bin) (v - peBase text) =
      some (byteAt p.data (v - p.virtualAddr)) := by
  have hpaged := h.paged
  have hbase := (hpaged p hp).base_le
  have hle := hv.1
  have hlt := hv.2
  unfold ProgramHeader.pagesEnd at hlt
  have hback : v - peBase text + peBase text = v := by omega
  -- the section of `p` is the only one around the address
  have hload : (sectionOf p (peBase text)).load
      (imageOf elf (sectionHdrs text rodata data) bin) (v - peBase text) =
        some (byteAt p.data (v - p.virtualAddr)) := by
    have hoff := (hpaged p hp).placed.offset_add
    obtain ⟨-, -, -, hlow⟩ := (hpaged p hp).sizes
    have hrel : v - peBase text - (p.virtualAddr - peBase text) = v - p.virtualAddr := by omega
    unfold PeSection.load
    rw [if_pos ((holds_sectionOf hbase _).mpr (by rw [hback]; exact hv))]
    show some (if v - peBase text - (p.virtualAddr - peBase text) <
      roundUpTo p.memSize SECTION_ALIGNMENT then byteAt _ (p.offset + (v - peBase text -
        (p.virtualAddr - peBase text))) else 0) = _
    rw [hrel, if_pos (by omega), byteAt_imageOf h (by omega), hbytes,
      h.layout.byteAt_flat hp hv (by omega)]
  have hmiss {q : ProgramHeader} (hq : q ∈ [text, rodata, data])
      (hne : ¬(q.InPages v ∧ p.InPages v)) : (sectionOf q (peBase text)).load
        (imageOf elf (sectionHdrs text rodata data) bin) (v - peBase text) = none := by
    unfold PeSection.load
    rw [if_neg]
    rw [holds_sectionOf (hpaged q hq).base_le, hback]
    exact fun hq' => hne ⟨hq', hv⟩
  obtain ⟨before, after, hsplit⟩ := List.append_of_mem hp
  have hpairs := h.layout.pairwise
  have hsections := sections_imageOf h bin
  change _ = [text, rodata, data].map (sectionOf · (peBase text)) at hsections
  rw [hsplit, List.pairwise_append, List.pairwise_cons] at hpairs
  obtain ⟨-, -, hbefore⟩ := hpairs
  unfold loadedByte
  rw [hsections, hsplit, List.map_append, List.findSome?_append, List.map_cons]
  have hnone : (before.map (sectionOf · (peBase text))).findSome?
      (PeSection.load (imageOf elf (sectionHdrs text rodata data) bin) (v - peBase text)) =
        none := by
    rw [List.findSome?_eq_none_iff]
    intro s hs
    obtain ⟨q, hq, rfl⟩ := List.mem_map.mp hs
    apply hmiss
    · rw [hsplit]
      exact List.mem_append_left _ hq
    · exact hbefore q hq p List.mem_cons_self v
  rw [hnone, Option.none_or, List.findSome?_cons, hload]

theorem byteAt_eq_dite (bin : List UInt8) (i : ℕ) :
    byteAt bin i = if h : i < bin.length then bin.get ⟨i, h⟩ else 0 := by
  unfold byteAt
  split_ifs with h
  · exact List.getD_eq_getElem _ _ h
  · exact List.getD_eq_default _ _ (not_lt.mp h)

/-- The image over the flat binary of a setup is its memory. -/
theorem Based.reproduces (h : Based elf header text rodata data) {bin : List UInt8}
    (hmem : ∀ p ∈ elf.programs, p.offset + p.memSize ≤ bin.length)
    (hbytes : ∀ i, byteAt bin i = elf.programs.foldl (overlay i) 0) :
    Reproduces (imageOf elf (sectionHdrs text rodata data) bin) (peBase text) elf.entryPoint
      [text, rodata, data] := by
  have hpaged := h.paged
  have hinPrograms {p : ProgramHeader} (hp : p ∈ [text, rodata, data]) : p ∈ elf.programs := by
    rw [h.layout.programs]
    exact List.mem_cons_of_mem _ hp
  have hsections := sections_imageOf h bin
  change _ = [text, rodata, data].map (sectionOf · (peBase text)) at hsections
  constructor
  case inFile =>
    intro s hs
    rw [hsections] at hs
    obtain ⟨p, hp, rfl⟩ := List.mem_map.mp hs
    obtain ⟨-, -, -, hlow⟩ := (hpaged p hp).sizes
    have hend := hmem p (hinPrograms hp)
    have hoff := (hpaged p hp).placed.offset_add
    have haligned := (hpaged p hp).aligned
    have hsize : LEGACY_SETUP_SEC_SIZE = 0x1000 := rfl
    have hlma : SETUP32_LMA = 0x100000 := rfl
    have halign : SECTION_ALIGNMENT = 4096 := rfl
    have hdvd : SECTION_ALIGNMENT ∣ p.offset := by
      rw [halign] at haligned ⊢
      omega
    rw [length_imageOf h (by omega)]
    show p.offset + roundUpTo p.memSize SECTION_ALIGNMENT ≤ _
    exact add_roundUpTo_le (by omega) hdvd hend
  case disjoint =>
    rw [hsections, List.pairwise_map]
    refine h.layout.pairwise.imp_of_mem ?_
    intro p q hp hq hne rva
    rw [holds_sectionOf (hpaged p hp).base_le, holds_sectionOf (hpaged q hq).base_le]
    exact hne (rva + peBase text)
  case inImage =>
    intro s hs
    rw [hsections] at hs
    obtain ⟨p, hp, rfl⟩ := List.mem_map.mp hs
    rw [imageSize_imageOf h]
    show p.virtualAddr - peBase text + roundUpTo p.memSize SECTION_ALIGNMENT ≤ _
    have hbase := (hpaged p hp).base_le
    obtain ⟨htext, hrodata⟩ := h.layout.data_highest
    unfold ProgramHeader.pagesEnd at htext hrodata
    simp only [List.mem_cons, List.not_mem_nil, or_false] at hp
    rcases hp with rfl | rfl | rfl
    · omega
    · omega
    · exact le_refl _
  case bytes =>
    intro p hp v hv
    rw [h.loadedByte_imageOf hbytes hp hv, byteAt_eq_dite]
    rfl
  case entry =>
    have hle := h.fits.base_le
    rw [entryPoint_imageOf h]
    exact Nat.add_sub_cancel' hle

/-- **The layout of the bzImage.**  Where the rodata segment and the entry point lie above the
base, every EFI image that is written reproduces the memory of the setup, and the image is
written whenever the assertions on relocations and segment flags hold. -/
theorem makeBzimage_reproduces (h : Based elf header text rodata data) :
    (∀ image, makeBzimage .efi64 elf = .ok image →
      Reproduces image (text.virtualAddr - SECTION_ALIGNMENT) elf.entryPoint
        [text, rodata, data]) ∧
    (Supported elf text rodata data → ∃ image, makeBzimage .efi64 elf = .ok image) := by
  obtain ⟨bin, hbin, hlen, hmem, hbytes⟩ := toFlatBinary_spec h.layout.placed
  constructor
  · intro image himage
    obtain ⟨-, rfl⟩ := (makeBzimage_eq_ok_iff h hbin hlen).mp himage
    exact h.reproduces hmem hbytes
  · intro hsupported
    exact ⟨_, (makeBzimage_eq_ok_iff h hbin hlen).mpr ⟨hsupported, rfl⟩⟩

end

/-! A small setup in the order of the linker script, and two others. -/

/-- A segment with its data, all flags set. -/
def sampleSegment (virtualAddr memSize : ℕ) (data : List UInt8) : ProgramHeader :=
  ⟨true, virtualAddr, memSize, data, true, true, true⟩

/-- A setup ELF with an empty header segment. -/
def sampleElf (text rodata data : ProgramHeader) (entry : ℕ) : ElfFile :=
  ⟨[sampleSegment 0xff000 0 [], text, rodata, data], entry, some [R_X86_64_RELATIVE]⟩

theorem sampleElf_supported (text rodata data entry : ℕ) :
    Supported (sampleElf (sampleSegment text 1 [0xc3]) (sampleSegment rodata 1 [])
      (sampleSegment data 2 [1]) entry) (sampleSegment text 1 [0xc3]) (sampleSegment rodata 1 [])
      (sampleSegment data 2 [1]) := by
  refine ⟨⟨[R_X86_64_RELATIVE], rfl, ?_⟩, rfl, rfl, rfl⟩
  intro r hr
  exact List.mem_singleton.mp hr

theorem sampleSegment_pagesEnd (va : ℕ) {mem : ℕ} (data : List UInt8)
    (hmem : roundUpTo mem SECTION_ALIGNMENT = 0x1000) :
    (sampleSegment va mem data).pagesEnd = va + 0x1000 := by
  show va + roundUpTo mem SECTION_ALIGNMENT = _
  rw [hmem]

/-- Three segments of one page each. -/
theorem sampleElf_layout {text rodata data entry : ℕ}
    (htext : 0x100000 ≤ text ∧ text % 4096 = 0 ∧ text + 0x1000 ≤ data)
    (hrodata : 0x100000 ≤ rodata ∧ rodata % 4096 = 0 ∧ rodata + 0x1000 ≤ data)
    (hdata : data % 4096 = 0 ∧ data + 0x1000 ≤ 2 ^ 32)
    (hne : text + 0x1000 ≤ rodata ∨ rodata + 0x1000 ≤ text) (hentry : entry < 2 ^ 32) :
    SetupLayout (sampleElf (sampleSegment text 1 [0xc3]) (sampleSegment rodata 1 [])
      (sampleSegment data 2 [1]) entry) (sampleSegment 0xff000 0 [])
      (sampleSegment text 1 [0xc3]) (sampleSegment rodata 1 []) (sampleSegment data 2 [1]) := by
  have ht := sampleSegment_pagesEnd text [0xc3] (show roundUpTo 1 SECTION_ALIGNMENT = _ by decide)
  have hr := sampleSegment_pagesEnd rodata [] (show roundUpTo 1 SECTION_ALIGNMENT = _ by decide)
  have hd := sampleSegment_pagesEnd data [1] (show roundUpTo 2 SECTION_ALIGNMENT = _ by decide)
  have hva (va mem : ℕ) (bytes : List UInt8) : (sampleSegment va mem bytes).virtualAddr = va := rfl
  have hlma : SETUP32_LMA = 0x100000 := rfl
  have halign : SECTION_ALIGNMENT = 4096 := rfl
  constructor
  case programs => rfl
  case load => simp [sampleElf, sampleSegment]
  case fileSize_le => simp [sampleElf, sampleSegment, ProgramHeader.fileSize]
  case header_ge => decide
  case header_end => decide
  case aligned =>
    simp only [List.forall_mem_cons, hva, halign]
    exact ⟨htext.2.1, hrodata.2.1, hdata.1, by simp⟩
  case ge =>
    simp only [List.forall_mem_cons, hva, hlma]
    exact ⟨htext.1, hrodata.1, by omega, by simp⟩
  case pagesEnd_le =>
    simp only [List.forall_mem_cons, ht, hr, hd]
    exact ⟨by omega, by omega, hdata.2, by simp⟩
  case header_disjoint =>
    rintro p - v - ⟨hle, hlt⟩
    exact absurd hlt (not_lt.mpr hle)
  case text_rodata_disjoint =>
    rintro v ⟨hintext, hinrodata⟩
    unfold ProgramHeader.InPages at hintext hinrodata
    rw [ht, hva] at hintext
    rw [hr, hva] at hinrodata
    omega
  case data_highest =>
    rw [ht, hr, hva]
    exact ⟨htext.2.2, hrodata.2.2⟩
  case entry_lt => exact hentry

/-- Text, rodata and data in the order of the linker script: the first byte of the text is
loaded one page above the start of the image. -/
theorem makeBzimage_reproduces_sample :
    ∃ image, makeBzimage .efi64 (sampleElf (sampleSegment 0x100000 1 [0xc3])
        (sampleSegment 0x101000 1 []) (sampleSegment 0x102000 2 [1]) 0x100000) = .ok image ∧
      loadedByte image 0x1000 = some 0xc3 ∧ 0xff000 + entryPoint image = 0x100000 := by
  have hlayout : Based (sampleElf (sampleSegment 0x100000 1 [0xc3]) (sampleSegment 0x101000 1 [])
      (sampleSegment 0x102000 2 [1]) 0x100000) (sampleSegment 0xff000 0 [])
      (sampleSegment 0x100000 1 [0xc3]) (sampleSegment 0x101000 1 [])
      (sampleSegment 0x102000 2 [1]) :=
    ⟨sampleElf_layout (by decide) (by decide) (by decide) (by decide) (by decide), by decide,
      by decide⟩
  obtain ⟨himages, hwritten⟩ := makeBzimage_reproduces hlayout
  obtain ⟨image, himage⟩ := hwritten (sampleElf_supported _ _ _ _)
  have hrep := himages image himage
  refine ⟨image, himage, ?_, hrep.entry⟩
  exact hrep.bytes (sampleSegment 0x100000 1 [0xc3]) List.mem_cons_self 0x100000 (by decide)

/-- What is written has a header. -/
theorem not_written_of_error {elf : ElfFile} {fault : Fault}
    (h : makePeCoffHeader elf = .error fault) : ¬∃ image, makeBzimage .efi64 elf = .ok image := by
  rintro ⟨image, himage⟩
  unfold makeBzimage at himage
  simp only [bind_eq_ok] at himage
  obtain ⟨-, -, -, -, -, -, bytes, hbytes, -⟩ := himage
  rw [h] at hbytes
  contradiction

/-- With rodata two pages below text, or with the entry point two pages below it, no image is
written: the address relative to the base is negative. -/
theorem makeBzimage_below_base :
    (SetupLayout (sampleElf (sampleSegment 0x102000 1 [0xc3]) (sampleSegment 0x100000 1 [])
        (sampleSegment 0x103000 2 [1]) 0x102000) (sampleSegment 0xff000 0 [])
        (sampleSegment 0x102000 1 [0xc3]) (sampleSegment 0x100000 1 [])
        (sampleSegment 0x103000 2 [1]) ∧
      Supported (sampleElf (sampleSegment 0x102000 1 [0xc3]) (sampleSegment 0x100000 1 [])
        (sampleSegment 0x103000 2 [1]) 0x102000) (sampleSegment 0x102000 1 [0xc3])
        (sampleSegment 0x100000 1 []) (sampleSegment 0x103000 2 [1]) ∧
      ¬∃ image, makeBzimage .efi64 (sampleElf (sampleSegment 0x102000 1 [0xc3])
        (sampleSegment 0x100000 1 []) (sampleSegment 0x103000 2 [1]) 0x102000) = .ok image) ∧
    (SetupLayout (sampleElf (sampleSegment 0x102000 1 [0xc3]) (sampleSegment 0x103000 1 [])
        (sampleSegment 0x104000 2 [1]) 0x100000) (sampleSegment 0xff000 0 [])
        (sampleSegment 0x102000 1 [0xc3]) (sampleSegment 0x103000 1 [])
        (sampleSegment 0x104000 2 [1]) ∧
      Supported (sampleElf (sampleSegment 0x102000 1 [0xc3]) (sampleSegment 0x103000 1 [])
        (sampleSegment 0x104000 2 [1]) 0x100000) (sampleSegment 0x102000 1 [0xc3])
        (sampleSegment 0x103000 1 []) (sampleSegment 0x104000 2 [1]) ∧
      ¬∃ image, makeBzimage .efi64 (sampleElf (sampleSegment 0x102000 1 [0xc3])
        (sampleSegment 0x103000 1 []) (sampleSegment 0x104000 2 [1]) 0x100000) = .ok image) := by
  refine ⟨⟨?_, sampleElf_supported _ _ _ _, ?_⟩, ⟨?_, sampleElf_supported _ _ _ _, ?_⟩⟩
  · exact sampleElf_layout (by decide) (by decide) (by decide) (by decide) (by decide)
  · apply not_written_of_error
    show makePeCoffHeader _ = .error .overflow
    decide +kernel
  · exact sampleElf_layout (by decide) (by decide) (by decide) (by decide) (by decide)
  · apply not_written_of_error
    show makePeCoffHeader _ = .error .overflow
    decide +kernel

end Vostd.Bzimage
