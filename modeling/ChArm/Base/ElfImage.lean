import ChArm.Base.ElfLoader

/-!
# The image a loaded file leaves in memory

`loadElf` on a well-formed file and an empty page table.  The copy loop of a
`PT_LOAD` segment runs `p_vaddr % PAGESIZE` bytes further than the file part of
the segment, so that it spills there whatever the file holds next.
`loadElf_faithful_iff` says for which files the image is still the one the file
describes; files of page-aligned segments are among them
(`harmlessSpills_of_pageAligned`), others are not (`not_faithful_unalignedElf`).

* `loadSegment_load` — what loading one segment does to the table.
* `copied_eq_image` — what is left once all segments are copied.
* `loadElf_faithful_iff` — for which files the image is the one described.
-/

namespace ChArm

/-! ## The segments of a file -/

/-- The program headers the loop visits. -/
def phdrs (file : List Byte) (entrySize : Word) : Nat → Word → List Elf64Phdr
  | 0, _ => []
  | n + 1, progHeader =>
      phdrAt file progHeader :: phdrs file entrySize n (progHeader + entrySize)

/-- The `PT_LOAD` segments among the first `n` headers from `ph` on, in the order of the table. -/
def loadable (file : List Byte) (entrySize : Word) (n : Nat) (ph : Word) : List Elf64Phdr :=
  (phdrs file entrySize n ph).filter fun s => s.pType = PT_LOAD

/-- The `PT_LOAD` segments of a file. -/
def segments (file : List Byte) : List Elf64Phdr :=
  loadable file (ehdrOf file).ePhentsize (ehdrOf file).ePhnum.toNat (ehdrOf file).ePhoff

namespace Elf64Phdr

variable (s : Elf64Phdr)

/-- How many bytes the copy loop copies. -/
def copyLen : Nat := (s.pFilesz + s.pVaddr % 4096#64).toNat

/-- The distance of an address from the start of the segment. -/
def offset (a : Word) : Nat := (a - s.pVaddr).toNat

/-- The copy loop writes to `a`. -/
def Copies (a : Word) : Prop := s.offset a < s.copyLen

instance (a : Word) : Decidable (s.Copies a) := inferInstanceAs (Decidable (_ < _))

/-- The segment's memory contains `a`. -/
def Holds (a : Word) : Prop := s.offset a < s.pMemsz.toNat

/-- The file byte at offset `j` of the segment. -/
def fileData (file : List Byte) (j : Nat) : Byte :=
  file.getD (s.pOffset + BitVec.ofNat 64 j).toNat 0

/-- The byte at offset `j` of the segment: from the file, and 0 past the file part. -/
def image (file : List Byte) (j : Nat) : Byte :=
  if j < s.pFilesz.toNat then s.fileData file j else 0

/-- Every byte the copy loop reads is in the file. -/
def InFile (file : List Byte) : Prop :=
  ∀ j < s.copyLen, (s.pOffset + BitVec.ofNat 64 j).toNat < file.length

/-- The pages the bss loop maps. -/
def mapBss (pt : PTable) : PTable :=
  let fAlign := s.pFilesz + (4096#64 - (s.pFilesz + s.pVaddr) % 4096#64)
  if s.pMemsz > s.pFilesz then
    (List.range (s.pMemsz - s.pFilesz).toNat).foldl (mapByte (s.pVaddr + fAlign)) pt
  else pt

/-- What the copy loop does to the bytes. -/
def copyTo (file : List Byte) (f : Word → Byte) : Word → Byte :=
  overwrite f s.pVaddr (s.fileData file) s.copyLen

end Elf64Phdr

/-! ## Well-formed files -/

/-- The header of section `i`. -/
def sectionHeader (file : List Byte) (i : Nat) : Word :=
  (ehdrOf file).eShoff + BitVec.ofNat 64 i * (ehdrOf file).eShentsize

/-- The offset of the section names, `strings` in the source. -/
def sectionStrings (file : List Byte) : Word :=
  fieldAt file ((ehdrOf file).eShoff + (ehdrOf file).eShstrndx * (ehdrOf file).eShentsize + 24) 8

/-- A string that ends inside the file begins at `name`. -/
def IsString (file : List Byte) (name : Word) : Prop :=
  ∃ n, name.toNat + n < file.length ∧ file.getD (name.toNat + n) 0 = 0

/-- A well-formed executable: headers, tables and section names are inside the file, and the
`PT_LOAD` segments lie in the file and ascend in memory without overlap. -/
structure WellFormedElf (file : List Byte) : Prop where
  length_lt : file.length < 2 ^ 63
  header : 64 ≤ file.length
  executable : (ehdrOf file).eType = ET_EXEC
  programHeaders : ∀ i < (ehdrOf file).ePhnum.toNat,
    (ehdrOf file).ePhoff.toNat + i * (ehdrOf file).ePhentsize.toNat + 56 ≤ file.length
  sectionHeaders : ∀ i < (ehdrOf file).eShnum.toNat,
    (ehdrOf file).eShoff.toNat + i * (ehdrOf file).eShentsize.toNat + 64 ≤ file.length
  stringHeader : (ehdrOf file).eShoff.toNat +
    (ehdrOf file).eShstrndx.toNat * (ehdrOf file).eShentsize.toNat + 64 ≤ file.length
  sectionNames : ∀ i < (ehdrOf file).eShnum.toNat,
    IsString file (sectionStrings file + fieldAt file (sectionHeader file i) 4)
  filesz_le : ∀ s ∈ segments file, s.pFilesz.toNat ≤ s.pMemsz.toNat
  file_range : ∀ s ∈ segments file, s.pOffset.toNat + s.pFilesz.toNat ≤ file.length
  memory_range : ∀ s ∈ segments file, s.pVaddr.toNat + s.pMemsz.toNat ≤ 2 ^ 64
  ascending : (segments file).Pairwise fun s t => s.pVaddr.toNat + s.pMemsz.toNat ≤ t.pVaddr.toNat

/-! ## Reading inside the file -/

variable {file : List Byte}

theorem fileByte_ok {off : Word} (h : off.toNat < file.length) :
    fileByte file off = .ok (file.getD off.toNat 0) := by
  unfold fileByte
  rw [List.getElem?_eq_getElem h, List.getD_eq_getElem _ _ h]

theorem lt_length_of_fileByte {off : Word} {byte : Byte} (h : fileByte file off = .ok byte) :
    off.toNat < file.length := by
  unfold fileByte at h
  by_contra hlt
  rw [List.getElem?_eq_none (Nat.le_of_not_lt hlt)] at h
  cases h

theorem toNat_add_ofNat {off : Word} {k : Nat} (h : off.toNat + k < 2 ^ 64) :
    (off + BitVec.ofNat 64 k).toNat = off.toNat + k := by
  rw [BitVec.toNat_add, BitVec.toNat_ofNat, Nat.mod_eq_of_lt (by omega : k < 2 ^ 64),
    Nat.mod_eq_of_lt h]

/-- A field inside the file is read. -/
theorem readField_ok {off : Word} {n : Nat} (hl : file.length < 2 ^ 63)
    (h : off.toNat + n ≤ file.length) : readField file off n = .ok (fieldAt file off n) := by
  apply if_pos
  intro k hk
  rw [toNat_add_ofNat (by omega)]
  omega

/-- A field of a structure inside the file is read. -/
theorem readField_member {base off : Word} {n size : Nat} (hl : file.length < 2 ^ 63)
    (h : base.toNat + size ≤ file.length) (hn : off.toNat + n ≤ size) :
    readField file (base + off) n = .ok (fieldAt file (base + off) n) := by
  apply readField_ok hl
  rw [BitVec.toNat_add, Nat.mod_eq_of_lt (by omega)]
  omega

/-! ## One segment -/

/-- The copy loop, all of whose reads are in the file. -/
theorem foldlM_copyByte (dataPtr vaddr : Word) (pt : PTable) {n : Nat} (hn : n ≤ 2 ^ 64)
    (h : ∀ j < n, (dataPtr + BitVec.ofNat 64 j).toNat < file.length) :
    ∃ qt, (List.range n).foldlM (copyByte file dataPtr vaddr) pt = .ok qt ∧
      qt.byteAt = overwrite pt.byteAt vaddr
        (fun j => file.getD (dataPtr + BitVec.ofNat 64 j).toNat 0) n := by
  induction n with
  | zero =>
    refine ⟨pt, rfl, ?_⟩
    funext a
    exact (if_neg (Nat.not_lt_zero _)).symm
  | succ n ih =>
    obtain ⟨qt, hrun, hbytes⟩ := ih (by omega) fun j hj => h j (by omega)
    refine ⟨memWriteByte qt (vaddr + BitVec.ofNat 64 n)
      (file.getD (dataPtr + BitVec.ofNat 64 n).toNat 0), ?_, ?_⟩
    · rw [List.range_succ, List.foldlM_append, hrun]
      show (List.foldlM (copyByte file dataPtr vaddr) qt [n] : Except Abort PTable) = _
      rw [List.foldlM_cons, copyByte, fileByte_ok (h n (Nat.lt_succ_self n))]
      rfl
    · rw [byteAt_memWriteByte, hbytes]
      exact overwrite_succ _ _ (fun j => file.getD (dataPtr + BitVec.ofNat 64 j).toNat 0)
        (by omega)

/-- A copy loop that ends has read inside the file only. -/
theorem lt_length_of_foldlM_copyByte {dataPtr vaddr : Word} {pt qt : PTable} {n : Nat}
    (h : (List.range n).foldlM (copyByte file dataPtr vaddr) pt = .ok qt) :
    ∀ j < n, (dataPtr + BitVec.ofNat 64 j).toNat < file.length := by
  induction n generalizing qt with
  | zero => exact fun j hj => absurd hj (Nat.not_lt_zero j)
  | succ n ih =>
    rw [List.range_succ, List.foldlM_append] at h
    cases hrun : (List.range n).foldlM (copyByte file dataPtr vaddr) pt with
    | error e => rw [hrun] at h; cases h
    | ok rt =>
      intro j hj
      rcases Nat.lt_succ_iff_lt_or_eq.1 hj with hlt | rfl
      · exact ih hrun j hlt
      · rw [hrun] at h
        cases hbyte : fileByte file (dataPtr + BitVec.ofNat 64 j) with
        | ok byte => exact lt_length_of_fileByte hbyte
        | error e =>
          simp [bind, Except.bind, copyByte, hbyte] at h

/-- Mapping the bss adds zeroed pages where there were none. -/
theorem byteAt_foldl_mapByte (base : Word) (js : List Nat) (pt : PTable) :
    (js.foldl (mapByte base) pt).byteAt = pt.byteAt := by
  induction js generalizing pt with
  | nil => rfl
  | cons j js ih =>
    rw [List.foldl_cons, ih, mapByte]
    cases hg : getPage pt (pageOf (base + BitVec.ofNat 64 j)) with
    | none => exact byteAt_addPage hg
    | some page => rfl

/-- A segment that is not loaded leaves the table as it is. -/
theorem loadSegment_other {ph : Word} (hl : file.length < 2 ^ 63)
    (hph : ph.toNat + 56 ≤ file.length) (hs : (phdrAt file ph).pType ≠ PT_LOAD) (pt : PTable) :
    loadSegment file ph pt = .ok pt := by
  unfold loadSegment
  rw [readField_ok hl (by omega)]
  exact if_neg hs

/-- A loaded segment is copied, and then its bss mapped. -/
theorem loadSegment_load {ph : Word} (hl : file.length < 2 ^ 63)
    (hph : ph.toNat + 56 ≤ file.length) (hs : (phdrAt file ph).pType = PT_LOAD) (pt : PTable) :
    loadSegment file ph pt = (List.range (phdrAt file ph).copyLen).foldlM
      (copyByte file (phdrAt file ph).pOffset (phdrAt file ph).pVaddr) pt >>=
        fun qt => .ok ((phdrAt file ph).mapBss qt) := by
  have hfield : ∀ off : Word, off.toNat + 8 ≤ 56 →
      readField file (ph + off) 8 = .ok (fieldAt file (ph + off) 8) :=
    fun off hoff => readField_member hl hph hoff
  have htype : fieldAt file ph 4 = PT_LOAD := hs
  unfold loadSegment
  rw [readField_ok hl (by omega), hfield 8 (by decide), hfield 16 (by decide),
    hfield 32 (by decide), hfield 40 (by decide)]
  simp only [bind, Except.bind, htype, if_true]
  show Except.bind (List.foldlM _ pt (List.range (phdrAt file ph).copyLen)) _ =
    Except.bind (List.foldlM _ pt (List.range (phdrAt file ph).copyLen)) _
  congr 1
  funext qt
  unfold Elf64Phdr.mapBss
  by_cases hbss : (phdrAt file ph).pMemsz > (phdrAt file ph).pFilesz
  · exact (if_pos hbss).trans (congrArg Except.ok (if_pos hbss).symm)
  · exact (if_neg hbss).trans (congrArg Except.ok (if_neg hbss).symm)

theorem Elf64Phdr.byteAt_mapBss (s : Elf64Phdr) (pt : PTable) :
    (s.mapBss pt).byteAt = pt.byteAt := by
  unfold Elf64Phdr.mapBss
  by_cases hbss : s.pMemsz > s.pFilesz
  · rw [if_pos hbss]
    exact byteAt_foldl_mapByte _ _ _
  · rw [if_neg hbss]

theorem loadSegment_ok {ph : Word} (hl : file.length < 2 ^ 63)
    (hph : ph.toNat + 56 ≤ file.length) (hs : (phdrAt file ph).pType = PT_LOAD) (pt : PTable)
    (hin : (phdrAt file ph).InFile file) :
    ∃ qt, loadSegment file ph pt = .ok qt ∧
      qt.byteAt = (phdrAt file ph).copyTo file pt.byteAt := by
  obtain ⟨qt, hrun, hbytes⟩ := foldlM_copyByte (phdrAt file ph).pOffset (phdrAt file ph).pVaddr pt
    (BitVec.isLt _).le hin
  refine ⟨(phdrAt file ph).mapBss qt, ?_, ?_⟩
  · rw [loadSegment_load hl hph hs]
    exact congrArg (· >>= fun qt => .ok ((phdrAt file ph).mapBss qt)) hrun
  · rw [Elf64Phdr.byteAt_mapBss, hbytes]
    rfl

theorem inFile_of_loadSegment {ph : Word} (hl : file.length < 2 ^ 63)
    (hph : ph.toNat + 56 ≤ file.length) (hs : (phdrAt file ph).pType = PT_LOAD) {pt qt : PTable}
    (h : loadSegment file ph pt = .ok qt) : (phdrAt file ph).InFile file := by
  rw [loadSegment_load hl hph hs] at h
  cases hrun : (List.range (phdrAt file ph).copyLen).foldlM
      (copyByte file (phdrAt file ph).pOffset (phdrAt file ph).pVaddr) pt with
  | error e => rw [hrun] at h; cases h
  | ok rt => exact lt_length_of_foldlM_copyByte hrun

/-! ## All segments -/

/-- The headers of the loop are inside the file. -/
def HeadersInFile (file : List Byte) (entrySize ph : Word) (n : Nat) : Prop :=
  ∀ i < n, ph.toNat + i * entrySize.toNat + 56 ≤ file.length

theorem HeadersInFile.head {entrySize ph : Word} {n : Nat}
    (h : HeadersInFile file entrySize ph (n + 1)) : ph.toNat + 56 ≤ file.length := by
  have h0 := h 0 (Nat.succ_pos n)
  omega

theorem HeadersInFile.tail {entrySize ph : Word} {n : Nat} (hl : file.length < 2 ^ 63)
    (h : HeadersInFile file entrySize ph (n + 1)) :
    HeadersInFile file entrySize (ph + entrySize) n := by
  intro i hi
  have hi' := h (i + 1) (by omega)
  rw [Nat.succ_mul] at hi'
  rw [BitVec.toNat_add, Nat.mod_eq_of_lt (by omega)]
  omega

theorem loadable_succ (entrySize : Word) (n : Nat) (ph : Word) :
    loadable file entrySize (n + 1) ph =
      if (phdrAt file ph).pType = PT_LOAD then
        phdrAt file ph :: loadable file entrySize n (ph + entrySize)
      else loadable file entrySize n (ph + entrySize) := by
  unfold loadable
  rw [phdrs, List.filter_cons]
  by_cases hs : (phdrAt file ph).pType = PT_LOAD
  · rw [if_pos hs, if_pos (decide_eq_true hs)]
  · rw [if_neg hs, if_neg (by simpa using hs)]

/-- The loop over the headers, all of whose copies stay in the file. -/
theorem loadSegments_ok {entrySize ph : Word} {n : Nat} (hl : file.length < 2 ^ 63)
    (hph : HeadersInFile file entrySize ph n)
    (hin : ∀ s ∈ loadable file entrySize n ph, s.InFile file) (pt : PTable) :
    ∃ qt, loadSegments file entrySize n ph pt = .ok qt ∧
      qt.byteAt = (loadable file entrySize n ph).foldl (fun f s => s.copyTo file f) pt.byteAt := by
  induction n generalizing ph pt with
  | zero => exact ⟨pt, rfl, rfl⟩
  | succ n ih =>
    rw [loadable_succ] at hin ⊢
    by_cases hs : (phdrAt file ph).pType = PT_LOAD
    · rw [if_pos hs] at hin ⊢
      obtain ⟨rt, hrun, hbytes⟩ := loadSegment_ok hl hph.head hs pt (hin _ List.mem_cons_self)
      obtain ⟨qt, hrun', hbytes'⟩ := ih (hph.tail hl)
        (fun s hmem => hin s (List.mem_cons_of_mem _ hmem)) rt
      refine ⟨qt, ?_, ?_⟩
      · rw [loadSegments, hrun]
        exact hrun'
      · rw [hbytes', hbytes, List.foldl_cons]
    · rw [if_neg hs] at hin ⊢
      obtain ⟨qt, hrun', hbytes'⟩ := ih (hph.tail hl) hin pt
      refine ⟨qt, ?_, hbytes'⟩
      rw [loadSegments, loadSegment_other hl hph.head hs]
      exact hrun'

theorem inFile_of_loadSegments {entrySize ph : Word} {n : Nat} (hl : file.length < 2 ^ 63)
    (hph : HeadersInFile file entrySize ph n) {pt qt : PTable}
    (h : loadSegments file entrySize n ph pt = .ok qt) :
    ∀ s ∈ loadable file entrySize n ph, s.InFile file := by
  induction n generalizing ph pt with
  | zero => exact fun s hs => absurd hs List.not_mem_nil
  | succ n ih =>
    rw [loadSegments] at h
    cases hrun : loadSegment file ph pt with
    | error e => rw [hrun] at h; cases h
    | ok rt =>
      rw [hrun] at h
      have htail := ih (hph.tail hl) h
      rw [loadable_succ]
      by_cases hs : (phdrAt file ph).pType = PT_LOAD
      · rw [if_pos hs]
        intro s hmem
        rcases List.mem_cons.1 hmem with rfl | hmem
        · exact inFile_of_loadSegment hl hph.head hs hrun
        · exact htail s hmem
      · rw [if_neg hs]
        exact htail

/-! ## The section headers -/

theorem IsString.byte {name : Word} (h : IsString file name) (hl : file.length < 2 ^ 63) :
    fileByte file name = .ok (file.getD name.toNat 0) ∧
      (file.getD name.toNat 0 ≠ 0 → IsString file (name + 1#64)) := by
  obtain ⟨n, hn, hz⟩ := h
  refine ⟨fileByte_ok (by omega), fun hne => ?_⟩
  cases n with
  | zero => exact absurd hz hne
  | succ n =>
    have hnext : (name + 1#64).toNat = name.toNat + 1 := toNat_add_ofNat (by omega)
    refine ⟨n, ?_, ?_⟩
    · omega
    · rw [hnext, Nat.add_right_comm]
      exact hz

/-- Comparing a string of the file with a literal stays inside the string. -/
theorem strcmpEq_ok {name : Word} {lit : List Byte} (h : IsString file name)
    (hl : file.length < 2 ^ 63) (hlit : ∀ c ∈ lit, c ≠ 0) :
    ∃ eq, strcmpEq file name lit = .ok eq := by
  induction lit generalizing name with
  | nil =>
    refine ⟨file.getD name.toNat 0 == 0, ?_⟩
    rw [strcmpEq, (h.byte hl).1]
    rfl
  | cons c cs ih =>
    obtain ⟨hbyte, hnext⟩ := h.byte hl
    by_cases hc : file.getD name.toNat 0 = c
    · have hne : file.getD name.toNat 0 ≠ 0 := hc ▸ hlit c List.mem_cons_self
      obtain ⟨eq, heq⟩ := ih (hnext hne) fun d hd => hlit d (List.mem_cons_of_mem c hd)
      refine ⟨eq, ?_⟩
      rw [strcmpEq, hbyte]
      exact (if_pos hc).trans heq
    · refine ⟨false, ?_⟩
      rw [strcmpEq, hbyte]
      exact if_neg hc

theorem loadSections_ok {strings entrySize sh : Word} {n : Nat} (hl : file.length < 2 ^ 63)
    (hsh : ∀ i < n, sh.toNat + i * entrySize.toNat + 64 ≤ file.length)
    (hnames : ∀ i < n,
      IsString file (strings + fieldAt file (sh + BitVec.ofNat 64 i * entrySize) 4))
    (segStart : Seg → Word) :
    ∃ segStart', loadSections file strings entrySize n sh segStart = .ok segStart' := by
  induction n generalizing sh segStart with
  | zero => exact ⟨segStart, rfl⟩
  | succ n ih =>
    have h0 := hsh 0 (Nat.succ_pos n)
    have hname : IsString file (strings + fieldAt file sh 4) := by
      have hname := hnames 0 (Nat.succ_pos n)
      rwa [show BitVec.ofNat 64 0 = 0#64 from rfl, BitVec.zero_mul, BitVec.add_zero] at hname
    obtain ⟨isText, htext⟩ := @strcmpEq_ok file _ dotText hname hl (by decide)
    obtain ⟨isData, hdata⟩ := @strcmpEq_ok file _ dotData hname hl (by decide)
    have hstart : readField file (sh + 16) 8 = .ok (fieldAt file (sh + 16) 8) :=
      readField_member hl (by omega : sh.toNat + 64 ≤ file.length) (by decide)
    have hsh' : ∀ i < n, (sh + entrySize).toNat + i * entrySize.toNat + 64 ≤ file.length := by
      intro i hi
      have hi' := hsh (i + 1) (by omega)
      rw [Nat.succ_mul] at hi'
      rw [BitVec.toNat_add, Nat.mod_eq_of_lt (by omega)]
      omega
    have hnames' : ∀ i < n, IsString file
        (strings + fieldAt file (sh + entrySize + BitVec.ofNat 64 i * entrySize) 4) := by
      intro i hi
      have hi' := hnames (i + 1) (by omega)
      have hstep : BitVec.ofNat 64 (i + 1) * entrySize =
          entrySize + BitVec.ofNat 64 i * entrySize := by
        rw [BitVec.ofNat_add, BitVec.add_mul, show BitVec.ofNat 64 1 = 1#64 from rfl,
          BitVec.one_mul, BitVec.add_comm]
      rwa [hstep, ← BitVec.add_assoc] at hi'
    rw [loadSections, readField_ok hl (by omega)]
    simp only [bind, Except.bind, htext, hdata, hstart]
    cases isText <;> cases isData <;> exact ih hsh' hnames' _

/-! ## The whole loader -/

/-- The bytes the copy loops leave. -/
def copied (file : List Byte) (segs : List Elf64Phdr) (f : Word → Byte) : Word → Byte :=
  segs.foldl (fun f s => s.copyTo file f) f

theorem loadElf_ok (h : WellFormedElf file) (hin : ∀ s ∈ segments file, s.InFile file)
    (segStart : Seg → Word) :
    ∃ entry pt starts, loadElf file PTable.empty segStart = .ok (entry, pt, starts) ∧
      pt.byteAt = copied file (segments file) fun _ => 0 := by
  obtain ⟨pt, hpt, hbytes⟩ := loadSegments_ok h.length_lt h.programHeaders hin PTable.empty
  obtain ⟨starts, hstarts⟩ := loadSections_ok h.length_lt h.sectionHeaders h.sectionNames segStart
  have hstrings : readField file ((ehdrOf file).eShoff +
      (ehdrOf file).eShstrndx * (ehdrOf file).eShentsize + 24) 8 = .ok (sectionStrings file) := by
    have hinside := h.stringHeader
    have hlength := h.length_lt
    apply @readField_member _ _ _ 8 64 hlength _ (by decide)
    rw [BitVec.toNat_add, BitVec.toNat_mul, Nat.mod_eq_of_lt (by omega : _ * _ < 2 ^ 64),
      Nat.mod_eq_of_lt (by omega)]
    exact hinside
  refine ⟨(ehdrOf file).eEntry, pt, starts, ?_, ?_⟩
  · have hheader : readEhdr file = .ok (ehdrOf file) := if_pos h.header
    unfold loadElf
    rw [hheader]
    simp only [bind, Except.bind, h.executable, ne_eq, not_true_eq_false, if_false, hpt, hstrings,
      hstarts]
  · rw [hbytes]
    exact congrArg (copied file (segments file)) (funext byteAt_empty)

theorem inFile_of_loadElf (h : WellFormedElf file) {segStart : Seg → Word}
    {r : Word × PTable × (Seg → Word)} (hr : loadElf file PTable.empty segStart = .ok r) :
    ∀ s ∈ segments file, s.InFile file := by
  have hheader : readEhdr file = .ok (ehdrOf file) := if_pos h.header
  unfold loadElf at hr
  rw [hheader] at hr
  simp only [bind, Except.bind, h.executable, ne_eq, not_true_eq_false, if_false] at hr
  cases hpt : loadSegments file (ehdrOf file).ePhentsize (ehdrOf file).ePhnum.toNat
      (ehdrOf file).ePhoff PTable.empty with
  | error e => rw [hpt] at hr; cases hr
  | ok pt => exact inFile_of_loadSegments h.length_lt h.programHeaders hpt

/-! ## The last copy decides -/

variable {segs : List Elf64Phdr} {a : Word}

theorem copied_of_not_copies (h : ∀ s ∈ segs, ¬ s.Copies a) (f : Word → Byte) :
    copied file segs f a = f a := by
  induction segs generalizing f with
  | nil => rfl
  | cons s segs ih =>
    have hs : s.copyTo file f a = f a := if_neg (h s List.mem_cons_self)
    exact (ih (fun t ht => h t (List.mem_cons_of_mem s ht)) _).trans hs

theorem copied_of_last {s : Elf64Phdr} (hs : s.Copies a) {earlier later : List Elf64Phdr}
    (hlater : ∀ u ∈ later, ¬ u.Copies a) (f : Word → Byte) :
    copied file (earlier ++ s :: later) f a = s.fileData file (s.offset a) := by
  unfold copied
  rw [List.foldl_append, List.foldl_cons]
  exact (copied_of_not_copies hlater _).trans (if_pos hs)

theorem exists_last_copy (segs : List Elf64Phdr) (a : Word) :
    (∀ s ∈ segs, ¬ s.Copies a) ∨
      ∃ earlier s later, segs = earlier ++ s :: later ∧ s.Copies a ∧
        ∀ u ∈ later, ¬ u.Copies a := by
  induction segs with
  | nil => exact .inl fun s hs => absurd hs List.not_mem_nil
  | cons s segs ih =>
    rcases ih with hnone | ⟨earlier, t, later, rfl, ht, hlater⟩
    · by_cases hs : s.Copies a
      · exact .inr ⟨[], s, segs, rfl, hs, hnone⟩
      · refine .inl fun u hu => ?_
        rcases List.mem_cons.1 hu with rfl | hu
        · exact hs
        · exact hnone u hu
    · exact .inr ⟨s :: earlier, t, later, rfl, ht, hlater⟩

/-! ## Fidelity -/

/-- The loader stays inside the file, and the segments read as the file says: the file part as the
file's bytes, the rest as 0. -/
def FaithfullyLoaded (file : List Byte) (segStart : Seg → Word) : Prop :=
  ∃ entry pt starts, loadElf file PTable.empty segStart = .ok (entry, pt, starts) ∧
    ∀ s ∈ segments file, ∀ j < s.pMemsz.toNat,
      (memReadByte pt (s.pVaddr + BitVec.ofNat 64 j)).1 =
        if j < s.pFilesz.toNat then file.getD (s.pOffset.toNat + j) 0 else 0

/-- The `p_vaddr % PAGESIZE` bytes copied past the file part of a segment are in the file, and where
such a byte lands in the memory of a segment, and no later copy covers it, it is the byte that
belongs there. -/
def HarmlessSpills (file : List Byte) : Prop :=
  (∀ s ∈ segments file,
    s.pOffset.toNat + s.pFilesz.toNat + (s.pVaddr % 4096#64).toNat ≤ file.length) ∧
  ∀ earlier s later, segments file = earlier ++ s :: later →
    ∀ j, s.pFilesz.toNat ≤ j → j < s.copyLen →
      (∀ u ∈ later, ¬ u.Copies (s.pVaddr + BitVec.ofNat 64 j)) →
      ∀ t ∈ segments file, t.Holds (s.pVaddr + BitVec.ofNat 64 j) →
        s.fileData file j = t.image file (t.offset (s.pVaddr + BitVec.ofNat 64 j))

section
variable {s t : Elf64Phdr}

theorem Elf64Phdr.offset_add (s : Elf64Phdr) {j : Nat} (hj : j < 2 ^ 64) :
    s.offset (s.pVaddr + BitVec.ofNat 64 j) = j := by
  unfold Elf64Phdr.offset
  rw [BitVec.add_comm, BitVec.add_sub_cancel, BitVec.toNat_ofNat, Nat.mod_eq_of_lt hj]

theorem Elf64Phdr.add_offset (s : Elf64Phdr) (a : Word) :
    s.pVaddr + BitVec.ofNat 64 (s.offset a) = a := by
  unfold Elf64Phdr.offset
  rw [BitVec.ofNat_toNat, BitVec.setWidth_eq, BitVec.add_comm, BitVec.sub_add_cancel]

theorem Elf64Phdr.pageRest_lt (s : Elf64Phdr) : (s.pVaddr % 4096#64).toNat < 4096 := by
  rw [BitVec.toNat_umod]
  exact Nat.mod_lt _ (by decide)

/-- The copy is no shorter than the file part, by `p_vaddr % PAGESIZE` bytes. -/
theorem copyLen_eq (h : WellFormedElf file) (hs : s ∈ segments file) :
    s.copyLen = s.pFilesz.toNat + (s.pVaddr % 4096#64).toNat := by
  have hrange := h.file_range s hs
  have hlength := h.length_lt
  have halign := s.pageRest_lt
  unfold Elf64Phdr.copyLen
  rw [BitVec.toNat_add, Nat.mod_eq_of_lt (by omega)]

theorem inFile_iff (h : WellFormedElf file) (hs : s ∈ segments file) :
    s.InFile file ↔
      s.pOffset.toNat + s.pFilesz.toNat + (s.pVaddr % 4096#64).toNat ≤ file.length := by
  have hrange := h.file_range s hs
  have hlength := h.length_lt
  have halign := s.pageRest_lt
  have hlen := copyLen_eq h hs
  constructor
  · intro hin
    by_cases hzero : s.copyLen = 0
    · omega
    · have hlast := hin (s.copyLen - 1) (by omega)
      rw [toNat_add_ofNat (by omega)] at hlast
      omega
  · intro hle j hj
    rw [toNat_add_ofNat (by omega)]
    omega

theorem fileData_eq (h : WellFormedElf file) (hs : s ∈ segments file) {j : Nat}
    (hj : j < s.pFilesz.toNat) : s.fileData file j = file.getD (s.pOffset.toNat + j) 0 := by
  have hrange := h.file_range s hs
  have hlength := h.length_lt
  unfold Elf64Phdr.fileData
  rw [toNat_add_ofNat (by omega)]

/-- An address is in the memory of one segment at most. -/
theorem eq_of_holds (h : WellFormedElf file) (hs : s ∈ segments file) (ht : t ∈ segments file)
    (hsa : s.Holds a) (hta : t.Holds a) : s = t := by
  have hbounds : ∀ u ∈ segments file, u.Holds a →
      u.pVaddr.toNat ≤ a.toNat ∧ a.toNat < u.pVaddr.toNat + u.pMemsz.toNat := by
    intro u hu hua
    have hrange := h.memory_range u hu
    unfold Elf64Phdr.Holds Elf64Phdr.offset at hua
    rw [BitVec.toNat_sub] at hua
    omega
  have hpair : (segments file).Pairwise fun s t => s.Holds a → t.Holds a → s = t := by
    refine h.ascending.imp_of_mem fun {u v} hu hv huv hua hva => ?_
    have hub := hbounds u hu hua
    have hvb := hbounds v hv hva
    omega
  have hflip := hpair.imp fun {u v} huv (hv : v.Holds a) (hu : u.Holds a) => (huv hu hv).symm
  exact hpair.forall_of_forall_of_flip (fun u _ _ _ => rfl) hflip hs ht hsa hta

/-- A segment's own file part ends before its memory does. -/
theorem holds_of_lt_filesz (h : WellFormedElf file) (hs : s ∈ segments file)
    (hlt : s.offset a < s.pFilesz.toNat) : s.Holds a :=
  lt_of_lt_of_le hlt (h.filesz_le s hs)

end

/-- The copies leave what the segments describe, where the spills are harmless. -/
theorem copied_eq_image (h : WellFormedElf file) (hspill : HarmlessSpills file) {t : Elf64Phdr}
    (ht : t ∈ segments file) (hta : t.Holds a) :
    copied file (segments file) (fun _ => 0) a = t.image file (t.offset a) := by
  rcases exists_last_copy (segments file) a with hnone | ⟨earlier, s, later, hsegs, hsa, hlater⟩
  · have hge : ¬ t.offset a < t.pFilesz.toNat := by
      intro hlt
      have hlen := copyLen_eq h ht
      apply hnone t ht
      unfold Elf64Phdr.Copies
      omega
    rw [copied_of_not_copies hnone]
    exact (if_neg hge).symm
  · have hs : s ∈ segments file := by
      rw [hsegs]
      exact List.mem_append_right _ List.mem_cons_self
    have hcopied : copied file (segments file) (fun _ => 0) a = s.fileData file (s.offset a) := by
      rw [hsegs]
      exact copied_of_last hsa hlater _
    rw [hcopied]
    by_cases hlt : s.offset a < s.pFilesz.toNat
    · obtain rfl := eq_of_holds h hs ht (holds_of_lt_filesz h hs hlt) hta
      exact (if_pos hlt).symm
    · have hright := hspill.2 earlier s later hsegs (s.offset a) (Nat.le_of_not_lt hlt) hsa
      rw [s.add_offset a] at hright
      exact hright hlater t ht hta

/-- **The image is the one the file describes exactly if the spills are harmless.** -/
theorem loadElf_faithful_iff (h : WellFormedElf file) (segStart : Seg → Word) :
    FaithfullyLoaded file segStart ↔ HarmlessSpills file := by
  constructor
  · rintro ⟨entry, pt, starts, hload, hread⟩
    have hin := inFile_of_loadElf h hload
    obtain ⟨entry', pt', starts', hload', hbytes⟩ := loadElf_ok h hin segStart
    obtain rfl : pt = pt' := by
      rw [hload'] at hload
      cases hload
      rfl
    refine ⟨fun s hs => (inFile_iff h hs).1 (hin s hs), ?_⟩
    intro earlier s later hsegs j hge hlt hlater t ht hta
    have hs : s ∈ segments file := by
      rw [hsegs]
      exact List.mem_append_right _ List.mem_cons_self
    have hj : j < 2 ^ 64 := hlt.trans (BitVec.isLt _)
    have hsa : s.Copies (s.pVaddr + BitVec.ofNat 64 j) := by
      unfold Elf64Phdr.Copies
      rwa [s.offset_add hj]
    have hwant := hread t ht _ hta
    rw [t.add_offset, memReadByte_fst, hbytes, hsegs, copied_of_last hsa hlater,
      s.offset_add hj] at hwant
    rw [hwant, Elf64Phdr.image]
    by_cases hfile : t.offset (s.pVaddr + BitVec.ofNat 64 j) < t.pFilesz.toNat
    · rw [if_pos hfile, if_pos hfile, fileData_eq h ht hfile]
    · rw [if_neg hfile, if_neg hfile]
  · intro hspill
    have hin : ∀ s ∈ segments file, s.InFile file :=
      fun s hs => (inFile_iff h hs).2 (hspill.1 s hs)
    obtain ⟨entry, pt, starts, hload, hbytes⟩ := loadElf_ok h hin segStart
    refine ⟨entry, pt, starts, hload, ?_⟩
    intro t ht j hj
    have hj' : j < 2 ^ 64 := hj.trans (BitVec.isLt _)
    have hta : t.Holds (t.pVaddr + BitVec.ofNat 64 j) := by
      unfold Elf64Phdr.Holds
      rwa [t.offset_add hj']
    rw [memReadByte_fst, hbytes, copied_eq_image h hspill ht hta, t.offset_add hj',
      Elf64Phdr.image]
    by_cases hfile : j < t.pFilesz.toNat
    · rw [if_pos hfile, if_pos hfile, fileData_eq h ht hfile]
    · rw [if_neg hfile, if_neg hfile]

/-- Page-aligned segments spill nothing. -/
theorem harmlessSpills_of_pageAligned (h : WellFormedElf file)
    (haligned : ∀ s ∈ segments file, s.pVaddr % 4096#64 = 0) : HarmlessSpills file := by
  constructor
  · intro s hs
    rw [haligned s hs]
    exact h.file_range s hs
  · intro earlier s later hsegs j hge hlt
    have hs : s ∈ segments file := by
      rw [hsegs]
      exact List.mem_append_right _ List.mem_cons_self
    rw [copyLen_eq h hs, haligned s hs] at hlt
    exact absurd hlt (Nat.not_lt_of_le hge)

/-! ## A file with one segment -/

/-- The bytes of a little-endian field. -/
def fieldBytes (v : Word) (n : Nat) : List Byte := (List.range n).map (byteOf v)

/-- A file of 128 bytes with one segment: four bytes of file from offset 120, eight of memory, and
four more file bytes behind. -/
def tinyElf (vaddr : Word) : List Byte :=
  [0x7f, 0x45, 0x4c, 0x46, 2, 1, 1, 0] ++ fieldBytes 0 8 ++ fieldBytes 2 2 ++ fieldBytes 0xb7 2 ++
    fieldBytes 1 4 ++ fieldBytes vaddr 8 ++ fieldBytes 64 8 ++ fieldBytes 0 8 ++ fieldBytes 0 4 ++
    fieldBytes 64 2 ++ fieldBytes 56 2 ++ fieldBytes 1 2 ++ fieldBytes 64 2 ++ fieldBytes 0 2 ++
    fieldBytes 0 2 ++
    fieldBytes 1 4 ++ fieldBytes 6 4 ++ fieldBytes 120 8 ++ fieldBytes vaddr 8 ++
    fieldBytes vaddr 8 ++ fieldBytes 4 8 ++ fieldBytes 8 8 ++ fieldBytes 4 8 ++
    fieldBytes 0x8877665544332211 8

theorem ehdrOf_tinyElf {vaddr : Word} (hv : vaddr = 0x400000#64 ∨ vaddr = 0x400004#64) :
    (tinyElf vaddr).length = 128 ∧
      ehdrOf (tinyElf vaddr) = ⟨ET_EXEC, vaddr, 64, 0, 56, 1, 64, 0, 0⟩ ∧
      segments (tinyElf vaddr) = [⟨PT_LOAD, 120, vaddr, 4, 8⟩] := by
  rcases hv with rfl | rfl
  · decide +kernel
  · decide +kernel

theorem wellFormedElf_tinyElf {vaddr : Word} (hv : vaddr = 0x400000#64 ∨ vaddr = 0x400004#64) :
    WellFormedElf (tinyElf vaddr) := by
  obtain ⟨hlength, hheader, hsegs⟩ := ehdrOf_tinyElf hv
  have hbound : vaddr.toNat + 8 ≤ 2 ^ 64 := by
    rcases hv with rfl | rfl
    · decide
    · decide
  constructor
  all_goals simp only [hlength, hheader, hsegs, List.mem_singleton, forall_eq]
  case sectionNames => exact fun i hi => absurd hi (Nat.not_lt_zero i)
  case memory_range => exact hbound
  case ascending => exact List.pairwise_singleton _ _
  all_goals decide

/-- The segment at 0x400004 does not read as the file says: its bss begins with file bytes. -/
theorem not_faithful_unalignedElf :
    WellFormedElf (tinyElf 0x400004#64) ∧
      ¬ FaithfullyLoaded (tinyElf 0x400004#64) (fun _ => 0) := by
  refine ⟨wellFormedElf_tinyElf (.inr rfl), ?_⟩
  rintro ⟨entry, pt, starts, hload, hread⟩
  have hspilled : (loadElf (tinyElf 0x400004#64) PTable.empty fun _ => 0).toOption.map
      (fun r => (memReadByte r.2.1 0x400008#64).1) = some 0x55#8 := by
    decide +kernel
  have hbss := hread ⟨PT_LOAD, 120, 0x400004#64, 4, 8⟩
    (by rw [(ehdrOf_tinyElf (.inr rfl)).2.2]; exact List.mem_singleton_self _) 4 (by decide)
  rw [hload] at hspilled
  have hzero : (memReadByte pt 0x400008#64).1 = 0 := hbss
  have hbyte : (memReadByte pt 0x400008#64).1 = 0x55#8 := Option.some.inj hspilled
  rw [hzero] at hbyte
  exact absurd hbyte (by decide)

/-- The same segment at 0x400000 does. -/
theorem faithful_alignedElf : FaithfullyLoaded (tinyElf 0x400000#64) fun _ => 0 :=
  (loadElf_faithful_iff (wellFormedElf_tinyElf (.inl rfl)) _).2
    (harmlessSpills_of_pageAligned (wellFormedElf_tinyElf (.inl rfl)) (by
      rw [(ehdrOf_tinyElf (.inl rfl)).2.2]
      decide))

end ChArm
