import ChArm.Base.Mem

/-!
# The ELF loader

`src/base/elf_loader.c`: `loadElf` on the bytes of the mapped file.  A read past
the end of the file is `outOfBounds`.  The protection bits of a page, which
nothing reads, are left out.
-/

namespace ChArm

/-! ## The mapped file -/

/-- `ET_EXEC`. -/
def ET_EXEC : Word := 2

/-- `PT_LOAD`. -/
def PT_LOAD : Word := 1

/-- A byte of the mapped file. -/
def fileByte (file : List Byte) (off : Word) : Except Abort Byte :=
  match file[off.toNat]? with
  | some byte => .ok byte
  | none => .error .outOfBounds

/-- The little-endian field of `n` bytes at `off`. -/
def fieldAt (file : List Byte) (off : Word) (n : Nat) : Word :=
  leValue (fun k => file.getD (off + BitVec.ofNat 64 k).toNat 0) n

/-- Reading a field. -/
def readField (file : List Byte) (off : Word) (n : Nat) : Except Abort Word :=
  if ∀ k < n, (off + BitVec.ofNat 64 k).toNat < file.length then .ok (fieldAt file off n)
  else .error .outOfBounds

/-- `Elf64_Ehdr`, the fields the loader reads. -/
structure Elf64Ehdr where
  eType : Word
  eEntry : Word
  ePhoff : Word
  eShoff : Word
  ePhentsize : Word
  ePhnum : Word
  eShentsize : Word
  eShnum : Word
  eShstrndx : Word
  deriving DecidableEq

/-- The ELF header of a file, as `<elf.h>` lays it out. -/
def ehdrOf (file : List Byte) : Elf64Ehdr where
  eType := fieldAt file 16 2
  eEntry := fieldAt file 24 8
  ePhoff := fieldAt file 32 8
  eShoff := fieldAt file 40 8
  ePhentsize := fieldAt file 54 2
  ePhnum := fieldAt file 56 2
  eShentsize := fieldAt file 58 2
  eShnum := fieldAt file 60 2
  eShstrndx := fieldAt file 62 2

/-- Reading the ELF header, whose last field ends at 64. -/
def readEhdr (file : List Byte) : Except Abort Elf64Ehdr :=
  if 64 ≤ file.length then .ok (ehdrOf file) else .error .outOfBounds

/-- `Elf64_Phdr`, the fields that decide what is loaded. -/
structure Elf64Phdr where
  pType : Word
  pOffset : Word
  pVaddr : Word
  pFilesz : Word
  pMemsz : Word
  deriving DecidableEq

/-- The program header at `progHeader`. -/
def phdrAt (file : List Byte) (progHeader : Word) : Elf64Phdr where
  pType := fieldAt file progHeader 4
  pOffset := fieldAt file (progHeader + 8) 8
  pVaddr := fieldAt file (progHeader + 16) 8
  pFilesz := fieldAt file (progHeader + 32) 8
  pMemsz := fieldAt file (progHeader + 40) 8

/-! ## `loadElf` -/

/-- One round of the copy loop.  Its body is that of `_mem_write_byte`, protection bits apart. -/
def copyByte (file : List Byte) (dataPtr vaddr : Word) (pt : PTable) (j : Nat) :
    Except Abort PTable := do
  let byte ← fileByte file (dataPtr + BitVec.ofNat 64 j)
  .ok (memWriteByte pt (vaddr + BitVec.ofNat 64 j) byte)

/-- One round of the bss loop. -/
def mapByte (base : Word) (pt : PTable) (j : Nat) : PTable :=
  let pnum := pageOf (base + BitVec.ofNat 64 j)
  match getPage pt pnum with
  | some _ => pt
  | none => addPage pt pnum

/-- The body of the loop over the program headers. -/
def loadSegment (file : List Byte) (progHeader : Word) (pt : PTable) : Except Abort PTable := do
  let pType ← readField file progHeader 4
  if pType = PT_LOAD then
    let dataPtr ← readField file (progHeader + 8) 8
    let vaddr ← readField file (progHeader + 16) 8
    let filesz ← readField file (progHeader + 32) 8
    let memsz ← readField file (progHeader + 40) 8
    let vAlign := vaddr % 4096#64
    let fAlign := filesz + (4096#64 - (filesz + vaddr) % 4096#64)
    let pt ← (List.range (filesz + vAlign).toNat).foldlM (copyByte file dataPtr vaddr) pt
    if memsz > filesz then
      .ok ((List.range (memsz - filesz).toNat).foldl (mapByte (vaddr + fAlign)) pt)
    else .ok pt
  else .ok pt

/-- The loop over the program headers. -/
def loadSegments (file : List Byte) (entrySize : Word) :
    Nat → Word → PTable → Except Abort PTable
  | 0, _, pt => .ok pt
  | n + 1, progHeader, pt => do
      let pt ← loadSegment file progHeader pt
      loadSegments file entrySize n (progHeader + entrySize) pt

/-- `!strcmp(name, lit)`. -/
def strcmpEq (file : List Byte) : Word → List Byte → Except Abort Bool
  | name, [] => do
      let byte ← fileByte file name
      .ok (byte == 0)
  | name, c :: cs => do
      let byte ← fileByte file name
      if byte = c then strcmpEq file (name + 1#64) cs else .ok false

/-- `".text"`. -/
def dotText : List Byte := [0x2e, 0x74, 0x65, 0x78, 0x74]

/-- `".data"`. -/
def dotData : List Byte := [0x2e, 0x64, 0x61, 0x74, 0x61]

/-- The loop over the section headers. -/
def loadSections (file : List Byte) (strings entrySize : Word) :
    Nat → Word → (Seg → Word) → Except Abort (Seg → Word)
  | 0, _, segStart => .ok segStart
  | n + 1, sectionHeader, segStart => do
      let shName ← readField file sectionHeader 4
      let name := strings + shName
      let segStart ←
        if ← strcmpEq file name dotText then do
          .ok (Function.update segStart .text (← readField file (sectionHeader + 16) 8))
        else .ok segStart
      let segStart ←
        if ← strcmpEq file name dotData then do
          .ok (Function.update segStart .data (← readField file (sectionHeader + 16) 8))
        else .ok segStart
      loadSections file strings entrySize n (sectionHeader + entrySize) segStart

/-- `loadElf`: the entry point, the page table and the segment starts. -/
def loadElf (file : List Byte) (pt : PTable) (segStart : Seg → Word) :
    Except Abort (Word × PTable × (Seg → Word)) := do
  let header ← readEhdr file
  if header.eType ≠ ET_EXEC then .error .assertFailed
  else
    let pt ← loadSegments file header.ePhentsize header.ePhnum.toNat header.ePhoff pt
    let sectionStrings := header.eShoff + header.eShstrndx * header.eShentsize
    let strings ← readField file (sectionStrings + 24) 8
    let segStart ← loadSections file strings header.eShentsize header.eShnum.toNat
      header.eShoff segStart
    .ok (header.eEntry, pt, segStart)

end ChArm
