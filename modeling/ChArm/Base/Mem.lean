import ChArm.Base.PTable
import ChArm.Cache.Basic

/-!
# The memory system

`src/base/mem.c` and `include/base/mem.h`: the segments, the special addresses,
the cached accesses with their miss delay, and the dispatch between them.

`Memory` holds the globals these functions share.  `stdin` stands for the
console: what the next `scanf` stores, as a function of the widths converted
so far and of its own width.  `printed` collects what the trap at `IO_CHAR_ADDR` writes,
and `stores` the data writes that completed, in order.

On a read miss the source also loads `data` through a pointer into the
temporary block; `get_word_cache` overwrites it before it is used, so it is not
part of the value computed here.
-/

namespace ChArm

/-- `seg_t`. -/
inductive Seg where
  | noaccess | text | data | heap | so | stack | kernel
  deriving DecidableEq, Repr

/-- `mem_status_t`. -/
inductive MemStatus where
  | ready | inFlight
  deriving DecidableEq, Repr

/-- The memory system: `guest.mem`, the page table, `guest.cache` and the globals
of the miss delay. -/
structure Memory where
  segStart : Seg → Word
  ptable : PTable
  cache : Option Cache
  counts : Counters
  inflight : Bool
  inflightAddr : Word
  inflightCycles : Word
  dmemStatus : MemStatus
  stdin : List Nat → Nat → Word
  scanned : List Nat
  printed : List (Nat × Word)
  stores : List (Word × Word)

/-- `NULL_ADDR`, and also `RET_FROM_MAIN_ADDR`. -/
def NULL_ADDR : Word := 0

/-- `RET_FROM_MAIN_ADDR`. -/
def RET_FROM_MAIN_ADDR : Word := 0

/-- `IO_CHAR_ADDR`. -/
def IO_CHAR_ADDR : Word := 0xFFFFFFFFFFFFFFFF#64

/-- `CHECKPOINT_ADDR`. -/
def CHECKPOINT_ADDR : Word := 0xFFFFFFFFFFFFFFFF#64 - 8#64

/-- `addr_in_imem`. -/
def addrInImem (m : Memory) (addr : Word) : Bool :=
  m.segStart .text ≤ addr && addr < m.segStart .data

/-- `addr_in_dmem`. -/
def addrInDmem (m : Memory) (addr : Word) : Bool :=
  m.segStart .data ≤ addr && addr < m.segStart .kernel

/-- `is_special_addr`. -/
def isSpecialAddr (addr : Word) : Bool :=
  NULL_ADDR == addr || IO_CHAR_ADDR == addr || RET_FROM_MAIN_ADDR == addr ||
    CHECKPOINT_ADDR == addr

/-! ## Traps -/

/-- What `scanf` stored, narrowed to `width` bytes and sign extended on return. -/
def signExtendBytes (width : Nat) (v : Word) : Word := (v.setWidth (8 * width)).signExtend 64

/-- `_mem_read_special`.  The read of `CHECKPOINT_ADDR` only writes the checkpoint file. -/
def memReadSpecial (m : Memory) (addr : Word) (width : Nat) : Except Abort (Word × Memory) :=
  if NULL_ADDR = addr then .error .exitFailure
  else if IO_CHAR_ADDR = addr then
    if width ∈ [1, 2, 4, 8] then
      .ok (signExtendBytes width (m.stdin m.scanned width),
        { m with scanned := m.scanned ++ [width] })
    else .error .assertFailed
  else if RET_FROM_MAIN_ADDR = addr then .ok (0, m)
  else if CHECKPOINT_ADDR = addr then .ok (0, m)
  else .error .assertFailed

/-- `_mem_write_special`. -/
def memWriteSpecial (m : Memory) (addr data : Word) (width : Nat) : Except Abort Memory :=
  if NULL_ADDR = addr then .ok m
  else if IO_CHAR_ADDR = addr then
    if width ∈ [1, 2, 4, 8] then
      .ok { m with printed := m.printed ++ [(width, (data.setWidth (8 * width)).setWidth 64)] }
    else .error .assertFailed
  else .error .assertFailed

/-! ## Cached accesses -/

/-- `addr & ~(B - 1)`. -/
def blockAddress (c : Cache) (addr : Word) : Word := addr &&& ~~~(c.B.setWidth 64 - 1#64)

/-- The loop that fills a temporary block with the `n` bytes from `base` on. -/
def readBlock (pt : PTable) (base : Word) (n : Nat) : (Nat → Byte) × PTable :=
  (List.range n).foldl (fun r j =>
    let (v, pt) := memReadLE r.2 (base + BitVec.ofNat 64 j) 1
    (Function.update r.1 j (v.setWidth 8), pt)) (fun _ => 0, pt)

/-- The loop that writes a dirty evicted line back. -/
def writeBack (pt : PTable) (evicted : EvictedLine) (n : Nat) : PTable :=
  if evicted.valid && evicted.dirty then
    (List.range n).foldl (fun pt j =>
      memWriteLE pt (evicted.blockAddr + BitVec.ofNat 64 j) ((evicted.data j).setWidth 64) 1) pt
  else pt

/-- Start the countdown of a miss unless it is already running for this block. -/
def startInflight (m : Memory) (c : Cache) (block : Word) : Memory :=
  if m.inflightAddr ≠ block ∨ m.inflight = false then
    { m with inflightAddr := block, inflightCycles := c.d.setWidth 64, inflight := true }
  else m

/-- The end of a miss: fill a line from the bytes at `fillBase` and write back
the line it replaces. -/
def completeMiss (operation : Operation) (fillBase block : Word) (c : Cache) (m : Memory) :
    Cache × Memory :=
  let B := c.B.toNat
  let m := { m with inflight := false }
  let (data, pt) := readBlock m.ptable fillBase B
  let (evicted, c, k) := handleMiss c m.counts block operation (some data)
  (c, { m with ptable := writeBack pt evicted B, counts := k })

/-- One round of the byte loops of `_mem_read_cache` and `_mem_write_cache`; true
when the access has to wait.  The two differ in the operation and in the
address the temporary block is filled from. -/
def cacheByte (operation : Operation) (fillBase : Word → Word) (c : Cache) (m : Memory)
    (currentAddress : Word) : Bool × Cache × Memory :=
  match checkHit c m.counts currentAddress operation with
  | (true, c, k) => (false, c, { m with counts := k })
  | (false, c, k) =>
      let block := blockAddress c currentAddress
      let m := startInflight { m with counts := k } c block
      let m := { m with inflightCycles := m.inflightCycles - 1#64 }
      if m.inflightCycles > 0 then (true, c, { m with dmemStatus := .inFlight })
      else
        let (c, m) := completeMiss operation (fillBase block) block c m
        (false, c, m)

/-- The byte loop, over `n` bytes from `currentAddress` on. -/
def cacheLoop (operation : Operation) (fillBase : Word → Word) :
    Nat → Word → Cache → Memory → Bool × Cache × Memory
  | 0, _, c, m => (false, c, m)
  | n + 1, currentAddress, c, m =>
      match cacheByte operation fillBase c m currentAddress with
      | (true, c, m) => (true, c, m)
      | (false, c, m) => cacheLoop operation fillBase n (currentAddress + 1#64) c m

/-- `_mem_read_cache`: the temporary block is filled from the block of `addr`.  Left out is the load
through a pointer into that block, whose value is not used (`DataAccess.touches` lists its bytes). -/
def memReadCache (c : Cache) (m : Memory) (addr : Word) (width : Nat) :
    Except Abort (Word × Memory) :=
  match cacheLoop .read (fun _ => blockAddress c addr) width addr c m with
  | (true, c, m) => .ok (0, { m with cache := some c })
  | (false, c, m) => do
      let data ← getWordCache c addr
      .ok (data, { m with cache := some c, dmemStatus := .ready })

/-- `_mem_write_cache`: the temporary block is filled from the block that missed. -/
def memWriteCache (c : Cache) (m : Memory) (addr data : Word) (width : Nat) :
    Except Abort Memory :=
  match cacheLoop .write id width addr c m with
  | (true, c, m) => .ok { m with cache := some c }
  | (false, c, m) => do
      let c ← setWordCache c addr data
      .ok { m with cache := some c, dmemStatus := .ready, stores := m.stores ++ [(addr, data)] }

/-! ## Dispatch -/

/-- `_mem_read`. -/
def memRead (m : Memory) (addr : Word) (width : Nat) : Except Abort (Word × Memory) :=
  if isSpecialAddr addr then memReadSpecial m addr width
  else
    match m.cache with
    | some c =>
        if addr ≥ m.segStart .data then memReadCache c m addr width
        else
          let (v, pt) := memReadLE m.ptable addr width
          .ok (v, { m with ptable := pt })
    | none =>
        let (v, pt) := memReadLE m.ptable addr width
        .ok (v, { m with ptable := pt })

/-- The uncached end of `_mem_write`. -/
def memWriteFlat (m : Memory) (addr data : Word) (width : Nat) : Memory :=
  { m with
    ptable := memWriteLE m.ptable addr data width
    stores := m.stores ++ [(addr, data)] }

/-- `_mem_write`. -/
def memWrite (m : Memory) (addr data : Word) (width : Nat) : Except Abort Memory :=
  if isSpecialAddr addr then memWriteSpecial m addr data width
  else
    match m.cache with
    | some c =>
        if addr ≥ m.segStart .data then memWriteCache c m addr data width
        else .ok (memWriteFlat m addr data width)
    | none => .ok (memWriteFlat m addr data width)

/-! ## The instruction and data memories of `hw_elts.c` -/

/-- `imem`: the word read, the error flag and the memory system after the read. -/
def imem (m : Memory) (addr : Word) : Except Abort (BitVec 32 × Bool × Memory) := do
  let err := !addrInImem m addr || (addr &&& 0x3#64) != 0
  let (v, m) ← memRead m addr 4
  .ok (v.setWidth 32, err, m)

/-- The error `dmem` reports. -/
def dmemErr (m : Memory) (addr : Word) : Bool :=
  !isSpecialAddr addr && (!addrInDmem m addr || (addr &&& 0x7#64) != 0)

/-- `dmem`: the value read (`rval` where nothing is read), the error flag and the
memory system after the access.  The error does not stop the access. -/
def dmem (m : Memory) (addr wval : Word) (read write : Bool) (rval : Word) :
    Except Abort (Word × Bool × Memory) :=
  if !read && !write then .ok (rval, false, m)
  else do
    let err := dmemErr m addr
    let (rval, m) ← if read then memRead m addr 8 else .ok (rval, m)
    let m ← if write then memWrite m addr wval 8 else .ok m
    .ok (rval, err, m)

end ChArm
