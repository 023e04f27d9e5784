import ChArm.Base.Machine

/-!
# The machine state log

`log_machine_state` of `src/base/machine.c`: what it prints to the checkpoint file.
The four memory sections walk the page table, not the cache; the loops carry
`addr` and `pnum` from one section to the next as the source does.

The walks need not end, so they take fuel; `none` is a log that did not finish
or that divides by zero.
-/

namespace ChArm

/-! ## The memory sections -/

/-- `*(uint64_t *) (page->p_data + i)`. -/
def pageWord (page : Pte) (i : Nat) : Word := leValue (fun k => page.pData (i + k)) 8

/-- The loop over one page, from offset `start` on: the non-zero doublewords, each with the address
printed for it. -/
def pageLines (page : Pte) (addr : Word) (start : Nat) : List (Word × Word) :=
  (List.range ((PAGESIZE - start + 7) / 8)).filterMap fun t =>
    let i := start + 8 * t
    let data := pageWord page i
    if data ≠ 0 then some (addr + BitVec.ofNat 64 i, data) else none

/-- The loop over the pages from `pnum` on, `stride` bytes apart: what it prints and its `addr` and
`pnum` at the end. -/
def scanPages (pt : PTable) (stride : Word) (start : Word → Nat) :
    Nat → Word → Word → Option (List (Word × Word) × Word × Word)
  | 0, _, _ => none
  | fuel + 1, addr, pnum =>
      match getPage pt pnum with
      | none => some ([], addr, pnum)
      | some page =>
          (scanPages pt stride start fuel (addr + stride) (pageOf (addr + stride))).map fun r =>
            (pageLines page addr (start addr) ++ r.1, r.2)

/-- `addr - addr % PAGESIZE`. -/
def pageStart (addr : Word) : Word := addr - addr % 4096#64

/-- The printed lines of the four memory sections. -/
structure MemoryLog where
  text : List (Word × Word)
  data : List (Word × Word)
  heap : List (Word × Word)
  stack : List (Word × Word)
  deriving DecidableEq, Repr

/-- The memory part of `log_machine_state`. -/
def logMemory (fuel : Nat) (segStart : Seg → Word) (pt : PTable) : Option MemoryLog := do
  let addr := pageStart (segStart .text)
  let (text, _, _) ← scanPages pt 4096#64 (fun _ => 0) fuel addr (pageOf addr)
  let addr := pageStart (segStart .data)
  let (data, _, pnum) ← scanPages pt 4096#64 (fun _ => 0) fuel addr (pageOf addr)
  -- `pnum` is not set again for the heap
  let addr := segStart .heap
  let (heap, _, _) ← scanPages pt 4096#64 pageOff fuel addr pnum
  let addr := pageStart (segStart .stack - 4096#64)
  let (stack, _, _) ← scanPages pt (-4096#64) pageOff fuel addr (pageOf addr)
  some { text := text, data := data, heap := heap, stack := stack }

/-! ## The cache counters -/

/-- `INT_MAX`. -/
def INT_MAX : Nat := 2 ^ 31 - 1

/-- The numbers of hits and of misses that are printed.  They are undefined where the
division is by zero and where the `int` counters have overflowed. -/
def cacheCounts (c : Cache) (k : Counters) : Option (Int × Int) :=
  if c.d = 0 ∨ INT_MAX < k.hitCount ∨ INT_MAX < k.missCount then none
  else
    let misses : Int := (k.missCount / c.d.toNat : Nat)
    some ((k.hitCount : Int) - misses, misses)

/-! ## The whole log -/

/-- `GPR_names64`. -/
def GPR_names64 : List String :=
  [" X0", " X1", " X2", " X3", " X4", " X5", " X6", " X7", " X8", " X9", "X10", "X11", "X12", "X13",
    "X14", "X15", "X16", "X17", "X18", "X19", "X20", "X21", "X22", "X23", "X24", "X25", "X26", "X27",
    "X28", "X29", "X30"]

/-- `get_stat_str`. -/
def Stat.str : Stat → String
  | .aok => "AOK"
  | .bub => "BUB"
  | .hlt => "HLT"
  | .adr => "ADR"
  | .ins => "INS"

/-- What one call prints; `cache` is there when the emulator runs with a cache. -/
structure Log where
  numInstr : Nat
  PC : Word
  SP : Word
  nzcv : List Bool
  GPR : List (String × Word)
  status : String
  memory : MemoryLog
  cache : Option (Int × Int)

/-- `log_machine_state` with a checkpoint file. -/
def logMachineState (fuel : Nat) (s : Machine) : Option Log := do
  let memory ← logMemory fuel s.mem.segStart s.mem.ptable
  let cache ← match s.mem.cache with
    | some c => (cacheCounts c s.mem.counts).map some
    | none => some none
  some
    { numInstr := s.numInstr
      PC := s.PC
      SP := s.regs.SP
      nzcv := [s.NZCV.getLsbD 3, s.NZCV.getLsbD 2, s.NZCV.getLsbD 1, s.NZCV.getLsbD 0]
      GPR := GPR_names64.zipIdx.map fun r => (r.1, s.regs.GPR (BitVec.ofNat 8 r.2))
      status := s.status.str
      memory := memory
      cache := cache }

end ChArm
