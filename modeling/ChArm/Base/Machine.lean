import ChArm.Base.Mem
import ChArm.Base.HwElts

/-!
# The machine

The state of `runElf`: `proc_t` with its five pipeline registers, the wires
between the stages and the clocked logic, the adders and the memory system.

`locals` supplies, for every cycle, the values that C leaves indeterminate.
`regWrites` and `nzcvWrites` are kept for the observer of a run: the
register-file writes and flag updates performed so far, in order.
-/

namespace ChArm

/-- The state of the emulator between two cycles. -/
structure Machine where
  /-- `guest.proc->SP` and `guest.proc->GPR` -/
  regs : Regs
  PC : Word
  NZCV : BitVec 8
  status : Stat
  F : PipeReg FInstr
  D : PipeReg DInstr
  X : PipeReg XInstr
  M : PipeReg MInstr
  W : PipeReg WInstr
  fPC : Word
  dSrc1 : RegNum
  dSrc2 : RegNum
  xNzcvval : BitVec 8
  xSetFlags : Bool
  mPC : Word
  wWval : Word
  deassertFlags : Bool
  rca : Rca
  mem : Memory
  numInstr : Nat
  locals : Nat → Locals
  regWrites : List (RegNum × Word)
  nzcvWrites : List (BitVec 8)

/-- What the emulator is started with: the segment starts after loading, the page
table holding the image, the cache if there is one, the console, and the
values C leaves indeterminate. -/
structure Image where
  segStart : Seg → Word
  ptable : PTable
  cache : Option Cache
  stdin : List Nat → Nat → Word
  locals : Nat → Locals

/-- The memory system when `runElf` starts. -/
def Image.memory (img : Image) : Memory where
  segStart := img.segStart
  ptable := img.ptable
  cache := img.cache
  counts := .zero
  inflight := false
  inflightAddr := 0
  inflightCycles := match img.cache with
    | some c => c.d.setWidth 64
    | none => 0
  dmemStatus := .ready
  stdin := img.stdin
  scanned := []
  printed := []
  stores := []

/-- `PACK_CC(0, 1, 0, 0)`. -/
def PACK_CC_Z : BitVec 8 := 0x4#8

/-- The state of `runElf` when it enters its loop. -/
def Machine.init (img : Image) (entry : Word) : Machine where
  regs :=
    { SP := img.segStart .stack - 8#64
      GPR := Function.update (fun _ => 0) 30#8 RET_FROM_MAIN_ADDR }
  PC := entry
  NZCV := PACK_CC_Z
  status := .bub
  F := { inp := .zero, out := { predPC := entry, status := .aok }, ctl := .bubble }
  D := .init .zero
  X := .init .zero
  M := .init .zero
  W := .init .zero
  fPC := 0
  dSrc1 := 0
  dSrc2 := 0
  xNzcvval := 0
  xSetFlags := false
  mPC := 0
  wWval := 0
  deassertFlags := false
  rca := .zero
  mem := img.memory
  numInstr := 0
  locals := img.locals
  regWrites := []
  nzcvWrites := []

/-! ## Small images -/

/-- `seg_starts`, the segment starts before a file is loaded. -/
def segStarts : Seg → Word
  | .noaccess => 0x0#64
  | .text => 0x400000#64
  | .data => 0x800000#64
  | .heap => 0x10000000#64
  | .so => 0x400000000#64
  | .stack => 0x800000000#64
  | .kernel => 0x1000000000000#64

/-- The image of a program of at most 1024 instruction words and nothing else,
with the C locals at zero. -/
def Image.ofWords (words : List (BitVec 32)) (cache : Option Cache) : Image where
  segStart := segStarts
  ptable := fun h =>
    if h = ptableHash 0x400#64 then
      [⟨0x400#64, fun k => byteOf ((words.getD (k / 4) 0).setWidth 64) (k % 4)⟩]
    else []
  cache := cache
  stdin := fun _ _ => 0
  locals := fun _ => ⟨0, 0, 0, fun _ => 0⟩

end ChArm
