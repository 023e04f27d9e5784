import ChArm.Pipe.Fetch
import ChArm.Pipe.Decode
import ChArm.Pipe.Execute
import ChArm.Pipe.HazardControl

/-!
# The processor loop

`runElf` of `src/base/proc.c`: one cycle, the loop around it and its limit.
-/

namespace ChArm

/-! ## The clocked logic after the five stages -/

/-- `guest.proc->status = W_out->status`. -/
def setStatus (s : Machine) : Machine := { s with status := s.W.out.status }

/-- `guest.proc->NZCV = X_nzcvval`, unless it is deasserted. -/
def updateFlags (s : Machine) : Machine :=
  if !s.deassertFlags && s.xSetFlags then
    { s with NZCV := s.xNzcvval, nzcvWrites := s.nzcvWrites ++ [s.xNzcvval] }
  else s

/-- The enable signal of the register-file write. -/
def writeEnable (w : WInstr) : Bool := w.wSigs.wEnable && w.status == .aok

/-- The register-file writes a cycle performs; number 32 is discarded. -/
def regWriteOf (dst : RegNum) (valW : Word) (wEnable : Bool) : List (RegNum × Word) :=
  if wEnable && dst ≤ SP_NUM then [(dst, valW)] else []

/-- The call of `regfile_write`. -/
def updateRegs (s : Machine) : Machine :=
  { s with
    regs := regfileWrite s.regs s.W.out.dst s.wWval (writeEnable s.W.out)
    regWrites := s.regWrites ++ regWriteOf s.W.out.dst s.wWval (writeEnable s.W.out) }

/-- The update of the PC and of `F_in->pred_PC`. -/
def updatePC (s : Machine) : Machine :=
  let pc := if s.W.inp.status.isError then s.mPC else s.fPC
  { s with PC := pc, F := { s.F with inp := { s.F.inp with predPC := pc } } }

/-- The latching loop. -/
def latchAll (s : Machine) : Machine :=
  { s with
    F := s.F.latch .zero
    D := s.D.latch .zero
    X := s.X.latch .zero
    M := s.M.latch .zero
    W := s.W.latch .zero
    status :=
      if .error ∈ [s.F.ctl, s.D.ctl, s.X.ctl, s.M.ctl, s.W.ctl] then .hlt else s.status
    numInstr := s.numInstr + 1 }

/-! ## One cycle -/

/-- The five stages in the order of the sequential build. -/
def stages (ec : Bool) (s : Machine) : Except Abort Machine := do
  let s ← fetchInstr ec s
  let s := decodeInstr ec s
  let s := executeInstr ec s
  let s ← memoryInstr s
  .ok (wbackInstr s)

/-- The rest of the loop body. -/
def clock (ec : Bool) (s : Machine) : Machine :=
  latchAll (updatePC (updateRegs (updateFlags (handleHazards ec (setStatus (forwardReg s))))))

/-- The body of the loop of `runElf`. -/
def cycle (ec : Bool) (s : Machine) : Except Abort Machine := do
  let s ← stages ec s
  .ok (clock ec s)

/-! ## The loop -/

/-- The status part of the loop condition. -/
def Machine.running (s : Machine) : Bool := s.status == .aok || s.status == .bub

/-- At most `n` cycles, stopping when the status says so. -/
def run (ec : Bool) : Nat → Machine → Except Abort Machine
  | 0, s => .ok s
  | n + 1, s => if s.running then do run ec n (← cycle ec s) else .ok s

/-- `runElf` with the cycle limit `-l`.  The `do` loop runs its body before the first
test; the status it starts with, `STAT_BUB`, makes that test come out true. -/
def runElf (ec : Bool) (img : Image) (entry : Word) (cycleMax : Nat) : Except Abort Machine :=
  run ec (max cycleMax 1) (.init img entry)

end ChArm
