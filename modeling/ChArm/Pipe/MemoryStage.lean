import ChArm.Base.Machine

/-!
# The memory and write-back stages

`src/pipe/instr_Memory.c` and `src/pipe/instr_Writeback.c`.
-/

namespace ChArm

/-- The statuses that signal a fault, `error` of `hazard_control.c`. -/
def Stat.isError (status : Stat) : Bool := status = .adr ∨ status = .ins

/-- `memory_instr`. -/
def memoryInstr (s : Machine) : Except Abort Machine := do
  let i := s.M.out
  let (valMem, err, mem) ←
    dmem s.mem i.valEx i.valB i.mSigs.dmemRead i.mSigs.dmemWrite s.W.inp.valMem
  let status := if err then .adr else i.status
  .ok { s with
    W := { s.W with inp :=
      { op := i.op, wSigs := i.wSigs, dst := i.dst, valEx := i.valEx, valMem := valMem,
        status := status } }
    mPC := if status.isError then i.seqSuccPC - 4#64 else s.mPC
    mem := mem }

/-- `wback_instr`. -/
def wbackInstr (s : Machine) : Machine :=
  let i := s.W.out
  let i := if i.wSigs.dstSel then { i with dst := 30#8 } else i
  { s with
    W := { s.W with out := i }
    wWval := if i.wSigs.wvalSel then i.valMem else i.valEx }

end ChArm
