import ChArm.Base.Machine

/-!
# The execute stage

`src/pipe/instr_Execute.c`.
-/

namespace ChArm

/-- The first ALU operand. -/
def aluValA (x : XInstr) : Word :=
  if x.xSigs.valaSel then
    if x.op = .adrp then x.seqSuccPC &&& ~~~0xFFF#64 else x.seqSuccPC
  else x.valA

/-- The second ALU operand. -/
def aluValB (x : XInstr) : Word := if x.xSigs.valbSel then x.valB else x.valImm

/-- The call of `alu`; the flags are both read from and written to `X_nzcvval`. -/
def executeAlu (rca : Rca) (nzcv : BitVec 8) (x : XInstr) : AluOut :=
  alu rca (aluValA x) (aluValB x) x.valHw nzcv x.aluOp x.xSigs.setFlags x.cond nzcv

/-- What `execute_instr` writes to `M_in`. -/
def execute (ec : Bool) (rca : Rca) (nzcv : BitVec 8) (x : XInstr) : MInstr :=
  let r := executeAlu rca nzcv x
  { op := x.op
    seqSuccPC := x.seqSuccPC
    condHolds := r.condVal
    mSigs := x.mSigs
    wSigs := x.wSigs
    valB := x.valB
    dst := x.dst
    valEx := if ec ∧ x.op = .blr then x.valImm else r.valE
    status := x.status }

/-- `execute_instr`. -/
def executeInstr (ec : Bool) (s : Machine) : Machine :=
  let r := executeAlu s.rca s.xNzcvval s.X.out
  { s with
    M := { s.M with inp := execute ec s.rca s.xNzcvval s.X.out }
    xSetFlags := s.X.out.xSigs.setFlags
    xNzcvval := r.nzcv
    rca := r.rca }

/-- The stage's results do not depend on what the adders held before. -/
theorem executeAlu_rca (rca rca' : Rca) (nzcv : BitVec 8) (x : XInstr) :
    (executeAlu rca nzcv x).valE = (executeAlu rca' nzcv x).valE ∧
      (executeAlu rca nzcv x).condVal = (executeAlu rca' nzcv x).condVal ∧
      (executeAlu rca nzcv x).nzcv = (executeAlu rca' nzcv x).nzcv := by
  have h := aluSwitch_rca rca rca' (aluValA x) (aluValB x) x.valHw x.aluOp (condHolds x.cond nzcv)
  refine ⟨h.1, h.2, ?_⟩
  simp only [executeAlu, alu,
    aluFlags_aluSwitch rca rca' (aluValA x) (aluValB x) x.valHw x.aluOp (condHolds x.cond nzcv)]

theorem execute_rca (ec : Bool) (rca rca' : Rca) (nzcv : BitVec 8) (x : XInstr) :
    execute ec rca nzcv x = execute ec rca' nzcv x := by
  obtain ⟨h1, h2, -⟩ := executeAlu_rca rca rca' nzcv x
  simp only [execute, h1, h2]

end ChArm
