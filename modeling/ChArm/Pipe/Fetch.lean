import ChArm.Base.Machine

/-!
# The fetch stage

`src/pipe/instr_Fetch.c`.
-/

namespace ChArm

/-- `select_PC`. -/
def selectPC (ec : Bool) (predPC : Word) (dOpcode : Opcode) (valA : Word) (mOpcode : Opcode)
    (mCondVal : Bool) (seqSucc : Word) : Word :=
  if dOpcode = .ret ∧ valA = RET_FROM_MAIN_ADDR then 0
  else if dOpcode = .ret then valA
  else if ec ∧ (dOpcode = .br ∨ dOpcode = .blr) then valA
  else if ec ∧ (mOpcode = .cbz ∨ mOpcode = .cbnz) ∧ mCondVal = false then seqSucc
  else if mOpcode = .bCond ∧ mCondVal = false then seqSucc
  else predPC

/-- `predict_PC` for a non-zero `current_PC`: the predicted PC and `seq_succ`. -/
def predictPC (ec : Bool) (currentPC : Word) (insnbits : BitVec 32) (op : Opcode) : Word × Word :=
  let seqSucc := currentPC + 4#64
  if op = .b ∨ op = .bl then (currentPC + (bitfieldS64 insnbits 0 26 <<< 2), seqSucc)
  else if op = .bCond then (currentPC + (bitfieldS64 insnbits 5 19 <<< 2), seqSucc)
  else if ec ∧ (op = .cbz ∨ op = .cbnz) then
    (currentPC + (bitfieldS64 insnbits 5 19 <<< 2), seqSucc)
  else (seqSucc, seqSucc)

/-- `fix_instr_aliases`. -/
def fixInstrAliases (ec : Bool) (insnbits : BitVec 32) (op : Opcode) : Opcode :=
  match op with
  | .addsRR => if insnbits &&& 0x1F#32 = 31#32 then .cmnRR else op
  | .subsRR => if insnbits &&& 0x1F#32 = 31#32 then .cmpRR else op
  | .andsRR => if insnbits &&& 0x1F#32 = 31#32 then .tstRR else op
  | .ubfm => if (insnbits >>> 10) &&& 0x3F#32 = 63#32 then .lsrRI else .lslRI
  | .ubfmv => if (insnbits >>> 10) &&& 0x1#32 ≠ 0#32 then .lsrRR else .lslRR
  | .csel => if ec then (if bitfieldU32 insnbits 10 1 ≠ 0#32 then .csinc else .csel) else op
  | .csneg => if ec then (if bitfieldU32 insnbits 10 1 ≠ 0#32 then .csneg else .csinv) else op
  | _ => op

/-- The PC the fetch stage works on. -/
def fetchPC (ec : Bool) (s : Machine) : Word :=
  selectPC ec s.F.out.predPC s.X.out.op s.X.out.valA s.M.out.op s.M.out.condHolds
    s.M.out.seqSuccPC

/-- The status fetch gives an instruction. -/
def fetchStatus (imemErr : Bool) (op : Opcode) : Stat :=
  if imemErr ∨ op = .error then .ins
  else if op = .hlt then .hlt
  else .aok

/-- The `HLT` fetch makes up when the PC is 0 or an `HLT` has been fetched before;
`seq_succ_PC` keeps its old value. -/
def haltInstr (ec : Bool) (old : DInstr) : DInstr :=
  { old with insnbits := 0xD4400000#32, op := .hlt, format := ftable ec .hlt, status := .hlt }

/-- The decoded form of a word read from `currentPC`. -/
def fetchedInstr (ec : Bool) (currentPC : Word) (insnbits : BitVec 32) (imemErr : Bool) : DInstr :=
  let op0 := itable ec (insnbits >>> 21).toNat
  let op := fixInstrAliases ec insnbits op0
  { insnbits := insnbits
    op := op
    format := if op0 ≠ .error then ftable ec op0 else .error
    seqSuccPC := (predictPC ec currentPC insnbits op).2
    status := fetchStatus imemErr op }

/-- Does fetch make up an `HLT` instead of reading memory? -/
def fetchHalts (ec : Bool) (s : Machine) : Bool :=
  fetchPC ec s == 0 || s.F.inp.status == .hlt

/-- `fetch_instr`. -/
def fetchInstr (ec : Bool) (s : Machine) : Except Abort Machine :=
  if fetchHalts ec s then
    let d := haltInstr ec s.D.inp
    .ok { s with
      D := { s.D with inp := d }
      F := { s.F with inp := { s.F.inp with status := .hlt }, out := { s.F.out with status := .hlt } } }
  else do
    let currentPC := fetchPC ec s
    let (insnbits, imemErr, mem) ← imem s.mem currentPC
    let d := fetchedInstr ec currentPC insnbits imemErr
    .ok { s with
      D := { s.D with inp := d }
      F := { s.F with
        inp := { s.F.inp with status := d.status }
        out := { s.F.out with status := d.status } }
      fPC := (predictPC ec currentPC insnbits d.op).1
      mem := mem }

end ChArm
