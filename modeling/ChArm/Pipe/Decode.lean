import ChArm.Base.Machine

/-!
# The decode stage

`src/pipe/instr_Decode.c` and the handler table of
`src/pipe/instr_Decode_extractregs.c`.
-/

namespace ChArm

/-- `generate_DXMW_control`. -/
def generateDXMWControl (ec : Bool) (op : Opcode) : XSigs × MSigs × WSigs :=
  let csOps : List Opcode := if ec then [.csel, .csinv, .csinc, .csneg] else []
  let blrOp : List Opcode := if ec then [.blr] else []
  ({ valaSel := op ∈ [Opcode.adrp, .bl]
     valbSel := op ∈ [Opcode.addsRR, .cmnRR, .subsRR, .cmpRR, .mvn, .orrRR, .eorRR, .andsRR,
      .tstRR, .lslRR, .lsrRR, .ubfmv] ++ csOps
     setFlags := op ∈ [Opcode.addsRR, .cmnRR, .subsRR, .cmpRR, .andsRR, .tstRR] },
   { dmemRead := op = .ldur
     dmemWrite := op = .stur },
   { dstSel := op = .bl
     wvalSel := op = .ldur
     wEnable := op ∈ [Opcode.ldur, .movk, .movz, .adrp, .addRI, .addsRR, .subRI, .subsRR, .mvn,
      .orrRR, .eorRR, .andsRR, .lslRI, .lsrRI, .ubfm, .lslRR, .lsrRR, .ubfmv, .asr, .bl] ++
      csOps ++ blrOp })

/-- `extract_immval`. -/
def extractImmval (ec : Bool) (insnbits : BitVec 32) (op : Opcode) : Word :=
  match op with
  | .addRI | .subRI => (bitfieldU32 insnbits 10 12).setWidth 64
  | .lslRI => 64#64 - ((bitfieldU32 insnbits 16 6).setWidth 8).setWidth 64
  | .lsrRI | .asr => (bitfieldU32 insnbits 16 6).setWidth 64
  | .ubfm => (bitfieldU32 insnbits 10 6).setWidth 64
  | .ldur | .stur => bitfieldS64 insnbits 12 9
  | .adrp =>
      let immhi : Word := (bitfieldU32 insnbits 5 19).setWidth 64
      let immlo : Word := (bitfieldU32 insnbits 29 2).setWidth 64
      let imm21 := (immhi <<< 2) ||| immlo
      ((imm21 <<< 43).sshiftRight 43) <<< 12
  | .b | .bl => bitfieldS64 insnbits 0 26 <<< 2
  | .bCond => bitfieldS64 insnbits 5 19 <<< 2
  | .cbz | .cbnz => if ec then bitfieldS64 insnbits 5 19 <<< 2 else 0
  | .movz | .movk => (bitfieldU32 insnbits 5 16).setWidth 64
  | _ => 0

/-- `decide_alu_op`. -/
def decideAluOp (ec : Bool) (op : Opcode) : AluOp :=
  match op with
  | .ldur | .stur | .adrp | .addRI | .addsRR | .cmnRR => .plus
  | .movk => .movk
  | .movz => .mov
  | .subRI | .subsRR | .cmpRR => .minus
  | .mvn => .inv
  | .orrRR => .or
  | .eorRR => .eor
  | .andsRR | .tstRR => .and
  | .lslRI | .ubfm | .lslRR | .ubfmv => .lsl
  | .lsrRI | .lsrRR => .lsr
  | .asr => .asr
  | .csel => if ec then .csel else .passA
  | .csinv => if ec then .csinv else .passA
  | .csinc => if ec then .csinc else .passA
  | .csneg => if ec then .csneg else .passA
  | .cbz => if ec then .cbz else .passA
  | .cbnz => if ec then .cbnz else .passA
  | _ => .passA

/-- The register numbers of an instruction. -/
structure RegNums where
  src1 : RegNum
  src2 : RegNum
  dst : RegNum
  deriving DecidableEq

/-- A register field of an instruction word. -/
def regField (insnbits : BitVec 32) (frompos : Nat) : RegNum :=
  (bitfieldU32 insnbits frompos 5).setWidth 8

theorem regField_le (insnbits : BitVec 32) (frompos : Nat) :
    regField insnbits frompos ≤ 31#8 := by
  rw [BitVec.le_def, regField, bitfieldU32, BitVec.toNat_setWidth, BitVec.toNat_and]
  exact (Nat.mod_le _ _).trans Nat.and_le_right

/-- Number 31 read as the zero register. -/
def spToXzr (r : RegNum) : RegNum := if r = SP_NUM then XZR_NUM else r

/-- `fix_regs`. -/
def fixRegs (op : Opcode) (r : RegNums) : RegNums :=
  let r := { r with src2 := spToXzr r.src2 }
  match op with
  | .ldur | .stur => { r with dst := spToXzr r.dst }
  | .addRI | .subRI => r
  | _ => { r with src1 := spToXzr r.src1, dst := spToXzr r.dst }

/-! The handlers of `extract_regs_table`. -/

/-- `format_m`. -/
def formatM (insnbits : BitVec 32) (op : Opcode) : RegNums :=
  if op = .stur then ⟨regField insnbits 5, regField insnbits 0, XZR_NUM⟩
  else ⟨regField insnbits 5, XZR_NUM, regField insnbits 0⟩

/-- `format_i1`. -/
def formatI1 (insnbits : BitVec 32) (op : Opcode) : RegNums :=
  ⟨if op = .movk then regField insnbits 0 else XZR_NUM, XZR_NUM, regField insnbits 0⟩

/-- `format_i2`. -/
def formatI2 (insnbits : BitVec 32) : RegNums := ⟨XZR_NUM, XZR_NUM, regField insnbits 0⟩

/-- `format_rr`. -/
def formatRR (insnbits : BitVec 32) : RegNums :=
  ⟨regField insnbits 5, regField insnbits 16, regField insnbits 0⟩

/-- `format_ri`. -/
def formatRI (insnbits : BitVec 32) : RegNums :=
  ⟨regField insnbits 5, XZR_NUM, regField insnbits 0⟩

/-- `format_b1`. -/
def formatB1 (op : Opcode) : RegNums :=
  ⟨XZR_NUM, XZR_NUM, if op = .bl then 30#8 else XZR_NUM⟩

/-- `format_b2`, and also `format_s`. -/
def formatB2 : RegNums := ⟨XZR_NUM, XZR_NUM, XZR_NUM⟩

/-- `format_s`. -/
def formatS : RegNums := ⟨XZR_NUM, XZR_NUM, XZR_NUM⟩

/-- `format_b3`. -/
def formatB3 (insnbits : BitVec 32) : RegNums := ⟨regField insnbits 5, XZR_NUM, XZR_NUM⟩

/-- `format_ec`. -/
def formatEC (insnbits : BitVec 32) (op : Opcode) : RegNums :=
  match op with
  | .csel | .csinv | .csinc | .csneg =>
      ⟨regField insnbits 5, regField insnbits 16, regField insnbits 0⟩
  | .cbz | .cbnz => ⟨regField insnbits 0, XZR_NUM, XZR_NUM⟩
  | .br => ⟨regField insnbits 5, XZR_NUM, XZR_NUM⟩
  | .blr => ⟨regField insnbits 5, XZR_NUM, 30#8⟩
  | _ => ⟨XZR_NUM, XZR_NUM, XZR_NUM⟩

/-- `extract_regs_table[format]`; `format_other` leaves the locals as they are. -/
def extractRegsTable (ec : Bool) (l : Locals) (insnbits : BitVec 32) (op : Opcode) :
    Format → RegNums
  | .m => formatM insnbits op
  | .i1 => formatI1 insnbits op
  | .i2 => formatI2 insnbits
  | .rr => formatRR insnbits
  | .ri => formatRI insnbits
  | .b1 => formatB1 op
  | .b2 => formatB2
  | .b3 => formatB3 insnbits
  | .s => formatS
  | .ec => if ec then formatEC insnbits op else ⟨l.src1, l.src2, l.dest⟩
  | .error => ⟨l.src1, l.src2, l.dest⟩

/-- `extract_regs`. -/
def extractRegs (ec : Bool) (l : Locals) (insnbits : BitVec 32) (op : Opcode) (format : Format) :
    RegNums :=
  fixRegs op (extractRegsTable ec l insnbits op format)

/-- The condition an instruction tests. -/
def decodeCond (ec : Bool) (insnbits : BitVec 32) (op : Opcode) : Cond :=
  if op = .bCond then .ofBits (bitfieldU32 insnbits 0 4)
  else if ec ∧ (op = .csel ∨ op = .csinv ∨ op = .csinc ∨ op = .csneg) then
    .ofBits (bitfieldU32 insnbits 12 4)
  else .al

/-- What `decode_instr` writes to `X_in`, and `D_src1` and `D_src2`. -/
def decode (ec : Bool) (l : Locals) (r : Regs) (d : DInstr) : XInstr × RegNum × RegNum :=
  let sigs := generateDXMWControl ec d.op
  let n := extractRegs ec l d.insnbits d.op d.format
  let vals := if d.status = .bub ∨ d.op = .nop then (0, 0) else regfileRead l r n.src1 n.src2
  ({ op := d.op
     seqSuccPC := d.seqSuccPC
     xSigs := sigs.1
     mSigs := sigs.2.1
     wSigs := sigs.2.2
     aluOp := decideAluOp ec d.op
     cond := decodeCond ec d.insnbits d.op
     valA := vals.1
     valB := vals.2
     valImm := if ec ∧ d.op = .blr then d.seqSuccPC else extractImmval ec d.insnbits d.op
     valHw := (bitfieldU32 d.insnbits 21 2 <<< 4).setWidth 8
     dst := n.dst
     status := d.status }, n.src1, n.src2)

/-- `decode_instr`. -/
def decodeInstr (ec : Bool) (s : Machine) : Machine :=
  let r := decode ec (s.locals s.numInstr) s.regs s.D.out
  { s with X := { s.X with inp := r.1 }, dSrc1 := r.2.1, dSrc2 := r.2.2 }

end ChArm
