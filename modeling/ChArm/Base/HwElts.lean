import ChArm.Pipe.Instr

/-!
# Hardware elements

The ripple-carry adder, the register file, the condition decoder and the ALU of
`src/base/hw_elts.c`.

The adder's 64 full adders are a global array whose earlier contents every
call inherits; `rippleCarryAdd_initRca` shows that none of them reaches a sum
or a carry.
-/

namespace ChArm

/-! ## The ripple-carry adder -/

/-- `fa_t`. -/
structure FullAdder where
  bitA : Bool
  bitB : Bool
  cIn : Bool
  cOut : Bool
  s : Bool
  deriving DecidableEq, Repr

/-- A full adder as the program starts. -/
def FullAdder.zero : FullAdder := ⟨false, false, false, false, false⟩

/-- The 64 adders, least significant first. -/
abbrev Rca := List FullAdder

/-- The array as the program starts. -/
def Rca.zero : Rca := List.replicate 64 .zero

/-- The sum and carry of one adder from its inputs and an incoming carry. -/
def FullAdder.add (x : FullAdder) (c : Bool) : FullAdder :=
  { x with
    cIn := c
    s := (x.bitA ^^ x.bitB) ^^ c
    cOut := (x.bitA && x.bitB) || (x.bitA && c) || (x.bitB && c) }

/-- `init_rca`: the inputs of every adder and the carry into the first. -/
def initRca (rca : Rca) (valA valB : Word) (cIn : Bool) : Rca :=
  (List.range 64).map fun i =>
    let x := rca.getD i .zero
    { x with
      bitA := valA.getLsbD i
      bitB := valB.getLsbD i
      cIn := if i = 0 then cIn else x.cIn }

/-- The carry loop of `ripple_carry_add`. -/
def rippleFrom : Bool → Rca → Rca
  | _, [] => []
  | c, x :: xs => x.add c :: rippleFrom (x.add c).cOut xs

/-- The loop of `ripple_carry_add` that assembles the sum bits, lowest first. -/
def sumBits (rca : Rca) : Word :=
  rca.zipIdx.foldl (fun sum x => sum ||| (BitVec.ofBool x.1.s).setWidth 64 <<< x.2) 0

/-- `ripple_carry_add`: the sum and the adders after it. -/
def rippleCarryAdd (rca : Rca) : Word × Rca :=
  let rca := rippleFrom (rca.headD .zero).cIn rca
  (sumBits rca, rca)

/-! ## The register file -/

/-- What a read leaves undetermined: the locals of `decode_instr` before anything
is assigned to them, and what lies past the end of the register array. -/
structure Locals where
  src1 : RegNum
  src2 : RegNum
  dest : RegNum
  pastGPR : RegNum → Word

/-- The registers of `proc_t`. -/
structure Regs where
  SP : Word
  GPR : RegNum → Word

/-- One read port of `regfile_read`. -/
def readPort (l : Locals) (r : Regs) (src : RegNum) : Word :=
  if src = XZR_NUM then 0
  else if src = SP_NUM then r.SP
  else if src < 31#8 then r.GPR src
  else l.pastGPR src

/-- `regfile_read`. -/
def regfileRead (l : Locals) (r : Regs) (src1 src2 : RegNum) : Word × Word :=
  (readPort l r src1, readPort l r src2)

/-- `regfile_write`. -/
def regfileWrite (r : Regs) (dst : RegNum) (valW : Word) (wEnable : Bool) : Regs :=
  if wEnable then
    if dst < SP_NUM then { r with GPR := Function.update r.GPR dst valW }
    else if dst = SP_NUM then { r with SP := valW }
    else r
  else r

/-! ## Conditions and the ALU -/

/-- `cond_holds`. -/
def condHolds (cond : Cond) (flags : BitVec 8) : Bool :=
  let N := flags.getLsbD 3
  let Z := flags.getLsbD 2
  let C := flags.getLsbD 1
  let V := flags.getLsbD 0
  match cond with
  | .eq => Z
  | .ne => !Z
  | .cs => C
  | .cc => !C
  | .mi => N
  | .pl => !N
  | .vs => V
  | .vc => !V
  | .hi => C && !Z
  | .ls => !(C && !Z)
  | .ge => N == V
  | .lt => !(N == V)
  | .gt => !Z && (N == V)
  | .le => !(!Z && (N == V))
  | .al => true
  | .nv => true

/-- The outputs of `alu`. -/
structure AluOut where
  valE : Word
  condVal : Bool
  nzcv : BitVec 8
  rca : Rca

/-- The switch of `alu`: `val_e`, `cond_val` and the adders. -/
def aluSwitch (rca : Rca) (valA valB : Word) (valHw : BitVec 8) (op : AluOp) (condVal : Bool) :
    Word × Bool × Rca :=
  let add (a b : Word) (c : Bool) : Word × Bool × Rca :=
    let r := rippleCarryAdd (initRca rca a b c)
    (r.1, condVal, r.2)
  match op with
  | .plus => add valA valB false
  | .minus => add valA (~~~valB) true
  | .inv => (valA ||| ~~~valB, condVal, rca)
  | .or => (valA ||| valB, condVal, rca)
  | .eor => (valA ^^^ valB, condVal, rca)
  | .and => (valA &&& valB, condVal, rca)
  | .mov => (valA ||| (valB <<< valHw.toNat), condVal, rca)
  | .movk => ((valA &&& ~~~(0xFFFF#64 <<< valHw.toNat)) ||| (valB <<< valHw.toNat), condVal, rca)
  | .lsl => (valA <<< (valB &&& 0x3F#64).toNat, condVal, rca)
  | .lsr => (valA >>> (valB &&& 0x3F#64).toNat, condVal, rca)
  | .asr => (valA.sshiftRight (valB &&& 0x3F#64).toNat, condVal, rca)
  | .passA => (valA, condVal, rca)
  | .csel => (if condVal then valA else valB, condVal, rca)
  | .csinv => (if condVal then valA else ~~~valB, condVal, rca)
  | .csinc => if condVal then (valA, condVal, rca) else add valB 1 false
  | .csneg => if condVal then (valA, condVal, rca) else add 0 (~~~valB) true
  | .cbz => (valA, valA == 0, rca)
  | .cbnz => (valA, valA != 0, rca)

/-- The flags `alu` computes when they are to be set. -/
def aluFlags (valE : Word) (op : AluOp) (rca : Rca) : BitVec 8 :=
  let top := rca.getD 63 .zero
  let arith := op == .plus || op == .minus
  (if valE >>> 63 = 1 then 0x8#8 else 0) ||| (if valE = 0 then 0x4#8 else 0)
    ||| (if arith && top.cOut then 0x2#8 else 0)
    ||| (if arith && (top.cOut ^^ top.cIn) then 0x1#8 else 0)

/-- `alu`. -/
def alu (rca : Rca) (valA valB : Word) (valHw : BitVec 8) (nzcv : BitVec 8) (op : AluOp)
    (setFlags : Bool) (cond : Cond) (nzcvDst : BitVec 8) : AluOut :=
  let (valE, condVal, rca) := aluSwitch rca valA valB valHw op (condHolds cond nzcv)
  { valE := valE
    condVal := condVal
    nzcv := if setFlags then aluFlags valE op rca else nzcvDst
    rca := rca }

/-! ## No result depends on the adders' earlier contents -/

/-- Two adders that agree on their operand bits. -/
def SameBits (x y : FullAdder) : Prop := x.bitA = y.bitA ∧ x.bitB = y.bitB

theorem FullAdder.add_congr {x y : FullAdder} (h : SameBits x y) (c : Bool) : x.add c = y.add c := by
  simp only [FullAdder.add, h.1, h.2]

theorem rippleFrom_congr {xs ys : Rca} (h : List.Forall₂ SameBits xs ys) (c : Bool) :
    rippleFrom c xs = rippleFrom c ys := by
  induction h generalizing c with
  | nil => rfl
  | cons hxy _ ih => rw [rippleFrom, rippleFrom, FullAdder.add_congr hxy, ih]

theorem initRca_sameBits (rca rca' : Rca) (a b : Word) (c : Bool) :
    List.Forall₂ SameBits (initRca rca a b c) (initRca rca' a b c) := by
  unfold initRca
  rw [List.forall₂_map_left_iff, List.forall₂_map_right_iff, List.forall₂_same]
  exact fun i _ => ⟨rfl, rfl⟩

theorem headD_initRca (rca : Rca) (a b : Word) (c : Bool) :
    ((initRca rca a b c).headD .zero).cIn = c := rfl

/-- The adder's result and its final adders come from the operands and the carry in alone. -/
theorem rippleCarryAdd_initRca (rca rca' : Rca) (a b : Word) (c : Bool) :
    rippleCarryAdd (initRca rca a b c) = rippleCarryAdd (initRca rca' a b c) := by
  simp only [rippleCarryAdd, headD_initRca, rippleFrom_congr (initRca_sameBits rca rca' a b c)]

/-- The switch's value and condition do not depend on the adders. -/
theorem aluSwitch_rca (rca rca' : Rca) (a b : Word) (hw : BitVec 8) (op : AluOp) (cv : Bool) :
    (aluSwitch rca a b hw op cv).1 = (aluSwitch rca' a b hw op cv).1 ∧
      (aluSwitch rca a b hw op cv).2.1 = (aluSwitch rca' a b hw op cv).2.1 := by
  cases op <;> cases cv <;>
    simp only [aluSwitch, rippleCarryAdd_initRca rca rca', if_true, if_false, and_self,
      Bool.false_eq_true]

/-- The flags do not depend on the adders' earlier contents. -/
theorem aluFlags_aluSwitch (rca rca' : Rca) (a b : Word) (hw : BitVec 8) (op : AluOp) (cv : Bool) :
    aluFlags (aluSwitch rca a b hw op cv).1 op (aluSwitch rca a b hw op cv).2.2 =
      aluFlags (aluSwitch rca' a b hw op cv).1 op (aluSwitch rca' a b hw op cv).2.2 := by
  rw [(aluSwitch_rca rca rca' a b hw op cv).1]
  cases op <;>
    simp [aluFlags, aluSwitch, rippleCarryAdd_initRca rca rca']

end ChArm
