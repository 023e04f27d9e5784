import Mathlib

/-!
# A fragment of A64

The 64-bit forms of the A64 instructions that load and store a doubleword, move,
add, subtract, combine, shift and select: their encodings (`Encodes`) and what
the architecture says each of them does (`Instr.effect`).  The register
number 31 is the stack pointer in some operand positions and the zero register in
the others (`State.xsp`, `State.xzr`).

The instructions that read their own address are apart (`PcInstr`): what they write
and where they branch (`PcInstr.written`, `PcInstr.target`).
-/

namespace A64

/-! ## State -/

/-- The condition flags. -/
structure Flags where
  n : Bool
  z : Bool
  c : Bool
  v : Bool
  deriving DecidableEq, Repr

/-- The registers and flags. -/
structure State where
  x : BitVec 5 → BitVec 64
  sp : BitVec 64
  flags : Flags

/-- A general register, with 31 the zero register. -/
def State.xzr (s : State) (n : BitVec 5) : BitVec 64 := if n = 31#5 then 0 else s.x n

/-- A general register, with 31 the stack pointer. -/
def State.xsp (s : State) (n : BitVec 5) : BitVec 64 := if n = 31#5 then s.sp else s.x n

/-- A register an instruction writes. -/
inductive Dest where
  | x (n : BitVec 5)
  | sp
  deriving DecidableEq, Repr

/-- The register written, with 31 the zero register. -/
def Dest.ofXzr (n : BitVec 5) : Option Dest := if n = 31#5 then none else some (.x n)

/-- The register written, with 31 the stack pointer. -/
def Dest.ofXsp (n : BitVec 5) : Option Dest := if n = 31#5 then some .sp else some (.x n)

/-! ## Arithmetic -/

/-- `AddWithCarry`. -/
def addWithCarry (x y : BitVec 64) (carry : Bool) : BitVec 64 × Flags :=
  let unsignedSum := x.toNat + y.toNat + carry.toNat
  let signedSum := x.toInt + y.toInt + (carry.toNat : Int)
  let result := BitVec.ofNat 64 unsignedSum
  (result,
    { n := result.msb
      z := result = 0
      c := result.toNat ≠ unsignedSum
      v := result.toInt ≠ signedSum })

theorem addWithCarry_fst (x y : BitVec 64) (carry : Bool) :
    (addWithCarry x y carry).1 = x + y + BitVec.ofNat 64 carry.toNat := by
  show BitVec.ofNat 64 (x.toNat + y.toNat + carry.toNat) = _
  rw [BitVec.ofNat_add, BitVec.ofNat_add, BitVec.ofNat_toNat, BitVec.ofNat_toNat,
    BitVec.setWidth_eq, BitVec.setWidth_eq]

/-- The carry flag of an addition. -/
theorem addWithCarry_c (x y : BitVec 64) (carry : Bool) :
    (addWithCarry x y carry).2.c = decide (2 ^ 64 ≤ x.toNat + y.toNat + carry.toNat) := by
  show decide ((BitVec.ofNat 64 (x.toNat + y.toNat + carry.toNat)).toNat ≠ _) = _
  rw [decide_eq_decide, BitVec.toNat_ofNat]
  generalize x.toNat + y.toNat + carry.toNat = k
  constructor
  · intro hne
    by_contra hlt
    exact hne (Nat.mod_eq_of_lt (by omega))
  · intro hle heq
    have := Nat.mod_lt k (Nat.two_pow_pos 64)
    omega

/-- The overflow flag of an addition. -/
theorem addWithCarry_v (x y : BitVec 64) (carry : Bool) :
    (addWithCarry x y carry).2.v =
      decide (¬ (-2 ^ 63 ≤ x.toInt + y.toInt + (carry.toNat : Int) ∧
        x.toInt + y.toInt + (carry.toNat : Int) < 2 ^ 63)) := by
  show decide ((BitVec.ofNat 64 (x.toNat + y.toNat + carry.toNat)).toInt ≠ _) = _
  rw [decide_eq_decide]
  have hx := BitVec.toInt_eq_toNat_cond x
  have hy := BitVec.toInt_eq_toNat_cond y
  have hxlt := x.isLt
  have hylt := y.isLt
  have hc : carry.toNat ≤ 1 := Bool.toNat_le carry
  rw [BitVec.toInt_eq_toNat_cond, BitVec.toNat_ofNat]
  split at hx <;> split at hy <;> split <;> omega

/-- `ConditionHolds`. -/
def conditionHolds (cond : BitVec 4) (f : Flags) : Bool :=
  let base :=
    match (cond.extractLsb' 1 3).toNat with
    | 0 => f.z
    | 1 => f.c
    | 2 => f.n
    | 3 => f.v
    | 4 => f.c && !f.z
    | 5 => f.n == f.v
    | 6 => f.n == f.v && !f.z
    | _ => true
  if cond.getLsbD 0 && cond ≠ 15#4 then !base else base

/-! ## Instructions -/

/-- The operations on two registers, the second one shifted by nothing. -/
inductive RROp where
  | adds | subs | ands | orr | eor | orn
  deriving DecidableEq, Repr

/-- The variable shifts. -/
inductive ShiftOp where
  | lslv | lsrv
  deriving DecidableEq, Repr

/-- The conditional selects. -/
inductive SelectOp where
  | csel | csinc | csinv | csneg
  deriving DecidableEq, Repr

/-- The instructions. -/
inductive Instr where
  | ldur (rt rn : BitVec 5) (imm9 : BitVec 9)
  | stur (rt rn : BitVec 5) (imm9 : BitVec 9)
  | movz (rd : BitVec 5) (imm16 : BitVec 16) (hw : BitVec 2)
  | movk (rd : BitVec 5) (imm16 : BitVec 16) (hw : BitVec 2)
  | addImm (rd rn : BitVec 5) (imm12 : BitVec 12)
  | subImm (rd rn : BitVec 5) (imm12 : BitVec 12)
  | rr (op : RROp) (shift : BitVec 2) (rd rn rm : BitVec 5)
  | lslImm (rd rn : BitVec 5) (shift : BitVec 6)
  | lsrImm (rd rn : BitVec 5) (shift : BitVec 6)
  | asrImm (rd rn : BitVec 5) (shift : BitVec 6)
  | shiftv (op : ShiftOp) (rd rn rm : BitVec 5)
  | select (op : SelectOp) (cond : BitVec 4) (rd rn rm : BitVec 5)
  deriving DecidableEq, Repr

/-! ## Encodings -/

section
variable (w : BitVec 32)

/-- The fields `Rd` or `Rt`, `Rn` and `Rm`. -/
abbrev rd : BitVec 5 := w.extractLsb' 0 5

abbrev rn : BitVec 5 := w.extractLsb' 5 5

abbrev rm : BitVec 5 := w.extractLsb' 16 5

end

/-- Bits 31 to 24 and bit 21 of an operation on two registers. -/
def RROp.opcode : RROp → BitVec 8 × BitVec 1
  | .adds => (0b10101011#8, 0#1)
  | .subs => (0b11101011#8, 0#1)
  | .ands => (0b11101010#8, 0#1)
  | .orr => (0b10101010#8, 0#1)
  | .eor => (0b11001010#8, 0#1)
  | .orn => (0b10101010#8, 1#1)

/-- Bits 15 to 10 of a variable shift. -/
def ShiftOp.opcode : ShiftOp → BitVec 6
  | .lslv => 0b001000#6
  | .lsrv => 0b001001#6

/-- Bits 31 to 21 and bits 11 to 10 of a conditional select. -/
def SelectOp.opcode : SelectOp → BitVec 11 × BitVec 2
  | .csel => (0b10011010100#11, 0b00#2)
  | .csinc => (0b10011010100#11, 0b01#2)
  | .csinv => (0b11011010100#11, 0b00#2)
  | .csneg => (0b11011010100#11, 0b01#2)

/-- The word encodes the instruction. -/
inductive Encodes (w : BitVec 32) : Instr → Prop
  | ldur (hop : w.extractLsb' 21 11 = 0b11111000010#11) (hidx : w.extractLsb' 10 2 = 0b00#2) :
      Encodes w (.ldur (rd w) (rn w) (w.extractLsb' 12 9))
  | stur (hop : w.extractLsb' 21 11 = 0b11111000000#11) (hidx : w.extractLsb' 10 2 = 0b00#2) :
      Encodes w (.stur (rd w) (rn w) (w.extractLsb' 12 9))
  | movz (hop : w.extractLsb' 23 9 = 0b110100101#9) :
      Encodes w (.movz (rd w) (w.extractLsb' 5 16) (w.extractLsb' 21 2))
  | movk (hop : w.extractLsb' 23 9 = 0b111100101#9) :
      Encodes w (.movk (rd w) (w.extractLsb' 5 16) (w.extractLsb' 21 2))
  | addImm (hop : w.extractLsb' 22 10 = 0b1001000100#10) :
      Encodes w (.addImm (rd w) (rn w) (w.extractLsb' 10 12))
  | subImm (hop : w.extractLsb' 22 10 = 0b1101000100#10) :
      Encodes w (.subImm (rd w) (rn w) (w.extractLsb' 10 12))
  /-- Additions and subtractions have no rotated operand. -/
  | rr (op : RROp) (hop : (w.extractLsb' 24 8, w.extractLsb' 21 1) = op.opcode)
      (hshift : op = .adds ∨ op = .subs → w.extractLsb' 22 2 ≠ 0b11#2)
      (himm6 : w.extractLsb' 10 6 = 0#6) :
      Encodes w (.rr op (w.extractLsb' 22 2) (rd w) (rn w) (rm w))
  /-- `UBFM Xd, Xn, #(-shift MOD 64), #(63 - shift)` -/
  | lslImm (shift : BitVec 6) (hop : w.extractLsb' 22 10 = 0b1101001101#10)
      (himmr : w.extractLsb' 16 6 = -shift) (himms : w.extractLsb' 10 6 = 63#6 - shift) :
      Encodes w (.lslImm (rd w) (rn w) shift)
  /-- `UBFM Xd, Xn, #shift, #63` -/
  | lsrImm (hop : w.extractLsb' 22 10 = 0b1101001101#10) (himms : w.extractLsb' 10 6 = 63#6) :
      Encodes w (.lsrImm (rd w) (rn w) (w.extractLsb' 16 6))
  /-- `SBFM Xd, Xn, #shift, #63` -/
  | asrImm (hop : w.extractLsb' 22 10 = 0b1001001101#10) (himms : w.extractLsb' 10 6 = 63#6) :
      Encodes w (.asrImm (rd w) (rn w) (w.extractLsb' 16 6))
  | shiftv (op : ShiftOp) (hop : w.extractLsb' 21 11 = 0b10011010110#11)
      (hop2 : w.extractLsb' 10 6 = op.opcode) : Encodes w (.shiftv op (rd w) (rn w) (rm w))
  | select (op : SelectOp) (hop : (w.extractLsb' 21 11, w.extractLsb' 10 2) = op.opcode) :
      Encodes w (.select op (w.extractLsb' 12 4) (rd w) (rn w) (rm w))

/-! ## Effects -/

/-- What an instruction does: the register it writes, its result or the address of its access,
whether it loads, what it stores, and the flags after it. -/
structure Effect where
  dst : Option Dest
  result : BitVec 64
  load : Bool
  store : Option (BitVec 64)
  flags : Flags
  deriving DecidableEq

/-- The result of an operation on two registers and the flags it leaves. -/
def RROp.apply (op : RROp) (a b : BitVec 64) (f : Flags) : BitVec 64 × Flags :=
  match op with
  | .adds => addWithCarry a b false
  | .subs => addWithCarry a (~~~b) true
  | .ands => (a &&& b, { n := (a &&& b).msb, z := (a &&& b) = 0, c := false, v := false })
  | .orr => (a ||| b, f)
  | .eor => (a ^^^ b, f)
  | .orn => (a ||| ~~~b, f)

/-- The result of a variable shift. -/
def ShiftOp.apply (op : ShiftOp) (a b : BitVec 64) : BitVec 64 :=
  match op with
  | .lslv => a <<< (b.toNat % 64)
  | .lsrv => a >>> (b.toNat % 64)

/-- The result of a conditional select. -/
def SelectOp.apply (op : SelectOp) (holds : Bool) (a b : BitVec 64) : BitVec 64 :=
  if holds then a
  else
    match op with
    | .csel => b
    | .csinc => b + 1
    | .csinv => ~~~b
    | .csneg => ~~~b + 1

/-- The effect of an instruction. -/
def Instr.effect (s : State) : Instr → Effect
  | .ldur rt rn imm9 => ⟨Dest.ofXzr rt, s.xsp rn + imm9.signExtend 64, true, none, s.flags⟩
  | .stur rt rn imm9 => ⟨none, s.xsp rn + imm9.signExtend 64, false, some (s.xzr rt), s.flags⟩
  | .movz rd imm16 hw =>
      ⟨Dest.ofXzr rd, imm16.setWidth 64 <<< (16 * hw.toNat), false, none, s.flags⟩
  | .movk rd imm16 hw =>
      ⟨Dest.ofXzr rd, (s.xzr rd &&& ~~~(0xffff#64 <<< (16 * hw.toNat))) |||
        (imm16.setWidth 64 <<< (16 * hw.toNat)), false, none, s.flags⟩
  | .addImm rd rn imm12 =>
      ⟨Dest.ofXsp rd, (addWithCarry (s.xsp rn) (imm12.setWidth 64) false).1, false, none, s.flags⟩
  | .subImm rd rn imm12 =>
      ⟨Dest.ofXsp rd, (addWithCarry (s.xsp rn) (~~~(imm12.setWidth 64)) true).1, false, none, s.flags⟩
  | .rr op _ rd rn rm =>
      let r := op.apply (s.xzr rn) (s.xzr rm) s.flags
      ⟨Dest.ofXzr rd, r.1, false, none, r.2⟩
  | .lslImm rd rn shift => ⟨Dest.ofXzr rd, s.xzr rn <<< shift.toNat, false, none, s.flags⟩
  | .lsrImm rd rn shift => ⟨Dest.ofXzr rd, s.xzr rn >>> shift.toNat, false, none, s.flags⟩
  | .asrImm rd rn shift => ⟨Dest.ofXzr rd, (s.xzr rn).sshiftRight shift.toNat, false, none, s.flags⟩
  | .shiftv op rd rn rm => ⟨Dest.ofXzr rd, op.apply (s.xzr rn) (s.xzr rm), false, none, s.flags⟩
  | .select op cond rd rn rm =>
      let r := op.apply (conditionHolds cond s.flags) (s.xzr rn) (s.xzr rm)
      ⟨Dest.ofXzr rd, r, false, none, s.flags⟩

/-! ## Instructions that read their own address -/

/-- The instructions, but for the branches to a register that leave no link. -/
inductive PcInstr where
  | adrp (rd : BitVec 5) (imm21 : BitVec 21)
  | b (imm26 : BitVec 26)
  | bl (imm26 : BitVec 26)
  | bCond (cond : BitVec 4) (imm19 : BitVec 19)
  | cbz (rt : BitVec 5) (imm19 : BitVec 19)
  | cbnz (rt : BitVec 5) (imm19 : BitVec 19)
  | blr (rn : BitVec 5)
  deriving DecidableEq, Repr

/-- The word encodes the instruction. -/
inductive PcEncodes (w : BitVec 32) : PcInstr → Prop
  /-- The immediate is `immhi:immlo`. -/
  | adrp (hop : w.extractLsb' 31 1 = 1#1) (hop2 : w.extractLsb' 24 5 = 0b10000#5) :
      PcEncodes w (.adrp (rd w) (w.extractLsb' 5 19 ++ w.extractLsb' 29 2))
  | b (hop : w.extractLsb' 26 6 = 0b000101#6) : PcEncodes w (.b (w.extractLsb' 0 26))
  | bl (hop : w.extractLsb' 26 6 = 0b100101#6) : PcEncodes w (.bl (w.extractLsb' 0 26))
  | bCond (hop : w.extractLsb' 24 8 = 0b01010100#8) (ho0 : w.extractLsb' 4 1 = 0#1) :
      PcEncodes w (.bCond (w.extractLsb' 0 4) (w.extractLsb' 5 19))
  | cbz (hop : w.extractLsb' 24 8 = 0b10110100#8) :
      PcEncodes w (.cbz (rd w) (w.extractLsb' 5 19))
  | cbnz (hop : w.extractLsb' 24 8 = 0b10110101#8) :
      PcEncodes w (.cbnz (rd w) (w.extractLsb' 5 19))
  | blr (hop : w.extractLsb' 21 11 = 0b11010110001#11) (hop2 : w.extractLsb' 10 11 = 0b11111000000#11)
      (hop3 : w.extractLsb' 0 5 = 0#5) : PcEncodes w (.blr (rn w))

/-- The register an instruction at `pc` writes, and its value. -/
def PcInstr.written (pc : BitVec 64) : PcInstr → Option (Dest × BitVec 64)
  | .adrp rd imm21 =>
      (Dest.ofXzr rd).map fun d => (d, (pc &&& ~~~0xFFF#64) + imm21.signExtend 64 * 4096#64)
  | .bl _ | .blr _ => some (.x 30#5, pc + 4#64)
  | .b _ | .bCond _ _ | .cbz _ _ | .cbnz _ _ => none

/-- Where an instruction at `pc` branches when it is taken, if the word itself says so. -/
def PcInstr.target (pc : BitVec 64) : PcInstr → Option (BitVec 64)
  | .b imm26 | .bl imm26 => some (pc + imm26.signExtend 64 * 4#64)
  | .bCond _ imm19 | .cbz _ imm19 | .cbnz _ imm19 => some (pc + imm19.signExtend 64 * 4#64)
  | .adrp _ _ | .blr _ => none

end A64
