import ChArm.Lib.A64

/-!
# Every word of an instruction group

The upper eleven bits of a word name a group of A64 encodings (`Group`).  The fragment has some of
the instructions of each of its groups; here are the other ones, so that every word of such a group
has a meaning or none (`meaning`).  The instruction set is the base one, Armv8.0 without optional
extensions, seen from a program at EL0.  A word means nothing where the architecture leaves it
unallocated or unpredictable, and where what it does is not done to the registers, the flags and
the memory alone but to a system register or a field of `PSTATE`, or depends on the implementation.
-/

namespace A64

/-! ## Outcomes -/

/-- The state after a register is written. -/
def State.write (s : State) (v : BitVec 64) : Option Dest → State
  | none => s
  | some (.x n) => { s with x := Function.update s.x n v }
  | some .sp => { s with sp := v }

/-- Writing a register leaves the flags alone. -/
theorem State.write_flags (s : State) (v : BitVec 64) (d : Option Dest) :
    { s.write v d with flags := s.flags } = s.write v d := by
  cases d with
  | none => rfl
  | some d => cases d <;> rfl

/-- What an instruction does to memory, registers and flags: the address it loads a doubleword
from, the address it stores one to and its value, and the state after it, given what it loads. -/
structure Outcome where
  load : Option (BitVec 64)
  store : Option (BitVec 64 × BitVec 64)
  after : BitVec 64 → State

/-- Nothing happens. -/
def Outcome.nothing (s : State) : Outcome := ⟨none, none, fun _ => s⟩

/-- The outcome of an effect. -/
def Effect.outcome (e : Effect) (s : State) : Outcome where
  load := if e.load then some e.result else none
  store := e.store.map fun v => (e.result, v)
  after v := { s.write (if e.load then v else e.result) e.dst with flags := e.flags }

/-- An effect on one register and the flags. -/
def Effect.onRegister (rd : BitVec 5) (result : BitVec 64) (flags : Flags) : Effect :=
  ⟨Dest.ofXzr rd, result, false, none, flags⟩

/-! ## Groups -/

/-- The groups of encodings, by the upper eleven bits of the word. -/
inductive Group where
  /-- a doubleword load or store with a nine-bit offset -/
  | loadStore (load : Bool)
  | movz
  | movk
  | adrp
  | addImm
  | subImm
  /-- an operation on two registers, the second one shifted left -/
  | shifted (op : RROp)
  /-- `SBFM` or `UBFM` -/
  | bitfield (signed : Bool)
  /-- data processing with two source registers -/
  | twoSource
  /-- a conditional select -/
  | select (inverting : Bool)
  | b
  | bl
  | bCond
  | cbz
  | cbnz
  | br
  | blr
  | ret
  /-- hints, barriers, cache maintenance and writes of system registers -/
  | system
  | hlt
  deriving DecidableEq, Repr

/-- All the groups. -/
def Group.all : List Group :=
  [.loadStore true, .loadStore false, .movz, .movk, .adrp, .addImm, .subImm, .shifted .adds,
    .shifted .subs, .shifted .ands, .shifted .orr, .shifted .eor, .shifted .orn, .bitfield true,
    .bitfield false, .twoSource, .select false, .select true, .b, .bl, .bCond, .cbz, .cbnz, .br,
    .blr, .ret, .system, .hlt]

/-- Do the upper eleven bits belong to the group? -/
def Group.has (op : BitVec 11) : Group → Bool
  | .loadStore true => op == 0b11111000010#11
  | .loadStore false => op == 0b11111000000#11
  | .movz => op.extractLsb' 2 9 == 0b110100101#9
  | .movk => op.extractLsb' 2 9 == 0b111100101#9
  | .adrp => op.extractLsb' 10 1 == 1#1 && op.extractLsb' 3 5 == 0b10000#5
  | .addImm => op.extractLsb' 1 10 == 0b1001000100#10
  | .subImm => op.extractLsb' 1 10 == 0b1101000100#10
  | .shifted o =>
      op.extractLsb' 3 8 == o.opcode.1 && op.extractLsb' 0 1 == o.opcode.2 &&
        op.extractLsb' 1 2 == 0b00#2
  | .bitfield true => op.extractLsb' 1 10 == 0b1001001101#10
  | .bitfield false => op.extractLsb' 1 10 == 0b1101001101#10
  | .twoSource => op == 0b10011010110#11
  | .select false => op == 0b10011010100#11
  | .select true => op == 0b11011010100#11
  | .b => op.extractLsb' 5 6 == 0b000101#6
  | .bl => op.extractLsb' 5 6 == 0b100101#6
  | .bCond => op.extractLsb' 3 8 == 0b01010100#8
  | .cbz => op.extractLsb' 3 8 == 0b10110100#8
  | .cbnz => op.extractLsb' 3 8 == 0b10110101#8
  | .br => op == 0b11010110000#11
  | .blr => op == 0b11010110001#11
  | .ret => op == 0b11010110010#11
  | .system => op == 0b11010101000#11
  | .hlt => op == 0b11010100010#11

/-- The group of a word, if it is one of these. -/
def Group.ofWord (w : BitVec 32) : Option Group :=
  Group.all.find? fun g => g.has (w.extractLsb' 21 11)

/-! ## The other instructions -/

/-- The load or store with an offset that leaves its base alone. -/
def unscaled (load : Bool) (rt rn : BitVec 5) (imm9 : BitVec 9) : Instr :=
  if load then .ldur rt rn imm9 else .stur rt rn imm9

/-- The conditional select with the two bits that tell the conditional selects apart. -/
def SelectOp.of (inverting second : Bool) : SelectOp :=
  match inverting, second with
  | false, false => .csel
  | false, true => .csinc
  | true, false => .csinv
  | true, true => .csneg

/-- The operations on two source registers. -/
inductive TwoOp where
  | udiv | sdiv | lslv | lsrv | asrv | rorv
  deriving DecidableEq, Repr

/-- Bits 15 to 10; the other values are unallocated. -/
def TwoOp.ofBits (x : BitVec 6) : Option TwoOp :=
  if x = 0b000010#6 then some .udiv
  else if x = 0b000011#6 then some .sdiv
  else if x = 0b001000#6 then some .lslv
  else if x = 0b001001#6 then some .lsrv
  else if x = 0b001010#6 then some .asrv
  else if x = 0b001011#6 then some .rorv
  else none

/-- The result of an operation on two source registers; a division by zero gives zero. -/
def TwoOp.apply (op : TwoOp) (a b : BitVec 64) : BitVec 64 :=
  match op with
  | .udiv => a / b
  | .sdiv => a.sdiv b
  | .lslv => a <<< (b.toNat % 64)
  | .lsrv => a >>> (b.toNat % 64)
  | .asrv => a.sshiftRight (b.toNat % 64)
  | .rorv => a.rotateRight (b.toNat % 64)

/-- The result of `SBFM` and `UBFM`: the bits of `x` from `immr` to `imms` moved to the bottom or,
if there are none, its bits from 0 to `imms` moved up to `64 - immr`; above them copies of the sign,
or zeros, and below them zeros. -/
def bitfieldMove (signed : Bool) (immr imms : BitVec 6) (x : BitVec 64) : BitVec 64 :=
  let low := if immr ≤ imms then immr.toNat else 0
  let field := x.extractLsb' low (imms.toNat - low + 1)
  let extended := if signed then field.signExtend 64 else field.setWidth 64
  if immr ≤ imms then extended else extended <<< (64 - immr.toNat)

/-- The instructions of the groups. -/
inductive Inst where
  /-- an instruction of the fragment -/
  | instr (i : Instr)
  /-- an instruction that reads its own address -/
  | pcRel (i : PcInstr)
  /-- a load or store that moves its base register by the offset, after the access or before -/
  | indexed (load post : Bool) (rt rn : BitVec 5) (imm9 : BitVec 9)
  /-- an operation on two registers, the second one shifted left by `amount` -/
  | shifted (op : RROp) (amount : BitVec 6) (rd rn rm : BitVec 5)
  | bitfield (signed : Bool) (immr imms : BitVec 6) (rd rn : BitVec 5)
  | two (op : TwoOp) (rd rn rm : BitVec 5)
  | br (rn : BitVec 5)
  | ret (rn : BitVec 5)
  | hint
  | barrier
  /-- a cache line is written back or dropped -/
  | maintenance
  /-- `MSR NZCV, Xt` -/
  | msrNzcv (rt : BitVec 5)
  | hlt
  deriving DecidableEq, Repr

/-- The flags in bits 31 to 28 of a register. -/
def Flags.ofWord (x : BitVec 64) : Flags :=
  ⟨x.getLsbD 31, x.getLsbD 30, x.getLsbD 29, x.getLsbD 28⟩

/-- What an instruction at `pc` does. -/
def Inst.outcome (pc : BitVec 64) (s : State) : Inst → Outcome
  | .instr i => (i.effect s).outcome s
  | .pcRel i =>
      ⟨none, none, fun _ =>
        match i.written pc with
        | none => s
        | some (d, v) => s.write v (some d)⟩
  | .indexed load post rt rn imm9 =>
      let moved := s.xsp rn + imm9.signExtend 64
      let address := if post then s.xsp rn else moved
      { load := if load then some address else none
        store := if load then none else some (address, s.xzr rt)
        after := fun v =>
          (if load then s.write v (Dest.ofXzr rt) else s).write moved (Dest.ofXsp rn) }
  | .shifted op amount rd rn rm =>
      let r := op.apply (s.xzr rn) (s.xzr rm <<< amount.toNat) s.flags
      (Effect.onRegister rd r.1 r.2).outcome s
  | .bitfield signed immr imms rd rn =>
      (Effect.onRegister rd (bitfieldMove signed immr imms (s.xzr rn)) s.flags).outcome s
  | .two op rd rn rm => (Effect.onRegister rd (op.apply (s.xzr rn) (s.xzr rm)) s.flags).outcome s
  | .msrNzcv rt => ⟨none, none, fun _ => { s with flags := .ofWord (s.xzr rt) }⟩
  | .br _ | .ret _ | .hint | .barrier | .maintenance | .hlt => .nothing s

/-! ## Words -/

section
variable (w : BitVec 32)

/-- The offset of a load or store. -/
abbrev imm9 : BitVec 9 := w.extractLsb' 12 9

/-- The shift amount of an operation on two registers. -/
abbrev imm6 : BitVec 6 := w.extractLsb' 10 6

/-- The fields of `SBFM` and `UBFM`. -/
abbrev immr : BitVec 6 := w.extractLsb' 16 6

abbrev imms : BitVec 6 := w.extractLsb' 10 6

/-- Loads and stores with an offset: bits 11 to 10 are 00 for `LDUR` and `STUR`, 01 for an offset
added after the access, 11 for one added before it, and 10 for an unprivileged access, which is an
ordinary one at EL0.  It is unpredictable what happens if the register that is loaded or stored is
the base that moves. -/
def Inst.ofLoadStore (load : Bool) : Option Inst :=
  if w.getLsbD 10 = false then
    some (.instr (unscaled load (rd w) (rn w) (imm9 w)))
  else if rn w = rd w ∧ rn w ≠ 31#5 then none
  else some (.indexed load (!w.getLsbD 11) (rd w) (rn w) (imm9 w))

/-- Conditional selects: bits 11 to 10 are 00 or 01. -/
def Inst.ofSelect (inverting : Bool) : Option Inst :=
  if w.getLsbD 11 = true then none
  else
    some (.instr (.select (.of inverting (w.getLsbD 10)) (w.extractLsb' 12 4) (rd w) (rn w) (rm w)))

/-- The fixed bits 20 to 10 and 4 to 0 of a branch to a register. -/
def BranchBits : Prop := w.extractLsb' 10 11 = 0b11111000000#11 ∧ rd w = 0#5

instance : Decidable (BranchBits w) := inferInstanceAs (Decidable (_ ∧ _))

/-- A hint: `op0`, `op1` and `CRn` are 00, 011 and 0010, and `Rt` is 31. -/
def HintBits : Prop := w.extractLsb' 12 9 = 0b000110010#9 ∧ rd w = 31#5

instance : Decidable (HintBits w) := inferInstanceAs (Decidable (_ ∧ _))

/-- `CLREX`, `DSB`, `DMB` and `ISB`. -/
def BarrierBits : Prop :=
  w.extractLsb' 12 9 = 0b000110011#9 ∧ rd w = 31#5 ∧
    w.extractLsb' 5 3 ∈ [0b010#3, 0b100#3, 0b101#3, 0b110#3]

instance : Decidable (BarrierBits w) := inferInstanceAs (Decidable (_ ∧ _ ∧ _))

/-- `IC IVAU`, `DC CVAC`, `DC CVAU` and `DC CIVAC`. -/
def MaintenanceBits : Prop :=
  w.extractLsb' 12 9 = 0b010110111#9 ∧
    w.extractLsb' 5 7 ∈ [0b0101001#7, 0b1010001#7, 0b1011001#7, 0b1110001#7]

instance : Decidable (MaintenanceBits w) := inferInstanceAs (Decidable (_ ∧ _))

/-- Of the other words of the group some are unallocated, some write a system register or a field
of `PSTATE`, and one clears as much memory as the implementation says. -/
def Inst.ofSystem : Option Inst :=
  if HintBits w then some .hint
  else if BarrierBits w then some .barrier
  else if MaintenanceBits w then some .maintenance
  else if w.extractLsb' 5 16 = 0b1101101000010000#16 then some (.msrNzcv (rd w))
  else none

/-- The instruction a word of a group encodes. -/
def Inst.ofGroup : Group → Option Inst
  | .loadStore load => Inst.ofLoadStore w load
  | .movz => some (.instr (.movz (rd w) (w.extractLsb' 5 16) (w.extractLsb' 21 2)))
  | .movk => some (.instr (.movk (rd w) (w.extractLsb' 5 16) (w.extractLsb' 21 2)))
  | .adrp => some (.pcRel (.adrp (rd w) (w.extractLsb' 5 19 ++ w.extractLsb' 29 2)))
  | .addImm => some (.instr (.addImm (rd w) (rn w) (w.extractLsb' 10 12)))
  | .subImm => some (.instr (.subImm (rd w) (rn w) (w.extractLsb' 10 12)))
  | .shifted op => some (.shifted op (imm6 w) (rd w) (rn w) (rm w))
  | .bitfield signed => some (.bitfield signed (immr w) (imms w) (rd w) (rn w))
  | .twoSource => (TwoOp.ofBits (w.extractLsb' 10 6)).map fun op => .two op (rd w) (rn w) (rm w)
  | .select inverting => Inst.ofSelect w inverting
  | .b => some (.pcRel (.b (w.extractLsb' 0 26)))
  | .bl => some (.pcRel (.bl (w.extractLsb' 0 26)))
  | .bCond =>
      if w.getLsbD 4 = true then none
      else some (.pcRel (.bCond (w.extractLsb' 0 4) (w.extractLsb' 5 19)))
  | .cbz => some (.pcRel (.cbz (rd w) (w.extractLsb' 5 19)))
  | .cbnz => some (.pcRel (.cbnz (rd w) (w.extractLsb' 5 19)))
  | .br => if BranchBits w then some (.br (rn w)) else none
  | .blr => if BranchBits w then some (.pcRel (.blr (rn w))) else none
  | .ret => if BranchBits w then some (.ret (rn w)) else none
  | .system => Inst.ofSystem w
  | .hlt => if rd w = 0#5 then some .hlt else none

/-- What A64 says a word at `pc` does, if it says anything. -/
def meaning (pc : BitVec 64) (s : State) : Option Outcome :=
  ((Group.ofWord w).bind (Inst.ofGroup w)).map (Inst.outcome pc s)

end

end A64
