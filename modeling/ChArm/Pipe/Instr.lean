import ChArm.Base.Word

/-!
# Opcodes, formats and the pipeline registers

The data of `include/pipe/instr.h` and `include/pipe/instr_pipeline.h`, the
lookup tables of `src/pipe/instr_base.c` and its two bit-field helpers.

The source is built in two ways, with and without `-DEC`.  Every function that
contains an `#ifdef EC` takes the flag as its first argument `ec`.  The enums
always have the extra-credit members: with `ec = false` the tables never
produce them (`itable_ne_ec`).

Left out are the fields that only `show_instr` reads (`print_op`), the `UNION`
names of `multipurpose_val` other than `seq_succ_PC`, and `D_sigs`, which no
stage consumes.
-/

namespace ChArm

/-- A register number, a `uint8_t`. -/
abbrev RegNum := BitVec 8

/-- The number that stands for the stack pointer. -/
def SP_NUM : RegNum := 31#8

/-- The number that stands for the zero register. -/
def XZR_NUM : RegNum := 32#8

/-! ## Enumerations -/

/-- `opcode_t`. -/
inductive Opcode where
  | nop | ldur | stur | movk | movz
  | adrp | addRI | addsRR | cmnRR | subRI | subsRR | cmpRR | mvn | orrRR | eorRR
  | andsRR | tstRR | lslRI | lsrRI | ubfm | lslRR | lsrRR | ubfmv | asr
  | b | bCond | bl | ret | hlt
  | csel | csinv | csinc | csneg | cbz | cbnz | br | blr
  | error
  deriving DecidableEq, Repr

/-- `format_t`. -/
inductive Format where
  | error | m | i1 | i2 | rr | ri | b1 | b2 | b3 | s | ec
  deriving DecidableEq, Repr

/-- `cond_t`, the sixteen condition codes. -/
inductive Cond where
  | eq | ne | cs | cc | mi | pl | vs | vc | hi | ls | ge | lt | gt | le | al | nv
  deriving DecidableEq, Repr

/-- The condition a four-bit field encodes. -/
def Cond.ofBits (x : BitVec 32) : Cond :=
  match x.toNat with
  | 0 => .eq | 1 => .ne | 2 => .cs | 3 => .cc | 4 => .mi | 5 => .pl | 6 => .vs | 7 => .vc
  | 8 => .hi | 9 => .ls | 10 => .ge | 11 => .lt | 12 => .gt | 13 => .le | 14 => .al | _ => .nv

/-- `stat_t`, the status an instruction carries down the pipeline. -/
inductive Stat where
  | bub | aok | hlt | adr | ins
  deriving DecidableEq, Repr

/-- `alu_op_t`. -/
inductive AluOp where
  | plus | minus | inv | or | eor | and | mov | movk | lsl | lsr | asr | passA
  | csel | csinv | csinc | csneg | cbz | cbnz
  deriving DecidableEq, Repr

/-- `pipe_ctl_stat_t`. -/
inductive PipeCtl where
  | load | error | bubble | stall
  deriving DecidableEq, Repr

/-- `proc_stage_t`, the five stages. -/
inductive ProcStage where
  | fetch | decode | execute | memory | wback
  deriving DecidableEq, Repr

/-! ## Bit fields -/

/-- `bitfield_u32`: `src[frompos+width-1 : frompos]`, zero extended. -/
def bitfieldU32 (src : BitVec 32) (frompos width : Nat) : BitVec 32 :=
  src.sshiftRight frompos &&& ((1#32 <<< width) - 1#32)

/-- `bitfield_s64`: `src[frompos+width-1 : frompos]`, sign extended to 64 bits. -/
def bitfieldS64 (src : BitVec 32) (frompos width : Nat) : Word :=
  (((src.signExtend 64).sshiftRight frompos &&& ((1#32 <<< width) - 1#32).signExtend 64)
    <<< (64 - width)).sshiftRight (64 - width)

/-! ## The instruction tables -/

/-- The entries `init_itable` writes in every build: opcode, first and last index. -/
def itableBase : List (Opcode × Nat × Nat) :=
  [(.ldur, 0x7c2, 0x7c2), (.stur, 0x7c0, 0x7c0), (.movk, 0x794, 0x797), (.movz, 0x694, 0x697),
    (.adrp, 0x480, 0x487), (.adrp, 0x580, 0x587), (.adrp, 0x680, 0x687), (.adrp, 0x780, 0x787),
    (.addRI, 0x488, 0x489), (.addsRR, 0x558, 0x558), (.subRI, 0x688, 0x689),
    (.subsRR, 0x758, 0x758), (.mvn, 0x551, 0x551), (.orrRR, 0x550, 0x550),
    (.eorRR, 0x650, 0x650), (.andsRR, 0x750, 0x750), (.ubfm, 0x69a, 0x69b),
    (.ubfmv, 0x4d6, 0x4d6), (.asr, 0x49a, 0x49b), (.b, 0x0a0, 0x0bf), (.bCond, 0x2a0, 0x2a7),
    (.bl, 0x4a0, 0x4bf), (.ret, 0x6b2, 0x6b2), (.nop, 0x6a8, 0x6a8), (.hlt, 0x6a2, 0x6a2)]

/-- The entries `init_itable` adds in the extra-credit build. -/
def itableEC : List (Opcode × Nat × Nat) :=
  [(.csel, 0x4d4, 0x4d4), (.csneg, 0x6d4, 0x6d4), (.cbz, 0x5a0, 0x5a7), (.cbnz, 0x5a8, 0x5af),
    (.br, 0x6b0, 0x6b0), (.blr, 0x6b1, 0x6b1)]

/-- All the entries of a build. -/
def itableEntries (ec : Bool) : List (Opcode × Nat × Nat) :=
  if ec then itableBase ++ itableEC else itableBase

/-- `itable[idx]` after `init_itable`: the entry whose range holds the index, and
`OP_ERROR` where nothing was written.  The source asserts that no two ranges
overlap, so which entry comes first does not matter. -/
def itable (ec : Bool) (idx : Nat) : Opcode :=
  match (itableEntries ec).find? fun e => e.2.1 ≤ idx && idx ≤ e.2.2 with
  | some e => e.1
  | none => .error

/-- `ftable[op]` after `init_ftable`. -/
def ftable (ec : Bool) : Opcode → Format
  | .ldur | .stur => .m
  | .movk | .movz => .i1
  | .adrp => .i2
  | .addRI | .subRI | .lslRI | .lsrRI | .ubfm | .asr => .ri
  | .addsRR | .cmnRR | .subsRR | .cmpRR | .mvn | .orrRR | .eorRR | .andsRR | .tstRR
  | .lslRR | .lsrRR | .ubfmv => .rr
  | .b | .bl => .b1
  | .bCond => .b2
  | .ret => .b3
  | .nop | .hlt => .s
  | .csel | .csinv | .csinc | .csneg | .cbz | .cbnz | .br | .blr => if ec then .ec else .error
  | .error => .error

/-- What the table holds is `OP_ERROR` or one of the entries written into it. -/
theorem itable_mem (ec : Bool) (idx : Nat) :
    itable ec idx = .error ∨ ∃ e ∈ itableEntries ec, e.1 = itable ec idx := by
  unfold itable
  cases h : (itableEntries ec).find? fun e => e.2.1 ≤ idx && idx ≤ e.2.2 with
  | none => exact Or.inl rfl
  | some e => exact Or.inr ⟨e, List.mem_of_find?_eq_some h, rfl⟩

/-- A property of opcodes that holds of `OP_ERROR` and of every entry holds of
every opcode the table can produce. -/
theorem itable_forall {ec : Bool} {p : Opcode → Prop} (herr : p .error)
    (h : ∀ e ∈ itableEntries ec, p e.1) (idx : Nat) : p (itable ec idx) := by
  rcases itable_mem ec idx with h' | ⟨e, he, h'⟩
  · rw [h']
    exact herr
  · rw [← h']
    exact h e he

/-- The opcodes that exist only in the extra-credit build. -/
def Opcode.isEC : Opcode → Bool
  | .csel | .csinv | .csinc | .csneg | .cbz | .cbnz | .br | .blr => true
  | _ => false

/-- The base build's table holds no extra-credit opcode. -/
theorem itable_ne_ec (idx : Nat) : (itable false idx).isEC = false :=
  itable_forall (p := fun op => op.isEC = false) rfl (by decide) idx

/-! ## Pipeline registers -/

/-- `x_ctl_sigs_t`. -/
structure XSigs where
  valaSel : Bool
  valbSel : Bool
  setFlags : Bool
  deriving DecidableEq, Repr

/-- `m_ctl_sigs_t`. -/
structure MSigs where
  dmemRead : Bool
  dmemWrite : Bool
  deriving DecidableEq, Repr

/-- `w_ctl_sigs_t`. -/
structure WSigs where
  dstSel : Bool
  wvalSel : Bool
  wEnable : Bool
  deriving DecidableEq, Repr

/-- `f_instr_impl_t`. -/
structure FInstr where
  predPC : Word
  status : Stat
  deriving DecidableEq, Repr

/-- `d_instr_impl_t`. -/
structure DInstr where
  insnbits : BitVec 32
  op : Opcode
  format : Format
  seqSuccPC : Word
  status : Stat
  deriving DecidableEq, Repr

/-- `x_instr_impl_t`. -/
structure XInstr where
  op : Opcode
  seqSuccPC : Word
  xSigs : XSigs
  mSigs : MSigs
  wSigs : WSigs
  aluOp : AluOp
  cond : Cond
  valA : Word
  valB : Word
  valImm : Word
  valHw : BitVec 8
  dst : RegNum
  status : Stat
  deriving DecidableEq, Repr

/-- `m_instr_impl_t`. -/
structure MInstr where
  op : Opcode
  seqSuccPC : Word
  condHolds : Bool
  mSigs : MSigs
  wSigs : WSigs
  valB : Word
  dst : RegNum
  valEx : Word
  status : Stat
  deriving DecidableEq, Repr

/-- `w_instr_impl_t`. -/
structure WInstr where
  op : Opcode
  wSigs : WSigs
  dst : RegNum
  valEx : Word
  valMem : Word
  status : Stat
  deriving DecidableEq, Repr

/-! The all-zero registers that `calloc` and the bubbling `memset` produce. -/

def XSigs.zero : XSigs := ⟨false, false, false⟩
def MSigs.zero : MSigs := ⟨false, false⟩
def WSigs.zero : WSigs := ⟨false, false, false⟩
def FInstr.zero : FInstr := ⟨0, .bub⟩
def DInstr.zero : DInstr := ⟨0, .nop, .error, 0, .bub⟩
def XInstr.zero : XInstr :=
  ⟨.nop, 0, .zero, .zero, .zero, .plus, .eq, 0, 0, 0, 0, 0, .bub⟩
def MInstr.zero : MInstr := ⟨.nop, 0, false, .zero, .zero, 0, 0, 0, .bub⟩
def WInstr.zero : WInstr := ⟨.nop, .zero, 0, 0, 0, .bub⟩

/-- `pipe_reg_t`: the input side, the output side and the control signal. -/
structure PipeReg (α : Type) where
  inp : α
  out : α
  ctl : PipeCtl

/-- A pipeline register as `runElf` allocates it. -/
def PipeReg.init {α : Type} (z : α) : PipeReg α := ⟨z, z, .bubble⟩

/-- The clock edge of the latching loop in `runElf`. -/
def PipeReg.latch {α : Type} (zero : α) (r : PipeReg α) : PipeReg α :=
  match r.ctl with
  | .load => { r with out := r.inp }
  | .error | .bubble => { r with out := zero }
  | .stall => r

end ChArm
