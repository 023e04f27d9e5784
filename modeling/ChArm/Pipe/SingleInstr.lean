import ChArm.Base.AddWithCarry
import ChArm.Lib.A64
import ChArm.Pipe.WellFormed

/-!
# One instruction at a time

A word on its own, through `itable`, `fix_instr_aliases`, decode and execute, compared with what
the architecture says of the instruction it encodes (`Performs`).

* `performs_of_encodes` — every word that the fragment encodes an instruction by.
-/

namespace ChArm

/-! ## Bit fields -/

theorem getLsbD_mask {n : Nat} (hn : n < 32) (i : Nat) :
    ((1#32 <<< n) - 1#32).getLsbD i = decide (i < n) := by
  have hval : ((1#32 <<< n) - 1#32).toNat = 2 ^ n - 1 := by
    have hpow : 2 ^ n < 2 ^ 32 := Nat.pow_lt_pow_right (by decide) hn
    have hpos : 0 < 2 ^ n := Nat.two_pow_pos n
    rw [BitVec.toNat_sub, BitVec.toNat_shiftLeft]
    show (2 ^ 32 - 1 + 1 <<< n % 2 ^ 32) % 2 ^ 32 = 2 ^ n - 1
    rw [Nat.one_shiftLeft, Nat.mod_eq_of_lt hpow]
    omega
  rw [BitVec.getLsbD, hval, Nat.testBit_two_pow_sub_one]

theorem getLsbD_sshiftRight_lt (w : BitVec 32) {p i : Nat} (h : p + i < 32) :
    (w.sshiftRight p).getLsbD i = w.getLsbD (p + i) := by
  rw [BitVec.getLsbD_sshiftRight, if_pos h]
  simp [show i < 32 by omega]

/-- `bitfield_u32` is the field, zero extended. -/
theorem bitfieldU32_eq (w : BitVec 32) {p n : Nat} (h : p + n ≤ 32) (hn : n < 32) :
    bitfieldU32 w p n = (w.extractLsb' p n).setWidth 32 := by
  refine BitVec.eq_of_getLsbD_eq fun i hi => ?_
  rw [bitfieldU32, BitVec.getLsbD_and, getLsbD_mask hn, BitVec.getLsbD_setWidth,
    BitVec.getLsbD_extractLsb']
  by_cases hin : i < n
  · rw [getLsbD_sshiftRight_lt w (by omega)]
    simp [hin, hi]
  · simp [hin]

/-- `bitfield_s64` is the field, sign extended. -/
theorem bitfieldS64_eq (w : BitVec 32) {p n : Nat} (h : p + n ≤ 32) (hpos : 0 < n) (hn : n < 32) :
    bitfieldS64 w p n = (w.extractLsb' p n).signExtend 64 := by
  have hmask : ∀ i < 64, (((1#32 <<< n) - 1#32).signExtend 64).getLsbD i = decide (i < n) := by
    intro i hi
    rw [BitVec.getLsbD_signExtend, BitVec.msb_eq_getLsbD_last, getLsbD_mask hn, getLsbD_mask hn]
    by_cases hin : i < n
    · simp [hin, show i < 32 by omega, hi]
    · simp [hin, show ¬ 31 < n by omega]
  -- the field, before it is shifted up and down
  have hfield : ∀ i < n, ((w.signExtend 64).sshiftRight p &&&
      ((1#32 <<< n) - 1#32).signExtend 64).getLsbD i = w.getLsbD (p + i) := by
    intro i hi
    rw [BitVec.getLsbD_and, hmask i (by omega), BitVec.getLsbD_sshiftRight,
      if_pos (by omega : p + i < 64), BitVec.getLsbD_signExtend]
    simp [hi, show p + i < 32 by omega, show i < 64 by omega, show p + i < 64 by omega]
  refine BitVec.eq_of_getLsbD_eq fun i hi => ?_
  have hmsb : (w.extractLsb' p n).msb = w.getLsbD (p + (n - 1)) := by
    rw [BitVec.msb_eq_getLsbD_last, BitVec.getLsbD_extractLsb']
    simp [show n - 1 < n by omega]
  rw [bitfieldS64, BitVec.getLsbD_sshiftRight, BitVec.getLsbD_signExtend, hmsb]
  by_cases hin : i < n
  · rw [if_pos (by omega), if_pos hin, BitVec.getLsbD_shiftLeft, BitVec.getLsbD_extractLsb',
      show 64 - n + i - (64 - n) = i by omega, hfield i hin]
    simp [hin, hi, show 64 - n + i < 64 by omega]
  · rw [if_neg (by omega), if_neg hin, BitVec.msb_eq_getLsbD_last, BitVec.getLsbD_shiftLeft,
      show 64 - 1 - (64 - n) = n - 1 by omega, hfield (n - 1) (by omega)]
    simp [hi, show ¬ 63 < 64 - n by omega]

/-- A register field. -/
theorem regField_eq (w : BitVec 32) {p : Nat} (h : p + 5 ≤ 32) :
    regField w p = (w.extractLsb' p 5).setWidth 8 := by
  rw [regField, bitfieldU32_eq w h (by decide), BitVec.setWidth_setWidth_of_le]
  decide

/-- The index of the instruction table. -/
theorem itable_index (w : BitVec 32) : (w >>> 21).toNat = (w.extractLsb' 21 11).toNat := by
  rw [BitVec.toNat_ushiftRight, BitVec.extractLsb'_toNat]
  have := w.isLt
  rw [Nat.shiftRight_eq_div_pow]
  omega

/-- The lower part of a field. -/
theorem extractLsb'_split (w : BitVec 32) (p m n : Nat) :
    (w.extractLsb' p (m + n)).toNat =
      (w.extractLsb' (p + m) n).toNat * 2 ^ m + (w.extractLsb' p m).toNat := by
  rw [BitVec.extractLsb'_toNat, BitVec.extractLsb'_toNat, BitVec.extractLsb'_toNat,
    Nat.shiftRight_add, Nat.pow_add, Nat.shiftRight_eq_div_pow _ m,
    Nat.mod_mul, Nat.mul_comm (2 ^ m), Nat.add_comm]

/-- A field of a field. -/
theorem extractLsb'_extractLsb' (w : BitVec 32) {p q m n : Nat} (h : q + m ≤ n) :
    (w.extractLsb' p n).extractLsb' q m = w.extractLsb' (p + q) m := by
  refine BitVec.eq_of_getLsbD_eq fun i hi => ?_
  rw [BitVec.getLsbD_extractLsb', BitVec.getLsbD_extractLsb', BitVec.getLsbD_extractLsb']
  simp [hi, show q + i < n by omega, Nat.add_assoc]

/-- A field in the way `fix_instr_aliases` takes it. -/
theorem ushiftRight_and_mask (w : BitVec 32) {p n : Nat} (hn : n < 32) :
    (w >>> p) &&& ((1#32 <<< n) - 1#32) = (w.extractLsb' p n).setWidth 32 := by
  refine BitVec.eq_of_getLsbD_eq fun i hi => ?_
  rw [BitVec.getLsbD_and, getLsbD_mask hn, BitVec.getLsbD_ushiftRight, BitVec.getLsbD_setWidth,
    BitVec.getLsbD_extractLsb']
  simp [hi, Bool.and_comm]

/-! ## The architecture's registers -/

/-- The flag byte that holds four flags. -/
def packFlags (f : A64.Flags) : BitVec 8 := PACK_CC f.n f.z f.c f.v

/-- The architecture's view of the register file and the flags. -/
def archState (r : Regs) (f : A64.Flags) : A64.State :=
  { x := fun n => r.GPR (n.setWidth 8)
    sp := r.SP
    flags := f }

/-- The registers after a register is written. -/
def archWrite (r : Regs) (v : Word) : Option A64.Dest → Regs
  | none => r
  | some (.x n) => { r with GPR := Function.update r.GPR (n.setWidth 8) v }
  | some .sp => { r with SP := v }

theorem setWidth_eq_SP (n : BitVec 5) : n.setWidth 8 = SP_NUM ↔ n = 31#5 := by
  revert n
  decide

theorem setWidth_lt_SP {n : BitVec 5} (h : n ≠ 31#5) : n.setWidth 8 < SP_NUM := by
  revert n
  decide

theorem setWidth_ne_XZR (n : BitVec 5) : n.setWidth 8 ≠ XZR_NUM := by
  revert n
  decide

section
variable (l : Locals) (r : Regs) (f : A64.Flags)

/-- A field that `fix_regs` leaves alone names the stack pointer by 31. -/
theorem readPort_field (n : BitVec 5) : readPort l r (n.setWidth 8) = (archState r f).xsp n := by
  rw [readPort, if_neg (setWidth_ne_XZR n), A64.State.xsp]
  by_cases h : n = 31#5
  · rw [if_pos h, if_pos ((setWidth_eq_SP n).mpr h)]
    rfl
  · rw [if_neg h, if_neg (fun h' => h ((setWidth_eq_SP n).mp h')),
      if_pos (show n.setWidth 8 < 31#8 from setWidth_lt_SP h)]
    rfl

/-- A field that `fix_regs` changes names the zero register by 31. -/
theorem readPort_spToXzr (n : BitVec 5) :
    readPort l r (spToXzr (n.setWidth 8)) = (archState r f).xzr n := by
  rw [spToXzr, A64.State.xzr]
  by_cases h : n = 31#5
  · rw [if_pos h, if_pos ((setWidth_eq_SP n).mpr h)]
    rfl
  · rw [if_neg h, if_neg (fun h' => h ((setWidth_eq_SP n).mp h')), readPort_field l r f,
      A64.State.xsp, if_neg h]

theorem regfileWrite_field (n : BitVec 5) (v : Word) :
    regfileWrite r (n.setWidth 8) v true = archWrite r v (A64.Dest.ofXsp n) := by
  rw [regfileWrite, if_pos rfl, A64.Dest.ofXsp]
  by_cases h : n = 31#5
  · subst h
    rfl
  · rw [if_pos (setWidth_lt_SP h), if_neg h]
    rfl

theorem regfileWrite_spToXzr (n : BitVec 5) (v : Word) :
    regfileWrite r (spToXzr (n.setWidth 8)) v true = archWrite r v (A64.Dest.ofXzr n) := by
  rw [spToXzr, A64.Dest.ofXzr]
  by_cases h : n = 31#5
  · subst h
    rfl
  · rw [if_neg (fun h' => h ((setWidth_eq_SP n).mp h')), if_neg h, regfileWrite_field,
      A64.Dest.ofXsp, if_neg h]

end

/-! ## One instruction through the tables and stages -/

/-- What decode passes to execute for a word fetched alone from `pc`. -/
def decodedAlone (ec : Bool) (l : Locals) (r : Regs) (pc : Word) (w : BitVec 32) : XInstr :=
  (decode ec l r (fetchedInstr ec pc w false)).1

/-- What execute passes on for a word fetched alone from `pc`. -/
def executedAlone (ec : Bool) (l : Locals) (rca : Rca) (r : Regs) (nzcv : BitVec 8) (pc : Word)
    (w : BitVec 32) : MInstr :=
  execute ec rca nzcv (decodedAlone ec l r pc w)

/-- The flags after a word fetched alone from `pc`. -/
def flagsAlone (ec : Bool) (l : Locals) (rca : Rca) (r : Regs) (nzcv : BitVec 8) (pc : Word)
    (w : BitVec 32) : BitVec 8 :=
  (executeAlu rca nzcv (decodedAlone ec l r pc w)).nzcv

/-- An executed instruction and the flags after it do what the architecture says: the register
write-back would change, the value or the address, the load, the store and the flags. -/
structure Performs (m : MInstr) (nzcv : BitVec 8) (e : A64.Effect) : Prop where
  status : m.status = .aok
  link : m.wSigs.dstSel = false
  write : ∀ r v, regfileWrite r m.dst v m.wSigs.wEnable = archWrite r v e.dst
  result : m.valEx = e.result
  load : m.mSigs.dmemRead = e.load
  loaded : m.wSigs.wvalSel = e.load
  store : m.mSigs.dmemWrite = e.store.isSome
  stored : ∀ v, e.store = some v → m.valB = v
  flags : nzcv = packFlags e.flags

theorem predictPC_snd (ec : Bool) (pc : Word) (w : BitVec 32) (op : Opcode) :
    (predictPC ec pc w op).2 = pc + 4 := by
  unfold predictPC
  split_ifs <;> rfl

/-- No two ranges of the table overlap. -/
theorem itableEntries_disjoint (ec : Bool) : ∀ e ∈ itableEntries ec, ∀ e' ∈ itableEntries ec,
    e.2.1 ≤ e'.2.2 → e'.2.1 ≤ e.2.2 → e = e' := by
  cases ec <;> decide

/-- The table holds an entry over its whole range. -/
theorem itable_of_mem {ec : Bool} {op : Opcode} {lo hi idx : Nat}
    (h : (op, lo, hi) ∈ itableEntries ec) (hlo : lo ≤ idx) (hhi : idx ≤ hi) :
    itable ec idx = op := by
  have hex : (itableEntries ec).find? (fun e => e.2.1 ≤ idx && idx ≤ e.2.2) ≠ none := by
    rw [Ne, List.find?_eq_none, not_forall]
    exact ⟨_, fun hnot => hnot h (by simp [hlo, hhi])⟩
  obtain ⟨e, he⟩ := Option.ne_none_iff_exists'.mp hex
  have hmem := List.mem_of_find?_eq_some he
  have hrange := List.find?_some he
  rw [Bool.and_eq_true, decide_eq_true_eq, decide_eq_true_eq] at hrange
  have heq := itableEntries_disjoint ec _ hmem _ h (le_trans hrange.1 hhi) (le_trans hlo hrange.2)
  rw [itable, he, heq]

/-- The decoded form of a word whose index lies in a range of the table. -/
theorem fetchedInstr_eq (ec : Bool) (pc : Word) {w : BitVec 32} {op0 : Opcode} {lo hi : Nat}
    (h : (op0, lo, hi) ∈ itableEntries ec) (hlo : lo ≤ (w.extractLsb' 21 11).toNat)
    (hhi : (w.extractLsb' 21 11).toNat ≤ hi) (op : Opcode) (hop : fixInstrAliases ec w op0 = op)
    (hne : op0 ≠ .error) (hne' : op ≠ .error ∧ op ≠ .hlt) :
    fetchedInstr ec pc w false = ⟨w, op, ftable ec op0, pc + 4, .aok⟩ := by
  have h0 : itable ec (w >>> 21).toNat = op0 := by
    rw [itable_index]
    exact itable_of_mem h hlo hhi
  rw [fetchedInstr, h0, hop, predictPC_snd, if_pos hne, fetchStatus,
    if_neg (not_or.mpr ⟨Bool.false_ne_true, hne'.1⟩), if_neg hne'.2]

/-- The decoded form of an instruction that is neither a `NOP` nor a `BLR`. -/
theorem decodedAlone_eq {ec : Bool} {l : Locals} {r : Regs} {pc : Word} {w : BitVec 32}
    {op : Opcode} {fmt : Format} (h : fetchedInstr ec pc w false = ⟨w, op, fmt, pc + 4, .aok⟩)
    {sigs : XSigs × MSigs × WSigs} (hsigs : generateDXMWControl ec op = sigs)
    {n : RegNums} (hregs : extractRegs ec l w op fmt = n) (hop : op ≠ .nop ∧ op ≠ .blr) :
    decodedAlone ec l r pc w =
      { op := op
        seqSuccPC := pc + 4
        xSigs := sigs.1
        mSigs := sigs.2.1
        wSigs := sigs.2.2
        aluOp := decideAluOp ec op
        cond := decodeCond ec w op
        valA := readPort l r n.src1
        valB := readPort l r n.src2
        valImm := extractImmval ec w op
        valHw := (bitfieldU32 w 21 2 <<< 4).setWidth 8
        dst := n.dst
        status := .aok } := by
  simp [decodedAlone, h, decode, hsigs, hregs, regfileRead, hop.1, hop.2]

/-! ## The registers of each format -/

section
variable (ec : Bool) (l : Locals) (w : BitVec 32)

theorem spToXzr_XZR_NUM : spToXzr XZR_NUM = XZR_NUM := rfl

/-- Where `fix_regs` reads every 31 as the zero register. -/
theorem fixRegs_all {op : Opcode} (h : op ≠ .ldur ∧ op ≠ .stur ∧ op ≠ .addRI ∧ op ≠ .subRI)
    (n : RegNums) : fixRegs op n = ⟨spToXzr n.src1, spToXzr n.src2, spToXzr n.dst⟩ := by
  obtain ⟨h1, h2, h3, h4⟩ := h
  cases op
  case ldur => exact absurd rfl h1
  case stur => exact absurd rfl h2
  case addRI => exact absurd rfl h3
  case subRI => exact absurd rfl h4
  all_goals rfl

theorem extractRegs_rr {op : Opcode} (h : op ≠ .ldur ∧ op ≠ .stur ∧ op ≠ .addRI ∧ op ≠ .subRI) :
    extractRegs ec l w op .rr =
      ⟨spToXzr ((A64.rn w).setWidth 8), spToXzr ((A64.rm w).setWidth 8),
        spToXzr ((A64.rd w).setWidth 8)⟩ := by
  rw [extractRegs, fixRegs_all h]
  simp only [extractRegsTable, formatRR, regField_eq w (by decide : 5 + 5 ≤ 32),
    regField_eq w (by decide : 16 + 5 ≤ 32), regField_eq w (by decide : 0 + 5 ≤ 32)]

theorem extractRegs_ri {op : Opcode} (h : op ≠ .ldur ∧ op ≠ .stur ∧ op ≠ .addRI ∧ op ≠ .subRI) :
    extractRegs ec l w op .ri =
      ⟨spToXzr ((A64.rn w).setWidth 8), XZR_NUM, spToXzr ((A64.rd w).setWidth 8)⟩ := by
  rw [extractRegs, fixRegs_all h]
  simp only [extractRegsTable, formatRI, regField_eq w (by decide : 5 + 5 ≤ 32),
    regField_eq w (by decide : 0 + 5 ≤ 32), spToXzr_XZR_NUM]

/-- Additions and subtractions of an immediate work on the stack pointer. -/
theorem extractRegs_ri_sp {op : Opcode} (h : op = .addRI ∨ op = .subRI) :
    extractRegs ec l w op .ri =
      ⟨(A64.rn w).setWidth 8, XZR_NUM, (A64.rd w).setWidth 8⟩ := by
  rw [← regField_eq w (by decide : 5 + 5 ≤ 32), ← regField_eq w (by decide : 0 + 5 ≤ 32)]
  rcases h with rfl | rfl <;> rfl

theorem extractRegs_ldur :
    extractRegs ec l w .ldur .m =
      ⟨(A64.rn w).setWidth 8, XZR_NUM, spToXzr ((A64.rd w).setWidth 8)⟩ := by
  rw [← regField_eq w (by decide : 5 + 5 ≤ 32), ← regField_eq w (by decide : 0 + 5 ≤ 32)]
  rfl

theorem extractRegs_stur :
    extractRegs ec l w .stur .m =
      ⟨(A64.rn w).setWidth 8, spToXzr ((A64.rd w).setWidth 8), XZR_NUM⟩ := by
  rw [← regField_eq w (by decide : 5 + 5 ≤ 32), ← regField_eq w (by decide : 0 + 5 ≤ 32)]
  rfl

theorem extractRegs_movz :
    extractRegs ec l w .movz .i1 = ⟨XZR_NUM, XZR_NUM, spToXzr ((A64.rd w).setWidth 8)⟩ := by
  rw [← regField_eq w (by decide : 0 + 5 ≤ 32)]
  rfl

theorem extractRegs_movk :
    extractRegs ec l w .movk .i1 =
      ⟨spToXzr ((A64.rd w).setWidth 8), XZR_NUM, spToXzr ((A64.rd w).setWidth 8)⟩ := by
  rw [← regField_eq w (by decide : 0 + 5 ≤ 32)]
  rfl

theorem extractRegs_select {op : Opcode}
    (h : op = .csel ∨ op = .csinc ∨ op = .csinv ∨ op = .csneg) :
    extractRegs true l w op .ec =
      ⟨spToXzr ((A64.rn w).setWidth 8), spToXzr ((A64.rm w).setWidth 8),
        spToXzr ((A64.rd w).setWidth 8)⟩ := by
  rw [← regField_eq w (by decide : 5 + 5 ≤ 32), ← regField_eq w (by decide : 16 + 5 ≤ 32),
    ← regField_eq w (by decide : 0 + 5 ≤ 32)]
  rcases h with rfl | rfl | rfl | rfl <;> rfl

end

/-! ## Immediates, shift amounts and conditions -/

theorem bitfieldU32_setWidth (w : BitVec 32) {p n : Nat} (h : p + n ≤ 32) (hn : n < 32) :
    (bitfieldU32 w p n).setWidth 64 = (w.extractLsb' p n).setWidth 64 := by
  have hlt : (w.extractLsb' p n).toNat < 2 ^ 32 :=
    lt_of_lt_of_le (w.extractLsb' p n).isLt (Nat.pow_le_pow_right (by decide) (by omega))
  apply BitVec.eq_of_toNat_eq
  rw [bitfieldU32_eq w h hn, BitVec.toNat_setWidth, BitVec.toNat_setWidth, BitVec.toNat_setWidth,
    Nat.mod_eq_of_lt hlt]

/-- The shift amount of a `MOVZ` or `MOVK`. -/
theorem valHw_toNat (w : BitVec 32) :
    ((bitfieldU32 w 21 2 <<< 4).setWidth 8).toNat = 16 * (w.extractLsb' 21 2).toNat := by
  rw [bitfieldU32_eq w (by decide) (by decide)]
  generalize w.extractLsb' 21 2 = hw
  revert hw
  decide

/-- The shift amount the ALU takes from an operand. -/
theorem toNat_and_3F (x : Word) : (x &&& 0x3F#64).toNat = x.toNat % 64 := by
  rw [BitVec.toNat_and]
  exact Nat.and_two_pow_sub_one_eq_mod x.toNat 6

/-- The shift amount of `LSR` and `ASR`. -/
theorem immr_shift (w : BitVec 32) :
    ((bitfieldU32 w 16 6).setWidth 64 &&& 0x3F#64).toNat = (w.extractLsb' 16 6).toNat := by
  rw [bitfieldU32_setWidth w (by decide) (by decide), toNat_and_3F, BitVec.toNat_setWidth]
  have := (w.extractLsb' 16 6).isLt
  omega

/-- The shift amount of `LSL`. -/
theorem immr_lsl {w : BitVec 32} {shift : BitVec 6} (h : w.extractLsb' 16 6 = -shift) :
    ((64#64 - ((bitfieldU32 w 16 6).setWidth 8).setWidth 64) &&& 0x3F#64).toNat = shift.toNat := by
  rw [bitfieldU32_eq w (by decide) (by decide), h]
  clear h
  revert shift
  decide

/-- The condition decoder agrees with the architecture. -/
theorem condHolds_packFlags (c : BitVec 4) (f : A64.Flags) :
    condHolds (.ofBits (c.setWidth 32)) (packFlags f) = A64.conditionHolds c f := by
  obtain ⟨n, z, cf, v⟩ := f
  revert c
  cases n <;> cases z <;> cases cf <;> cases v <;> decide

/-! ## Instruction by instruction -/

section
variable (ec : Bool) (l : Locals) (rca : Rca) (r : Regs) (f : A64.Flags) (pc : Word)
variable {w : BitVec 32}

/-- Execute passes on the ALU's result, but for `BLR`. -/
theorem execute_valEx {ec : Bool} {rca : Rca} {nzcv : BitVec 8} {x : XInstr} (h : x.op ≠ .blr) :
    (execute ec rca nzcv x).valEx = (executeAlu rca nzcv x).valE := by
  rw [execute, if_neg (fun h' => h h'.2)]

/-- What is left to check for an instruction that only writes a register and the flags. -/
theorem performs_alu {ec : Bool} {l : Locals} {rca : Rca} {r : Regs} {nzcv : BitVec 8} {pc : Word}
    {op : Opcode} {fmt : Format} (hd : fetchedInstr ec pc w false = ⟨w, op, fmt, pc + 4, .aok⟩)
    (hop : op ≠ .nop ∧ op ≠ .blr) {valb set enable : Bool}
    (hsigs : generateDXMWControl ec op =
      (⟨false, valb, set⟩, ⟨false, false⟩, ⟨false, false, enable⟩))
    {n : RegNums} (hregs : extractRegs ec l w op fmt = n)
    {dst : Option A64.Dest} (hwrite : ∀ r v, regfileWrite r n.dst v enable = archWrite r v dst)
    {a b : Word} (ha : readPort l r n.src1 = a)
    (hb : (if valb then readPort l r n.src2 else extractImmval ec w op) = b)
    {result : Word} {flags : A64.Flags}
    (hres : (alu rca a b ((bitfieldU32 w 21 2 <<< 4).setWidth 8) nzcv (decideAluOp ec op) set
      (decodeCond ec w op) nzcv).valE = result)
    (hflags : (alu rca a b ((bitfieldU32 w 21 2 <<< 4).setWidth 8) nzcv (decideAluOp ec op) set
      (decodeCond ec w op) nzcv).nzcv = packFlags flags) :
    Performs (executedAlone ec l rca r nzcv pc w) (flagsAlone ec l rca r nzcv pc w)
      ⟨dst, result, false, none, flags⟩ := by
  have hx := decodedAlone_eq hd hsigs hregs hop (r := r)
  subst ha hb
  rw [executedAlone, flagsAlone, hx]
  refine ⟨rfl, rfl, hwrite, ?_, rfl, rfl, rfl, (fun _ h => nomatch h), hflags⟩
  rw [execute_valEx hop.2]
  exact hres

theorem performs_ldur (hop : w.extractLsb' 21 11 = 0b11111000010#11) :
    Performs (executedAlone ec l rca r (packFlags f) pc w) (flagsAlone ec l rca r (packFlags f) pc w)
      (A64.Instr.effect (archState r f) (.ldur (A64.rd w) (A64.rn w) (w.extractLsb' 12 9))) := by
  have hmem : (Opcode.ldur, 0x7c2, 0x7c2) ∈ itableEntries ec := by cases ec <;> decide
  have hd := fetchedInstr_eq ec pc hmem (by rw [hop]; decide) (by rw [hop]; decide) .ldur rfl
    (by decide) (by decide)
  have hsigs : generateDXMWControl ec .ldur =
      (⟨false, false, false⟩, ⟨true, false⟩, ⟨false, true, true⟩) := by cases ec <;> rfl
  have hx := decodedAlone_eq hd hsigs (extractRegs_ldur ec l w) (by decide) (r := r)
  rw [executedAlone, flagsAlone, hx]
  refine ⟨rfl, rfl, fun r v => regfileWrite_spToXzr r _ v, ?_, rfl, rfl, rfl,
    (fun _ h => nomatch h), rfl⟩
  rw [execute_valEx (show Opcode.ldur ≠ .blr by decide)]
  show (alu rca (readPort l r ((A64.rn w).setWidth 8)) (bitfieldS64 w 12 9) _ _ .plus _ _ _).valE =
    (archState r f).xsp (A64.rn w) + (w.extractLsb' 12 9).signExtend 64
  rw [alu_plus, readPort_field l r f, bitfieldS64_eq w (by decide) (by decide) (by decide)]

theorem performs_stur (hop : w.extractLsb' 21 11 = 0b11111000000#11) :
    Performs (executedAlone ec l rca r (packFlags f) pc w) (flagsAlone ec l rca r (packFlags f) pc w)
      (A64.Instr.effect (archState r f) (.stur (A64.rd w) (A64.rn w) (w.extractLsb' 12 9))) := by
  have hmem : (Opcode.stur, 0x7c0, 0x7c0) ∈ itableEntries ec := by cases ec <;> decide
  have hd := fetchedInstr_eq ec pc hmem (by rw [hop]; decide) (by rw [hop]; decide) .stur rfl
    (by decide) (by decide)
  have hsigs : generateDXMWControl ec .stur =
      (⟨false, false, false⟩, ⟨false, true⟩, ⟨false, false, false⟩) := by cases ec <;> rfl
  have hx := decodedAlone_eq hd hsigs (extractRegs_stur ec l w) (by decide) (r := r)
  rw [executedAlone, flagsAlone, hx]
  refine ⟨rfl, rfl, fun r v => rfl, ?_, rfl, rfl, rfl, ?_, rfl⟩
  · rw [execute_valEx (show Opcode.stur ≠ .blr by decide)]
    show (alu rca (readPort l r ((A64.rn w).setWidth 8)) (bitfieldS64 w 12 9) _ _ .plus _ _ _).valE =
      (archState r f).xsp (A64.rn w) + (w.extractLsb' 12 9).signExtend 64
    rw [alu_plus, readPort_field l r f, bitfieldS64_eq w (by decide) (by decide) (by decide)]
  · intro v hv
    rw [← Option.some.inj hv]
    exact readPort_spToXzr l r f (A64.rd w)

/-- The index of a word whose first `n` bits are known. -/
theorem index_of_opcode {m n : Nat} (hmn : m + n = 11) {c : BitVec n}
    (h : w.extractLsb' (21 + m) n = c) :
    c.toNat * 2 ^ m ≤ (w.extractLsb' 21 11).toNat ∧
      (w.extractLsb' 21 11).toNat ≤ c.toNat * 2 ^ m + (2 ^ m - 1) := by
  have hsplit : (w.extractLsb' 21 11).toNat = c.toNat * 2 ^ m + (w.extractLsb' 21 m).toNat := by
    rw [← h, ← extractLsb'_split w 21 m n, hmn]
  have hlow := (w.extractLsb' 21 m).isLt
  omega

theorem performs_movz (hop : w.extractLsb' 23 9 = 0b110100101#9) :
    Performs (executedAlone ec l rca r (packFlags f) pc w) (flagsAlone ec l rca r (packFlags f) pc w)
      (A64.Instr.effect (archState r f)
        (.movz (A64.rd w) (w.extractLsb' 5 16) (w.extractLsb' 21 2))) := by
  have hmem : (Opcode.movz, 0x694, 0x697) ∈ itableEntries ec := by cases ec <;> decide
  obtain ⟨hlo, hhi⟩ := index_of_opcode (m := 2) rfl hop
  have hd := fetchedInstr_eq ec pc hmem hlo hhi .movz rfl (by decide) (by decide)
  have hsigs : generateDXMWControl ec .movz =
      (⟨false, false, false⟩, ⟨false, false⟩, ⟨false, false, true⟩) := by cases ec <;> rfl
  refine performs_alu hd (by decide) hsigs (extractRegs_movz ec l w)
    (fun r v => regfileWrite_spToXzr r _ v) rfl rfl ?_ rfl
  show 0#64 ||| (bitfieldU32 w 5 16).setWidth 64 <<< ((bitfieldU32 w 21 2 <<< 4).setWidth 8).toNat = _
  rw [BitVec.zero_or, valHw_toNat, bitfieldU32_setWidth w (by decide) (by decide)]

theorem performs_movk (hop : w.extractLsb' 23 9 = 0b111100101#9) :
    Performs (executedAlone ec l rca r (packFlags f) pc w) (flagsAlone ec l rca r (packFlags f) pc w)
      (A64.Instr.effect (archState r f)
        (.movk (A64.rd w) (w.extractLsb' 5 16) (w.extractLsb' 21 2))) := by
  have hmem : (Opcode.movk, 0x794, 0x797) ∈ itableEntries ec := by cases ec <;> decide
  obtain ⟨hlo, hhi⟩ := index_of_opcode (m := 2) rfl hop
  have hd := fetchedInstr_eq ec pc hmem hlo hhi .movk rfl (by decide) (by decide)
  have hsigs : generateDXMWControl ec .movk =
      (⟨false, false, false⟩, ⟨false, false⟩, ⟨false, false, true⟩) := by cases ec <;> rfl
  refine performs_alu hd (by decide) hsigs (extractRegs_movk ec l w)
    (fun r v => regfileWrite_spToXzr r _ v) (readPort_spToXzr l r f _) rfl ?_ rfl
  show _ &&& ~~~(0xffff#64 <<< ((bitfieldU32 w 21 2 <<< 4).setWidth 8).toNat) |||
    (bitfieldU32 w 5 16).setWidth 64 <<< ((bitfieldU32 w 21 2 <<< 4).setWidth 8).toNat = _
  rw [valHw_toNat, bitfieldU32_setWidth w (by decide) (by decide)]

theorem performs_addImm (hop : w.extractLsb' 22 10 = 0b1001000100#10) :
    Performs (executedAlone ec l rca r (packFlags f) pc w) (flagsAlone ec l rca r (packFlags f) pc w)
      (A64.Instr.effect (archState r f) (.addImm (A64.rd w) (A64.rn w) (w.extractLsb' 10 12))) := by
  have hmem : (Opcode.addRI, 0x488, 0x489) ∈ itableEntries ec := by cases ec <;> decide
  obtain ⟨hlo, hhi⟩ := index_of_opcode (m := 1) rfl hop
  have hd := fetchedInstr_eq ec pc hmem hlo hhi .addRI rfl (by decide) (by decide)
  have hsigs : generateDXMWControl ec .addRI =
      (⟨false, false, false⟩, ⟨false, false⟩, ⟨false, false, true⟩) := by cases ec <;> rfl
  refine performs_alu hd (by decide) hsigs (extractRegs_ri_sp ec l w (.inl rfl))
    (fun r v => regfileWrite_field r _ v) (readPort_field l r f _)
    (bitfieldU32_setWidth w (by decide) (by decide)) ?_ rfl
  rw [A64.addWithCarry_fst]
  show (alu _ _ _ _ _ .plus _ _ _).valE = _
  rw [alu_plus]
  exact (BitVec.add_zero _).symm

theorem performs_subImm (hop : w.extractLsb' 22 10 = 0b1101000100#10) :
    Performs (executedAlone ec l rca r (packFlags f) pc w) (flagsAlone ec l rca r (packFlags f) pc w)
      (A64.Instr.effect (archState r f) (.subImm (A64.rd w) (A64.rn w) (w.extractLsb' 10 12))) := by
  have hmem : (Opcode.subRI, 0x688, 0x689) ∈ itableEntries ec := by cases ec <;> decide
  obtain ⟨hlo, hhi⟩ := index_of_opcode (m := 1) rfl hop
  have hd := fetchedInstr_eq ec pc hmem hlo hhi .subRI rfl (by decide) (by decide)
  have hsigs : generateDXMWControl ec .subRI =
      (⟨false, false, false⟩, ⟨false, false⟩, ⟨false, false, true⟩) := by cases ec <;> rfl
  refine performs_alu hd (by decide) hsigs (extractRegs_ri_sp ec l w (.inr rfl))
    (fun r v => regfileWrite_field r _ v) (readPort_field l r f _)
    (bitfieldU32_setWidth w (by decide) (by decide)) ?_ rfl
  rw [A64.addWithCarry_fst]
  show (alu _ _ _ _ _ .minus _ _ _).valE = _
  rw [alu_minus, BitVec.sub_eq_add_neg, BitVec.neg_eq_not_add, ← BitVec.add_assoc]
  rfl

/-- Bits 15 to 10 of a bit-field move. -/
theorem ushiftRight_imms (w : BitVec 32) :
    (w >>> 10) &&& 0x3F#32 = (w.extractLsb' 10 6).setWidth 32 :=
  ushiftRight_and_mask w (n := 6) (by decide)

/-- An `UBFM` is taken for a shift to the right if its field ends in the uppermost bit. -/
theorem fixInstrAliases_ubfm (ec : Bool) (w : BitVec 32) :
    fixInstrAliases ec w .ubfm = if w.extractLsb' 10 6 = 63#6 then .lsrRI else .lslRI := by
  have hones : ∀ imms : BitVec 6, imms.setWidth 32 = 63#32 ↔ imms = 63#6 := by decide
  rw [fixInstrAliases, ushiftRight_imms]
  simp only [hones]

/-- Of the opcode of a variable shift only the last bit is looked at. -/
theorem fixInstrAliases_ubfmv (ec : Bool) (w : BitVec 32) :
    fixInstrAliases ec w .ubfmv = if w.extractLsb' 10 1 = 1#1 then .lsrRR else .lslRR := by
  have hbit : ∀ x : BitVec 1, x.setWidth 32 ≠ 0#32 ↔ x = 1#1 := by decide
  have hmask : (w >>> 10) &&& 0x1#32 = (w.extractLsb' 10 1).setWidth 32 :=
    ushiftRight_and_mask w (n := 1) (by decide)
  rw [fixInstrAliases, hmask]
  simp only [hbit]

theorem performs_lsrImm (hop : w.extractLsb' 22 10 = 0b1101001101#10)
    (himms : w.extractLsb' 10 6 = 63#6) :
    Performs (executedAlone ec l rca r (packFlags f) pc w) (flagsAlone ec l rca r (packFlags f) pc w)
      (A64.Instr.effect (archState r f) (.lsrImm (A64.rd w) (A64.rn w) (w.extractLsb' 16 6))) := by
  have hmem : (Opcode.ubfm, 0x69a, 0x69b) ∈ itableEntries ec := by cases ec <;> decide
  obtain ⟨hlo, hhi⟩ := index_of_opcode (m := 1) rfl hop
  have halias : fixInstrAliases ec w .ubfm = .lsrRI := by rw [fixInstrAliases_ubfm, if_pos himms]
  have hd := fetchedInstr_eq ec pc hmem hlo hhi .lsrRI halias (by decide) (by decide)
  have hsigs : generateDXMWControl ec .lsrRI =
      (⟨false, false, false⟩, ⟨false, false⟩, ⟨false, false, true⟩) := by cases ec <;> rfl
  refine performs_alu hd (by decide) hsigs (extractRegs_ri ec l w (by decide))
    (fun r v => regfileWrite_spToXzr r _ v) (readPort_spToXzr l r f _) rfl ?_ rfl
  show (_ : Word) >>> ((bitfieldU32 w 16 6).setWidth 64 &&& 0x3F#64).toNat = _
  rw [immr_shift]

/-- Whatever field it ends in, an `UBFM` that is not taken for a shift to the right is taken for
one to the left. -/
theorem performs_ubfmLsl (hop : w.extractLsb' 22 10 = 0b1101001101#10)
    (himms : w.extractLsb' 10 6 ≠ 63#6) :
    Performs (executedAlone ec l rca r (packFlags f) pc w) (flagsAlone ec l rca r (packFlags f) pc w)
      (A64.Instr.effect (archState r f)
        (.lslImm (A64.rd w) (A64.rn w) (-w.extractLsb' 16 6))) := by
  have hmem : (Opcode.ubfm, 0x69a, 0x69b) ∈ itableEntries ec := by cases ec <;> decide
  obtain ⟨hlo, hhi⟩ := index_of_opcode (m := 1) rfl hop
  have halias : fixInstrAliases ec w .ubfm = .lslRI := by rw [fixInstrAliases_ubfm, if_neg himms]
  have hd := fetchedInstr_eq ec pc hmem hlo hhi .lslRI halias (by decide) (by decide)
  have hsigs : generateDXMWControl ec .lslRI =
      (⟨false, false, false⟩, ⟨false, false⟩, ⟨false, false, true⟩) := by cases ec <;> rfl
  refine performs_alu hd (by decide) hsigs (extractRegs_ri ec l w (by decide))
    (fun r v => regfileWrite_spToXzr r _ v) (readPort_spToXzr l r f _) rfl ?_ rfl
  show (_ : Word) <<< ((64#64 - ((bitfieldU32 w 16 6).setWidth 8).setWidth 64) &&& 0x3F#64).toNat = _
  rw [immr_lsl BitVec.neg_neg.symm]

theorem performs_lslImm {shift : BitVec 6} (hop : w.extractLsb' 22 10 = 0b1101001101#10)
    (himmr : w.extractLsb' 16 6 = -shift) (himms : w.extractLsb' 10 6 = 63#6 - shift) :
    Performs (executedAlone ec l rca r (packFlags f) pc w) (flagsAlone ec l rca r (packFlags f) pc w)
      (A64.Instr.effect (archState r f) (.lslImm (A64.rd w) (A64.rn w) shift)) := by
  by_cases hzero : shift = 0#6
  · -- a shift by nothing has the encoding of `LSR`
    subst hzero
    have hlsr := performs_lsrImm ec l rca r f pc hop himms
    have hsame : A64.Instr.effect (archState r f) (.lslImm (A64.rd w) (A64.rn w) 0#6) =
        A64.Instr.effect (archState r f) (.lsrImm (A64.rd w) (A64.rn w) (-0#6)) := by
      show A64.Effect.mk _ ((_ : Word) <<< 0) _ _ _ = A64.Effect.mk _ ((_ : Word) >>> 0) _ _ _
      rw [BitVec.shiftLeft_zero, BitVec.ushiftRight_zero]
    rw [himmr, ← hsame] at hlsr
    exact hlsr
  · have hne : w.extractLsb' 10 6 ≠ 63#6 := by
      rw [himms]
      bv_omega
    have hlsl := performs_ubfmLsl ec l rca r f pc hop hne
    rw [himmr, BitVec.neg_neg] at hlsl
    exact hlsl

theorem performs_asrImm (hop : w.extractLsb' 22 10 = 0b1001001101#10) :
    Performs (executedAlone ec l rca r (packFlags f) pc w) (flagsAlone ec l rca r (packFlags f) pc w)
      (A64.Instr.effect (archState r f) (.asrImm (A64.rd w) (A64.rn w) (w.extractLsb' 16 6))) := by
  have hmem : (Opcode.asr, 0x49a, 0x49b) ∈ itableEntries ec := by cases ec <;> decide
  obtain ⟨hlo, hhi⟩ := index_of_opcode (m := 1) rfl hop
  have hd := fetchedInstr_eq ec pc hmem hlo hhi .asr rfl (by decide) (by decide)
  have hsigs : generateDXMWControl ec .asr =
      (⟨false, false, false⟩, ⟨false, false⟩, ⟨false, false, true⟩) := by cases ec <;> rfl
  refine performs_alu hd (by decide) hsigs (extractRegs_ri ec l w (by decide))
    (fun r v => regfileWrite_spToXzr r _ v) (readPort_spToXzr l r f _) rfl ?_ rfl
  show BitVec.sshiftRight _ ((bitfieldU32 w 16 6).setWidth 64 &&& 0x3F#64).toNat = _
  rw [immr_shift]

theorem performs_shiftv (op : A64.ShiftOp) (hop : w.extractLsb' 21 11 = 0b10011010110#11)
    (hop2 : w.extractLsb' 10 1 = op.opcode.extractLsb' 0 1) :
    Performs (executedAlone ec l rca r (packFlags f) pc w) (flagsAlone ec l rca r (packFlags f) pc w)
      (A64.Instr.effect (archState r f) (.shiftv op (A64.rd w) (A64.rn w) (A64.rm w))) := by
  have hmem : (Opcode.ubfmv, 0x4d6, 0x4d6) ∈ itableEntries ec := by cases ec <;> decide
  cases op with
  | lslv =>
      have halias : fixInstrAliases ec w .ubfmv = .lslRR := by
        rw [fixInstrAliases_ubfmv, hop2, if_neg (by decide)]
      have hd := fetchedInstr_eq ec pc hmem (by rw [hop]; decide) (by rw [hop]; decide) .lslRR
        halias (by decide) (by decide)
      have hsigs : generateDXMWControl ec .lslRR =
          (⟨false, true, false⟩, ⟨false, false⟩, ⟨false, false, true⟩) := by cases ec <;> rfl
      refine performs_alu hd (by decide) hsigs (extractRegs_rr ec l w (by decide))
        (fun r v => regfileWrite_spToXzr r _ v) (readPort_spToXzr l r f _)
        (readPort_spToXzr l r f _) ?_ rfl
      show (_ : Word) <<< (_ &&& 0x3F#64).toNat = _
      rw [toNat_and_3F]
      rfl
  | lsrv =>
      have halias : fixInstrAliases ec w .ubfmv = .lsrRR := by
        rw [fixInstrAliases_ubfmv, hop2, if_pos (by decide)]
      have hd := fetchedInstr_eq ec pc hmem (by rw [hop]; decide) (by rw [hop]; decide) .lsrRR
        halias (by decide) (by decide)
      have hsigs : generateDXMWControl ec .lsrRR =
          (⟨false, true, false⟩, ⟨false, false⟩, ⟨false, false, true⟩) := by cases ec <;> rfl
      refine performs_alu hd (by decide) hsigs (extractRegs_rr ec l w (by decide))
        (fun r v => regfileWrite_spToXzr r _ v) (readPort_spToXzr l r f _)
        (readPort_spToXzr l r f _) ?_ rfl
      show (_ : Word) >>> (_ &&& 0x3F#64).toNat = _
      rw [toNat_and_3F]
      rfl

/-! ### Operations on two registers -/

/-- The entry of the instruction table for an operation on two registers. -/
def rrEntry : A64.RROp → Opcode
  | .adds => .addsRR
  | .subs => .subsRR
  | .ands => .andsRR
  | .orr => .orrRR
  | .eor => .eorRR
  | .orn => .mvn

/-- The entry's index, without a shift. -/
def rrIndex : A64.RROp → Nat
  | .adds => 0x558
  | .subs => 0x758
  | .ands => 0x750
  | .orr => 0x550
  | .eor => 0x650
  | .orn => 0x551

theorem rrEntry_mem (op : A64.RROp) : (rrEntry op, rrIndex op, rrIndex op) ∈ itableEntries ec := by
  cases ec <;> cases op <;> decide

theorem index_of_rr {op : A64.RROp} (hop : (w.extractLsb' 24 8, w.extractLsb' 21 1) = op.opcode)
    (hshift : w.extractLsb' 22 2 = 0#2) : (w.extractLsb' 21 11).toNat = rrIndex op := by
  have hsplit : (w.extractLsb' 21 11).toNat =
      (w.extractLsb' 24 8).toNat * 2 ^ 3 + (w.extractLsb' 21 3).toNat := extractLsb'_split w 21 3 8
  have hsplit' : (w.extractLsb' 21 3).toNat =
      (w.extractLsb' 22 2).toNat * 2 ^ 1 + (w.extractLsb' 21 1).toNat := extractLsb'_split w 21 1 2
  have h1 : w.extractLsb' 24 8 = op.opcode.1 := congrArg Prod.fst hop
  have h2 : w.extractLsb' 21 1 = op.opcode.2 := congrArg Prod.snd hop
  rw [hsplit, hsplit', hshift, h1, h2]
  cases op <;> rfl

/-- The flag byte of `AddWithCarry`. -/
theorem packFlags_addWithCarry (a b : Word) (c : Bool) :
    packFlags (A64.addWithCarry a b c).2 =
      PACK_CC (A64.addWithCarry a b c).1.msb (decide ((A64.addWithCarry a b c).1 = 0))
        (decide (2 ^ 64 ≤ a.toNat + b.toNat + c.toNat))
        (decide (¬ Representable (a.toInt + b.toInt + (c.toNat : Int)))) := by
  rw [packFlags, A64.addWithCarry_c, A64.addWithCarry_v]
  rfl

theorem addWithCarry_plus (a b : Word) : (A64.addWithCarry a b false).1 = a + b := by
  rw [A64.addWithCarry_fst]
  exact BitVec.add_zero _

theorem addWithCarry_minus (a b : Word) : (A64.addWithCarry a (~~~b) true).1 = a - b := by
  rw [A64.addWithCarry_fst, BitVec.sub_eq_add_neg, BitVec.neg_eq_not_add, ← BitVec.add_assoc]
  rfl

theorem toInt_not (b : Word) : (~~~b).toInt = -b.toInt - 1 := by
  have hnot : (~~~b).toNat = 2 ^ 64 - 1 - b.toNat := BitVec.toNat_not
  have hb := b.isLt
  rw [BitVec.toInt_eq_toNat_cond, BitVec.toInt_eq_toNat_cond, hnot]
  split <;> split <;> omega

/-- The result and the flags of the ALU for an operation on two registers. -/
theorem alu_rr (op : A64.RROp) (a b : Word) (hw : BitVec 8) (cond : Cond) (f : A64.Flags) :
    (alu rca a b hw (packFlags f) (decideAluOp ec (rrEntry op))
        (op = .adds ∨ op = .subs ∨ op = .ands) cond (packFlags f)).valE = (op.apply a b f).1 ∧
      (alu rca a b hw (packFlags f) (decideAluOp ec (rrEntry op))
        (op = .adds ∨ op = .subs ∨ op = .ands) cond (packFlags f)).nzcv =
          packFlags (op.apply a b f).2 := by
  cases op with
  | adds =>
      have hadd := packFlags_addWithCarry a b false
      rw [addWithCarry_plus] at hadd
      refine ⟨(alu_plus rca a b hw _ _ cond _).trans (addWithCarry_plus a b).symm, ?_⟩
      refine (alu_plus_nzcv rca a b hw _ cond _).trans (Eq.trans ?_ hadd.symm)
      rw [Bool.toNat_false, Nat.add_zero, Nat.cast_zero, Int.add_zero]
  | subs =>
      have hsub := packFlags_addWithCarry a (~~~b) true
      rw [addWithCarry_minus] at hsub
      refine ⟨(alu_minus rca a b hw _ _ cond _).trans (addWithCarry_minus a b).symm, ?_⟩
      refine (alu_minus_nzcv rca a b hw _ cond _).trans (Eq.trans ?_ hsub.symm)
      have hint : a.toInt + (~~~b).toInt + ((true.toNat : Nat) : Int) = a.toInt - b.toInt := by
        rw [toInt_not, Bool.toNat_true, Nat.cast_one]
        omega
      rw [hint, Bool.toNat_true]
  | ands => exact ⟨rfl, alu_and_nzcv rca a b hw _ cond _⟩
  | orr => exact ⟨rfl, rfl⟩
  | eor => exact ⟨rfl, rfl⟩
  | orn => exact ⟨rfl, rfl⟩

/-- The entry's comparison or test, when it has one. -/
def rrAlias : A64.RROp → Opcode
  | .adds => .cmnRR
  | .subs => .cmpRR
  | .ands => .tstRR
  | .orr => .orrRR
  | .eor => .eorRR
  | .orn => .mvn

/-- The alias is taken when nothing is written. -/
theorem fixInstrAliases_rr (op : A64.RROp) :
    fixInstrAliases ec w (rrEntry op) = if A64.rd w = 31#5 then rrAlias op else rrEntry op := by
  have hrd : w &&& 0x1F#32 = 31#32 ↔ A64.rd w = 31#5 := by
    have hmask : (w >>> 0) &&& 0x1F#32 = (A64.rd w).setWidth 32 :=
      ushiftRight_and_mask w (n := 5) (by decide)
    rw [BitVec.ushiftRight_zero] at hmask
    rw [hmask]
    generalize A64.rd w = n
    revert n
    decide
  cases op <;> simp only [rrEntry, rrAlias, fixInstrAliases, hrd, ite_self]

/-- Aliased or not, an operation on two registers does its work when it writes the right
register. -/
theorem performs_rrOpcode (op : A64.RROp) {o : Opcode} (ho : o = rrEntry op ∨ o = rrAlias op)
    (hd : fetchedInstr ec pc w false = ⟨w, o, .rr, pc + 4, .aok⟩) {enable : Bool}
    (hsigs : generateDXMWControl ec o =
      (⟨false, true, op = .adds ∨ op = .subs ∨ op = .ands⟩, ⟨false, false⟩,
        ⟨false, false, enable⟩))
    (hwrite : ∀ r v, regfileWrite r (spToXzr ((A64.rd w).setWidth 8)) v enable =
      archWrite r v (A64.Dest.ofXzr (A64.rd w))) :
    Performs (executedAlone ec l rca r (packFlags f) pc w) (flagsAlone ec l rca r (packFlags f) pc w)
      (A64.Instr.effect (archState r f)
        (.rr op (w.extractLsb' 22 2) (A64.rd w) (A64.rn w) (A64.rm w))) := by
  have halu : decideAluOp ec o = decideAluOp ec (rrEntry op) := by
    rcases ho with rfl | rfl <;> cases op <;> rfl
  obtain ⟨hvalE, hnzcv⟩ := alu_rr ec rca op ((archState r f).xzr (A64.rn w))
    ((archState r f).xzr (A64.rm w)) ((bitfieldU32 w 21 2 <<< 4).setWidth 8)
    (decodeCond ec w o) f
  rw [← halu] at hvalE hnzcv
  exact performs_alu hd (by rcases ho with rfl | rfl <;> cases op <;> decide) hsigs
    (extractRegs_rr ec l w (by rcases ho with rfl | rfl <;> cases op <;> decide)) hwrite
    (readPort_spToXzr l r f _) (readPort_spToXzr l r f _) hvalE hnzcv

theorem performs_rr (op : A64.RROp)
    (hop : (w.extractLsb' 24 8, w.extractLsb' 21 1) = op.opcode) (hshift : w.extractLsb' 22 2 = 0#2) :
    Performs (executedAlone ec l rca r (packFlags f) pc w) (flagsAlone ec l rca r (packFlags f) pc w)
      (A64.Instr.effect (archState r f)
        (.rr op (w.extractLsb' 22 2) (A64.rd w) (A64.rn w) (A64.rm w))) := by
  have hidx := index_of_rr hop hshift
  have hfmt : ftable ec (rrEntry op) = .rr := by cases op <;> rfl
  have hne : rrEntry op ≠ .error := by cases op <;> decide
  by_cases hrd : A64.rd w = 31#5
  · have halias : fixInstrAliases ec w (rrEntry op) = rrAlias op := by
      rw [fixInstrAliases_rr, if_pos hrd]
    have hd := fetchedInstr_eq ec pc (rrEntry_mem ec op) hidx.ge hidx.le _ halias hne
      (by cases op <;> decide)
    rw [hfmt] at hd
    -- comparisons and tests are not enabled; the others write the zero register
    have hsigs : generateDXMWControl ec (rrAlias op) =
        (⟨false, true, op = .adds ∨ op = .subs ∨ op = .ands⟩, ⟨false, false⟩,
          ⟨false, false, op = .orr ∨ op = .eor ∨ op = .orn⟩) := by
      cases ec <;> cases op <;> rfl
    refine performs_rrOpcode ec l rca r f pc op (.inr rfl) hd hsigs fun r v => ?_
    cases op
    case adds | subs | ands =>
      rw [hrd]
      rfl
    all_goals exact regfileWrite_spToXzr r _ v
  · have halias : fixInstrAliases ec w (rrEntry op) = rrEntry op := by
      rw [fixInstrAliases_rr, if_neg hrd]
    have hd := fetchedInstr_eq ec pc (rrEntry_mem ec op) hidx.ge hidx.le _ halias hne
      (by cases op <;> decide)
    rw [hfmt] at hd
    have hsigs : generateDXMWControl ec (rrEntry op) =
        (⟨false, true, op = .adds ∨ op = .subs ∨ op = .ands⟩, ⟨false, false⟩,
          ⟨false, false, true⟩) := by
      cases ec <;> cases op <;> rfl
    exact performs_rrOpcode ec l rca r f pc op (.inl rfl) hd hsigs
      fun r v => regfileWrite_spToXzr r _ v

/-! ### Conditional selects -/

/-- The entry of the instruction table for a conditional select. -/
def selectEntry : A64.SelectOp → Opcode
  | .csel | .csinc => .csel
  | .csinv | .csneg => .csneg

/-- The entry's index. -/
def selectIndex : A64.SelectOp → Nat
  | .csel | .csinc => 0x4d4
  | .csinv | .csneg => 0x6d4

/-- The opcode of a conditional select. -/
def selectOpcode : A64.SelectOp → Opcode
  | .csel => .csel
  | .csinc => .csinc
  | .csinv => .csinv
  | .csneg => .csneg

/-- The result of the ALU for a conditional select. -/
theorem alu_select (op : A64.SelectOp) (a b : Word) (hw : BitVec 8) (cond : Cond)
    (nzcv : BitVec 8) :
    (alu rca a b hw nzcv (decideAluOp true (selectOpcode op)) false cond nzcv).valE =
      op.apply (condHolds cond nzcv) a b := by
  cases hholds : condHolds cond nzcv with
  | true => cases op <;> simp [alu, aluSwitch, decideAluOp, selectOpcode, hholds, A64.SelectOp.apply]
  | false =>
      cases op <;>
        simp [alu, aluSwitch, decideAluOp, selectOpcode, hholds, A64.SelectOp.apply,
          rippleCarryAdd_fst]

/-- Of the two bits that tell conditional selects apart only the lower one is looked at. -/
theorem performs_select (op : A64.SelectOp) (hop : w.extractLsb' 21 11 = op.opcode.1)
    (hop2 : w.extractLsb' 10 1 = op.opcode.2.extractLsb' 0 1) :
    Performs (executedAlone true l rca r (packFlags f) pc w)
      (flagsAlone true l rca r (packFlags f) pc w)
      (A64.Instr.effect (archState r f)
        (.select op (w.extractLsb' 12 4) (A64.rd w) (A64.rn w) (A64.rm w))) := by
  have hidx : (w.extractLsb' 21 11).toNat = selectIndex op := by
    rw [hop]
    cases op <;> rfl
  have hmem : (selectEntry op, selectIndex op, selectIndex op) ∈ itableEntries true := by
    cases op <;> decide
  have hbit : bitfieldU32 w 10 1 = (op.opcode.2.extractLsb' 0 1).setWidth 32 := by
    rw [bitfieldU32_eq w (by decide) (by decide), hop2]
  have halias : fixInstrAliases true w (selectEntry op) = selectOpcode op := by
    cases op <;> simp only [selectEntry, fixInstrAliases, hbit] <;> rfl
  have hd := fetchedInstr_eq true pc hmem hidx.ge hidx.le _ halias (by cases op <;> decide)
    (by cases op <;> decide)
  have hfmt : ftable true (selectEntry op) = .ec := by cases op <;> rfl
  rw [hfmt] at hd
  have hsigs : generateDXMWControl true (selectOpcode op) =
      (⟨false, true, false⟩, ⟨false, false⟩, ⟨false, false, true⟩) := by cases op <;> rfl
  have hcond : decodeCond true w (selectOpcode op) = .ofBits ((w.extractLsb' 12 4).setWidth 32) := by
    rw [← bitfieldU32_eq w (by decide) (by decide)]
    cases op <;> rfl
  refine performs_alu hd (by cases op <;> decide) hsigs
    (extractRegs_select l w (by cases op <;> decide)) (fun r v => regfileWrite_spToXzr r _ v)
    (readPort_spToXzr l r f _) (readPort_spToXzr l r f _) ?_ rfl
  rw [alu_select, hcond, condHolds_packFlags]
  rfl

end

/-! ## Every encoding -/

/-- The conditional selects are in the extra-credit build only. -/
def InBuild (ec : Bool) : A64.Instr → Prop
  | .select .. => ec = true
  | _ => True

instance (ec : Bool) (i : A64.Instr) : Decidable (InBuild ec i) := by
  cases i <;> unfold InBuild <;> infer_instance

/-- The second register of an operation is written without a shift, or with `LSL #0`. -/
def PlainShift : A64.Instr → Prop
  | .rr _ shift _ _ _ => shift = 0#2
  | _ => True

instance (i : A64.Instr) : Decidable (PlainShift i) := by
  cases i <;> unfold PlainShift <;> infer_instance

/-- **Each supported instruction, sent through the tables, decode and execute on its own, does what
the architecture says**, for every register, stack pointer and flag state. -/
theorem performs_of_encodes {ec : Bool} {w : BitVec 32} {i : A64.Instr} (h : A64.Encodes w i)
    (hbuild : InBuild ec i) (hshift : PlainShift i) (l : Locals) (rca : Rca) (r : Regs)
    (f : A64.Flags) (pc : Word) :
    Performs (executedAlone ec l rca r (packFlags f) pc w) (flagsAlone ec l rca r (packFlags f) pc w)
      (i.effect (archState r f)) := by
  cases h with
  | ldur hop _ => exact performs_ldur ec l rca r f pc hop
  | stur hop _ => exact performs_stur ec l rca r f pc hop
  | movz hop => exact performs_movz ec l rca r f pc hop
  | movk hop => exact performs_movk ec l rca r f pc hop
  | addImm hop => exact performs_addImm ec l rca r f pc hop
  | subImm hop => exact performs_subImm ec l rca r f pc hop
  | rr op hop _ _ => exact performs_rr ec l rca r f pc op hop hshift
  | lslImm shift hop himmr himms => exact performs_lslImm ec l rca r f pc hop himmr himms
  | lsrImm hop himms => exact performs_lsrImm ec l rca r f pc hop himms
  | asrImm hop _ => exact performs_asrImm ec l rca r f pc hop
  | shiftv op hop hop2 =>
      refine performs_shiftv ec l rca r f pc op hop ?_
      rw [← hop2, extractLsb'_extractLsb' w (by decide)]
  | select op hop =>
      cases (show ec = true from hbuild)
      refine performs_select l rca r f pc op (congrArg Prod.fst hop) ?_
      rw [← show w.extractLsb' 10 2 = op.opcode.2 from congrArg Prod.snd hop,
        extractLsb'_extractLsb' w (by decide)]

/-- The registers in the two runs below: `X1 = 5`, `X2 = 7`. -/
def sampleRegs : Regs :=
  { SP := 0x1000
    GPR := fun n => if n = 1#8 then 5 else if n = 2#8 then 7 else 0 }

def sampleLocals : Locals := ⟨0, 0, 0, fun _ => 0⟩

/-- `adds x0, x1, x2`. -/
theorem performs_addsPlain :
    A64.Encodes 0xab020020#32 (.rr .adds 0#2 0#5 1#5 2#5) ∧
      (A64.Instr.effect (archState sampleRegs ⟨true, false, false, true⟩)
        (.rr .adds 0#2 0#5 1#5 2#5)).result = 12 ∧
      Performs
        (executedAlone false sampleLocals Rca.zero sampleRegs (packFlags ⟨true, false, false, true⟩)
          0x400000 0xab020020#32)
        (flagsAlone false sampleLocals Rca.zero sampleRegs (packFlags ⟨true, false, false, true⟩)
          0x400000 0xab020020#32)
        (A64.Instr.effect (archState sampleRegs ⟨true, false, false, true⟩)
          (.rr .adds 0#2 0#5 1#5 2#5)) := by
  have henc : A64.Encodes 0xab020020#32 (.rr .adds 0#2 0#5 1#5 2#5) :=
    .rr .adds (by decide) (by decide) (by decide)
  exact ⟨henc, by decide, performs_of_encodes henc trivial (by decide) _ _ _ _ _⟩

/-- `adds x0, x1, x2, lsr #0` is not in the instruction table. -/
theorem not_performs_addsLsr :
    A64.Encodes 0xab420020#32 (.rr .adds 1#2 0#5 1#5 2#5) ∧
      InBuild false (.rr .adds 1#2 0#5 1#5 2#5) ∧
      (executedAlone false sampleLocals Rca.zero sampleRegs (packFlags ⟨false, false, false, false⟩)
        0x400000 0xab420020#32).status = .ins ∧
      ¬ Performs
        (executedAlone false sampleLocals Rca.zero sampleRegs
          (packFlags ⟨false, false, false, false⟩) 0x400000 0xab420020#32)
        (flagsAlone false sampleLocals Rca.zero sampleRegs
          (packFlags ⟨false, false, false, false⟩) 0x400000 0xab420020#32)
        (A64.Instr.effect (archState sampleRegs ⟨false, false, false, false⟩)
          (.rr .adds 1#2 0#5 1#5 2#5)) := by
  refine ⟨.rr .adds (by decide) (by decide) (by decide), trivial, by decide, fun h => ?_⟩
  exact absurd h.status (by decide)

end ChArm
