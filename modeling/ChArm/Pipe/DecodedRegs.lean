import ChArm.Base.Execution

/-!
# The register numbers decode works with

`decode_instr` declares `src1`, `src2` and `dest` without a value and leaves it to the handler
of the instruction's format to set them.  Every handler does, with numbers the register file has,
but the one of `FORMAT_ERROR`.  So what decode hands to `regfile_read`, to the forwarding unit and
down the pipeline comes from `D_out` alone unless `D_out` is empty or holds a word the
instruction table does not know (`decodesFromRegister_iff`).

* `extractRegs_handled` — every handler sets all three numbers.
* `extractRegs_error` — without a handler the locals come through.
* `decodesFromRegister_iff` — in every state of every run, for all locals.
-/

namespace ChArm

/-- The register numbers `decode_instr` calls `regfile_read` with; it does not call it for an
empty register or a `NOP`. -/
def regfileReadArgs (ec : Bool) (l : Locals) (d : DInstr) : Option (RegNum × RegNum) :=
  let n := extractRegs ec l d.insnbits d.op d.format
  if d.status = .bub ∨ d.op = .nop then none else some (n.src1, n.src2)

/-- `D_src1`, `D_src2` and `X_in->dst` as decode writes them. -/
def decodedRegs (ec : Bool) (l : Locals) (r : Regs) (d : DInstr) : RegNums :=
  ⟨(decode ec l r d).2.1, (decode ec l r d).2.2, (decode ec l r d).1.dst⟩

/-- Decode reads the register file inside its bounds, and what it writes does not depend on
what its local variables held. -/
structure DecodesFromRegister (ec : Bool) (d : DInstr) : Prop where
  inRange : ∀ l src1 src2, regfileReadArgs ec l d = some (src1, src2) →
    src1 ≤ XZR_NUM ∧ src2 ≤ XZR_NUM
  alike : ∀ l l' r r', decodedRegs ec l r d = decodedRegs ec l' r' d

/-! ## The handlers -/

/-- Numbers the register file has. -/
def RegNums.InFile (n : RegNums) : Prop := n.src1 ≤ XZR_NUM ∧ n.src2 ≤ XZR_NUM ∧ n.dst ≤ XZR_NUM

theorem regField_inFile (insnbits : BitVec 32) (frompos : Nat) :
    regField insnbits frompos ≤ XZR_NUM :=
  BitVec.le_trans (regField_le insnbits frompos) (by decide)

theorem spToXzr_le {n : RegNum} (h : n ≤ XZR_NUM) : spToXzr n ≤ XZR_NUM := by
  unfold spToXzr
  split_ifs
  · exact BitVec.le_refl _
  · exact h

theorem RegNums.InFile.fixRegs {n : RegNums} (h : n.InFile) (op : Opcode) :
    (ChArm.fixRegs op n).InFile := by
  obtain ⟨h1, h2, h3⟩ := h
  unfold ChArm.fixRegs
  split
  · exact ⟨h1, spToXzr_le h2, spToXzr_le h3⟩
  · exact ⟨h1, spToXzr_le h2, spToXzr_le h3⟩
  · exact ⟨h1, spToXzr_le h2, h3⟩
  · exact ⟨h1, spToXzr_le h2, h3⟩
  · exact ⟨spToXzr_le h1, spToXzr_le h2, spToXzr_le h3⟩

section
variable {ec : Bool}

/-- Every format an opcode of this build has is one with a handler. -/
theorem ftable_handled {op : Opcode} (hbase : ec = false → op.isEC = false) (hop : op ≠ .error) :
    ftable ec op ≠ .error ∧ (ftable ec op = .ec → ec = true) := by
  revert hbase hop
  cases ec <;> cases op <;> decide

theorem formatEC_inFile (insnbits : BitVec 32) (op : Opcode) : (formatEC insnbits op).InFile := by
  have hx : XZR_NUM ≤ XZR_NUM := BitVec.le_refl _
  have h30 : 30#8 ≤ XZR_NUM := by decide
  unfold formatEC
  split <;> refine ⟨?_, ?_, ?_⟩ <;> first | exact regField_inFile _ _ | assumption

/-- A handler sets all three numbers, to ones the register file has. -/
theorem extractRegsTable_handled {format : Format} (hne : format ≠ .error)
    (hec : format = .ec → ec = true) (l l' : Locals) (insnbits : BitVec 32) (op : Opcode) :
    extractRegsTable ec l insnbits op format = extractRegsTable ec l' insnbits op format ∧
      (extractRegsTable ec l insnbits op format).InFile := by
  have hx : XZR_NUM ≤ XZR_NUM := BitVec.le_refl _
  have hfield := regField_inFile insnbits
  cases format with
  | error => exact absurd rfl hne
  | m =>
    refine ⟨rfl, ?_⟩
    simp only [extractRegsTable, formatM]
    split_ifs
    · exact ⟨hfield 5, hfield 0, hx⟩
    · exact ⟨hfield 5, hx, hfield 0⟩
  | i1 =>
    refine ⟨rfl, ?_⟩
    simp only [extractRegsTable, formatI1]
    split_ifs
    · exact ⟨hfield 0, hx, hfield 0⟩
    · exact ⟨hx, hx, hfield 0⟩
  | i2 => exact ⟨rfl, hx, hx, hfield 0⟩
  | rr => exact ⟨rfl, hfield 5, hfield 16, hfield 0⟩
  | ri => exact ⟨rfl, hfield 5, hx, hfield 0⟩
  | b1 =>
    refine ⟨rfl, hx, hx, ?_⟩
    simp only [extractRegsTable, formatB1]
    split_ifs <;> decide
  | b2 => exact ⟨rfl, hx, hx, hx⟩
  | b3 => exact ⟨rfl, hfield 5, hx, hx⟩
  | s => exact ⟨rfl, hx, hx, hx⟩
  | ec =>
    cases hec rfl
    exact ⟨rfl, formatEC_inFile insnbits op⟩

/-- So does decode, whatever the locals held. -/
theorem extractRegs_handled {format : Format} (hne : format ≠ .error)
    (hec : format = .ec → ec = true) (l l' : Locals) (insnbits : BitVec 32) (op : Opcode) :
    extractRegs ec l insnbits op format = extractRegs ec l' insnbits op format ∧
      (extractRegs ec l insnbits op format).InFile := by
  obtain ⟨hsame, hin⟩ := extractRegsTable_handled hne hec l l' insnbits op
  exact ⟨congrArg (fixRegs op) hsame, hin.fixRegs op⟩

/-- Without a handler the locals come through. -/
theorem extractRegs_error {op : Opcode} (hop : op = .nop ∨ op = .error) (l : Locals)
    (insnbits : BitVec 32) :
    extractRegs ec l insnbits op .error =
      ⟨spToXzr l.src1, spToXzr l.src2, spToXzr l.dest⟩ := by
  rcases hop with rfl | rfl <;> rfl

end

/-! ## The contents of `D_out` -/

section
variable {ec : Bool} {d : DInstr}

/-- Locals whose numbers the register file does not have. -/
def Locals.wild : Locals := ⟨33#8, 33#8, 33#8, fun _ => 0⟩

/-- Locals whose numbers are all 0. -/
def Locals.zeros : Locals := ⟨0, 0, 0, fun _ => 0⟩

/-- With a handler for its format, an instruction is decoded from the register alone. -/
theorem decodesFromRegister_of_handled (hne : d.format ≠ .error)
    (hec : d.format = .ec → ec = true) : DecodesFromRegister ec d where
  inRange := by
    intro l src1 src2 hargs
    have hin := (extractRegs_handled hne hec l l d.insnbits d.op).2
    unfold regfileReadArgs at hargs
    split_ifs at hargs with hnone
    cases hargs
    exact ⟨hin.1, hin.2.1⟩
  alike := by
    intro l l' r r'
    have hsame := (extractRegs_handled hne hec l l' d.insnbits d.op).1
    simp only [decodedRegs, decode, hsame]

/-- Without one, the numbers are those of the locals. -/
theorem not_alike (hformat : d.format = .error) (hop : d.op = .nop ∨ d.op = .error) :
    ¬ DecodesFromRegister ec d := by
  intro h
  have hsame := congrArg RegNums.src1 (h.alike .wild .zeros ⟨0, fun _ => 0⟩ ⟨0, fun _ => 0⟩)
  simp only [decodedRegs, decode, hformat, extractRegs_error hop] at hsame
  exact absurd hsame (by decide)

/-- Of an instruction that is not in the table, `regfile_read` may be asked for any number. -/
theorem regfileReadArgs_wild (hformat : d.format = .error) (hop : d.op = .error)
    (hst : d.status ≠ .bub) : regfileReadArgs ec .wild d = some (33#8, 33#8) := by
  rw [regfileReadArgs, hformat, extractRegs_error (.inr hop), if_neg]
  · rfl
  · rw [hop]
    exact not_or.2 ⟨hst, nofun⟩

end

/-- Fetch never delivers `STAT_BUB`, so a register with that status is an empty one. -/
theorem Execution.empty_of_bub {ec : Bool} {img : Image} {entry : Word} {n : Nat}
    {σ : Nat → Machine} (h : Execution ec img entry n σ) {k : Nat} (hk : k ≤ n) :
    (σ k).D.out.status = .bub → (σ k).D.out = .zero := by
  refine h.invariant (P := fun s => s.D.out.status = .bub → s.D.out = .zero) (fun _ => rfl) ?_ k hk
  intro s s' hs hstep
  obtain ⟨v, hv, rfl⟩ := exists_wires hstep.2
  exact clocked_mem (P := fun d : DInstr => d.status = .bub → d = .zero) _ (fun _ => rfl)
    (fun hbub => absurd hbub (fetch_ok hv).2.2) hs

/-- **Decode is a function of its pipeline register, inside the register file, exactly where
`D_out` holds an instruction of the table.** -/
theorem decodesFromRegister_iff {ec : Bool} {img : Image} {entry : Word} {n : Nat}
    {σ : Nat → Machine} (h : Execution ec img entry n σ) {k : Nat} (hk : k ≤ n) :
    DecodesFromRegister ec (σ k).D.out ↔
      (σ k).D.out.status ≠ .bub ∧ (σ k).D.out.op ≠ .error := by
  have hok := (h.wellFormed hk).d
  constructor
  · intro hd
    refine ⟨fun hbub => ?_, fun hop => ?_⟩
    · rw [h.empty_of_bub hk hbub] at hd
      exact not_alike rfl (.inl rfl) hd
    · have hst : (σ k).D.out.status ≠ .bub := fun hbub => by
        have := hok.status.of_bub hbub
        rw [hop] at this
        cases this
      have hformat : (σ k).D.out.format = .error := by rw [hok.format hst, hop]; rfl
      exact not_alike hformat (.inr hop) hd
  · rintro ⟨hst, hop⟩
    obtain ⟨hne, hec⟩ := ftable_handled hok.base hop
    rw [← hok.format hst] at hne hec
    exact decodesFromRegister_of_handled hne hec

/-- `movz x1, #7`, and a word that is not in the table. -/
def movThenUnknown : List (BitVec 32) := [0xd28000e1#32, 0x00000000#32]

theorem decodesFromRegister_mov :
    DecodesFromRegister false (stateAt false (.ofWords movThenUnknown none) 0x400000#64 1).D.out :=
  (decodesFromRegister_iff (n := 1) (execution_stateAt (by decide +kernel)) le_rfl).2
    (by decide +kernel)

/-- The word that is not in the table: the register file is read at a number left over in a
local variable. -/
theorem not_decodesFromRegister_unknown :
    ∃ n σ, Execution false (.ofWords movThenUnknown none) 0x400000#64 n σ ∧ ∃ k ≤ n,
      (σ k).D.out.insnbits = 0x00000000#32 ∧
        (∃ l, regfileReadArgs false l (σ k).D.out = some (33#8, 33#8)) ∧
        ¬ DecodesFromRegister false (σ k).D.out := by
  have hrun : Execution false (.ofWords movThenUnknown none) 0x400000#64 2
      (stateAt false (.ofWords movThenUnknown none) 0x400000#64) :=
    execution_stateAt (by decide +kernel)
  have hargs : regfileReadArgs false .wild
      (stateAt false (.ofWords movThenUnknown none) 0x400000#64 2).D.out = some (33#8, 33#8) :=
    regfileReadArgs_wild (by decide +kernel) (by decide +kernel) (by decide +kernel)
  refine ⟨2, _, hrun, 2, le_rfl, by decide +kernel, ⟨_, hargs⟩, fun h => ?_⟩
  exact absurd (h.inRange _ _ _ hargs).1 (by decide)

end ChArm
