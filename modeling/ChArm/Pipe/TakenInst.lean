import ChArm.Lib.A64Aliases
import ChArm.Pipe.Operands
import ChArm.Pipe.PcRelative

/-!
# What a word is taken for

`itable` looks at eleven bits of a word and `fix_instr_aliases` at a few more, so a word is executed
as the instruction of its group that those bits name (`takenInst`), whatever its other bits say.
A64 tells the instructions of a group apart by more: the index mode of an access, the amount by
which an operand is shifted, both fields of a bit-field move, the opcode of an operation on two
source registers, and bits that have to be as they are for there to be an instruction at all.

* `takenFor_group` — every word of a group is executed as the instruction it is taken for.
-/

namespace ChArm

/-! ## The outcome of an instruction in the pipeline -/

/-- The flags a flag byte holds. -/
def unpackFlags (nzcv : BitVec 8) : A64.Flags :=
  ⟨nzcv.getLsbD 3, nzcv.getLsbD 2, nzcv.getLsbD 1, nzcv.getLsbD 0⟩

theorem unpackFlags_packFlags (f : A64.Flags) : unpackFlags (packFlags f) = f := by
  obtain ⟨n, z, c, v⟩ := f
  cases n <;> cases z <;> cases c <;> cases v <;> rfl

/-- What becomes of an instruction that execute passes on with the flags `nzcv`: the access it asks
`dmem` for, and the registers and flags once it has retired, given what `dmem` reads. -/
def outcomeFrom (r : Regs) (m : MInstr) (nzcv : BitVec 8) : A64.Outcome where
  load := if m.mSigs.dmemRead then some m.valEx else none
  store := if m.mSigs.dmemWrite then some (m.valEx, m.valB) else none
  after v := archState (retire r (passMemory m v)) (unpackFlags nzcv)

/-- What the stages after fetch do with an instruction. -/
def outcomeOf (ec : Bool) (l : Locals) (rca : Rca) (r : Regs) (f : A64.Flags) (d : DInstr) :
    A64.Outcome :=
  let x := (decode ec l r d).1
  outcomeFrom r (execute ec rca (packFlags f) x) (executeAlu rca (packFlags f) x).nzcv

theorem setWidth_injective : Function.Injective fun n : BitVec 5 => n.setWidth 8 := by
  intro n m h
  have hback := congrArg (BitVec.setWidth 5) h
  simpa using hback

/-- Every state is the architecture's view of some registers. -/
theorem archState_surjective (s : A64.State) : ∃ r f, archState r f = s := by
  refine ⟨⟨s.sp, fun n => s.x (n.setWidth 5)⟩, s.flags, ?_⟩
  show A64.State.mk (fun n => s.x ((n.setWidth 8).setWidth 5)) s.sp s.flags = s
  simp

/-- A write, as the architecture sees it. -/
theorem archState_archWrite (r : Regs) (v : Word) (d : Option A64.Dest) (f g : A64.Flags) :
    archState (archWrite r v d) g = { (archState r f).write v d with flags := g } := by
  cases d with
  | none => rfl
  | some d =>
    cases d with
    | sp => rfl
    | x n =>
      have hx := Function.update_comp_eq_of_injective r.GPR setWidth_injective n v
      show A64.State.mk (Function.update r.GPR (n.setWidth 8) v ∘ fun m => m.setWidth 8) r.SP g = _
      rw [hx]
      rfl

theorem retire_passMemory {m : MInstr} (h : m.status = .aok) (r : Regs) (v : Word) :
    retire r (passMemory m v) = writtenBack r m v := by
  have hen : writeEnable (passMemory m v) = m.wSigs.wEnable := by
    simp [writeEnable, passMemory, h]
  rw [retire, writtenBack, hen]
  rfl

/-- An instruction of the fragment that does its work has its outcome. -/
theorem Performs.outcome {m : MInstr} {nzcv : BitVec 8} {e : A64.Effect} (h : Performs m nzcv e)
    (r : Regs) (f : A64.Flags) : outcomeFrom r m nzcv = e.outcome (archState r f) := by
  have hload : (if m.mSigs.dmemRead then some m.valEx else none) =
      if e.load then some e.result else none := by
    rw [h.load, h.result]
  have hstore : (if m.mSigs.dmemWrite then some (m.valEx, m.valB) else none) =
      e.store.map fun v => (e.result, v) := by
    rw [h.store, h.result]
    cases hs : e.store with
    | none => rfl
    | some v =>
      rw [h.stored v hs]
      rfl
  have hafter : ∀ v, archState (retire r (passMemory m v)) (unpackFlags nzcv) =
      { (archState r f).write (if e.load then v else e.result) e.dst with flags := e.flags } := by
    intro v
    rw [retire_passMemory h.status, writtenBack, h.link, if_neg Bool.false_ne_true, h.write,
      h.loaded, h.result, h.flags, unpackFlags_packFlags, archState_archWrite r _ _ f]
  exact congr (congr (congrArg A64.Outcome.mk hload) hstore) (funext hafter)

/-- The pipeline executes a word at `pc` as an instruction at `addr`. -/
structure TakenFor (ec : Bool) (pc : Word) (w : BitVec 32) (addr : Word) (i : A64.Inst) : Prop where
  status : (fetchedInstr ec pc w false).status ≠ .ins
  outcome : ∀ l rca r f,
    outcomeOf ec l rca r f (fetchedInstr ec pc w false) = i.outcome addr (archState r f)

section
variable {ec : Bool} {pc addr : Word} {w : BitVec 32}

/-- A word that does what an instruction of the fragment does. -/
theorem takenFor_of_performs {i : A64.Instr}
    (h : ∀ l rca r f, Performs (executedAlone ec l rca r (packFlags f) pc w)
      (flagsAlone ec l rca r (packFlags f) pc w) (i.effect (archState r f))) :
    TakenFor ec pc w addr (.instr i) where
  status := by
    have hst : (fetchedInstr ec pc w false).status = .aok :=
      (h sampleLocals .zero sampleRegs ⟨false, false, false, false⟩).status
    rw [hst]
    decide
  outcome l rca r f := (h l rca r f).outcome r f

/-- An instruction that neither accesses memory nor sets the flags. -/
theorem outcomeOf_of_quiet {op : Opcode} (hop : (fetchedInstr ec pc w false).op = op)
    (hflags : (generateDXMWControl ec op).1.setFlags = false)
    (hmem : (generateDXMWControl ec op).2.1 = ⟨false, false⟩) (l : Locals) (rca : Rca) (r : Regs)
    (f : A64.Flags) :
    outcomeOf ec l rca r f (fetchedInstr ec pc w false) =
      ⟨none, none, fun v =>
        archState (retire r (passMemory (executedAlone ec l rca r (packFlags f) pc w) v)) f⟩ := by
  subst hop
  have hnzcv : flagsAlone ec l rca r (packFlags f) pc w = packFlags f := by
    simp [flagsAlone, executeAlu, alu, decodedAlone, decode, hflags]
  have hsigs : (executedAlone ec l rca r (packFlags f) pc w).mSigs = ⟨false, false⟩ := hmem
  show outcomeFrom r (executedAlone ec l rca r (packFlags f) pc w)
    (flagsAlone ec l rca r (packFlags f) pc w) = _
  rw [outcomeFrom, hsigs, hnzcv, unpackFlags_packFlags]
  rfl

/-- What writes no register either does nothing. -/
theorem takenFor_of_idle {op : Opcode} (hop : (fetchedInstr ec pc w false).op = op)
    (hidle : op ∈ [Opcode.nop, .hlt, .b, .bCond, .cbz, .cbnz, .br, .ret]) {i : A64.Inst}
    (hi : ∀ s, i.outcome addr s = .nothing s) : TakenFor ec pc w addr i := by
  have hne : op ≠ .error := by
    rintro rfl
    exact absurd hidle (by decide)
  have hsigs : generateDXMWControl ec op =
      (⟨false, false, false⟩, ⟨false, false⟩, ⟨false, false, false⟩) := by
    revert hidle
    cases ec <;> cases op <;> decide
  refine ⟨?_, fun l rca r f => ?_⟩
  · show fetchStatus false (fetchedInstr ec pc w false).op ≠ .ins
    rw [hop, fetchStatus, if_neg (not_or.2 ⟨Bool.false_ne_true, hne⟩)]
    split_ifs <;> decide
  · have hen : ∀ v, writeEnable (passMemory (executedAlone ec l rca r (packFlags f) pc w) v) =
        false := by
      intro v
      show ((generateDXMWControl ec (fetchedInstr ec pc w false).op).2.2.wEnable && _) = false
      rw [hop, hsigs]
      rfl
    rw [hi, outcomeOf_of_quiet hop (by rw [hsigs]) (by rw [hsigs])]
    refine congrArg (A64.Outcome.mk none none) (funext fun v => ?_)
    rw [retire, hen]
    rfl

/-- An instruction that writes one register with what its own address says. -/
theorem takenFor_of_written {op : Opcode} {fmt : Format}
    (hd : fetchedInstr ec pc w false = ⟨w, op, fmt, pc + 4, .aok⟩)
    (hflags : (generateDXMWControl ec op).1.setFlags = false)
    (hmem : (generateDXMWControl ec op).2.1 = ⟨false, false⟩) {i : A64.PcInstr}
    (hw : ∀ l rca r nzcv v, writtenBack r (executedAlone ec l rca r nzcv pc w) v =
      archResult r (i.written addr)) : TakenFor ec pc w addr (.pcRel i) := by
  have hst' : (fetchedInstr ec pc w false).status = .aok := congrArg DInstr.status hd
  refine ⟨by rw [hst']; decide, fun l rca r f => ?_⟩
  have hst : (executedAlone ec l rca r (packFlags f) pc w).status = .aok := hst'
  rw [outcomeOf_of_quiet (congrArg DInstr.op hd) hflags hmem]
  refine congrArg (A64.Outcome.mk none none) (funext fun v => ?_)
  rw [retire_passMemory hst, hw]
  cases i.written addr with
  | none => rfl
  | some d => exact (archState_archWrite r d.2 (some d.1) f f).trans (A64.State.write_flags ..)

/-! ## Group by group -/

/-- `CSEL` and its kin, `CBZ`, `CBNZ`, `BR` and `BLR` are in the extra-credit build only. -/
def GroupInBuild (ec : Bool) : A64.Group → Prop
  | .select _ | .cbz | .cbnz | .br | .blr => ec = true
  | _ => True

instance (ec : Bool) (g : A64.Group) : Decidable (GroupInBuild ec g) := by
  cases g <;> unfold GroupInBuild <;> infer_instance

/-- The instruction a word of a group is executed as. -/
def takenInst (w : BitVec 32) : A64.Group → A64.Inst
  | .loadStore load => .instr (A64.unscaled load (A64.rd w) (A64.rn w) (A64.imm9 w))
  | .movz => .instr (.movz (A64.rd w) (w.extractLsb' 5 16) (w.extractLsb' 21 2))
  | .movk => .instr (.movk (A64.rd w) (w.extractLsb' 5 16) (w.extractLsb' 21 2))
  | .adrp => .pcRel (.adrp (A64.rd w) (w.extractLsb' 5 19 ++ w.extractLsb' 29 2))
  | .addImm => .instr (.addImm (A64.rd w) (A64.rn w) (w.extractLsb' 10 12))
  | .subImm => .instr (.subImm (A64.rd w) (A64.rn w) (w.extractLsb' 10 12))
  | .shifted op => .instr (.rr op 0#2 (A64.rd w) (A64.rn w) (A64.rm w))
  | .bitfield true => .instr (.asrImm (A64.rd w) (A64.rn w) (A64.immr w))
  | .bitfield false =>
      if A64.imms w = 63#6 then .instr (.lsrImm (A64.rd w) (A64.rn w) (A64.immr w))
      else .instr (.lslImm (A64.rd w) (A64.rn w) (-A64.immr w))
  | .twoSource =>
      .instr (.shiftv (if w.getLsbD 10 then .lsrv else .lslv) (A64.rd w) (A64.rn w) (A64.rm w))
  | .select inverting =>
      .instr (.select (.of inverting (w.getLsbD 10)) (w.extractLsb' 12 4) (A64.rd w) (A64.rn w)
        (A64.rm w))
  | .b => .pcRel (.b (w.extractLsb' 0 26))
  | .bl => .pcRel (.bl (w.extractLsb' 0 26))
  | .bCond => .pcRel (.bCond (w.extractLsb' 0 4) (w.extractLsb' 5 19))
  | .cbz => .pcRel (.cbz (A64.rd w) (w.extractLsb' 5 19))
  | .cbnz => .pcRel (.cbnz (A64.rd w) (w.extractLsb' 5 19))
  | .br => .br (A64.rn w)
  | .blr => .pcRel (.blr (A64.rn w))
  | .ret => .ret (A64.rn w)
  | .system => .hint
  | .hlt => .hlt

/-- Only the successor of an `ADRP` reaches execute. -/
def takenAddr (pc : Word) : A64.Group → Word
  | .adrp => pc + 4
  | _ => pc

/-- A field of the upper eleven bits is a field of the word. -/
theorem field_of_has {k n : Nat} {c : BitVec n} (hkn : k + n ≤ 11)
    (h : ((w.extractLsb' 21 11).extractLsb' k n == c) = true) : w.extractLsb' (21 + k) n = c := by
  rw [← eq_of_beq h, extractLsb'_extractLsb' w hkn]

/-- The bit of a word as a field. -/
theorem extractLsb'_one (w : BitVec 32) (p : Nat) :
    w.extractLsb' p 1 = BitVec.ofBool (w.getLsbD p) := by
  refine BitVec.eq_of_getLsbD_eq fun i hi => ?_
  cases (show i = 0 by omega)
  simp

/-- The opcode of a word whose upper eleven bits are known. -/
theorem fetchedInstr_op_of_eq {c : BitVec 11} (h : w.extractLsb' 21 11 = c) {op0 op : Opcode}
    (h0 : itable ec c.toNat = op0) (hop : fixInstrAliases ec w op0 = op) :
    (fetchedInstr ec pc w false).op = op := by
  rw [← hop, ← h0, ← h, ← itable_index]
  rfl

/-- **Every word of a group of this build is executed as one instruction of the group.** -/
theorem takenFor_group {g : A64.Group} (hg : A64.Group.ofWord w = some g)
    (hb : GroupInBuild ec g) : TakenFor ec pc w (takenAddr pc g) (takenInst w g) := by
  -- the bits by which a word belongs to its group are those by which `itable` finds its opcode
  have hhas : g.has (w.extractLsb' 21 11) = true := List.find?_some hg
  cases g with
  | loadStore load =>
    cases load with
    | true =>
      have hop := eq_of_beq hhas
      exact takenFor_of_performs fun l rca r f => performs_ldur ec l rca r f pc hop
    | false =>
      have hop := eq_of_beq hhas
      exact takenFor_of_performs fun l rca r f => performs_stur ec l rca r f pc hop
  | movz =>
    have hop := field_of_has (by decide) hhas
    exact takenFor_of_performs fun l rca r f => performs_movz ec l rca r f pc hop
  | movk =>
    have hop := field_of_has (by decide) hhas
    exact takenFor_of_performs fun l rca r f => performs_movk ec l rca r f pc hop
  | addImm =>
    have hop := field_of_has (by decide) hhas
    exact takenFor_of_performs fun l rca r f => performs_addImm ec l rca r f pc hop
  | subImm =>
    have hop := field_of_has (by decide) hhas
    exact takenFor_of_performs fun l rca r f => performs_subImm ec l rca r f pc hop
  | shifted op =>
    rw [A64.Group.has, Bool.and_eq_true, Bool.and_eq_true] at hhas
    obtain ⟨⟨hop, hop2⟩, hshift⟩ := hhas
    have hop := field_of_has (by decide) hop
    have hop2 := field_of_has (by decide) hop2
    have hshift := field_of_has (by decide) hshift
    refine takenFor_of_performs fun l rca r f => ?_
    -- what is done does not depend on the kind of shift
    have hrr := performs_rr ec l rca r f pc op (Prod.ext hop hop2) hshift
    exact hrr
  | bitfield signed =>
    cases signed with
    | true =>
      have hop := field_of_has (by decide) hhas
      exact takenFor_of_performs fun l rca r f => performs_asrImm ec l rca r f pc hop
    | false =>
      have hop := field_of_has (by decide) hhas
      rw [takenInst]
      -- `fix_instr_aliases` tells the two shifts apart by `imms` alone
      split_ifs with himms
      · exact takenFor_of_performs fun l rca r f => performs_lsrImm ec l rca r f pc hop himms
      · exact takenFor_of_performs fun l rca r f => performs_ubfmLsl ec l rca r f pc hop himms
  | twoSource =>
    have hop := eq_of_beq hhas
    refine takenFor_of_performs fun l rca r f => performs_shiftv ec l rca r f pc _ hop ?_
    rw [extractLsb'_one]
    cases w.getLsbD 10 <;> rfl
  | select inverting =>
    cases (show ec = true from hb)
    refine takenFor_of_performs fun l rca r f => performs_select l rca r f pc _ ?_ ?_
    · cases inverting <;> cases w.getLsbD 10 <;> exact eq_of_beq hhas
    · rw [extractLsb'_one]
      cases inverting <;> cases w.getLsbD 10 <;> rfl
  | adrp =>
    rw [A64.Group.has, Bool.and_eq_true] at hhas
    -- the address that `ADRP` starts from need not be its own, so what it writes is stated as it is
    have hop := field_of_has (by decide) hhas.1
    have hop2 := field_of_has (by decide) hhas.2
    have hd := fetchedInstr_adrp ec pc hop hop2
    refine takenFor_of_written hd (by cases ec <;> rfl) (by cases ec <;> rfl) ?_
    intro l rca r nzcv v
    rw [executedAlone_adrp ec l rca r nzcv pc hd, A64.PcInstr.written]
    cases A64.Dest.ofXzr (A64.rd w) <;> rfl
  | bl =>
    have hop := field_of_has (by decide) hhas
    exact takenFor_of_written (fetchedInstr_bl ec pc hop) (by cases ec <;> rfl)
      (by cases ec <;> rfl) fun l rca r nzcv => (pcPerforms_bl ec l rca r nzcv pc hop).writes r
  | blr =>
    cases (show ec = true from hb)
    exact takenFor_of_written (fetchedInstr_blr pc (eq_of_beq hhas)) rfl rfl
      fun l rca r nzcv => (pcPerforms_blr l rca r nzcv pc (eq_of_beq hhas)).writes r
  | b =>
    have hop := field_of_has (by decide) hhas
    -- from here on nothing is written, so the opcode is all that counts
    have hd : (fetchedInstr ec pc w false).op = .b :=
      congrArg DInstr.op (fetchedInstr_b ec pc hop)
    exact takenFor_of_idle hd (by decide) fun _ => rfl
  | bCond =>
    have hop := field_of_has (by decide) hhas
    have hd : (fetchedInstr ec pc w false).op = .bCond :=
      congrArg DInstr.op (fetchedInstr_bCond ec pc hop)
    exact takenFor_of_idle hd (by decide) fun _ => rfl
  | cbz =>
    cases (show ec = true from hb)
    have hop := field_of_has (by decide) hhas
    have hd : (fetchedInstr true pc w false).op = .cbz :=
      congrArg DInstr.op (fetchedInstr_cbz pc hop)
    exact takenFor_of_idle hd (by decide) fun _ => rfl
  | cbnz =>
    cases (show ec = true from hb)
    have hop := field_of_has (by decide) hhas
    have hd : (fetchedInstr true pc w false).op = .cbnz :=
      congrArg DInstr.op (fetchedInstr_cbnz pc hop)
    exact takenFor_of_idle hd (by decide) fun _ => rfl
  | br =>
    cases (show ec = true from hb)
    have hentry : itable true 0x6b0 = .br := rfl
    have hd : (fetchedInstr true pc w false).op = .br :=
      fetchedInstr_op_of_eq (eq_of_beq hhas) hentry rfl
    exact takenFor_of_idle hd (by decide) fun _ => rfl
  | ret =>
    have hentry : itable ec 0x6b2 = .ret := by cases ec <;> rfl
    have hd : (fetchedInstr ec pc w false).op = .ret :=
      fetchedInstr_op_of_eq (eq_of_beq hhas) hentry rfl
    exact takenFor_of_idle hd (by decide) fun _ => rfl
  | system =>
    have hentry : itable ec 0x6a8 = .nop := by cases ec <;> rfl
    have hd : (fetchedInstr ec pc w false).op = .nop :=
      fetchedInstr_op_of_eq (eq_of_beq hhas) hentry rfl
    exact takenFor_of_idle hd (by decide) fun _ => rfl
  | hlt =>
    have hentry : itable ec 0x6a2 = .hlt := by cases ec <;> rfl
    have hd : (fetchedInstr ec pc w false).op = .hlt :=
      fetchedInstr_op_of_eq (eq_of_beq hhas) hentry rfl
    exact takenFor_of_idle hd (by decide) fun _ => rfl

end

end ChArm
