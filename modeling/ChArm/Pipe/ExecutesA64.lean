import ChArm.Base.Board
import ChArm.Pipe.DecodeSound
import ChArm.Pipe.Pipelining

/-!
# The pipeline executes A64

A step of the sequential machine is an instruction of an A64 processor on a board, unless the word
is one that the tables misread (`cpu_step`).  So what the pipeline has done once it halts is what
the architecture prescribes for the program (`pipeline_executes`).

* `selectPC_next` — the PC that `select_PC` resolves an instruction to.
* `executes_inst` — one instruction does what A64 says, and goes on there.
* `cpu_step` — one instruction of the sequential machine is one of the processor.
* `sequential_executes`, `pipeline_executes` — whole programs.
-/

namespace ChArm

/-! ## The processor of a machine -/

instance (img : Image) (pc : Word) : Decidable (img.InText pc) :=
  decidable_of_iff (pc ≠ 0 ∧ addrInImem img.memory pc = true ∧ pc &&& 0x3#64 = 0)
    ⟨fun h => ⟨h.1, h.2.1, h.2.2⟩, fun h => ⟨h.ne_zero, h.inImem, h.aligned⟩⟩

/-- The words of a program: those of its text segment, and at address 0, where `main` returns to,
the `HLT` that fetch makes up. -/
def Image.code (img : Image) (pc : Word) : Option (BitVec 32) :=
  if pc = 0 then some 0xD4400000#32 else if img.InText pc then some (img.word pc) else none

/-- What a program sees of the machine.  The flags are `X_nzcvval`, the copy that conditions test;
`guest.proc->NZCV` differs from it until the first instruction that sets flags. -/
def Machine.cpu (t : Machine) : A64.Cpu Board :=
  ⟨t.PC, archState t.regs (unpackFlags t.xNzcvval), t.mem.board⟩

/-- The processor that is to run a program. -/
abbrev Image.Run (img : Image) (entry : Word) (n : Nat) (γ : Nat → A64.Cpu Board) : Prop :=
  A64.Cpu.Run (boardBus img.segStart) img.code (Machine.init img entry).cpu n γ

/-- Run as A64 prescribes, the program never comes to a word that the tables take for another
instruction. -/
def Image.ReadAsMeant (img : Image) (entry : Word) : Prop :=
  Runs.Always (A64.Cpu.step (boardBus img.segStart) img.code) (fun c => !c.halted img.code)
    (fun c => ¬ Misread false c.pc (img.word c.pc)) (Machine.init img entry).cpu

/-! ## Flags -/

theorem packFlags_unpackFlags : ∀ f : BitVec 8, f < 16#8 → packFlags (unpackFlags f) = f := by
  decide

/-- The flag byte has four bits. -/
theorem flagsAfter_lt {x : XInstr} {f : BitVec 8} (hf : f < 16#8) : flagsAfter x f < 16#8 := by
  unfold flagsAfter executeAlu alu
  split_ifs
  · unfold aluFlags
    dsimp only
    split_ifs <;> decide
  · exact hf

/-! ## Where the next instruction is -/

section

variable {pc : Word} {w : BitVec 32} {g : A64.Group} {i : A64.Inst}

/-- The opcode of a word of a group. -/
theorem op_of_group (hg : A64.Group.ofWord w = some g) (hb : GroupInBuild false g) :
    (fetchedInstr false pc w false).op = fixInstrAliases false w (groupEntry g) := by
  have htaken : TakenFor false pc w (takenAddr pc g) (takenInst w g) := takenFor_group hg hb
  have hentry := ofWord_of_itable ((not_congr fetchedInstr_ins_iff).1 htaken.status)
  rw [hg] at hentry
  exact congrArg (fixInstrAliases false w) (Option.some.inj hentry).symm

/-- No alias is a branch. -/
theorem fixInstrAliases_not_branch {op : Opcode} (h : op ∉ [Opcode.b, .bl, .bCond, .ret]) :
    fixInstrAliases false w op ∉ [Opcode.b, .bl, .bCond, .ret] := by
  unfold fixInstrAliases
  split <;> first | exact h | (split_ifs <;> first | exact h | decide)

/-- Only the branches have the opcode of one. -/
theorem groupEntry_not_branch (hbr : g.branches = false) :
    groupEntry g ∉ [Opcode.b, .bl, .bCond, .ret] := by
  cases g with
  | loadStore load => cases load <;> decide
  | shifted op => cases op <;> decide
  | bitfield signed => cases signed <;> decide
  | select inverting => cases inverting <;> decide
  | b | bl | bCond | cbz | cbnz | br | blr | ret => cases hbr
  | _ => decide

/-- `HLT` has no alias. -/
theorem fixInstrAliases_eq_hlt {op : Opcode} (h : fixInstrAliases false w op = .hlt) :
    op = .hlt := by
  unfold fixInstrAliases at h
  split at h <;> first | exact h | split_ifs at h

theorem groupEntry_eq_hlt (h : groupEntry g = .hlt) : g = .hlt := by
  cases g with
  | loadStore load => cases load <;> cases h
  | shifted op => cases op <;> cases h
  | bitfield signed => cases signed <;> cases h
  | select inverting => cases inverting <;> cases h
  | hlt => rfl
  | _ => cases h

/-- `select_PC` after an instruction that is no branch. -/
theorem selectPC_of_goesOn {op : Opcode} (hop : op ∉ [Opcode.b, .bl, .bCond, .ret]) (valA : Word)
    (c : Bool) (seqSucc : Word) :
    selectPC false (predictPC false pc w op).1 op valA op c seqSucc = pc + 4#64 := by
  simp only [List.mem_cons, List.not_mem_nil, or_false, not_or] at hop
  obtain ⟨hb, hbl, hcond, hret⟩ := hop
  simp [selectPC, predictPC, hb, hbl, hcond, hret]

/-- **The PC an instruction resolves to is the one A64 prescribes.** -/
theorem selectPC_next (pc : Word) (hg : A64.Group.ofWord w = some g) (hb : GroupInBuild false g)
    (hi : A64.Inst.ofGroup w g = some i) (l : Locals) (rca : Rca) (r : Regs) (f : A64.Flags) :
    let d := fetchedInstr false pc w false
    let x := (decode false l r d).1
    selectPC false (predictPC false pc w d.op).1 d.op x.valA d.op
        (execute false rca (packFlags f) x).condHolds (pc + 4#64) = i.next pc (archState r f) := by
  intro d x
  -- what is no branch goes on to the next word; every branch has its own target
  cases hbr : g.branches with
  | false =>
    rw [A64.next_of_not_branches hbr hi, op_of_group hg hb]
    exact selectPC_of_goesOn (fixInstrAliases_not_branch (groupEntry_not_branch hbr)) _ _ _
  | true =>
    have hhas : g.has (w.extractLsb' 21 11) = true := List.find?_some hg
    cases g with
    | b =>
      have hop : d.op = .b :=
        congrArg DInstr.op (fetchedInstr_b false pc (field_of_has (by decide) hhas))
      cases hi
      rw [hop]
      exact congrArg (pc + ·) offset26
    | bl =>
      have hop : d.op = .bl :=
        congrArg DInstr.op (fetchedInstr_bl false pc (field_of_has (by decide) hhas))
      cases hi
      rw [hop]
      exact congrArg (pc + ·) offset26
    | bCond =>
      have hd := fetchedInstr_bCond false pc (field_of_has (by decide) hhas)
      have hop : d.op = .bCond := congrArg DInstr.op hd
      have hcond : x.cond = .ofBits ((w.extractLsb' 0 4).setWidth 32) := by
        rw [← bitfieldU32_eq w (by decide) (by decide)]
        show decodeCond false w d.op = _
        rw [hop]
        rfl
      -- the ALU passes a value on, so the condition is that of the flags as they were
      have hpass : x.aluOp = .passA := by
        show decideAluOp false d.op = _
        rw [hop]
        rfl
      dsimp only [A64.Inst.ofGroup] at hi
      split_ifs at hi
      cases hi
      rw [condHolds_eq hpass, hcond, condHolds_packFlags, hop, A64.Inst.next, A64.PcInstr.next,
        archState]
      cases A64.conditionHolds (w.extractLsb' 0 4) f with
      | false => rfl
      | true => exact congrArg (pc + ·) offset19
    | ret =>
      have hmem : (Opcode.ret, 0x6b2, 0x6b2) ∈ itableEntries false := by decide
      have hidx : (w.extractLsb' 21 11).toNat = 0x6b2 := congrArg BitVec.toNat (eq_of_beq hhas)
      have hd : d = ⟨w, .ret, .b3, pc + 4, .aok⟩ :=
        fetchedInstr_eq false pc hmem hidx.ge hidx.le .ret rfl (by decide) (by decide)
      have hop : d.op = .ret := congrArg DInstr.op hd
      have hregs : x.valA = (archState r f).xzr (A64.rn w) := by
        rw [← readPort_spToXzr l r f, ← regField_eq w (by decide)]
        show (decode false l r d).1.valA = _
        rw [hd]
        rfl
      dsimp only [A64.Inst.ofGroup] at hi
      split_ifs at hi
      cases hi
      rw [hop, hregs, selectPC, A64.Inst.next]
      -- a return from `main` goes to address 0
      by_cases h0 : (archState r f).xzr (A64.rn w) = RET_FROM_MAIN_ADDR
      · rw [if_pos ⟨rfl, h0⟩, h0]
        rfl
      · rw [if_neg fun hc => h0 hc.2, if_pos rfl]
    | cbz | cbnz | br | blr => cases hb
    | _ => cases hbr

end

/-! ## One instruction -/

section

variable {img : Image} {t t' : Machine}

theorem retireInstr_status (s : Machine) :
    (retireInstr s).status = s.W.out.status ∧
      (retireInstr s).deassertFlags = (s.deassertFlags || s.W.out.status.isError) := by
  dsimp only [retireInstr, updateFlags]
  split_ifs <;> exact ⟨rfl, rfl⟩

theorem wbackInstr_status (s : Machine) : (wbackInstr s).W.out.status = s.W.out.status := by
  dsimp only [wbackInstr]
  split_ifs <;> rfl

/-- A sequential step fetches, makes its access and retires. -/
theorem seqStep_retires (h : seqStep t = .ok t') :
    ∃ d fStatus fPC fMem valMem err mem,
      fetchWires false t.emptied = .ok (d, fStatus, fPC, fMem) ∧
      seqAccess t d fMem = .ok (valMem, err, mem) ∧
      t'.status = (if err then .adr else d.status) ∧
      t'.deassertFlags = (t.deassertFlags || t'.status.isError) := by
  rw [seqStep, fetchInstr_eq] at h
  cases hf : fetchWires false t.emptied with
  | error e =>
    rw [hf] at h
    cases h
  | ok r =>
    obtain ⟨d, fStatus, fPC, fMem⟩ := r
    let s₁ : Machine := { t.emptied with
      D := ⟨d, d, .bubble⟩
      F := ⟨⟨0, fStatus⟩, ⟨t.PC, fStatus⟩, .bubble⟩
      fPC := fPC
      mem := fMem }
    let s₂ := executeInstr false { decodeInstr false s₁ with X := (decodeInstr false s₁).X.pass }
    let s₃ : Machine := { s₂ with M := s₂.M.pass }
    have hacc : dataAccess s₃ = seqAccess t d fMem := rfl
    rw [hf] at h
    change (memoryInstr s₃ >>= fun s => .ok (retireInstr (wbackInstr { s with W := s.W.pass }))) =
      .ok t' at h
    rw [memoryInstr_eq, hacc] at h
    cases hd : seqAccess t d fMem with
    | error e =>
      rw [hd] at h
      cases h
    | ok r =>
      obtain ⟨valMem, err, mem⟩ := r
      rw [hd] at h
      refine ⟨d, fStatus, fPC, fMem, valMem, err, mem, rfl, hd, ?_⟩
      rw [← Except.ok.inj h, (retireInstr_status _).1, (retireInstr_status _).2, wbackInstr_status]
      exact ⟨rfl, rfl⟩

/-- What a sequential step that signals no fault has done. -/
theorem seqStep_inv (h : seqStep t = .ok t') (hno : t'.deassertFlags = false) :
    ∃ d fStatus fPC fMem valMem mem, t.deassertFlags = false ∧ d.status.isError = false ∧
      fetchWires false t.emptied = .ok (d, fStatus, fPC, fMem) ∧
      seqAccess t d fMem = .ok (valMem, false, mem) ∧ SeqNext t d fPC valMem mem t' := by
  obtain ⟨d, fStatus, fPC, fMem, valMem, err, mem, hf, hd, hst, hdeassert⟩ := seqStep_retires h
  rw [hdeassert, Bool.or_eq_false_iff, hst] at hno
  cases err with
  | true => cases hno.2
  | false =>
    obtain ⟨t'', hstep, hnext⟩ := seqStep_eq hno.1 hno.2 hf hd
    cases h.symm.trans hstep
    exact ⟨d, fStatus, fPC, fMem, valMem, mem, hno.1, hno.2, hf, hd, hnext⟩

/-- An `HLT` changes nothing but the PC and the status. -/
theorem SeqNext.hlt {d : DInstr} {fPC valMem : Word} {fMem mem : Memory}
    (h : SeqNext t d fPC valMem mem t') (hd : d.Ok false) (hst : d.status = .hlt)
    (hacc : seqAccess t d fMem = .ok (valMem, false, mem)) :
    t'.regs = t.regs ∧ t'.xNzcvval = t.xNzcvval ∧ t'.mem = fMem := by
  have hop : d.op = .hlt := hd.status.of_hlt hst
  have hsigs := (seqM_ok t hd).access
  rw [show (seqM t d).op = .hlt from hop] at hsigs
  have hset : (seqX t d).xSigs.setFlags = false := by
    rw [show (seqX t d).xSigs = _ from congrArg Prod.fst (seqX_ok t hd).sigs,
      show (seqX t d).op = .hlt from hop]
    rfl
  have hen : writeEnable (passMemory (seqM t d) valMem) = false := by
    have hstatus : (passMemory (seqM t d) valMem).status = .hlt := hst
    rw [writeEnable, hstatus]
    exact Bool.and_false _
  rw [seqAccess, hsigs.1, hsigs.2] at hacc
  refine ⟨?_, ?_, ?_⟩
  · rw [h.regs, retire_of_disabled hen]
  · rw [h.xNzcvval, flagsAfter_of_not_setFlags hset]
  · rw [h.mem]
    cases hacc
    rfl

theorem fetchStatus_cases (imemErr : Bool) (op : Opcode) :
    fetchStatus imemErr op = .ins ∨ fetchStatus imemErr op = .hlt ∨
      fetchStatus imemErr op = .aok := by
  unfold fetchStatus
  split_ifs <;> simp

/-- What the sequential machine executes in earnest. -/
theorem seqStep_inText (hl : t.mem.Loaded img) (hends : ¬ img.EndsAt t.PC) {d : DInstr}
    {fStatus : Stat} {fPC : Word} {fMem : Memory}
    (hf : fetchWires false t.emptied = .ok (d, fStatus, fPC, fMem))
    (hquiet : d.status.isError = false) :
    img.InText t.PC ∧ d = img.instrAt t.PC ∧ d.status = .aok ∧ fPC = d.predicted ∧
      fMem.Uncached ∧ t.mem.Agrees fMem := by
  have hne : t.PC ≠ 0 := fun h0 => hends (.inl h0)
  have hpc : img.InText t.PC := by
    by_contra hpc
    rcases fetchWires_inv hf with ⟨hh, -⟩ | ⟨-, insnbits, imemErr, hi, hd, -⟩
    · rw [fetchHalts, show fetchPC false t.emptied = t.PC from rfl, beq_eq_false_iff_ne.2 hne] at hh
      cases hh
    · rw [hd, imem_error (s := t.emptied) hl hne hpc hi] at hquiet
      simp [fetchedInstr, fetchStatus, Stat.isError] at hquiet
  obtain ⟨fMem', hf', hu, hag⟩ := seqFetch hl hpc
  cases hf.symm.trans hf'
  refine ⟨hpc, rfl, ?_, rfl, hu, hag⟩
  have hstatus : (img.instrAt t.PC).status ≠ .hlt := fun hh => hends (.inr ⟨hpc, hh⟩)
  rcases fetchStatus_cases false (img.instrAt t.PC).op with hst | hst | hst
  · exact absurd (hquiet.symm.trans (congrArg Stat.isError hst)) (by decide)
  · exact absurd hst hstatus
  · exact hst

/-- A word that fetch lets through is one of a group. -/
theorem exists_group {pc : Word} {w : BitVec 32}
    (h : (fetchedInstr false pc w false).status ≠ .ins) :
    ∃ g, A64.Group.ofWord w = some g ∧ GroupInBuild false g := by
  by_contra hno
  exact h (fetchedInstr_ins fun g hg hb => hno ⟨g, hg, hb⟩)

/-- **An instruction that is not misread does what A64 says, and goes on there.** -/
theorem executes_inst {d : DInstr} {pc : Word} {w : BitVec 32} {f : BitVec 8}
    (hd : d = fetchedInstr false pc w false) (hst : d.status ≠ .ins) (halign : pc.toNat % 4 = 0)
    (hread : ¬ Misread false pc w) (hf : f < 16#8) (l : Locals) (rca : Rca) (r : Regs) :
    let x := (decode false l r d).1
    ∃ i, A64.Inst.ofWord w = some i ∧
      i.outcome pc (archState r (unpackFlags f)) =
        outcomeFrom r (execute false rca f x) (flagsAfter x f) ∧
      i.next pc (archState r (unpackFlags f)) =
        selectPC false d.predicted d.op x.valA d.op (execute false rca f x).condHolds d.seqSuccPC := by
  intro x
  subst hd
  obtain ⟨g, hg, hb⟩ := exists_group hst
  have hmeans : MeansTaken pc w g :=
    (meansTaken_iff_not_misread g halign).2 fun hm => hread ⟨g, hg, hb, hm⟩
  have heffect := ((decodeSound_iff_meansTaken hg hb).2 hmeans).effect l rca r (unpackFlags f)
  rw [A64.meaning_eq, Option.map_eq_some_iff] at heffect
  obtain ⟨i, hi, heffect⟩ := heffect
  have hofGroup : A64.Inst.ofGroup w g = some i := by
    rw [A64.Inst.ofWord, hg] at hi
    exact hi
  have hnext := selectPC_next pc hg hb hofGroup l rca r (unpackFlags f)
  refine ⟨i, hi, ?_, ?_⟩
  · rw [heffect, outcomeOf, packFlags_unpackFlags f hf]
    exact congrArg (outcomeFrom r _) (executeAlu_rca rca .zero f x).2.2
  · have hseq : (fetchedInstr false pc w false).seqSuccPC = pc + 4#64 :=
      fetchedInstr_seqSuccPC false pc w false
    have hpc : (fetchedInstr false pc w false).pc = pc := by
      rw [DInstr.pc, hseq]
      exact BitVec.add_sub_cancel _ _
    rw [← hnext, packFlags_unpackFlags f hf, DInstr.predicted, hpc, hseq]
    rfl

/-- A word that A64 means an `HLT` by is fetched as one. -/
theorem status_of_hlt {pc : Word} {w : BitVec 32} (h : A64.Inst.ofWord w = some .hlt) :
    (fetchedInstr false pc w false).status = .hlt := by
  have hop : (fetchedInstr false pc w false).op = .hlt := op_of_group (A64.ofWord_eq_hlt h).1 trivial
  show fetchStatus false (fetchedInstr false pc w false).op = .hlt
  rw [hop]
  rfl

theorem Image.InText.toNat_mod {pc : Word} (h : img.InText pc) : pc.toNat % 4 = 0 := by
  have hand : (pc &&& 0x3#64).toNat = pc.toNat % 4 := by
    rw [BitVec.toNat_and]
    exact Nat.and_two_pow_sub_one_eq_mod pc.toNat 2
  rw [← hand, h.aligned]
  rfl

theorem Image.code_of_inText {pc : Word} (h : img.InText pc) : img.code pc = some (img.word pc) := by
  rw [Image.code, if_neg h.ne_zero, if_pos h]

/-- **One instruction of the sequential machine is one of the A64 processor.** -/
theorem cpu_step (hl : t.mem.Loaded img) (hflags : t.xNzcvval < 16#8)
    (hends : ¬ img.EndsAt t.PC) (hread : ¬ Misread false t.PC (img.word t.PC))
    (h : seqStep t = .ok t') (hno : t'.deassertFlags = false) :
    t.cpu.step (boardBus img.segStart) img.code = .ok t'.cpu ∧ t'.mem.Loaded img ∧
      t'.xNzcvval < 16#8 := by
  obtain ⟨d, fStatus, fPC, fMem, valMem, mem, -, hquiet, hf, hacc, hnext⟩ := seqStep_inv h hno
  obtain ⟨hpc, hd, hst, rfl, hu, hag⟩ := seqStep_inText hl hends hf hquiet
  have hok : d.Ok false := (fetchWires_ok hf).1
  have hm := seqM_ok t hok
  obtain ⟨i, hi, houtcome, hgoes⟩ := executes_inst hd (by rw [hst]; decide) hpc.toNat_mod hread
    hflags (t.locals t.numInstr) t.rca t.regs
  have hcode := Image.code_of_inText hpc
  have haccess := dmem_board hu hm.not_both hacc
    (fun v => archState (retire t.regs (passMemory (seqM t d) v))
      (unpackFlags (flagsAfter (seqX t d) t.xNzcvval)))
  rw [(hl.of_agrees hu hag).segStart, board_of_agree hag] at haccess
  refine ⟨?_, ?_, ?_⟩
  · have hcpu : t'.cpu = ⟨i.next t.PC t.cpu.state,
        (i.outcome t.PC t.cpu.state).after valMem, mem.board⟩ := by
      rw [show t.cpu.state = archState t.regs (unpackFlags t.xNzcvval) from rfl, houtcome, hgoes,
        Machine.cpu, hnext.pc, hnext.regs, hnext.xNzcvval, hnext.mem]
      rfl
    rw [hcpu]
    refine A64.Cpu.step_eq hcode hi ?_
    rw [show t.cpu.state = archState t.regs (unpackFlags t.xNzcvval) from rfl,
      show t.cpu.pc = t.PC from rfl, houtcome]
    exact haccess
  · rw [hnext.mem]
    exact (hl.of_agrees hu hag).dmem hm.not_both hacc
  · rw [hnext.xNzcvval]
    exact flagsAfter_lt hflags

/-- Where the program goes on, the processor has not come to its `HLT`. -/
theorem not_halted_of_not_ends (hpc : img.InText t.PC) (hends : ¬ img.EndsAt t.PC) :
    t.cpu.halted img.code = false := by
  rw [A64.Cpu.halted, A64.Cpu.fetched, show t.cpu.pc = t.PC from rfl, Image.code_of_inText hpc,
    beq_eq_false_iff_ne]
  exact fun hi => hends (.inr ⟨hpc, status_of_hlt hi⟩)

/-- An `HLT` that the tables know is one, unless it is misread. -/
theorem ofWord_of_status {pc : Word} {w : BitVec 32}
    (hst : (fetchedInstr false pc w false).status = .hlt) (hread : ¬ Misread false pc w) :
    A64.Inst.ofWord w = some .hlt := by
  obtain ⟨g, hg, hb⟩ := exists_group (w := w) (by rw [hst]; decide)
  have hop : (fetchedInstr false pc w false).op = .hlt := (fetchedInstr_ok ..).status.of_hlt hst
  rw [op_of_group hg hb] at hop
  cases groupEntry_eq_hlt (fixInstrAliases_eq_hlt hop)
  refine A64.ofWord_hlt hg ?_
  by_contra hrd
  exact hread ⟨.hlt, hg, hb, hrd⟩

/-- Where it ends, the processor has, unless it misreads its `HLT`. -/
theorem halted_of_ends (hends : img.EndsAt t.PC)
    (hread : t.cpu.halted img.code = false → ¬ Misread false t.PC (img.word t.PC)) :
    t.cpu.halted img.code = true := by
  by_contra hno
  have hread := hread (Bool.eq_false_iff.2 hno)
  refine hno ?_
  rw [A64.Cpu.halted, A64.Cpu.fetched, show t.cpu.pc = t.PC from rfl, beq_iff_eq]
  rcases hends with h0 | ⟨hpc, hst⟩
  · rw [h0, Image.code, if_pos rfl]
    decide
  · rw [Image.code_of_inText hpc]
    exact ofWord_of_status hst hread

/-- The step in which the program ends. -/
theorem seqStep_ends (hl : t.mem.Loaded img) (hends : img.EndsAt t.PC) (h : seqStep t = .ok t')
    (hno : t'.deassertFlags = false) :
    t'.status = .hlt ∧ t'.cpu.state = t.cpu.state ∧ t'.cpu.mem = t.cpu.mem := by
  obtain ⟨d, fStatus, fPC, fMem, valMem, mem, -, hquiet, hf, hacc, hnext⟩ := seqStep_inv h hno
  obtain ⟨d', fPC', fMem', hf', hst, hu, hag⟩ := seqFetch_ends hl hends
  cases hf.symm.trans hf'
  obtain ⟨hregs, hflags, hmem⟩ := hnext.hlt (fetchWires_ok hf).1 hst hacc
  refine ⟨hnext.status.trans hst, ?_, ?_⟩
  · rw [Machine.cpu, Machine.cpu, hregs, hflags]
  · rw [Machine.cpu, Machine.cpu, hmem, board_of_agree hag]

/-- The status tells whether the program has ended. -/
theorem not_ends_of_running (hl : t.mem.Loaded img) (h : seqStep t = .ok t')
    (hno : t'.deassertFlags = false) (hrun : t'.running = true) : ¬ img.EndsAt t.PC := by
  intro hends
  rw [Machine.running, (seqStep_ends hl hends h hno).1] at hrun
  cases hrun

theorem inText_of_not_ends (hl : t.mem.Loaded img) (h : seqStep t = .ok t')
    (hno : t'.deassertFlags = false) (hends : ¬ img.EndsAt t.PC) : img.InText t.PC := by
  obtain ⟨d, fStatus, fPC, fMem, valMem, mem, -, hquiet, hf, -⟩ := seqStep_inv h hno
  exact (seqStep_inText hl hends hf hquiet).1

theorem ends_of_hlt (hl : t.mem.Loaded img) (h : seqStep t = .ok t')
    (hno : t'.deassertFlags = false) (hst : t'.status = .hlt) : img.EndsAt t.PC := by
  by_contra hends
  obtain ⟨d, fStatus, fPC, fMem, valMem, mem, -, hquiet, hf, hacc, hnext⟩ := seqStep_inv h hno
  obtain ⟨-, -, haok, -⟩ := seqStep_inText hl hends hf hquiet
  rw [hnext.status, haok] at hst
  cases hst

end

/-! ## Whole runs -/

section

variable {img : Image} {entry : Word} {m : Nat} {τ : Nat → Machine}

/-- A fault that is signalled stays signalled. -/
theorem Sequential.quiet (h : Sequential img entry m τ) (hfault : (τ m).deassertFlags = false) :
    ∀ k ≤ m, (τ k).deassertFlags = false := by
  intro k hk
  induction hk using Nat.decreasingInduction with
  | self => exact hfault
  | of_succ k hk ih =>
    obtain ⟨d, fStatus, fPC, fMem, valMem, mem, hno, -⟩ := seqStep_inv (h.next k hk).2 ih
    exact hno

/-- The processor follows the sequential machine up to the instruction that ends the program. -/
theorem Sequential.followed (h : Sequential img entry m τ) (hc : img.cache = none)
    (hfault : (τ m).deassertFlags = false) (hread : img.ReadAsMeant entry) {k : Nat} (hk : k < m) :
    ∃ γ, img.Run entry k γ ∧ (τ k).mem.Loaded img ∧ γ k = (τ k).cpu := by
  have hsim : ∃ γ, img.Run entry k γ ∧
      ∀ j ≤ k, γ j = (τ j).cpu ∧ (τ j).mem.Loaded img ∧ (τ j).xNzcvval < 16#8 := by
    refine Runs.Trace.simulate (R := fun _ t c => c = t.cpu ∧ t.mem.Loaded img ∧ t.xNzcvval < 16#8)
      (h.mono hk.le) ⟨rfl, .init hc, show 0#8 < 16#8 by decide⟩ ?_
    rintro j hj γ hγ ⟨hcpu, hl, hflags⟩
    have hstep := (h.next j (by omega)).2
    have hno := h.quiet hfault (j + 1) (by omega)
    have hends := not_ends_of_running hl hstep hno (h.next (j + 1) (by omega)).1
    have hgoes := not_halted_of_not_ends (inText_of_not_ends hl hstep hno hends) hends
    have hread := hread j γ hγ
    rw [hcpu] at hread ⊢
    have hgoes : (!(τ j).cpu.halted img.code) = true := congrArg not hgoes
    obtain ⟨hcpu', hl', hflags'⟩ := cpu_step hl hflags hends (hread hgoes) hstep hno
    exact ⟨_, ⟨hgoes, hcpu'⟩, rfl, hl', hflags'⟩
  obtain ⟨γ, hγ, hR⟩ := hsim
  obtain ⟨hcpu, hl, -⟩ := hR k le_rfl
  exact ⟨γ, hγ, hl, hcpu⟩

/-- **What the sequential machine computes is what A64 prescribes.**  A program that it runs to the
end without a fault ends on an A64 processor as well, with the same registers, flags, memory and
console. -/
theorem sequential_executes (h : Sequential img entry m τ) (hc : img.cache = none)
    (hfault : (τ m).deassertFlags = false) (hend : (τ m).status = .hlt)
    (hread : img.ReadAsMeant entry) :
    ∃ k γ, img.Run entry k γ ∧ (γ k).halted img.code = true ∧
      (γ k).state = (τ m).cpu.state ∧ (γ k).mem = (τ m).cpu.mem := by
  obtain ⟨k, rfl⟩ : ∃ k, m = k + 1 := by
    cases m with
    | zero =>
      rw [h.start] at hend
      cases hend
    | succ k => exact ⟨k, rfl⟩
  obtain ⟨γ, hγ, hl, hcpu⟩ := h.followed hc hfault hread (Nat.lt_succ_self k)
  have hstep := (h.next k (Nat.lt_succ_self k)).2
  have hends := ends_of_hlt hl hstep hfault hend
  obtain ⟨-, hstate, hmem⟩ := seqStep_ends hl hends hstep hfault
  refine ⟨k, γ, hγ, ?_, ?_, ?_⟩
  · have hread := hread k γ hγ
    rw [hcpu] at hread ⊢
    exact halted_of_ends hends fun hno => hread (congrArg not hno)
  · rw [hcpu, hstate]
  · rw [hcpu, hmem]

end

/-! ## The pipeline -/

section

variable {img : Image} {entry : Word} {n : Nat} {σ : Nat → Machine}

/-- A run of the pipeline that halts has done all that the sequential machine does. -/
theorem Execution.drains (h : Execution false img entry n σ) (hc : img.cache = none)
    (hfault : (σ n).deassertFlags = false) (hend : (σ n).status = .hlt)
    (hb : ∀ k < n, (σ k).Benign) :
    ∃ m τ, Sequential img entry m τ ∧ (τ m).deassertFlags = false ∧ (τ m).status = .hlt ∧
      Behind (τ m) (τ m) (τ m) (σ n) := by
  obtain ⟨k, rfl, hhalt, hbefore⟩ := h.exists_halt hc hfault hend
  obtain ⟨j, rfl⟩ : ∃ j, k = j + 1 := by
    cases k with
    | zero =>
      rw [h.start] at hhalt
      cases hhalt
    | succ j => exact ⟨j, rfl⟩
  have hplain : ∀ i < j + 4, ∃ v, Plain (σ i) v ∧ σ (i + 1) = next false (σ i) v := by
    intro i hi
    obtain ⟨v, hs, hnext⟩ := h.smooth hc hfault hi
    refine ⟨v, ⟨hs, h.uncached hc hi.le, ?_, (hb i hi).console⟩, hnext⟩
    rw [← hnext]
    exact h.quiet hfault (i + 1) hi
  -- one step of the sequential machine, or none, for each cycle until its `HLT` enters X
  have hstart : Trailing img (.init img entry) (σ 0) := h.start ▸ trailing_init hc entry
  obtain ⟨m, τ, hτ, x, c, tX, tM, tW, ht⟩ : ∃ m τ, Sequential img entry m τ ∧
      Trailing img (τ m) (σ j) := by
    refine Runs.Trace.of_stutter (R := fun i t => Trailing img t (σ i)) hstart ?_
    rintro i hi t ⟨x, c, tX, tM, tW, ht⟩
    obtain ⟨v, hp, hn⟩ := hplain i (by omega)
    obtain ⟨v', hp', hn'⟩ := hplain (i + 1) (by omega)
    obtain ⟨v'', hp'', -⟩ := hplain (i + 2) (by omega)
    have hb' := hb (i + 1) (by omega)
    have hhlt := hbefore (i + 1) (by omega)
    rw [hn'] at hp''
    rw [hn] at hp' hp'' hb' hhlt ⊢
    exact ht.next hp hp' hp'' (hb i (by omega)) hb' hhlt
  obtain ⟨v, hp, hn⟩ := hplain j (by omega)
  rw [hn] at hhalt
  obtain ⟨t, hstep, hst, hsame⟩ := ht.ends hp hhalt
  have hno : t.deassertFlags = false := by
    obtain ⟨-, -, -, -, -, -, -, -, -, -, hdeassert⟩ := seqStep_retires hstep.2
    rw [hdeassert, ht.seqNoFault, hst]
    rfl
  -- three more cycles, in which every instruction left in the pipeline retires
  have hdrain : ∀ i tX tM tW t', i < 3 → Behind tX tM tW (σ (j + 1 + i)) → Tail (σ (j + 1 + i)) →
      SameState tX t' → Behind t' tX tM (σ (j + 1 + (i + 1))) ∧ Tail (σ (j + 1 + (i + 1))) := by
    intro i tX tM tW t' hi hbehind htail hsame
    obtain ⟨v, hp, hn⟩ := hplain (j + 1 + i) (by omega)
    rw [← Nat.add_assoc, hn]
    exact ⟨hbehind.next hp (xEffect_idle hp.wf.x (.inr htail.x) hsame), htail.next hp.toSmooth⟩
  have hbehind : Behind (τ m) tX tM (σ (j + 1)) := hn ▸ ht.behind.next hp ht.effect
  have htail : Tail (σ (j + 1)) := hn ▸ ht.tail hp hhalt
  obtain ⟨hbehind, htail⟩ := hdrain 0 _ _ _ t (by decide) hbehind htail hsame
  obtain ⟨hbehind, htail⟩ := hdrain 1 _ _ _ t (by decide) hbehind htail (.refl t)
  obtain ⟨hbehind, -⟩ := hdrain 2 _ _ _ t (by decide) hbehind htail (.refl t)
  obtain ⟨τ', hτ', -, hlast⟩ := hτ.snoc hstep
  refine ⟨m + 1, τ', hτ', ?_⟩
  rw [hlast]
  exact ⟨hno, hst, hbehind⟩

/-- **The pipeline executes A64.**  In every run of the base build without a cache that halts
without a fault, in which every cycle is benign and no word is misread, an A64 processor that runs
the same program halts as well, with the same registers, flags, memory and console. -/
theorem pipeline_executes (h : Execution false img entry n σ) (hc : img.cache = none)
    (hfault : (σ n).deassertFlags = false) (hend : (σ n).status = .hlt)
    (hb : ∀ k < n, (σ k).Benign) (hread : img.ReadAsMeant entry) :
    ∃ k γ, img.Run entry k γ ∧ (γ k).halted img.code = true ∧
      (γ k).state = (σ n).cpu.state ∧ (γ k).mem = (σ n).cpu.mem := by
  obtain ⟨m, τ, hτ, hno, hst, hbehind⟩ := h.drains hc hfault hend hb
  obtain ⟨k, γ, hγ, hhalted, hstate, hmem⟩ := sequential_executes hτ hc hno hst hread
  refine ⟨k, γ, hγ, hhalted, hstate.trans ?_, hmem.trans ?_⟩
  · rw [Machine.cpu, Machine.cpu, hbehind.regs, hbehind.xNzcvval]
  · exact (board_of_agree hbehind.mem).symm

end

/-- The A64 processor after `k` instructions, as far as it goes. -/
def a64StateAt (img : Image) (entry : Word) (k : Nat) : A64.Cpu Board :=
  Runs.states (A64.Cpu.step (boardBus img.segStart) img.code) (fun c => !c.halted img.code)
    (Machine.init img entry).cpu k

/-- Instructions that an A64 processor gets through are a run of it. -/
theorem run_a64StateAt {img : Image} {entry : Word} {n : Nat}
    (h : ∀ k < n, okAnd (Runs.iter (A64.Cpu.step (boardBus img.segStart) img.code)
      (fun c => !c.halted img.code) k (Machine.init img entry).cpu)
      (fun c => !c.halted img.code &&
        okAnd (A64.Cpu.step (boardBus img.segStart) img.code c) fun _ => true) = true) :
    img.Run entry n (a64StateAt img entry) := by
  refine Runs.trace_states fun k hk => ?_
  obtain ⟨c, hc, hgo⟩ := exists_of_okAnd (h k hk)
  rw [Bool.and_eq_true] at hgo
  obtain ⟨c', hc', -⟩ := exists_of_okAnd hgo.2
  exact ⟨c, c', hc, hgo.1, hc'⟩

/-- A load that the next instruction waits for, a comparison, a branch and the return. -/
theorem pipeline_executes_loadAndBranch :
    let img := Image.ofWords loadAndBranch none
    ∃ k γ, img.Run 0x400000#64 k γ ∧ (γ k).halted img.code = true ∧
      (γ k).state = (stateAt false img 0x400000#64 13).cpu.state ∧
      (γ k).mem = (stateAt false img 0x400000#64 13).cpu.mem := by
  intro img
  have hrun : Execution false img 0x400000#64 13 (stateAt false img 0x400000#64) :=
    execution_stateAt (by decide +kernel)
  have ha64 : img.Run 0x400000#64 4 (a64StateAt img 0x400000#64) :=
    run_a64StateAt (by decide +kernel)
  have hread : img.ReadAsMeant 0x400000#64 :=
    ha64.always (by decide +kernel) (by decide +kernel)
  exact pipeline_executes hrun rfl (by decide +kernel) (by decide +kernel) (by decide +kernel) hread

end ChArm
