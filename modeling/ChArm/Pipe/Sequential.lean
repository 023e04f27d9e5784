import ChArm.Pipe.LoadedText
import ChArm.Pipe.Operands
import ChArm.Pipe.FlagCopies

/-!
# One instruction at a time

The machine the pipeline is meant to be: it pushes one instruction through the
five stages of an otherwise empty pipeline, lets it retire and goes on at the PC
that instruction resolves to.

What an instruction does there is split by the stage it is done in: `XEffect`,
`MEffect` and `WEffect` say that the instruction found in X, M or W still has to
take one state of this machine to the next.
-/

namespace ChArm

/-! ## The sequential machine -/

/-- The pipeline with nothing in it, about to fetch at the PC. -/
def Machine.emptied (s : Machine) : Machine :=
  { s with
    F := { inp := .zero, out := { predPC := s.PC, status := .aok }, ctl := .bubble }
    D := .init .zero
    X := .init .zero
    M := .init .zero
    W := .init .zero }

/-- A pipeline register hands on what the stage before it has left. -/
def PipeReg.pass {α : Type} (r : PipeReg α) : PipeReg α := { r with out := r.inp }

/-- The PC an instruction resolves to: `select_PC` asked once a `RET` has read its register and a
`B.cond` has its condition. -/
def resolvedPC (s : Machine) : Word :=
  selectPC false s.fPC s.X.out.op s.X.out.valA s.M.out.op s.M.out.condHolds s.M.out.seqSuccPC

/-- The instruction retires: status, flags and registers, unless it has faulted, and the PC. -/
def retireInstr (s : Machine) : Machine :=
  let t := { setStatus s with deassertFlags := s.deassertFlags || s.W.out.status.isError }
  { updateRegs (updateFlags t) with PC := resolvedPC s, numInstr := s.numInstr + 1 }

/-- One instruction, on its own. -/
def seqStep (s : Machine) : Except Abort Machine := do
  let s ← fetchInstr false s.emptied
  let s := decodeInstr false { s with D := s.D.pass }
  let s := executeInstr false { s with X := s.X.pass }
  let s ← memoryInstr { s with M := s.M.pass }
  let s := wbackInstr { s with W := s.W.pass }
  .ok (retireInstr s)

/-- The states the sequential machine goes through in its first `n` instructions. -/
abbrev Sequential (img : Image) (entry : Word) (n : Nat) (τ : Nat → Machine) : Prop :=
  Runs.Trace seqStep Machine.running (.init img entry) n τ

/-! ## What it computes -/

/-- The decoded instruction, with operands from the registers. -/
def seqX (t : Machine) (d : DInstr) : XInstr := (decode false (t.locals t.numInstr) t.regs d).1

/-- The executed instruction. -/
def seqM (t : Machine) (d : DInstr) : MInstr := execute false t.rca t.xNzcvval (seqX t d)

/-- Its data access. -/
def seqAccess (t : Machine) (d : DInstr) (mem : Memory) : Except Abort (Word × Bool × Memory) :=
  dmem mem (seqM t d).valEx (seqM t d).valB (seqM t d).mSigs.dmemRead (seqM t d).mSigs.dmemWrite 0

/-- The flag updates of an instruction executed with the flags `f`. -/
def flagWritesOf (x : XInstr) (f : BitVec 8) : List (BitVec 8) :=
  if x.xSigs.setFlags then [flagsAfter x f] else []

/-- The register-file writes of an instruction that retires. -/
def regWritesOf (w : WInstr) : List (RegNum × Word) :=
  regWriteOf (wbackDst w) (wbackVal w) (writeEnable w)

/-- The state after an instruction `d` that signals no error: what fetch predicts after it, what
its load delivers and the memory it leaves. -/
structure SeqNext (t : Machine) (d : DInstr) (fPC valMem : Word) (mem : Memory) (t' : Machine) :
    Prop where
  regs : t'.regs = retire t.regs (passMemory (seqM t d) valMem)
  regWrites : t'.regWrites = t.regWrites ++ regWritesOf (passMemory (seqM t d) valMem)
  xNzcvval : t'.xNzcvval = flagsAfter (seqX t d) t.xNzcvval
  nzcvWrites : t'.nzcvWrites = t.nzcvWrites ++ flagWritesOf (seqX t d) t.xNzcvval
  mem : t'.mem = mem
  pc : t'.PC = selectPC false fPC (seqX t d).op (seqX t d).valA (seqM t d).op
    (seqM t d).condHolds (seqM t d).seqSuccPC
  status : t'.status = d.status
  deassertFlags : t'.deassertFlags = false

/-- The registers, as the sequential machine retires an instruction. -/
theorem updateRegs_wback (r : Regs) (w : WInstr) :
    let i := if w.wSigs.dstSel then { w with dst := 30#8 } else w
    regfileWrite r i.dst (if i.wSigs.wvalSel then i.valMem else i.valEx) (writeEnable i) =
        retire r w ∧
      regWriteOf i.dst (if i.wSigs.wvalSel then i.valMem else i.valEx) (writeEnable i) =
        regWritesOf w ∧ i.status = w.status := by
  intro i
  by_cases h : w.wSigs.dstSel = true
  · have hi : i = { w with dst := 30#8 } := if_pos h
    have hd : wbackDst w = 30#8 := if_pos h
    rw [hi, retire, regWritesOf, hd]
    exact ⟨rfl, rfl, rfl⟩
  · have hi : i = w := if_neg h
    have hd : wbackDst w = w.dst := if_neg h
    rw [hi, retire, regWritesOf, hd]
    exact ⟨rfl, rfl, rfl⟩

/-- What an instruction that signals no error does when it retires. -/
theorem retireInstr_eq {s : Machine} (hno : s.deassertFlags = false)
    (hquiet : s.W.out.status.isError = false) :
    retireInstr s = { s with
      regs := regfileWrite s.regs s.W.out.dst s.wWval (writeEnable s.W.out)
      PC := resolvedPC s
      NZCV := if s.xSetFlags then s.xNzcvval else s.NZCV
      status := s.W.out.status
      numInstr := s.numInstr + 1
      regWrites := s.regWrites ++ regWriteOf s.W.out.dst s.wWval (writeEnable s.W.out)
      nzcvWrites := s.nzcvWrites ++ if s.xSetFlags then [s.xNzcvval] else [] } := by
  obtain ⟨regs, PC, NZCV, status, F, D, X, M, W, fPC, dSrc1, dSrc2, xNzcvval, xSetFlags, mPC, wWval,
    deassertFlags, rca, mem, numInstr, locals, regWrites, nzcvWrites⟩ := s
  obtain rfl : deassertFlags = false := hno
  simp only [retireInstr, hquiet, setStatus, updateFlags, Bool.or_self, Bool.not_false,
    Bool.true_and]
  cases xSetFlags
  · simp only [Bool.false_eq_true, if_false, List.append_nil]
    rfl
  · rfl

/-- **What a sequential step computes.** -/
theorem seqStep_eq {t : Machine} {d : DInstr} {fStatus : Stat} {fPC valMem : Word}
    {fMem mem : Memory} (hno : t.deassertFlags = false) (hquiet : d.status.isError = false)
    (hf : fetchWires false t.emptied = .ok (d, fStatus, fPC, fMem))
    (hd : seqAccess t d fMem = .ok (valMem, false, mem)) :
    ∃ t', seqStep t = .ok t' ∧ SeqNext t d fPC valMem mem t' := by
  let s₁ : Machine := { t.emptied with
    D := ⟨d, d, .bubble⟩
    F := ⟨⟨0, fStatus⟩, ⟨t.PC, fStatus⟩, .bubble⟩
    fPC := fPC
    mem := fMem }
  let s₂ := executeInstr false { decodeInstr false s₁ with X := (decodeInstr false s₁).X.pass }
  have hstep : seqStep t = memoryInstr { s₂ with M := s₂.M.pass } >>= fun s =>
      .ok (retireInstr (wbackInstr { s with W := s.W.pass })) := by
    rw [seqStep, fetchInstr_eq, hf]
    rfl
  have hacc : dataAccess { s₂ with M := s₂.M.pass } = .ok (valMem, false, mem) := hd
  let w := passMemory (seqM t d) valMem
  let s₃ : Machine := wbackInstr { s₂ with
    M := s₂.M.pass
    W := ⟨w, w, .bubble⟩
    mPC := if d.status.isError then (seqM t d).seqSuccPC - 4#64 else t.mPC
    mem := mem }
  obtain ⟨hregs, hwrites, hstatus⟩ := updateRegs_wback t.regs w
  have hstatus : s₃.W.out.status = d.status := hstatus
  refine ⟨retireInstr s₃, ?_, ?_⟩
  · rw [hstep, memoryInstr_eq, hacc]
    rfl
  · have hflags : s₃.xNzcvval = flagsAfter (seqX t d) t.xNzcvval :=
      (executeAlu_rca t.rca .zero t.xNzcvval (seqX t d)).2.2
    have hquiet : s₃.W.out.status.isError = false := by rw [hstatus, hquiet]
    rw [retireInstr_eq (s := s₃) hno hquiet]
    refine ⟨hregs, congrArg (t.regWrites ++ ·) hwrites, hflags, ?_, rfl, rfl, hstatus, hno⟩
    rw [flagWritesOf, ← hflags]
    rfl

/-! ## What an instruction in flight still has to do -/

theorem regWritesOf_of_disabled {w : WInstr} (h : writeEnable w = false) : regWritesOf w = [] := by
  rw [regWritesOf, h]
  rfl

theorem retire_of_disabled {w : WInstr} (h : writeEnable w = false) (r : Regs) : retire r w = r := by
  rw [retire, h]
  rfl

/-- The instruction in W takes `t` to `t'`. -/
structure WEffect (w : WInstr) (t t' : Machine) : Prop where
  regs : t'.regs = retire t.regs w
  regWrites : t'.regWrites = t.regWrites ++ regWritesOf w

/-- The instruction in M takes `t` to `t'`, whichever page table its access finds the bytes in. -/
def MEffect (m : MInstr) (t t' : Machine) : Prop :=
  ∀ (mem : Memory) (rval : Word), mem.Uncached → t.mem.Agrees mem →
    ∃ valMem mem', dmem mem m.valEx m.valB m.mSigs.dmemRead m.mSigs.dmemWrite rval =
        .ok (valMem, false, mem') ∧
      t'.mem.Agrees mem' ∧ WEffect (passMemory m valMem) t t'

/-- The instruction in X takes `t` to `t'`. -/
structure XEffect (x : XInstr) (t t' : Machine) : Prop where
  xNzcvval : t'.xNzcvval = flagsAfter x t.xNzcvval
  nzcvWrites : t'.nzcvWrites = t.nzcvWrites ++ flagWritesOf x t.xNzcvval
  access : MEffect (execute false .zero t.xNzcvval x) t t'

/-- States that differ in nothing an instruction reads and nothing an observer sees. -/
structure SameState (t t' : Machine) : Prop where
  regs : t'.regs = t.regs
  regWrites : t'.regWrites = t.regWrites
  xNzcvval : t'.xNzcvval = t.xNzcvval
  nzcvWrites : t'.nzcvWrites = t.nzcvWrites
  mem : t.mem.Agrees t'.mem

theorem SameState.refl (t : Machine) : SameState t t := ⟨rfl, rfl, rfl, rfl, .refl _ _⟩

/-- A bubble and an `HLT` do nothing. -/
theorem xEffect_idle {x : XInstr} {t t' : Machine} (hx : x.Ok false) (hop : x.op = .nop ∨ x.op = .hlt)
    (h : SameState t t') : XEffect x t t' := by
  have hsigs : (x.xSigs, x.mSigs, x.wSigs) = (.zero, .zero, .zero) := by
    rw [hx.sigs]
    rcases hop with hop | hop <;> rw [hop] <;> rfl
  obtain ⟨hxs, hms, hws⟩ := by simpa only [Prod.mk.injEq] using hsigs
  have hset : x.xSigs.setFlags = false := by rw [hxs]; rfl
  refine ⟨?_, ?_, fun mem rval _ hmem => ⟨rval, mem, ?_, h.mem.symm.trans hmem, ?_, ?_⟩⟩
  · rw [flagsAfter_of_not_setFlags hset, h.xNzcvval]
  · rw [flagWritesOf, hset, if_neg (by decide), List.append_nil, h.nzcvWrites]
  · simp only [execute, hms]
    rfl
  all_goals
    have hen : writeEnable (passMemory (execute false .zero t.xNzcvval x) rval) = false := by
      simp only [writeEnable, passMemory, execute, hws]
      rfl
  · rw [retire_of_disabled hen, h.regs]
  · rw [regWritesOf_of_disabled hen, h.regWrites, List.append_nil]

/-! ## Operands nobody uses -/

/-- Does the ALU's result reach a register, the flags or an address? -/
def Opcode.usesResult (op : Opcode) : Bool :=
  let (x, m, w) := generateDXMWControl false op
  x.setFlags || m.dmemRead || m.dmemWrite || w.wEnable

/-- Does anything depend on the first operand? -/
def Opcode.usesA (op : Opcode) : Bool :=
  op = .ret || (!(generateDXMWControl false op).1.valaSel && op.usesResult)

/-- Does anything depend on the second operand? -/
def Opcode.usesB (op : Opcode) : Bool :=
  (generateDXMWControl false op).2.1.dmemWrite ||
    ((generateDXMWControl false op).1.valbSel && op.usesResult)

theorem dmem_nothing (mem : Memory) (addr wval rval : Word) :
    dmem mem addr wval false false rval = .ok (rval, false, mem) := rfl

/-- A load does not look at the data of a store. -/
theorem dmem_read (mem : Memory) (addr wval wval' rval : Word) :
    dmem mem addr wval true false rval = dmem mem addr wval' true false rval := by
  rw [dmem_eq, dmem_eq]
  simp only [Bool.false_eq_true, if_false]

/-- Copies of an instruction that differ at most in an operand nobody uses. -/
structure SameUse (x y : XInstr) : Prop where
  eq : y = { x with valA := y.valA, valB := y.valB }
  valA : x.op.usesA = true → y.valA = x.valA
  valB : x.op.usesB = true → y.valB = x.valB

namespace SameUse

variable {x y : XInstr} (h : SameUse x y) (hx : x.Ok false)
include h hx

theorem executeAlu_eq (hu : x.op.usesResult = true) (rca : Rca) (f : BitVec 8) :
    executeAlu rca f y = executeAlu rca f x := by
  have hsel : x.xSigs = (generateDXMWControl false x.op).1 := congrArg Prod.fst hx.sigs
  have hA : aluValA y = aluValA x := by
    rw [h.eq]
    unfold aluValA
    cases hs : x.xSigs.valaSel with
    | true => rfl
    | false =>
      refine h.valA ?_
      rw [Opcode.usesA, ← hsel, hs, hu]
      exact Bool.or_true _
  have hB : aluValB y = aluValB x := by
    rw [h.eq]
    unfold aluValB
    cases hs : x.xSigs.valbSel with
    | false => rfl
    | true =>
      refine h.valB ?_
      rw [Opcode.usesB, ← hsel, hs, hu]
      exact Bool.or_true _
  rw [executeAlu, executeAlu, hA, hB, h.eq]

theorem flagsAfter_eq (f : BitVec 8) : flagsAfter y f = flagsAfter x f := by
  have hset : y.xSigs = x.xSigs := by rw [h.eq]
  cases hu : x.op.usesResult with
  | true => rw [flagsAfter, flagsAfter, h.executeAlu_eq hx hu]
  | false =>
    have hno : x.xSigs.setFlags = false := by
      rw [show x.xSigs = _ from congrArg Prod.fst hx.sigs]
      simp only [Opcode.usesResult, Bool.or_eq_false_iff] at hu
      exact hu.1.1.1
    rw [flagsAfter_of_not_setFlags hno, flagsAfter_of_not_setFlags (hset ▸ hno)]

/-- Where the result counts, it is the same. -/
theorem valEx_eq (hu : x.op.usesResult = true) (rca : Rca) (f : BitVec 8) :
    (execute false rca f y).valEx = (execute false rca f x).valEx := by
  have hop : y.op = x.op := by rw [h.eq]
  simp only [execute, h.executeAlu_eq hx hu, Bool.false_eq_true, false_and, if_false]

theorem dmem_eq (rca : Rca) (f : BitVec 8) (mem : Memory) (rval : Word) :
    dmem mem (execute false rca f y).valEx y.valB y.mSigs.dmemRead y.mSigs.dmemWrite rval =
      dmem mem (execute false rca f x).valEx x.valB x.mSigs.dmemRead x.mSigs.dmemWrite rval := by
  have hsigs : x.mSigs = (generateDXMWControl false x.op).2.1 := congrArg (·.2.1) hx.sigs
  have hm : y.mSigs = x.mSigs := by rw [h.eq]
  rw [hm]
  cases hw : x.mSigs.dmemWrite with
  | true =>
    have hu : x.op.usesResult = true := by
      simp only [Opcode.usesResult, ← hsigs, hw, Bool.or_true, Bool.true_or]
    rw [h.valEx_eq hx hu, h.valB (by rw [Opcode.usesB, ← hsigs, hw, Bool.true_or])]
  | false =>
    cases hr : x.mSigs.dmemRead with
    | true =>
      have hu : x.op.usesResult = true := by
        simp only [Opcode.usesResult, ← hsigs, hr, Bool.or_true, Bool.true_or]
      rw [h.valEx_eq hx hu, dmem_read _ _ _ x.valB]
    | false => rw [dmem_nothing, dmem_nothing]

/-- It retires alike. -/
theorem wEffect {rca : Rca} {f : BitVec 8} {valMem : Word} {t t' : Machine}
    (hw : WEffect (passMemory (execute false rca f y) valMem) t t') :
    WEffect (passMemory (execute false rca f x) valMem) t t' := by
  have hsigs : x.wSigs = (generateDXMWControl false x.op).2.2 := congrArg (·.2.2) hx.sigs
  have hpass : ∀ z : XInstr, passMemory (execute false rca f z) valMem =
      ⟨z.op, z.wSigs, z.dst, (execute false rca f z).valEx, valMem, z.status⟩ := fun _ => rfl
  cases hen : x.wSigs.wEnable with
  | true =>
    have hu : x.op.usesResult = true := by
      simp only [Opcode.usesResult, ← hsigs, hen, Bool.or_true]
    have heq : passMemory (execute false rca f y) valMem =
        passMemory (execute false rca f x) valMem := by
      rw [hpass, hpass, h.valEx_eq hx hu, h.eq]
    rwa [heq] at hw
  | false =>
    have hwy : y.wSigs = x.wSigs := by rw [h.eq]
    have hx' : writeEnable (passMemory (execute false rca f x) valMem) = false := by
      simp only [writeEnable, passMemory, execute, hen, Bool.false_and]
    have hy' : writeEnable (passMemory (execute false rca f y) valMem) = false := by
      simp only [writeEnable, passMemory, execute, hwy, hen, Bool.false_and]
    refine ⟨hw.regs.trans ?_, hw.regWrites.trans ?_⟩
    · rw [retire_of_disabled hx', retire_of_disabled hy']
    · rw [regWritesOf_of_disabled hx', regWritesOf_of_disabled hy']

/-- **An operand nobody uses has no effect.** -/
theorem xEffect {t t' : Machine} (hy : XEffect y t t') : XEffect x t t' := by
  have hset : y.xSigs = x.xSigs := by rw [h.eq]
  have hf := h.flagsAfter_eq hx t.xNzcvval
  refine ⟨hy.xNzcvval.trans hf, ?_, fun mem rval hu hmem => ?_⟩
  · rw [hy.nzcvWrites, flagWritesOf, flagWritesOf, hset, hf]
  · obtain ⟨valMem, mem', hd, hag, hw⟩ := hy.access mem rval hu hmem
    exact ⟨valMem, mem', (h.dmem_eq hx .zero t.xNzcvval mem rval).symm.trans hd, hag, h.wEffect hx hw⟩

end SameUse

/-! ## A step has the effect of its instruction -/

/-- What a load would have delivered does not matter to any other instruction. -/
theorem WEffect.of_load {m : MInstr} (hm : m.Ok false) {v v' : Word} {t t' : Machine}
    (hv : m.mSigs.dmemRead = true → v' = v) (h : WEffect (passMemory m v) t t') :
    WEffect (passMemory m v') t t' := by
  have hval : wbackVal (passMemory m v') = wbackVal (passMemory m v) := by
    unfold wbackVal
    cases hsel : m.wSigs.wvalSel with
    | false => simp only [passMemory, hsel, Bool.false_eq_true, if_false]
    | true =>
      have hr : m.mSigs.dmemRead = true := by
        rw [hm.access.1]
        rwa [show m.wSigs = _ from congrArg Prod.snd hm.sigs] at hsel
      rw [hv hr]
  refine ⟨h.regs.trans ?_, h.regWrites.trans ?_⟩
  · rw [retire, retire, hval]
    rfl
  · rw [regWritesOf, regWritesOf, hval]
    rfl

theorem seqX_ok (t : Machine) {d : DInstr} (hd : d.Ok false) : (seqX t d).Ok false :=
  have h := xIn_ok (s := { t with D := ⟨d, d, .load⟩ }) hd ⟨d, .bub, 0, t.mem, 0, false, t.mem⟩
  ⟨h.sigs, h.base, h.status, h.ne_adr, h.dst⟩

theorem seqM_ok (t : Machine) {d : DInstr} (hd : d.Ok false) : (seqM t d).Ok false :=
  mIn_ok (s := { t with X := ⟨seqX t d, seqX t d, .load⟩ }) (seqX_ok t hd)

/-- **A step of the sequential machine has the effect of its instruction.** -/
theorem SeqNext.xEffect {t t' : Machine} {d : DInstr} {fPC valMem : Word} {fMem mem : Memory}
    (h : SeqNext t d fPC valMem mem t') (hd : d.Ok false) (hu : fMem.Uncached)
    (hag : t.mem.Agrees fMem) (hacc : seqAccess t d fMem = .ok (valMem, false, mem)) :
    XEffect (seqX t d) t t' := by
  have hm := seqM_ok t hd
  have hrca : execute false .zero t.xNzcvval (seqX t d) = seqM t d := execute_rca _ _ _ _ _
  refine ⟨h.xNzcvval, h.nzcvWrites, fun mem₁ rval hu₁ hag₁ => ?_⟩
  have hsame := hag.symm.trans hag₁
  obtain ⟨v, mem₁', hd₁, -, hboth⟩ :=
    dmem_both rval hm.not_both hu hu₁ hsame.toSameEffects hacc
  obtain ⟨hag', hv⟩ := hboth hsame
  rw [hrca]
  refine ⟨v, mem₁', hd₁, h.mem ▸ hag', ?_⟩
  exact WEffect.of_load hm (fun hr => hv (fun _ hf => hf.elim) hr rfl) ⟨h.regs, h.regWrites⟩

end ChArm
