import ChArm.Pipe.ExecutesA64
import ChArm.Pipe.WaitingCycles

/-!
# The pipeline gets to the end

If an A64 processor halts on a program then so does the pipeline, within three cycles for each
instruction and five more.

* `Waiting`, `Fetching`, `Squashing` — the fronts from which the next instruction gets to X, and how
  many cycles that may take.
* `Remaining.next` — every cycle brings the program closer to its end.
* `UpTo.arrives` — the last instruction gets to X, and through it.
* `pipeline_terminates` — within `3 * k + 5` cycles for `k` instructions.
-/

namespace ChArm

/-! ## The sequential machine goes on where A64 does -/

/-- Run as A64 prescribes, the program comes to no instruction of the extra-credit build. -/
def Image.InBuild (img : Image) (entry : Word) : Prop :=
  Runs.Always (A64.Cpu.step (boardBus img.segStart) img.code) (fun c => !c.halted img.code)
    (fun c => ∀ g ∈ A64.Group.ofWord (img.word c.pc), GroupInBuild false g)
    (Machine.init img entry).cpu

section

variable {img : Image} {t : Machine}

/-- Where an A64 processor has a next step, so has the sequential machine. -/
theorem seqStep_of_cpu (hl : t.mem.Loaded img) (hflags : t.xNzcvval < 16#8)
    (hno : t.deassertFlags = false) (hends : ¬ img.EndsAt t.PC)
    (hread : ¬ Misread false t.PC (img.word t.PC))
    (hbuild : ∀ g ∈ A64.Group.ofWord (img.word t.PC), GroupInBuild false g) {c : A64.Cpu Board}
    (h : t.cpu.step (boardBus img.segStart) img.code = .ok c) :
    ∃ t', seqStep t = .ok t' ∧ t'.deassertFlags = false ∧ t'.running = true := by
  obtain ⟨w, i, hw, hi, hacc⟩ := A64.Cpu.step_inv h
  have hne : t.PC ≠ 0 := fun h0 => hends (.inl h0)
  have hpc : img.InText t.PC := by
    by_contra hpc
    rw [show t.cpu.pc = t.PC from rfl, Image.code, if_neg hne, if_neg hpc] at hw
    cases hw
  obtain rfl : img.word t.PC = w := Option.some.inj ((Image.code_of_inText hpc).symm.trans hw)
  obtain ⟨fMem, hf, hu, hag⟩ := seqFetch hl hpc
  have hd : (img.instrAt t.PC).Ok false := (fetchWires_ok hf).1
  have hins : (img.instrAt t.PC).status ≠ .ins := by
    obtain ⟨g, hg, -⟩ := Option.bind_eq_some_iff.1 hi
    exact (takenFor_group hg (hbuild g hg)).status
  have hst : (img.instrAt t.PC).status = .aok := by
    rcases fetchStatus_cases false (img.instrAt t.PC).op with hst | hst | hst
    · exact absurd hst hins
    · exact absurd (.inr ⟨hpc, hst⟩) hends
    · exact hst
  obtain ⟨i', hi', houtcome, -⟩ := executes_inst rfl hins hpc.toNat_mod hread hflags
    (t.locals t.numInstr) t.rca t.regs
  cases hi.symm.trans hi'
  rw [show t.cpu.state = archState t.regs (unpackFlags t.xNzcvval) from rfl,
    show t.cpu.pc = t.PC from rfl, houtcome, show t.cpu.mem = t.mem.board from rfl,
    ← board_of_agree hag, ← (hl.of_agrees hu hag).segStart] at hacc
  obtain ⟨valMem, mem, hacc⟩ := dmem_of_board hu (seqM_ok t hd).not_both hacc
  obtain ⟨t', hstep, hnext⟩ := seqStep_eq hno (by rw [hst]; rfl) hf hacc
  refine ⟨t', hstep, hnext.deassertFlags, ?_⟩
  rw [Machine.running, hnext.status, hst]
  rfl

theorem ends_of_halted (h : t.cpu.halted img.code = true) : img.EndsAt t.PC := by
  by_contra hends
  by_cases hpc : img.InText t.PC
  · rw [not_halted_of_not_ends hpc hends] at h
    cases h
  · have hne : t.PC ≠ 0 := fun h0 => hends (.inl h0)
    rw [A64.Cpu.halted, A64.Cpu.fetched, show t.cpu.pc = t.PC from rfl, Image.code, if_neg hne,
      if_neg hpc] at h
    cases h

end

/-- A run of the sequential machine in which nothing fails and that can go on. -/
structure UpTo (img : Image) (entry : Word) (k : Nat) (τ : Nat → Machine) : Prop where
  trace : Sequential img entry k τ
  loaded : ∀ j ≤ k, (τ j).mem.Loaded img
  flags : ∀ j ≤ k, (τ j).xNzcvval < 16#8
  noFault : ∀ j ≤ k, (τ j).deassertFlags = false
  running : ∀ j ≤ k, (τ j).running = true

/-- Is there an instruction at this address that does not end the program? -/
def Image.Executes (img : Image) (pc : Word) : Prop :=
  img.InText pc ∧ (img.instrAt pc).status = .aok

section

variable {img : Image} {entry : Word} {j k : Nat} {τ : Nat → Machine} {γ : Nat → A64.Cpu Board}

theorem Image.Executes.not_ends {pc : Word} (h : img.Executes pc) : ¬ img.EndsAt pc := by
  rintro (h0 | ⟨-, hst⟩)
  · exact h.1.ne_zero h0
  · exact absurd (h.2.symm.trans hst) (by decide)

theorem UpTo.executes (h : UpTo img entry k τ) (hj : j < k) : img.Executes (τ j).PC := by
  have hl := h.loaded j hj.le
  have hstep := (h.trace.next j hj).2
  have hno := h.noFault (j + 1) hj
  have hends := not_ends_of_running hl hstep hno (h.running (j + 1) hj)
  obtain ⟨d, fStatus, fPC, fMem, valMem, mem, -, hquiet, hf, -⟩ := seqStep_inv hstep hno
  obtain ⟨hin, hd, hst, -⟩ := seqStep_inText hl hends hf hquiet
  exact ⟨hin, hd ▸ hst⟩

/-- **As far as an A64 processor goes, so does the sequential machine.** -/
theorem exists_upTo (hγ : img.Run entry k γ) (hc : img.cache = none)
    (hread : img.ReadAsMeant entry) (hbuild : img.InBuild entry) :
    ∃ τ, UpTo img entry k τ ∧ γ k = (τ k).cpu := by
  obtain ⟨τ, hτ, hR⟩ : ∃ τ, Sequential img entry k τ ∧ ∀ j ≤ k, γ j = (τ j).cpu ∧
      (τ j).mem.Loaded img ∧ (τ j).xNzcvval < 16#8 ∧ (τ j).deassertFlags = false ∧
        (τ j).running = true := by
    refine Runs.Trace.simulate (R := fun _ c (t : Machine) => c = t.cpu ∧ t.mem.Loaded img ∧
        t.xNzcvval < 16#8 ∧ t.deassertFlags = false ∧ t.running = true)
      hγ ⟨rfl, .init hc, show 0#8 < 16#8 by decide, rfl, rfl⟩ ?_
    rintro j hj τ hτ ⟨hcpu, hl, hflags, hno, hrun⟩
    obtain ⟨hgo, hstep⟩ := hγ.next j hj
    have hread := hread j γ (hγ.mono hj.le) hgo
    have hbuild := hbuild j γ (hγ.mono hj.le) hgo
    rw [hcpu] at hgo hstep hread hbuild
    have hends : ¬ img.EndsAt (τ j).PC := by
      intro hends
      have hgo : (!(τ j).cpu.halted img.code) = true := hgo
      rw [halted_of_ends hends fun _ => hread] at hgo
      cases hgo
    obtain ⟨t', hstep', hno', hrun'⟩ := seqStep_of_cpu hl hflags hno hends hread hbuild hstep
    obtain ⟨hcpu', hl', hflags'⟩ := cpu_step hl hflags hends hread hstep' hno'
    exact ⟨t', ⟨hrun, hstep'⟩, Except.ok.inj (hstep.symm.trans hcpu'), hl', hflags', hno', hrun'⟩
  refine ⟨τ, ⟨hτ, fun j hj => ?_, fun j hj => ?_, fun j hj => ?_, fun j hj => ?_⟩, (hR k le_rfl).1⟩
  all_goals obtain ⟨-, hl, hflags, hno, hrun⟩ := hR j hj
  · exact hl
  · exact hflags
  · exact hno
  · exact hrun

end

/-! ## Instructions in flight -/

/-- The flags that the machine shows and those that execute tests are the last ones written. -/
structure Machine.FlagsKept (s : Machine) : Prop where
  shown : s.NZCV = s.nzcvWrites.getLastD PACK_CC_Z
  tested : s.xNzcvval = s.nzcvWrites.getLastD 0

theorem Machine.FlagsKept.next {s : Machine} {v : Wires} (h : s.FlagsKept)
    (hno : (ChArm.next false s v).deassertFlags = false) : (ChArm.next false s v).FlagsKept := by
  obtain ⟨hx, hn⟩ := next_flags hno
  have hno : flagsDeasserted false s v = false := hno
  have hwrites : (ChArm.next false s v).nzcvWrites =
      s.nzcvWrites ++ if s.X.out.xSigs.setFlags then [xNzcv s] else [] := by
    show (if flagsLatch false s v then s.nzcvWrites ++ [xNzcv s] else s.nzcvWrites) = _
    rw [flagsLatch, hno, Bool.not_false, Bool.true_and]
    split_ifs
    · rfl
    · exact (List.append_nil _).symm
  cases hset : s.X.out.xSigs.setFlags with
  | true =>
    rw [hset, if_pos rfl, xNzcv_eq] at hwrites
    rw [hset, if_pos rfl] at hn
    refine ⟨?_, ?_⟩
    · rw [hn, hwrites, List.getLastD_concat]
    · rw [hx, hwrites, List.getLastD_concat]
  | false =>
    rw [hset, if_neg Bool.false_ne_true, List.append_nil] at hwrites
    rw [hset, if_neg Bool.false_ne_true] at hn
    rw [flagsAfter_of_not_setFlags hset] at hx
    refine ⟨?_, ?_⟩
    · rw [hn, hwrites, h.shown]
    · rw [hx, hwrites, h.tested]

/-- The sequential machine `t` has done everything up to the instruction in X, and neither that one
nor an older one has failed. -/
structure Pursues (img : Image) (t tX tM tW s : Machine) : Prop where
  behind : Behind tX tM tW s
  effect : XEffect s.X.out tX t
  wf : s.WellFormed false
  loaded : s.mem.Loaded img
  flags : s.FlagsKept
  noFault : s.deassertFlags = false
  x : s.X.out.status.isError = false
  m : s.M.out.status.isError = false
  w : s.W.out.status.isError = false

section

variable {img : Image} {t t' tX tM tW s : Machine} {v : Wires}

/-- A fetch that reads nothing from the console leaves memory as it is. -/
theorem fetchWires_agrees {d : DInstr} {fStatus : Stat} {fPC : Word} {fMem : Memory}
    (hu : s.mem.Uncached) (hcon : s.readsConsole false = false)
    (hf : fetchWires false s = .ok (d, fStatus, fPC, fMem)) : s.mem.Agrees fMem := by
  rcases fetchWires_inv hf with ⟨-, -, -, -, rfl⟩ | ⟨hh, insnbits, imemErr, hi, -⟩
  · exact .refl _ _
  · refine (imem_keeps hu hi).2 (fun hio => ?_) _
    rw [Machine.readsConsole, hh, hio] at hcon
    cases hcon

/-- Whatever is in X, the next cycle does what the instructions behind it still have to do. -/
theorem Behind.exists_wires (h : Behind tX tM tW s) (hu : s.mem.Uncached)
    (hcon : s.readsConsole false = false) :
    ∃ v, wires false s = .ok v ∧ v.memErr = false ∧ tX.mem.Agrees v.mem ∧
      WEffect (wIn s v) tM tX := by
  obtain ⟨d, fStatus, fPC, fMem, hf, hfu, -⟩ := exists_fetchWires false hu
  obtain ⟨valMem, mem, hd, hag, hw⟩ := h.access fMem s.W.inp.valMem hfu
    (h.mem.trans (fetchWires_agrees hu hcon hf))
  exact ⟨⟨d, fStatus, fPC, fMem, valMem, false, mem⟩, wires_eq hf hd, rfl, hag, hw⟩

/-- Its next cycle goes through. -/
theorem Pursues.exists_plain (h : Pursues img t tX tM tW s) (hb : s.Benign) : ∃ v, Plain s v := by
  have hu := h.loaded.uncached
  obtain ⟨v, hv, herr, -⟩ := h.behind.exists_wires hu hb.console
  have hquiet : (hazards false s v).Quiet := by
    refine ⟨?_, ?_, h.x⟩
    · show (wOut s).status.isError = false
      rw [wOut_eq h.wf.w]
      exact h.w
    · show (wIn s v).status.isError = false
      rw [wIn, herr]
      exact h.m
  refine ⟨v, ⟨h.wf, hv, hquiet, ?_⟩, hu, ?_, hb.console⟩
  · rw [(uncached_of_wires h.wf hu hv).2.ready]
    decide
  · show (s.deassertFlags || hazardDeasserts _) = false
    rw [hazardDeasserts, hquiet.mIn, hquiet.wIn, hquiet.wOut, h.noFault]
    rfl

/-- It stays in pursuit, whatever is latched into X. -/
theorem Pursues.next (h : Pursues img t tX tM tW s) (hp : Plain s v)
    (hx : XEffect (ChArm.next false s v).X.out t t')
    (hst : (ChArm.next false s v).X.out.status.isError = false) :
    Pursues img t' t tX tM (ChArm.next false s v) := by
  obtain ⟨hM, hW, -⟩ := hp.statuses hp.uncached
  have hl : v.fMem.Loaded img := h.loaded.of_agrees
    (uncached_of_wires hp.wf hp.uncached hp.wires).1
    ((fetch_keeps hp.uncached hp.wires).2 hp.console)
  have hd := (wires_inv hp.wires).2
  rw [(hp.latched hp.uncached).2.2] at hd
  exact ⟨h.behind.next hp h.effect, hx, hp.wf.next hp.wires, hl.dmem hp.wf.m.not_both hd,
    h.flags.next hp.noFault, hp.noFault, hst, hM ▸ h.x, hW ▸ h.m⟩

theorem Pursues.idle (h : Pursues img t tX tM tW s) (hp : Plain s v)
    (hst : (ChArm.next false s v).X.out.status = .bub ∨ (ChArm.next false s v).X.out.status = .hlt) :
    Pursues img t t tX tM (ChArm.next false s v) := by
  have hx := (hp.wf.next hp.wires).x
  refine h.next hp (xEffect_idle hx (hst.imp hx.status.of_bub hx.status.of_hlt) (.refl t)) ?_
  rcases hst with hst | hst <;> rw [hst] <;> rfl

/-- **What enters X is the next instruction of the sequential machine.** -/
theorem Pursues.issue (h : Pursues img t tX tM tW s) (hp : Plain s v) (hb : s.Benign)
    (hload : (hazardOf false (hazards false s v)).ctls.x = .load) (hl : t.mem.Loaded img)
    (hexec : img.Executes t.PC) (hd : s.D.out = img.instrAt t.PC) (hstep : seqStep t = .ok t')
    (hno : t'.deassertFlags = false) :
    Pursues img t' t tX tM (ChArm.next false s v) ∧ s.D.out.status = .aok ∧
      t'.PC = successor (xIn false s v) (mIn false (ChArm.next false s v)).condHolds := by
  have hX : (ChArm.next false s v).X.out = xIn false s v := by
    rw [hp.wf.next_X v, hload]
    rfl
  obtain ⟨d, fStatus, fPC, fMem, valMem, mem, -, hquiet, hf, hacc, hnext⟩ := seqStep_inv hstep hno
  obtain ⟨-, hd', hst, rfl, hu, hag⟩ := seqStep_inText hl hexec.not_ends hf hquiet
  obtain rfl : s.D.out = d := hd.trans hd'.symm
  have hxok : (xIn false s v).Ok false := xIn_ok hp.wf.d v
  have huse := h.behind.sameUse hp h.effect hb hload hst
  have heff := huse.xEffect hxok (hnext.xEffect hp.wf.d hu hag hacc)
  refine ⟨h.next hp (hX ▸ heff) ?_, hst, ?_⟩
  · rw [hX]
    exact hquiet
  · have hsucc : successor (xIn false s v) (seqM t s.D.out).condHolds =
        successor (xIn false s v) (mIn false (ChArm.next false s v)).condHolds := by
      by_cases hop : (xIn false s v).op = .bCond
      · have hpass : (xIn false s v).aluOp = .passA := by
          rw [show (xIn false s v).aluOp = decideAluOp false (xIn false s v).op from rfl, hop]
          rfl
        have hpass' : (seqX t s.D.out).aluOp = .passA := by rw [huse.eq, hpass]
        have hcond : (seqX t s.D.out).cond = (xIn false s v).cond := by rw [huse.eq]
        rw [seqM, condHolds_eq hpass', mIn, hX, condHolds_eq hpass,
          (h.behind.next hp h.effect).xNzcvval, hcond]
      · exact successor_of_ne_bCond hop _ _
    rw [hnext.pc, ← hsucc]
    exact selectPC_eq_successor huse _

end

/-! ## The front end -/

/-- The instruction at `pc` is in D, and fetch works on what comes after it. -/
structure Waiting (img : Image) (pc : Word) (s : Machine) : Prop where
  goes : img.Executes pc → s.D.out = img.instrAt pc ∧ s.F.out.predPC = s.D.out.predicted ∧
    (s.F.inp.status = .hlt → img.EndsAt s.D.out.predicted)
  ends : img.EndsAt pc → s.D.out.status = .hlt ∧ s.F.inp.status = .hlt
  fails : ¬ img.Executes pc → ¬ img.EndsAt pc → s.D.out.status = .ins ∧ s.D.out.pc = pc
  x : s.X.out.op ≠ .ret
  taken : s.X.out.op = .bCond → (mIn false s).condHolds = true
  m : ¬ (s.M.out.op = .bCond ∧ s.M.out.condHolds = false)

/-- Fetch works on the instruction at `pc`, and nothing is in D. -/
structure Fetching (img : Image) (pc : Word) (s : Machine) : Prop where
  d : s.D.out.status = .bub
  x : s.X.out.status = .bub ∨ s.X.out.op = .ret
  fetches : fetchPC false s = pc
  ahead : s.F.inp.status = .hlt → img.EndsAt pc

/-- An untaken branch in X is about to send fetch to `pc`. -/
structure Squashing (pc : Word) (s : Machine) : Prop where
  x : s.X.out.op = .bCond
  untaken : (mIn false s).condHolds = false
  resumes : s.X.out.seqSuccPC = pc

/-- What fetch and decode are about while the instruction at `pc` is the next one to enter X, and
the cycles until it does. -/
inductive Front (img : Image) (pc : Word) (s : Machine) : Nat → Prop where
  | waiting (h : Waiting img pc s) (hx : s.X.out.op ≠ .ldur) : Front img pc s 1
  | behindLoad (h : Waiting img pc s) (hx : s.X.out.op = .ldur) : Front img pc s 2
  | fetching (h : Fetching img pc s) : Front img pc s 2
  | squashing (h : Squashing pc s) : Front img pc s 3

section

variable {img : Image} {pc : Word} {s : Machine} {v : Wires}

/-- What a fetch on the right path delivers where the program does not end. -/
theorem fetched_front (hv : wires false s = .ok v) (hpc : fetchPC false s = pc)
    (hahead : s.F.inp.status = .hlt → img.EndsAt pc) (hends : ¬ img.EndsAt pc) :
    ∃ insnbits imemErr, imem s.mem pc = .ok (insnbits, imemErr, v.fMem) ∧
      v.d = fetchedInstr false pc insnbits imemErr ∧ v.fStatus = v.d.status ∧
      v.fPC = v.d.predicted := by
  rcases fetch_inv hv with ⟨hh, -⟩ | ⟨-, insnbits, imemErr, hi, hd, hst, hp⟩
  · rw [fetchHalts, hpc, Bool.or_eq_true, beq_iff_eq, beq_iff_eq] at hh
    exact absurd (hh.elim (fun h0 => .inl h0) hahead) hends
  · rw [hpc] at hi hd hp
    have hdpc : v.d.pc = pc := by
      rw [hd, DInstr.pc, fetchedInstr_seqSuccPC]
      exact BitVec.add_sub_cancel _ _
    have hbits : v.d.insnbits = insnbits := by
      rw [hd]
      rfl
    refine ⟨insnbits, imemErr, hi, hd, hst, ?_⟩
    rw [hp, DInstr.predicted, hdpc, hbits]

/-- What a fetch on the right path delivers. -/
theorem fetch_front (hl : s.mem.Loaded img) (hv : wires false s = .ok v)
    (hpc : fetchPC false s = pc) (hahead : s.F.inp.status = .hlt → img.EndsAt pc) :
    (img.Executes pc → v.d = img.instrAt pc ∧ v.fStatus = .aok ∧ v.fPC = v.d.predicted) ∧
    (img.EndsAt pc → v.d.status = .hlt ∧ v.fStatus = .hlt) ∧
    (¬ img.Executes pc → ¬ img.EndsAt pc → v.d.status = .ins ∧ v.d.pc = pc) := by
  refine ⟨fun hexec => ?_, fun hends => ?_, fun hexec hends => ?_⟩
  · obtain ⟨insnbits, imemErr, hi, hd, hst, hp⟩ := fetched_front hv hpc hahead hexec.not_ends
    obtain ⟨m', hi', -⟩ := hl.imem hexec.1
    cases hi.symm.trans hi'
    exact ⟨hd, hst.trans (hd ▸ hexec.2), hp⟩
  · have hhlt := (fetchStatus_hlt_iff hl hv).2 (.inr (hpc ▸ hends))
    exact ⟨(fetch_ok hv).2.1.symm.trans hhlt, hhlt⟩
  · obtain ⟨insnbits, imemErr, hi, hd, -⟩ := fetched_front hv hpc hahead hends
    refine ⟨?_, ?_⟩
    · by_cases hin : img.InText pc
      · obtain ⟨m', hi', -⟩ := hl.imem hin
        cases hi.symm.trans hi'
        rw [hd]
        rcases fetchStatus_cases false (img.instrAt pc).op with hst | hst | hst
        · exact hst
        · exact absurd (.inr ⟨hin, hst⟩) hends
        · exact absurd ⟨hin, hst⟩ hexec
      · rw [hd, imem_error hl (fun h0 => hends (.inl h0)) hin hi]
        simp [fetchedInstr, fetchStatus]
    · rw [hd, DInstr.pc, fetchedInstr_seqSuccPC]
      exact BitVec.add_sub_cancel _ _

/-- In waiting, fetch follows the prediction. -/
theorem Waiting.fetchPC_eq (h : Waiting img pc s) : fetchPC false s = s.F.out.predPC :=
  fetchPC_base h.x h.m

/-- A load-use stall keeps it. -/
theorem Waiting.stall (h : Waiting img pc s) (hs : Smooth s v) (hl : s.mem.Loaded img)
    (hz : hazardOf false (hazards false s v) = .loadUse) :
    Front img pc (next false s v) 1 ∧ (next false s v).X.out = .zero := by
  have hg := hazardOf_guard false (hazards false s v)
  have hD := hs.wf.next_D v
  have hX := hs.wf.next_X v
  have hM := hs.wf.next_M v
  have hF := hs.wf.next_predPC v
  rw [hz] at hg hD hX hM hF
  have hld : s.X.out.op = .ldur := (HazardIn.loadUse_ops hg.2.2).1
  have hD : (next false s v).D.out = s.D.out := hD
  have hX : (next false s v).X.out = .zero := hX
  have hF : (next false s v).F.out.predPC = s.F.out.predPC := hF
  have hsticky : (next false s v).F.inp.status = v.fStatus := rfl
  refine ⟨.waiting ⟨fun hexec => ?_, fun hends => ?_, ?_, ?_, ?_, ?_⟩ ?_, hX⟩
  · obtain ⟨hd, hpred, hahead⟩ := h.goes hexec
    refine ⟨hD.trans hd, by rw [hF, hD, hpred], fun hq => ?_⟩
    rw [hsticky] at hq
    rw [hD]
    rcases (fetchStatus_hlt_iff hl hs.wires).1 hq with hq | hq
    · exact hahead hq
    · rwa [h.fetchPC_eq, hpred] at hq
  · obtain ⟨hd, hq⟩ := h.ends hends
    exact ⟨by rw [hD, hd], hsticky.trans (sticky_fStatus hs hq)⟩
  · rw [hD]
    exact h.fails
  · rw [hX]
    exact nofun
  · rw [hX]
    exact nofun
  · rw [hM]
    exact fun hc => absurd (hld.symm.trans hc.1) (by decide)
  · rw [hX]
    exact nofun

/-- The word latched into D is the one at `pc`. -/
theorem Waiting.of_fetch (hs : Smooth s v) (hl : s.mem.Loaded img) (hpc : fetchPC false s = pc)
    (hahead : s.F.inp.status = .hlt → img.EndsAt pc)
    (hz : hazardOf false (hazards false s v) = .none) (hx : s.D.out.op ≠ .ret)
    (htaken : s.D.out.op = .bCond → (mIn false (next false s v)).condHolds = true) :
    Waiting img pc (next false s v) := by
  have hg := hazardOf_guard false (hazards false s v)
  have hD := hs.wf.next_D v
  have hX := hs.wf.next_X v
  have hM := hs.wf.next_M v
  have hF := hs.wf.next_predPC v
  rw [hz] at hg hD hX hM hF
  obtain ⟨-, hmis, -⟩ := hg
  have hD : (next false s v).D.out = v.d := hD
  have hX : (next false s v).X.out = xIn false s v := hX
  have hF : (next false s v).F.out.predPC = v.fPC := hF.trans (pcNext_quiet hs.quiet.wIn)
  have hsticky : (next false s v).F.inp.status = v.fStatus := rfl
  obtain ⟨hgoes, hends, hfails⟩ := fetch_front hl hs.wires hpc hahead
  refine ⟨fun hexec => ?_, fun he => ?_, ?_, ?_, ?_, ?_⟩
  · obtain ⟨hd, hfst, hpred⟩ := hgoes hexec
    refine ⟨hD.trans hd, by rw [hF, hD, hpred], fun hq => ?_⟩
    rw [hsticky, hfst] at hq
    cases hq
  · obtain ⟨hd, hfst⟩ := hends he
    exact ⟨by rw [hD, hd], hsticky.trans hfst⟩
  · rw [hD]
    exact hfails
  · rw [hX]
    exact hx
  · rw [hX]
    exact htaken
  · rw [hM]
    exact fun hc => not_mispredicted hmis hc

/-- Nothing but the instruction at `pc` can be fetched. -/
theorem Fetching.next (h : Fetching img pc s) (hs : Smooth s v) (hl : s.mem.Loaded img) :
    Front img pc (ChArm.next false s v) 1 ∧ (ChArm.next false s v).X.out.status = .bub := by
  have hg := hazardOf_guard false (hazards false s v)
  have hX := hs.wf.next_X v
  have hDop : s.D.out.op = .nop := hs.wf.d.status.of_bub h.d
  have hXop : s.X.out.op = .nop ∨ s.X.out.op = .ret := h.x.imp_left (bubble_nop hs.wf)
  have hz : hazardOf false (hazards false s v) = .none := by
    rcases hs.cases with hz | hz | hz | hz <;> rw [hz] at hg
    · have hld : s.X.out.op = .ldur := (HazardIn.loadUse_ops hg.2.2).1
      rcases hXop with hop | hop <;> exact absurd (hop.symm.trans hld) (by decide)
    · have hbr : s.X.out.op = .bCond := (checkMispredBranchHazard_iff.1 hg.2).1
      rcases hXop with hop | hop <;> exact absurd (hop.symm.trans hbr) (by decide)
    · exact absurd (hDop.symm.trans (checkRetHazard_iff.1 hg.2.2)) (by decide)
    · exact hz
  rw [hz] at hX
  have hX : (ChArm.next false s v).X.out = xIn false s v := hX
  have hbub : (ChArm.next false s v).X.out.status = .bub := by
    rw [hX]
    exact h.d
  refine ⟨.waiting (.of_fetch hs hl h.fetches h.ahead hz (by rw [hDop]; exact nofun)
    (by rw [hDop]; exact nofun)) ?_, hbub⟩
  rw [hX]
  exact fun hc => absurd (hDop.symm.trans hc) (by decide)

/-- A squash leaves fetch where `select_PC` sends it. -/
theorem Fetching.of_squash (hl : (ChArm.next false s v).mem.Loaded img)
    (hb : (ChArm.next false s v).Benign) (hD : (ChArm.next false s v).D.out = .zero)
    (hctl : (ChArm.next false s v).D.ctl = .bubble)
    (hx : (ChArm.next false s v).X.out.status = .bub ∨ (ChArm.next false s v).X.out.op = .ret)
    (hpc : fetchPC false (ChArm.next false s v) = pc) : Fetching img pc (ChArm.next false s v) := by
  refine ⟨by rw [hD]; rfl, hx, hpc, fun hq => ?_⟩
  rw [← hpc]
  exact (fetchesEnd_iff hl).1 (hb.halt hctl hq)

theorem Squashing.hazard (h : Squashing pc s) (hs : Smooth s v) :
    hazardOf false (hazards false s v) = .mispredicted := by
  have hg := hazardOf_guard false (hazards false s v)
  have hmis : checkMispredBranchHazard s.X.out.op (mIn false s).condHolds = true :=
    checkMispredBranchHazard_iff.2 ⟨h.x, h.untaken⟩
  rcases hs.cases with hz | hz | hz | hz <;> rw [hz] at hg
  · have hld : s.X.out.op = .ldur := (HazardIn.loadUse_ops hg.2.2).1
    exact absurd (h.x.symm.trans hld) (by decide)
  · exact hz
  · exact absurd (hmis.symm.trans hg.2.1) (by decide)
  · exact absurd (hmis.symm.trans hg.2.1) (by decide)

theorem Squashing.next_X (h : Squashing pc s) (hs : Smooth s v) :
    (ChArm.next false s v).X.out = .zero := by
  rw [hs.wf.next_X v, h.hazard hs]
  rfl

/-- An untaken branch sends it to its successor. -/
theorem Squashing.next (h : Squashing pc s) (hs : Smooth s v)
    (hl : (ChArm.next false s v).mem.Loaded img) (hb : (ChArm.next false s v).Benign) :
    Front img pc (ChArm.next false s v) 2 := by
  have hD := hs.wf.next_D v
  have hX := h.next_X hs
  have hM := hs.wf.next_M v
  have hctl := congrArg Ctls.d (hs.wf.next_ctls v)
  rw [h.hazard hs] at hD hM hctl
  have hM : (ChArm.next false s v).M.out = mIn false s := hM
  refine .fetching (.of_squash hl hb hD hctl (.inl (by rw [hX]; rfl)) ?_)
  rw [fetchPC_untaken (by rw [hX]; exact nofun) (by rw [hM]; exact h.x) (by rw [hM]; exact h.untaken),
    hM]
  exact h.resumes

/-- The instruction that enters X leaves a front for its successor. -/
theorem Waiting.issue (h : Waiting img pc s) (hs : Smooth s v) (hl : s.mem.Loaded img)
    (hl' : (ChArm.next false s v).mem.Loaded img) (hb : (ChArm.next false s v).Benign)
    (hexec : img.Executes pc) (hload : (hazardOf false (hazards false s v)).ctls.x = .load)
    {pc' : Word} (hpc : pc' = successor (xIn false s v) (mIn false (ChArm.next false s v)).condHolds) :
    ∃ r ≤ 3, 0 < r ∧ Front img pc' (ChArm.next false s v) r := by
  have hg := hazardOf_guard false (hazards false s v)
  have hD := hs.wf.next_D v
  have hX := hs.wf.next_X v
  have hctl := congrArg Ctls.d (hs.wf.next_ctls v)
  obtain ⟨-, hpred, hahead⟩ := h.goes hexec
  rcases hs.cases with hz | hz | hz | hz <;> rw [hz] at hg hload hD hX hctl
  · cases hload
  · cases hload
  · -- a return in X: fetch goes on where it says
    have hX : (ChArm.next false s v).X.out = xIn false s v := hX
    have hop : (xIn false s v).op = .ret := checkRetHazard_iff.1 hg.2.2
    have hopX : (ChArm.next false s v).X.out.op = .ret := by rw [hX, hop]
    refine ⟨2, by decide, by decide, .fetching (.of_squash hl' hb hD hctl (.inr hopX) ?_)⟩
    rw [fetchPC_ret hopX, hX, hpc, successor, hop]
  · have hX : (ChArm.next false s v).X.out = xIn false s v := hX
    have hret : s.D.out.op ≠ .ret := not_ret hg.2.2.1
    by_cases huntaken : s.D.out.op = .bCond ∧ (mIn false (ChArm.next false s v)).condHolds = false
    · have hop : (xIn false s v).op = .bCond := huntaken.1
      refine ⟨3, le_rfl, by decide, .squashing ⟨by rw [hX, hop], huntaken.2, ?_⟩⟩
      rw [hX, hpc, huntaken.2, successor_untaken hop]
    · have htaken : s.D.out.op = .bCond →
          (mIn false (ChArm.next false s v)).condHolds = true :=
        fun hop => Bool.eq_true_of_not_eq_false fun hc => huntaken ⟨hop, hc⟩
      have hpc : pc' = s.D.out.predicted := by
        rw [hpc, ← successor_xIn s v hret]
        by_cases hop : s.D.out.op = .bCond
        · rw [htaken hop]
        · exact successor_of_ne_bCond hop _ _
      have hw : Waiting img pc' (ChArm.next false s v) := by
        refine .of_fetch hs hl ?_ (fun hq => ?_) hz hret htaken
        · rw [h.fetchPC_eq, hpred, hpc]
        · rw [hpc]
          exact hahead hq
      by_cases hld : (ChArm.next false s v).X.out.op = .ldur
      · exact ⟨2, by decide, by decide, .behindLoad hw hld⟩
      · exact ⟨1, by decide, by decide, .waiting hw hld⟩

/-- Where only a load-use stall could hold the instruction in D back, and none does, it enters X. -/
theorem Waiting.load (h : Waiting img pc s) (hs : Smooth s v)
    (hz : hazardOf false (hazards false s v) ≠ .loadUse) :
    (hazardOf false (hazards false s v)).ctls.x = .load := by
  have hg := hazardOf_guard false (hazards false s v)
  rcases hs.cases with hz' | hz' | hz' | hz' <;> rw [hz'] at hg hz ⊢
  · exact absurd rfl hz
  · obtain ⟨hop, hc⟩ := checkMispredBranchHazard_iff.1 hg.2
    exact absurd ((h.taken hop).symm.trans hc) (by decide)
  · rfl
  · rfl

end

/-! ## Cycle by cycle -/

/-- Nothing from X on ends the program. -/
structure Machine.Unended (s : Machine) : Prop where
  x : s.X.out.status.goesOn = true
  m : s.M.out.status.goesOn = true
  w : s.W.out.status.goesOn = true
  running : s.running = true

/-- An `HLT` is in X, and there are others behind it. -/
structure Ending (s : Machine) : Prop where
  sticky : s.F.inp.status = .hlt
  d : s.D.out.status = .hlt
  x : s.X.out.status = .hlt

/-- The `HLT` that ends the program at `t` is on its way from X to where it stops the machine; with
the cycles until it does. -/
inductive Draining (img : Image) (t : Machine) : Nat → Machine → Prop where
  | done {s : Machine} (h : Behind t t t s) (hno : s.deassertFlags = false)
      (hst : s.status = .hlt) : Draining img t 0 s
  | inW {s tM : Machine} (h : Pursues img t t t tM s) (he : Ending s) (hw : s.W.out.status = .hlt)
      (hrun : s.running = true) : Draining img t 1 s
  | inM {s tX tM : Machine} (h : Pursues img t t tX tM s) (he : Ending s)
      (hm : s.M.out.status = .hlt) (hw : s.W.out.status.goesOn = true) (hrun : s.running = true) :
      Draining img t 2 s
  | inX {s tX tM tW : Machine} (h : Pursues img t tX tM tW s) (he : Ending s)
      (hm : s.M.out.status.goesOn = true) (hw : s.W.out.status.goesOn = true)
      (hrun : s.running = true) : Draining img t 3 s

/-- The instruction after the first `j` is the next to enter X, or the last of them all has done so;
with the cycles that are left. -/
inductive Remaining (img : Image) (k : Nat) (τ : Nat → Machine) (last : Nat → Machine → Prop) :
    Nat → Machine → Prop where
  | front {s tX tM tW : Machine} {j r n : Nat} (h : Pursues img (τ j) tX tM tW s) (hu : s.Unended)
      (hf : Front img (τ j).PC s r) (hj : j ≤ k) (hr : 0 < r) (hn : n = 3 * (k - j) + r + 3) :
      Remaining img k τ last n s
  | last {s : Machine} {n : Nat} (h : last n s) : Remaining img k τ last n s

/-- The last instruction stops the machine within three cycles: `last` is what holds on the way,
from seamless states of the kind `fits`. -/
structure Finishes (img : Image) (t : Machine) (fits : Machine → Prop)
    (last : Nat → Machine → Prop) : Prop where
  benign : ∀ s, fits s → s.Benign
  enters : ∀ tX tM tW s v, Pursues img t tX tM tW s → s.Unended → Plain s v → s.Benign →
    Waiting img t.PC s → (hazardOf false (hazards false s v)).ctls.x = .load →
      last 3 (next false s v)
  next : ∀ n s, last (n + 1) s → Runs.Always (cycle false) Machine.running fits s →
    ∃ s', Runs.Step (cycle false) Machine.running s s' ∧ last n s'

section

variable {img : Image} {entry : Word} {t s : Machine} {v : Wires} {k n : Nat} {τ : Nat → Machine}

theorem step_of_wires (hv : wires false s = .ok v) (hrun : s.running = true) :
    Runs.Step (cycle false) Machine.running s (next false s v) := by
  refine ⟨hrun, ?_⟩
  rw [cycle_eq, hv]
  rfl

theorem Plain.step (hp : Plain s v) (hrun : s.running = true) :
    Runs.Step (cycle false) Machine.running s (next false s v) :=
  step_of_wires hp.wires hrun

theorem Machine.Unended.next (h : s.Unended) (hp : ChArm.Plain s v)
    (hX : (ChArm.next false s v).X.out.status.goesOn = true) : (ChArm.next false s v).Unended := by
  obtain ⟨hM, hW, hst⟩ := hp.statuses hp.uncached
  exact ⟨hX, hM ▸ h.x, hW ▸ h.m, by rw [Machine.running, hst]; exact h.w⟩

/-- An `HLT` that goes on to X has others behind it. -/
theorem Ending.of_load (hs : Smooth s v) (hsticky : s.F.inp.status = .hlt)
    (hd : s.D.out.status = .hlt) (hload : (hazardOf false (hazards false s v)).ctls.x = .load) :
    Ending (ChArm.next false s v) := by
  have hD := hs.wf.next_D v
  have hX := hs.wf.next_X v
  have hst := sticky_fStatus hs hsticky
  have hnone : hazardOf false (hazards false s v) = .none := by
    have hg := hazardOf_guard false (hazards false s v)
    rcases hs.cases with hz | hz | hz | hz <;> rw [hz] at hg hload
    · cases hload
    · cases hload
    · have hret : s.D.out.op = .ret := checkRetHazard_iff.1 hg.2.2
      rw [hs.wf.d.status.of_hlt hd] at hret
      cases hret
    · exact hz
  rw [hnone] at hD hX
  refine ⟨hst, ?_, ?_⟩
  · rw [hD]
    exact (fetch_ok hs.wires).2.1.symm.trans hst
  · rw [hX]
    exact hd

theorem Ending.next (h : Ending s) (hs : Smooth s v) : Ending (ChArm.next false s v) := by
  refine .of_load hs h.sticky h.d ?_
  have hg := hazardOf_guard false (hazards false s v)
  have hxop : (hazards false s v).xOpcode = .hlt := hs.wf.x.status.of_hlt h.x
  rcases hs.cases with hz | hz | hz | hz <;> rw [hz] at hg ⊢
  · rw [(HazardIn.loadUse_ops hg.2.2).1] at hxop
    cases hxop
  · rw [(checkMispredBranchHazard_iff.1 hg.2).1] at hxop
    cases hxop
  · rfl
  · rfl

/-- A cycle brings the `HLT` one stage on. -/
theorem Draining.next (h : Draining img t (n + 1) s)
    (hall : Runs.Always (cycle false) Machine.running Machine.Benign s) :
    ∃ s', Runs.Step (cycle false) Machine.running s s' ∧ Draining img t n s' := by
  cases h with
  | inW h he hw hrun =>
    obtain ⟨v, hp⟩ := h.exists_plain (hall.now hrun)
    obtain ⟨-, -, hst⟩ := hp.statuses hp.uncached
    exact ⟨_, hp.step hrun, .done (h.behind.next hp h.effect) hp.noFault (hst.trans hw)⟩
  | inM h he hm hw hrun =>
    obtain ⟨v, hp⟩ := h.exists_plain (hall.now hrun)
    obtain ⟨-, hW, hst⟩ := hp.statuses hp.uncached
    have he' := he.next hp.toSmooth
    refine ⟨_, hp.step hrun, .inW (h.idle hp (.inr he'.x)) he' (hW.trans hm) ?_⟩
    rw [Machine.running, hst]
    exact hw
  | inX h he hm hw hrun =>
    obtain ⟨v, hp⟩ := h.exists_plain (hall.now hrun)
    obtain ⟨hM, hW, hst⟩ := hp.statuses hp.uncached
    have he' := he.next hp.toSmooth
    refine ⟨_, hp.step hrun, .inM (h.idle hp (.inr he'.x)) he' (hM.trans he.x) (hW ▸ hm) ?_⟩
    rw [Machine.running, hst]
    exact hw

/-- An `HLT` finishes. -/
theorem draining_finishes (hends : img.EndsAt t.PC) :
    Finishes img t Machine.Benign (Draining img t) where
  benign _ h := h
  enters tX tM tW s v h hu hp _ hw hload := by
    obtain ⟨hM, hW, hst⟩ := hp.statuses hp.uncached
    obtain ⟨hd, hsticky⟩ := hw.ends hends
    have he := Ending.of_load hp.toSmooth hsticky hd hload
    refine .inX (h.idle hp (.inr he.x)) he (hM ▸ hu.x) (hW ▸ hu.m) ?_
    rw [Machine.running, hst]
    exact hu.w
  next _ _ h hall := h.next hall

end

section

variable {img : Image} {entry : Word} {s : Machine} {v : Wires} {k n : Nat} {τ : Nat → Machine}
  {fits : Machine → Prop} {last : Nat → Machine → Prop}

/-- The instruction in D goes on to X; it is the last one, or its successor is next. -/
theorem Remaining.of_waiting {tX tM tW : Machine} {j : Nat} (hτ : UpTo img entry k τ)
    (hfin : Finishes img (τ k) fits last) (hj : j ≤ k) (h : Pursues img (τ j) tX tM tW s)
    (hu : s.Unended) (hp : Plain s v) (hall : Runs.Always (cycle false) Machine.running fits s)
    (hw : Waiting img (τ j).PC s) (hz : hazardOf false (hazards false s v) ≠ .loadUse) :
    ∃ i ≤ 3 * (k - j) + 3, Remaining img k τ last i (ChArm.next false s v) := by
  have hload := hw.load hp.toSmooth hz
  have hb := hfin.benign s (hall.now hu.running)
  rcases hj.eq_or_lt with rfl | hlt
  · exact ⟨3, by omega, .last (hfin.enters tX tM tW s v h hu hp hb hw hload)⟩
  · have hexec := hτ.executes hlt
    obtain ⟨hpur, haok, hpc⟩ := h.issue hp hb hload (hτ.loaded j hj) hexec (hw.goes hexec).1
      (hτ.trace.next j hlt).2 (hτ.noFault (j + 1) hlt)
    have hX : (ChArm.next false s v).X.out = xIn false s v := by
      rw [hp.wf.next_X v, hload]
      rfl
    have hu' : (ChArm.next false s v).Unended := hu.next hp (hX ▸ congrArg Stat.goesOn haok)
    have hb' := hfin.benign _ ((hall.next (hp.step hu.running)).now hu'.running)
    obtain ⟨r, hr, hpos, hf⟩ := hw.issue hp.toSmooth h.loaded hpur.loaded hb' hexec hload hpc
    exact ⟨3 * (k - (j + 1)) + r + 3, by omega, .front hpur hu' hf hlt hpos rfl⟩

/-- **Every cycle brings the program closer to its end.** -/
theorem Remaining.next (hτ : UpTo img entry k τ) (hfin : Finishes img (τ k) fits last)
    (h : Remaining img k τ last (n + 1) s)
    (hall : Runs.Always (cycle false) Machine.running fits s) :
    ∃ s', Runs.Step (cycle false) Machine.running s s' ∧ ∃ i ≤ n, Remaining img k τ last i s' := by
  cases h with
  | last h =>
    obtain ⟨s', hstep, h'⟩ := hfin.next n s h hall
    exact ⟨s', hstep, n, le_rfl, .last h'⟩
  | @front _ tX tM tW j r _ h hu hf hj hr hn =>
    obtain ⟨v, hp⟩ := h.exists_plain (hfin.benign s (hall.now hu.running))
    have hs := hp.toSmooth
    have hstep := hp.step hu.running
    refine ⟨_, hstep, ?_⟩
    -- a bubble enters X: the same instruction is next, in fewer cycles
    have hidle : ∀ r', (ChArm.next false s v).X.out.status = .bub → 0 < r' → r' < r →
        Front img (τ j).PC (ChArm.next false s v) r' →
        ∃ i ≤ n, Remaining img k τ last i (ChArm.next false s v) := fun r' hbub hpos hlt hf =>
      ⟨3 * (k - j) + r' + 3, by omega,
        .front (h.idle hp (.inl hbub)) (hu.next hp (hbub ▸ rfl)) hf hj hpos rfl⟩
    have henters : Waiting img (τ j).PC s → hazardOf false (hazards false s v) ≠ .loadUse →
        ∃ i ≤ n, Remaining img k τ last i (ChArm.next false s v) := fun hw hz => by
      obtain ⟨i, hi, hrem⟩ := Remaining.of_waiting hτ hfin hj h hu hp hall hw hz
      exact ⟨i, by omega, hrem⟩
    cases hf with
    | waiting hw hx =>
      refine henters hw fun hz => hx ?_
      have hg := hazardOf_guard false (hazards false s v)
      rw [hz] at hg
      exact (HazardIn.loadUse_ops hg.2.2).1
    | behindLoad hw hx =>
      by_cases hz : hazardOf false (hazards false s v) = .loadUse
      · obtain ⟨hf, hX⟩ := hw.stall hs h.loaded hz
        exact hidle 1 (hX ▸ rfl) (by decide) (by decide) hf
      · exact henters hw hz
    | fetching hw =>
      obtain ⟨hf, hbub⟩ := hw.next hs h.loaded
      exact hidle 1 hbub (by decide) (by decide) hf
    | squashing hw =>
      have hX := hw.next_X hs
      have hbub : (ChArm.next false s v).X.out.status = .bub := hX ▸ rfl
      have hu' := hu.next hp (hbub ▸ rfl)
      exact hidle 2 hbub (by decide) (by decide) (hw.next hs
        (h.idle hp (.inl hbub)).loaded (hfin.benign _ ((hall.next hstep).now hu'.running)))

end

/-! ## Whole runs -/

section

variable {img : Image} {entry : Word} {k : Nat} {γ : Nat → A64.Cpu Board} {τ : Nat → Machine}
  {fits : Machine → Prop} {last : Nat → Machine → Prop}

/-- Before the first cycle, fetch works on the entry. -/
theorem remaining_init (hτ : UpTo img entry k τ) (hc : img.cache = none) :
    Remaining img k τ last (3 * k + 5) (.init img entry) := by
  obtain ⟨x, c, tX, tM, tW, h⟩ := trailing_init hc entry
  have hpur : Pursues img (τ 0) tX tM tW (.init img entry) := by
    rw [hτ.trace.start]
    exact ⟨h.behind, h.effect, .init false img entry, h.loaded, ⟨rfl, rfl⟩, rfl, rfl, rfl, rfl⟩
  have hfront : Front img (τ 0).PC (.init img entry) 2 := by
    rw [hτ.trace.start]
    exact .fetching ⟨rfl, .inl rfl, rfl, nofun⟩
  exact .front hpur ⟨rfl, rfl, rfl, rfl⟩ hfront (Nat.zero_le k) (by decide) (by omega)

/-- **The pipeline gets to the last instruction, and through it.** -/
theorem UpTo.arrives (hτ : UpTo img entry k τ) (hc : img.cache = none)
    (hfin : Finishes img (τ k) fits last)
    (hall : Runs.Always (cycle false) Machine.running fits (.init img entry)) :
    ∃ n σ, n ≤ 3 * k + 5 ∧ Execution false img entry n σ ∧ last 0 (σ n) := by
  obtain ⟨n, σ, hn, hσ, hend⟩ :=
    hall.exists_of_rank (remaining_init hτ hc) fun _ _ h hall => h.next hτ hfin hall
  cases hend with
  | front h hu hf hj hr hn => omega
  | last h => exact ⟨n, σ, hn, hσ, h⟩

/-- **The pipeline gets to the end.**  Where an A64 processor halts after `k` instructions, none of
them misread and none of them of the extra-credit build, the base build without a cache halts
without a fault within `3 * k + 5` cycles, in the same state, if all its cycles are benign. -/
theorem pipeline_terminates (hγ : img.Run entry k γ) (hhalted : (γ k).halted img.code = true)
    (hc : img.cache = none) (hread : img.ReadAsMeant entry) (hbuild : img.InBuild entry)
    (hb : Runs.Always (cycle false) Machine.running Machine.Benign (.init img entry)) :
    ∃ n σ, n ≤ 3 * k + 5 ∧ Execution false img entry n σ ∧ (σ n).status = .hlt ∧
      (σ n).deassertFlags = false ∧ (σ n).cpu.state = (γ k).state ∧
      (σ n).cpu.mem = (γ k).mem := by
  obtain ⟨τ, hτ, hcpu⟩ := exists_upTo hγ hc hread hbuild
  have hends := ends_of_halted (hcpu ▸ hhalted)
  obtain ⟨n, σ, hn, hσ, hend⟩ := hτ.arrives hc (draining_finishes hends) hb
  cases hend with
  | done h hno hst =>
    refine ⟨n, σ, hn, hσ, hst, hno, ?_, ?_⟩
    · rw [hcpu, Machine.cpu, Machine.cpu, h.regs, h.xNzcvval]
    · rw [hcpu]
      exact board_of_agree h.mem

end

/-- Four instructions, which may take seventeen cycles. -/
theorem pipeline_terminates_loadAndBranch :
    let img := Image.ofWords loadAndBranch none
    ∃ n σ, n ≤ 3 * 4 + 5 ∧ Execution false img 0x400000#64 n σ ∧ (σ n).status = .hlt ∧
      (σ n).deassertFlags = false ∧
      (σ n).cpu.state = (a64StateAt img 0x400000#64 4).state ∧
      (σ n).cpu.mem = (a64StateAt img 0x400000#64 4).mem := by
  intro img
  have hrun : Execution false img 0x400000#64 13 (stateAt false img 0x400000#64) :=
    execution_stateAt (by decide +kernel)
  have ha64 : img.Run 0x400000#64 4 (a64StateAt img 0x400000#64) :=
    run_a64StateAt (by decide +kernel)
  have hhalted : (a64StateAt img 0x400000#64 4).halted img.code = true := by decide +kernel
  have hstop : (!(a64StateAt img 0x400000#64 4).halted img.code) = false := by
    rw [hhalted]
    rfl
  have hread : img.ReadAsMeant 0x400000#64 := ha64.always hstop (by decide +kernel)
  have hbuild : img.InBuild 0x400000#64 := ha64.always hstop (by decide +kernel)
  have hb : Runs.Always (cycle false) Machine.running Machine.Benign (.init img 0x400000#64) :=
    hrun.always (by decide +kernel) (by decide +kernel)
  exact pipeline_terminates ha64 hhalted rfl hread hbuild hb

end ChArm
