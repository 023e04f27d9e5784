import ChArm.Pipe.Progress
import ChArm.Pipe.FailingAlike

/-!
# Faults where A64 has them

Where an A64 processor comes to a word that means nothing or to an access that memory does not
answer, the pipeline stops with the status of a fault, and precisely: everything before that
instruction is done, and nothing else.

* `Stopping.next` — a cycle brings the fault one stage on, and nothing else.
* `fails_of_stop` — the processor stops where the sequential machine would fail.
* `pipeline_faults` — whole programs, with a bound on the cycles.
-/

namespace ChArm

/-! ## Accesses -/

section

variable {m : Memory} {a x y : Word} {read write : Bool}

/-- An access to no special address goes through, with an error or without. -/
theorem exists_dmem (h : m.Uncached) (hs : isSpecialAddr a = false) (hrw : (read && write) = false)
    (hacc : (read || write) = true) :
    ∃ v m', dmem m a x read write y = .ok (v, dmemErr m a, m') ∧ m'.Uncached ∧
      (write = false → m.Agrees m') := by
  cases read with
  | true =>
    obtain rfl : write = false := hrw
    obtain ⟨pt, hpt, hr⟩ := h.memRead_eq hs 8
    refine ⟨leValue (fun k => m.view (a + BitVec.ofNat 64 k)) 8, { m with ptable := pt }, ?_,
      ⟨h.cache, h.ready⟩, fun _ => ⟨⟨rfl, rfl, rfl⟩, rfl, rfl, fun b _ => ?_⟩⟩
    · simp only [dmem, hr]
      rfl
    · rw [h.view_ptable, h.view_eq, hpt]
  | false =>
    obtain rfl : write = true := hacc
    have hw := h.memWrite_eq hs x 8
    refine ⟨y, _, ?_, h.memWrite hw, fun hf => absurd hf (by decide)⟩
    show (memWrite m a x 8 >>= fun m' => .ok (y, dmemErr m a, m')) = _
    rw [hw]
    rfl

/-- What the board does not answer is an error, special addresses apart. -/
theorem accessFaults_of_unanswered {i : MInstr} {r : Regs} {f : BitVec 8} (h : m.Uncached)
    (hrw : (i.mSigs.dmemRead && i.mSigs.dmemWrite) = false)
    (hno : (boardBus m.segStart).access m.board (outcomeFrom r i f) = none)
    (hs : (i.mSigs.dmemRead || i.mSigs.dmemWrite) = true → isSpecialAddr i.valEx = false) :
    accessFaults m i = true := by
  have hanswered : ∀ v m', dmem m i.valEx i.valB i.mSigs.dmemRead i.mSigs.dmemWrite 0 ≠
      .ok (v, false, m') := fun v m' hd => by
    have hsome := dmem_board h hrw hd fun v => archState (retire r (passMemory i v)) (unpackFlags f)
    cases hno.symm.trans hsome
  cases hacc : i.mSigs.dmemRead || i.mSigs.dmemWrite with
  | true =>
    obtain ⟨v, m', hd, -⟩ := exists_dmem (x := i.valB) (y := 0) h (hs hacc) hrw hacc
    rw [accessFaults, hacc, Bool.true_and]
    by_contra he
    rw [Bool.not_eq_true] at he
    rw [he] at hd
    exact hanswered v m' hd
  | false =>
    obtain ⟨hr, hw⟩ := Bool.or_eq_false_iff.1 hacc
    refine absurd ?_ (hanswered 0 m)
    rw [hr, hw]
    rfl

/-- An operand nobody uses decides no fault. -/
theorem SameUse.accessFaults_eq {y z : XInstr} (h : SameUse y z) (hy : y.Ok false) (rca : Rca)
    (f : BitVec 8) :
    accessFaults m (execute false rca f z) = accessFaults m (execute false rca f y) := by
  have hsigs : y.mSigs = (generateDXMWControl false y.op).2.1 := congrArg (·.2.1) hy.sigs
  have hz : z.mSigs = y.mSigs := by rw [h.eq]
  have hexec : ∀ x : XInstr, (execute false rca f x).mSigs = x.mSigs := fun _ => rfl
  rw [accessFaults, accessFaults, hexec, hexec, hz]
  cases hacc : y.mSigs.dmemRead || y.mSigs.dmemWrite with
  | true =>
    have hu : y.op.usesResult = true := by
      rw [hsigs] at hacc
      simp only [Opcode.usesResult, Bool.or_eq_true] at hacc ⊢
      tauto
    rw [h.valEx_eq hy hu]
  | false => rw [Bool.false_and, Bool.false_and]

end

/-! ## A fault on its way out -/

/-- The next cycle is benign, and nothing in X that could not be fetched is a load or a store. -/
structure Machine.FaultsPlainly (s : Machine) : Prop extends s.Benign where
  fetched : s.X.out.status.isError = true → s.X.out.mSigs.dmemRead = false ∧
    s.X.out.mSigs.dmemWrite = false

instance (s : Machine) : Decidable s.FaultsPlainly :=
  decidable_of_iff (s.Benign ∧ (s.X.out.status.isError = true →
      s.X.out.mSigs.dmemRead = false ∧ s.X.out.mSigs.dmemWrite = false))
    ⟨fun h => ⟨h.1, h.2⟩, fun h => ⟨h.toBenign, h.fetched⟩⟩

/-- What the status of an instruction becomes in M. -/
def statusAfter (m : Memory) (i : MInstr) : Stat := if accessFaults m i then .adr else i.status

/-- The instruction in M, which comes after `t`, stops the machine with the status `st`.  Nothing
behind it has an effect; `w` says whether it is a store. -/
structure Faulting (st : Stat) (w : Bool) (t s : Machine) : Prop where
  wf : s.WellFormed false
  uncached : s.mem.Uncached
  isError : st.isError = true
  fails : statusAfter s.mem s.M.out = st
  idle : s.M.out.status.isError = true → s.M.out.mSigs.dmemRead = false ∧
    s.M.out.mSigs.dmemWrite = false
  pc : s.M.out.seqSuccPC - 4#64 = t.PC
  shown : s.NZCV = t.nzcvWrites.getLastD PACK_CC_Z
  nzcvWrites : s.nzcvWrites = t.nzcvWrites
  tested : t.xNzcvval = t.nzcvWrites.getLastD 0
  write : s.M.out.mSigs.dmemWrite = w
  mem : w = false → t.mem.Agrees s.mem
  running : s.running = true

section

variable {st : Stat} {w : Bool} {t tX tM tW s : Machine} {v : Wires}

theorem statusAfter_congr {m m' : Memory} (h : m'.segStart = m.segStart) (i : MInstr) :
    statusAfter m' i = statusAfter m i := by
  rw [statusAfter, statusAfter, accessFaults, accessFaults, dmemErr_congr h]

theorem wIn_status_eq (hs : s.WellFormed false) (hv : wires false s = .ok v) :
    (wIn s v).status = statusAfter s.mem s.M.out := by
  rw [statusAfter, ← memErr_eq hs hv]
  rfl

/-- An error anywhere keeps the flags. -/
theorem flags_of_deasserts (h : hazardDeasserts (hazards false s v) = true) :
    (next false s v).NZCV = s.NZCV ∧ (next false s v).nzcvWrites = s.nzcvWrites := by
  have hl : ¬ flagsLatch false s v = true := by
    rw [flagsLatch, flagsDeasserted, h, Bool.or_true]
    exact Bool.false_ne_true
  exact ⟨if_neg hl, if_neg hl⟩

theorem Faulting.exists_wires (h : Faulting st w t s) (hb : s.Benign) :
    ∃ v, wires false s = .ok v ∧ (w = false → t.mem.Agrees v.mem) := by
  obtain ⟨d, fStatus, fPC, fMem, hf, hfu, -⟩ := exists_fetchWires false h.uncached
  have hag := fetchWires_agrees h.uncached hb.console hf
  have hdm : ∃ v err m', dmem fMem s.M.out.valEx s.M.out.valB s.M.out.mSigs.dmemRead
      s.M.out.mSigs.dmemWrite s.W.inp.valMem = .ok (v, err, m') ∧
        (w = false → t.mem.Agrees m') := by
    cases hacc : s.M.out.mSigs.dmemRead || s.M.out.mSigs.dmemWrite with
    | true =>
      have hfaults : accessFaults s.mem s.M.out = true := by
        by_contra hno
        have hst : s.M.out.status = st := by
          rw [← h.fails, statusAfter, if_neg hno]
        obtain ⟨hr, hw⟩ := h.idle (hst ▸ h.isError)
        rw [hr, hw] at hacc
        cases hacc
      have hs : isSpecialAddr s.M.out.valEx = false := by
        rw [accessFaults, hacc, Bool.true_and, dmemErr, Bool.and_eq_true, Bool.not_eq_true'] at hfaults
        exact hfaults.1
      obtain ⟨v, m', hd, -, hm⟩ := exists_dmem (x := s.M.out.valB) (y := s.W.inp.valMem) hfu hs
        h.wf.m.not_both hacc
      exact ⟨v, _, m', hd, fun hw => ((h.mem hw).trans hag).trans (hm (h.write.trans hw))⟩
    | false =>
      obtain ⟨hr, hw⟩ := Bool.or_eq_false_iff.1 hacc
      rw [hr, hw]
      exact ⟨_, _, fMem, rfl, fun hw => (h.mem hw).trans hag⟩
  obtain ⟨valMem, err, m', hd, hm⟩ := hdm
  exact ⟨⟨d, fStatus, fPC, fMem, valMem, err, m'⟩, wires_eq hf hd, hm⟩

/-- What the next cycle leaves as it was. -/
theorem Faulting.kept (h : Faulting st w t s) (hv : wires false s = .ok v) :
    (next false s v).M.out = s.M.out ∧ (next false s v).PC = t.PC ∧
      (next false s v).NZCV = t.nzcvWrites.getLastD PACK_CC_Z ∧
      (next false s v).nzcvWrites = t.nzcvWrites ∧
      (s.W.out.status.isError = false → (next false s v).W.out.status = st) := by
  have hst := (wIn_status_eq h.wf hv).trans h.fails
  have herr : (wIn s v).status.isError = true := hst ▸ h.isError
  obtain ⟨hM, hN, hPC, hW⟩ := next_of_fails h.wf herr
  obtain ⟨-, hwrites⟩ := flags_of_deasserts (s := s) (v := v) (by
    change (_ || (wIn s v).status.isError || _) = true
    rw [herr, Bool.or_true, Bool.true_or])
  refine ⟨hM, hPC.trans h.pc, hN.trans h.shown, hwrites.trans h.nzcvWrites, fun hq => ?_⟩
  rw [hW, hq, if_neg Bool.false_ne_true, hst]

/-- A cycle keeps it there. -/
theorem Faulting.next (h : Faulting st w t s) (hv : wires false s = .ok v)
    (hmem : w = false → t.mem.Agrees v.mem)
    (hrun : (ChArm.next false s v).running = true) : Faulting st w t (ChArm.next false s v) := by
  obtain ⟨hM, -, hN, hwrites, -⟩ := h.kept hv
  have hfails : statusAfter (ChArm.next false s v).mem s.M.out = st :=
    (statusAfter_congr (segStart_of_wires h.wf hv) _).trans h.fails
  rw [← hM] at hfails
  exact ⟨h.wf.next hv, (uncached_of_wires h.wf h.uncached hv).2, h.isError, hfails, hM ▸ h.idle,
    hM ▸ h.pc, hN, hwrites, h.tested, hM ▸ h.write, hmem, hrun⟩

end

/-! ## Down the pipeline -/

/-- The instruction in X, which comes after `t`, is to stop the machine with the status `st`. -/
structure Reaching (st : Stat) (w : Bool) (t tM tW s : Machine) : Prop where
  behind : Behind t tM tW s
  wf : s.WellFormed false
  uncached : s.mem.Uncached
  flags : s.FlagsKept
  pc : s.X.out.pc = t.PC
  cause : s.X.out.status = .ins ∧ st = .ins ∧ w = false ∨
    s.X.out.status = .aok ∧ st = .adr ∧ s.X.out.mSigs.dmemWrite = w ∧
      accessFaults s.mem (mIn false s) = true
  m : s.M.out.status.goesOn = true
  w : s.W.out.status.goesOn = true
  running : s.running = true

/-- The instruction after `t` is on its way from X to where it stops the machine with the status
`st`; with the cycles until it does. -/
inductive Stopping (st : Stat) (w : Bool) (t : Machine) : Nat → Machine → Prop where
  | done {s : Machine} (hst : s.status = st) (hPC : s.PC = t.PC) (hregs : s.regs = t.regs)
      (hshown : s.NZCV = t.nzcvWrites.getLastD PACK_CC_Z) (hwrites : s.nzcvWrites = t.nzcvWrites)
      (htested : t.xNzcvval = t.nzcvWrites.getLastD 0) (hmem : w = false → t.mem.Agrees s.mem) :
      Stopping st w t 0 s
  | inW {s : Machine} (h : Faulting st w t s) (hw : s.W.out.status = st)
      (hregs : s.regs = t.regs) : Stopping st w t 1 s
  | inM {s tM : Machine} (h : Faulting st w t s) (hgo : s.W.out.status.goesOn = true)
      (hw : WEffect s.W.out tM t) (hregs : s.regs = tM.regs) : Stopping st w t 2 s
  | inX {s tM tW : Machine} (h : Reaching st w t tM tW s) : Stopping st w t 3 s

section

variable {st : Stat} {w : Bool} {t tM tW s : Machine} {n : Nat}

/-- An access sets no flags. -/
theorem setFlags_of_access {op : Opcode}
    (h : ((generateDXMWControl false op).2.1.dmemRead ||
      (generateDXMWControl false op).2.1.dmemWrite) = true) :
    (generateDXMWControl false op).1.setFlags = false := by
  revert h
  cases op <;> decide

/-- The instruction moves on to M, and nothing in X sets flags. -/
theorem Reaching.next (h : Reaching st w t tM tW s) (hb : s.FaultsPlainly) :
    ∃ s', Runs.Step (cycle false) Machine.running s s' ∧ Stopping st w t 2 s' := by
  obtain ⟨v, hv, herr, hmem, hwb⟩ := h.behind.exists_wires h.uncached hb.console
  have hwin : (wIn s v).status = s.M.out.status := by
    rw [wIn, herr]
    rfl
  have hwout := not_isError_of_goesOn h.w
  obtain ⟨hctlM, hctlW⟩ := ctls_of_quiet h.wf h.uncached hv
    (hwin ▸ not_isError_of_goesOn h.m) hwout
  have hM : (ChArm.next false s v).M.out = mIn false s := by
    rw [h.wf.next_M v, hctlM]
    rfl
  have hW : (ChArm.next false s v).W.out = wIn s v := by
    rw [h.wf.next_W v, hctlW]
    rfl
  have hrun : (ChArm.next false s v).running = true :=
    (congrArg Stat.goesOn (h.wf.statusNext_eq v)).trans h.w
  -- an error in X keeps the flags, and an access sets none
  have hflags : (ChArm.next false s v).NZCV = s.NZCV ∧
      (ChArm.next false s v).nzcvWrites = s.nzcvWrites := by
    rcases h.cause with ⟨hst, -⟩ | ⟨-, -, -, hfaults⟩
    · refine flags_of_deasserts ?_
      change (s.X.out.status.isError || _ || _) = true
      rw [hst]
      rfl
    · have hset : s.X.out.xSigs.setFlags = false := by
        rw [accessFaults, Bool.and_eq_true] at hfaults
        have hm : s.X.out.mSigs = (generateDXMWControl false s.X.out.op).2.1 :=
          congrArg (·.2.1) h.wf.x.sigs
        have hacc : (s.X.out.mSigs.dmemRead || s.X.out.mSigs.dmemWrite) = true := hfaults.1
        rw [show s.X.out.xSigs = _ from congrArg Prod.fst h.wf.x.sigs]
        exact setFlags_of_access (hm ▸ hacc)
      have hl : ¬ flagsLatch false s v = true := by
        rw [flagsLatch, hset, Bool.and_false]
        exact Bool.false_ne_true
      exact ⟨if_neg hl, if_neg hl⟩
  have hnzcv := h.behind.nzcvWrites
  -- M holds the instruction now; its status is an error, or becomes one there
  have hfaulting : Faulting st w t (ChArm.next false s v) := by
    have hsigs : (ChArm.next false s v).M.out.mSigs = s.X.out.mSigs := by rw [hM]; rfl
    have hstatus : (ChArm.next false s v).M.out.status = s.X.out.status := by rw [hM]; rfl
    have hseg := segStart_of_wires h.wf hv
    refine ⟨h.wf.next hv, (uncached_of_wires h.wf h.uncached hv).2, ?_, ?_, ?_, ?_, ?_, ?_, ?_,
      ?_, fun _ => hmem, hrun⟩
    · rcases h.cause with ⟨-, rfl, -⟩ | ⟨-, rfl, -⟩ <;> rfl
    · rw [show (ChArm.next false s v).mem = v.mem from rfl, statusAfter_congr hseg, statusAfter]
      rcases h.cause with ⟨hst, rfl, -⟩ | ⟨-, rfl, -, hfaults⟩
      · obtain ⟨hr, hw⟩ := hb.fetched (hst ▸ rfl)
        rw [accessFaults, hsigs, hr, hw, hstatus, hst]
        rfl
      · rw [hM, hfaults]
        rfl
    · rw [hstatus, hsigs]
      exact hb.fetched
    · rw [hM]
      exact h.pc
    · rw [hflags.1, h.flags.shown, hnzcv]
    · rw [hflags.2, hnzcv]
    · rw [← h.behind.xNzcvval, ← hnzcv]
      exact h.flags.tested
    · rw [hsigs]
      rcases h.cause with ⟨hst, -, rfl⟩ | ⟨-, -, hw, -⟩
      · exact (hb.fetched (hst ▸ rfl)).2
      · exact hw
  have hgo : (ChArm.next false s v).W.out.status.goesOn = true := by
    rw [hW, hwin]
    exact h.m
  refine ⟨_, step_of_wires hv h.running, .inM hfaulting hgo (hW ▸ hwb) ?_⟩
  rw [next_regs h.wf, h.behind.regs, h.behind.wback.regs]

/-- **A cycle brings the fault one stage on.** -/
theorem Stopping.next (h : Stopping st w t (n + 1) s)
    (hall : Runs.Always (cycle false) Machine.running Machine.FaultsPlainly s) :
    ∃ s', Runs.Step (cycle false) Machine.running s s' ∧ Stopping st w t n s' := by
  cases h with
  | inX h => exact h.next (hall.now h.running)
  | @inM _ tM h hgo hw hregs =>
    obtain ⟨v, hv, hmem⟩ := h.exists_wires (hall.now h.running).toBenign
    obtain ⟨-, -, -, -, hst⟩ := h.kept hv
    have hrun : (ChArm.next false s v).running = true :=
      (congrArg Stat.goesOn (h.wf.statusNext_eq v)).trans hgo
    refine ⟨_, step_of_wires hv h.running, .inW (h.next hv hmem hrun)
      (hst (not_isError_of_goesOn hgo)) ?_⟩
    rw [next_regs h.wf, hregs, hw.regs]
  | inW h hw hregs =>
    obtain ⟨v, hv, hmem⟩ := h.exists_wires (hall.now h.running).toBenign
    obtain ⟨-, hPC, hN, hwrites, -⟩ := h.kept hv
    refine ⟨_, step_of_wires hv h.running, .done ?_ hPC ?_ hN hwrites h.tested hmem⟩
    · rw [← hw]
      exact h.wf.statusNext_eq v
    · have hen : writeEnable s.W.out = false := by
        rw [writeEnable, Bool.and_eq_false_iff]
        refine .inr (beq_eq_false_iff_ne.2 fun haok => ?_)
        have := h.isError
        rw [← hw, haok] at this
        cases this
      rw [next_regs h.wf, retire_of_disabled hen, hregs]

end

/-! ## Into X -/

section

variable {img : Image} {st : Stat} {w : Bool} {t tX tM tW s : Machine} {v : Wires}

theorem Pursues.reaching (h : Pursues img t tX tM tW s) (hu : s.Unended) (hp : Plain s v)
    (hload : (hazardOf false (hazards false s v)).ctls.x = .load) (hpc : s.D.out.pc = t.PC)
    (hcause : (xIn false s v).status = .ins ∧ st = .ins ∧ w = false ∨
      (xIn false s v).status = .aok ∧ st = .adr ∧ (xIn false s v).mSigs.dmemWrite = w ∧
        accessFaults (ChArm.next false s v).mem (execute false .zero t.xNzcvval (xIn false s v)) = true) :
    Reaching st w t tX tM (ChArm.next false s v) := by
  have hX : (ChArm.next false s v).X.out = xIn false s v := by
    rw [hp.wf.next_X v, hload]
    rfl
  obtain ⟨hM, hW, hst⟩ := hp.statuses hp.uncached
  have hbehind := h.behind.next hp h.effect
  refine ⟨hbehind, hp.wf.next hp.wires, (uncached_of_wires hp.wf hp.uncached hp.wires).2,
    h.flags.next hp.noFault, ?_, ?_, hM ▸ hu.x, hW ▸ hu.m, ?_⟩
  · rw [hX]
    exact hpc
  · rw [mIn, hX, execute_rca false _ .zero, hbehind.xNzcvval]
    exact hcause
  · rw [Machine.running, hst]
    exact hu.w

/-- A word that cannot be fetched or decoded stops the machine. -/
theorem stopping_ins (hexec : ¬ img.Executes t.PC) (hends : ¬ img.EndsAt t.PC) :
    Finishes img t Machine.FaultsPlainly (Stopping .ins false t) where
  benign _ h := h.toBenign
  enters tX tM tW s v h hu hp _ hw hload := by
    obtain ⟨hst, hpc⟩ := hw.fails hexec hends
    exact .inX (h.reaching hu hp hload hpc (.inl ⟨hst, rfl, rfl⟩))
  next _ _ h hall := h.next hall

/-- An access to no doubleword of data stops the machine. -/
theorem stopping_adr (hl : t.mem.Loaded img) (hexec : img.Executes t.PC)
    (hfaults : accessFaults t.mem (seqM t (img.instrAt t.PC)) = true) :
    Finishes img t Machine.FaultsPlainly
      (Stopping .adr (seqM t (img.instrAt t.PC)).mSigs.dmemWrite t) where
  benign _ h := h.toBenign
  enters tX tM tW s v h hu hp hb hw hload := by
    obtain ⟨hd, -, -⟩ := hw.goes hexec
    have hst : s.D.out.status = .aok := hd ▸ hexec.2
    have huse := h.behind.sameUse hp h.effect hb hload hst
    have hxok : (xIn false s v).Ok false := xIn_ok hp.wf.d v
    have hseg : (next false s v).mem.segStart = t.mem.segStart :=
      (segStart_of_wires hp.wf hp.wires).trans (h.loaded.segStart.trans hl.segStart.symm)
    have hseq : seqM t s.D.out = execute false .zero t.xNzcvval (seqX t s.D.out) :=
      execute_rca _ _ _ _ _
    rw [← hd] at hfaults ⊢
    refine .inX (h.reaching hu hp hload (hd ▸ img.instrAt_pc t.PC)
      (.inr ⟨hst, rfl, ?_, ?_⟩))
    · exact congrArg (·.mSigs.dmemWrite) huse.eq.symm
    · rw [accessFaults, dmemErr_congr hseg, ← accessFaults, ← huse.accessFaults_eq hxok, ← hseq]
      exact hfaults
  next _ _ h hall := h.next hall

end

/-! ## Where A64 stops -/

section

variable {img : Image} {t : Machine} {e : A64.Stop}

/-- **An A64 processor stops where the sequential machine would fail.** -/
theorem fails_of_stop (hl : t.mem.Loaded img) (hflags : t.xNzcvval < 16#8)
    (hgo : t.cpu.halted img.code = false) (hread : ¬ Misread false t.PC (img.word t.PC))
    (hbuild : ∀ g ∈ A64.Group.ofWord (img.word t.PC), GroupInBuild false g)
    (haddr : ∀ a ∈ t.cpu.accessed img.code, isSpecialAddr a = false)
    (h : t.cpu.step (boardBus img.segStart) img.code = .error e) :
    e ≠ .access ∧ ¬ img.Executes t.PC ∧ ¬ img.EndsAt t.PC ∨
      e = .access ∧ img.Executes t.PC ∧
        accessFaults t.mem (seqM t (img.instrAt t.PC)) = true ∧
        (t.cpu.stores img.code = false →
          (seqM t (img.instrAt t.PC)).mSigs.dmemWrite = false) := by
  have hends : ¬ img.EndsAt t.PC := by
    intro hends
    rw [halted_of_ends hends fun _ => hread] at hgo
    cases hgo
  have hne : t.PC ≠ 0 := fun h0 => hends (.inl h0)
  -- either the word is executed and its access fails, or it is no instruction at all
  by_cases hexec : img.Executes t.PC
  · have hcode := Image.code_of_inText hexec.1
    have hd : (img.instrAt t.PC).Ok false := fetchedInstr_ok ..
    obtain ⟨i, hi, houtcome, -⟩ := executes_inst (d := img.instrAt t.PC) rfl
      (by rw [hexec.2]; decide) hexec.1.toNat_mod hread hflags (t.locals t.numInstr) t.rca t.regs
    have houtcome : i.outcome t.cpu.pc t.cpu.state =
        outcomeFrom t.regs (seqM t (img.instrAt t.PC))
          (flagsAfter (seqX t (img.instrAt t.PC)) t.xNzcvval) := houtcome
    -- the processor asks memory for what the sequential machine asks it for
    have hasks : t.cpu.outcome img.code = some (i.outcome t.cpu.pc t.cpu.state) := by
      rw [A64.Cpu.outcome, A64.Cpu.fetched, show t.cpu.pc = t.PC from rfl, hcode, Option.bind_some,
        hi]
      rfl
    have hno : (boardBus t.mem.segStart).access t.mem.board
        (outcomeFrom t.regs (seqM t (img.instrAt t.PC))
          (flagsAfter (seqX t (img.instrAt t.PC)) t.xNzcvval)) = none ∧ e = .access := by
      unfold A64.Cpu.step at h
      rw [show img.code t.cpu.pc = _ from hcode] at h
      simp only [hi, houtcome] at h
      split at h
      · rename_i hnone
        refine ⟨?_, (Except.error.inj h).symm⟩
        rw [hl.segStart]
        exact hnone
      · cases h
    refine .inr ⟨hno.2, hexec, ?_, fun hstores => ?_⟩
    · refine accessFaults_of_unanswered hl.uncached (seqM_ok t hd).not_both hno.1 fun hacc => ?_
      refine haddr _ ?_
      rw [A64.Cpu.accessed, hasks, houtcome, Option.bind_some, outcomeFrom]
      cases hr : (seqM t (img.instrAt t.PC)).mSigs.dmemRead with
      | true => rfl
      | false =>
        rw [hr, Bool.false_or] at hacc
        rw [hacc]
        rfl
    · rw [A64.Cpu.stores, hasks, houtcome, Option.bind_some, outcomeFrom] at hstores
      by_contra hw
      rw [Bool.not_eq_false] at hw
      rw [hw] at hstores
      cases hstores
  · refine .inl ⟨?_, hexec, hends⟩
    rintro rfl
    unfold A64.Cpu.step at h
    by_cases hin : img.InText t.PC
    · rw [show img.code t.cpu.pc = _ from Image.code_of_inText hin] at h
      dsimp only at h
      split at h
      · cases h
      · rename_i i hi
        -- a word with a meaning is of a group, and fetch lets it through
        obtain ⟨g, hg, -⟩ := Option.bind_eq_some_iff.1 hi
        have hins : (img.instrAt t.PC).status ≠ .ins := (takenFor_group hg (hbuild g hg)).status
        rcases fetchStatus_cases false (img.instrAt t.PC).op with hst | hst | hst
        · exact hins hst
        · exact hends (.inr ⟨hin, hst⟩)
        · exact hexec ⟨hin, hst⟩
    · rw [show t.cpu.pc = t.PC from rfl, Image.code, if_neg hne, if_neg hin] at h
      cases h

end

/-! ## Whole runs -/

section

variable {img : Image} {entry : Word} {k : Nat} {γ : Nat → A64.Cpu Board} {e : A64.Stop}

/-- The status of the fault that A64 prescribes. -/
def statusOfStop : A64.Stop → Stat
  | .noWord | .undefined => .ins
  | .access => .adr

theorem statusOfStop_of_ne (h : e ≠ .access) : statusOfStop e = .ins := by
  cases e with
  | noWord => rfl
  | undefined => rfl
  | access => exact absurd rfl h

/-- **The pipeline faults where A64 does, precisely.**  Where an A64 processor comes to a stop after
`k` instructions, none of them misread and none of them of the extra-credit build, because there is
no instruction, the word means nothing or memory does not answer, the base build without a cache
stops within `3 * k + 5` cycles with the status for that, the PC of that instruction, and the
registers, the flags and, unless a store has failed, the memory of the processor. -/
theorem pipeline_faults (hγ : img.Run entry k γ) (hgo : (γ k).halted img.code = false)
    (hstop : (γ k).step (boardBus img.segStart) img.code = .error e)
    (haddr : ∀ a ∈ (γ k).accessed img.code, isSpecialAddr a = false)
    (hc : img.cache = none) (hread : img.ReadAsMeant entry) (hbuild : img.InBuild entry)
    (hall : Runs.Always (cycle false) Machine.running Machine.FaultsPlainly (.init img entry)) :
    ∃ n σ, n ≤ 3 * k + 5 ∧ Execution false img entry n σ ∧ (σ n).status = statusOfStop e ∧
      (σ n).PC = (γ k).pc ∧ archState (σ n).regs (γ k).state.flags = (γ k).state ∧
      (σ n).NZCV = (if (σ n).nzcvWrites = [] then PACK_CC_Z else packFlags (γ k).state.flags) ∧
      ((γ k).stores img.code = false → (σ n).cpu.mem = (γ k).mem) := by
  obtain ⟨τ, hτ, hcpu⟩ := exists_upTo hγ hc hread hbuild
  have hgoes : (!(γ k).halted img.code) = true := by
    rw [hgo]
    rfl
  have hread := hread k γ hγ hgoes
  have hbuild := hbuild k γ hγ hgoes
  rw [hcpu] at hgo hstop haddr hread hbuild
  have hl := hτ.loaded k le_rfl
  have hflags := hτ.flags k le_rfl
  obtain ⟨w, n, σ, hn, hσ, hend, hstores⟩ : ∃ w n σ, n ≤ 3 * k + 5 ∧
      Execution false img entry n σ ∧ Stopping (statusOfStop e) w (τ k) 0 (σ n) ∧
        ((τ k).cpu.stores img.code = false → w = false) := by
    rcases fails_of_stop hl hflags hgo hread hbuild haddr hstop with
      ⟨he, hexec, hends⟩ | ⟨rfl, hexec, hfaults, hstores⟩
    · obtain ⟨n, σ, hn, hσ, hend⟩ := hτ.arrives hc (stopping_ins hexec hends) hall
      refine ⟨false, n, σ, hn, hσ, ?_, fun _ => rfl⟩
      rwa [statusOfStop_of_ne he]
    · obtain ⟨n, σ, hn, hσ, hend⟩ := hτ.arrives hc (stopping_adr hl hexec hfaults) hall
      exact ⟨_, n, σ, hn, hσ, hend, hstores⟩
  rw [hcpu]
  cases hend with
  | done hst hPC hregs hshown hwrites htested hmem =>
    refine ⟨n, σ, hn, hσ, hst, hPC, ?_, ?_, fun hno => ?_⟩
    · rw [hregs]
      rfl
    · show _ = if _ then _ else packFlags (unpackFlags (τ k).xNzcvval)
      rw [packFlags_unpackFlags _ hflags, hshown, hwrites, htested]
      cases (τ k).nzcvWrites with
      | nil => rfl
      | cons f fs => rw [List.getLastD_cons, List.getLastD_cons, if_neg (List.cons_ne_nil _ _)]
    · exact board_of_agree (hmem (hstores hno))

end

/-- Did a computation fail with this error? -/
def failsWith {ε α : Type} [DecidableEq ε] (x : Except ε α) (e : ε) : Bool :=
  match x with
  | .ok _ => false
  | .error e' => e' == e

theorem eq_error_of_failsWith {ε α : Type} [DecidableEq ε] {x : Except ε α} {e : ε}
    (h : failsWith x e = true) : x = .error e := by
  cases x with
  | error e' => rw [eq_of_beq h]
  | ok a => cases h

/-- `adds x3, x2, x2`, `ldur x1, [sp, #1]`. -/
def flagsThenStrayLoad : List (BitVec 32) := [0xab020043#32, 0xf84013e1#32]

theorem pipeline_faults_flagsThenStrayLoad :
    let img := Image.ofWords flagsThenStrayLoad none
    let c := a64StateAt img 0x400000#64 1
    ∃ n σ, n ≤ 3 * 1 + 5 ∧ Execution false img 0x400000#64 n σ ∧ (σ n).status = .adr ∧
      (σ n).PC = c.pc ∧ archState (σ n).regs c.state.flags = c.state ∧
      (σ n).NZCV = (if (σ n).nzcvWrites = [] then PACK_CC_Z else packFlags c.state.flags) ∧
      (c.stores img.code = false → (σ n).cpu.mem = c.mem) := by
  intro img c
  have hrun : Execution false img 0x400000#64 6 (stateAt false img 0x400000#64) :=
    execution_stateAt (by decide +kernel)
  have ha64 : img.Run 0x400000#64 1 (a64StateAt img 0x400000#64) :=
    run_a64StateAt (by decide +kernel)
  have hstop : c.step (boardBus img.segStart) img.code = .error .access :=
    eq_error_of_failsWith (by decide +kernel)
  have hasks : c.accessed img.code = some 0x7fffffff9#64 := by decide +kernel
  have haddr : ∀ a ∈ c.accessed img.code, isSpecialAddr a = false := by
    rw [hasks]
    rintro a ⟨⟩
    decide
  have hread : img.ReadAsMeant 0x400000#64 := ha64.always_of_error hstop (by decide +kernel)
  have hbuild : img.InBuild 0x400000#64 := ha64.always_of_error hstop (by decide +kernel)
  have hall : Runs.Always (cycle false) Machine.running Machine.FaultsPlainly
      (.init img 0x400000#64) := hrun.always (by decide +kernel) (by decide +kernel)
  exact pipeline_faults ha64 (by decide +kernel) hstop haddr rfl hread hbuild hall

end ChArm
