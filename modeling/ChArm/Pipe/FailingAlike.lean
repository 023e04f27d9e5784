import ChArm.Pipe.WaitingCycles

/-!
# Runs that fail alike

How a run ends once an instruction fails, with a cache and without.  `Failing` says that the
instruction in M has failed in both machines: two cycles later both have stopped
(`Failing.failsAlike`).  `Lost` is for an undecodable word behind a load.  Its source registers are
indeterminate, so load-use detection holds it back in one machine and lets it go in the
other; they fail alike all the same (`Lost.failsAlike`).

* `Failing.step` — one cycle of both machines.
* `Failing.failsAlike` — how they end.
* `Lost.failsAlike` — how they end where only one of them has let the word go.
-/

namespace ChArm

/-! ## Accesses that go through -/

/-- The look-up of a word ends the emulator by breaking it, if at all. -/
theorem breaks_of_getWordCache {c : Cache} {addr : Word} {e : Abort}
    (h : getWordCache c addr = .error e) : e.breaks = true := by
  rcases getWordCache_error h with rfl | rfl <;> rfl

theorem breaks_of_setWordCache {c : Cache} {addr val : Word} {e : Abort}
    (h : setWordCache c addr val = .error e) : e.breaks = true := by
  rcases setWordCache_error h with rfl | rfl <;> rfl

section Access

variable {m m' m₁ : Memory} {addr : Word}

/-- An access that is no trap and does not break the emulator goes through. -/
theorem exists_memRead (ht : m.Tagged) (hs : isSpecialAddr addr = false)
    (ho : m.overreaches addr = false) :
    ∃ v m₁, memRead m addr 8 = .ok (v, m₁) ∧ m.SameOutput m₁ := by
  have hb := breaks_memRead ht addr
  rw [ho] at hb
  by_cases hc : ∃ c, m.Cached c addr
  · obtain ⟨c, hc⟩ := hc
    rw [memRead_cached hs hc] at hb ⊢
    cases hr : memReadCache c m addr 8 with
    | ok r => exact ⟨r.1, r.2, rfl, memReadCache_sameOutput hr⟩
    | error e =>
      rw [hr] at hb
      unfold memReadCache at hr
      split at hr
      · cases hr
      · next c₁ m₁ _ =>
        cases hget : getWordCache c₁ addr with
        | ok v =>
          rw [hget] at hr
          cases hr
        | error e' =>
          rw [hget] at hr
          cases hr
          exact absurd (hb.symm.trans (breaks_of_getWordCache hget)) Bool.false_ne_true
  · rw [memRead_flat hs (not_exists.1 hc)]
    exact ⟨_, _, rfl, rfl, rfl⟩

theorem exists_memWrite (ht : m.Tagged) (hs : isSpecialAddr addr = false)
    (ho : m.overreaches addr = false) (data : Word) :
    ∃ m₁, memWrite m addr data 8 = .ok m₁ ∧ m.SameOutput m₁ := by
  have hb := breaks_memWrite ht addr data
  have hcheckpoint : (addr == CHECKPOINT_ADDR) = false := by
    rw [beq_eq_false_iff_ne]
    rintro rfl
    cases hs
  rw [ho, hcheckpoint, Bool.or_false] at hb
  by_cases hc : ∃ c, m.Cached c addr
  · obtain ⟨c, hc⟩ := hc
    rw [memWrite_cached hs hc] at hb ⊢
    cases hr : memWriteCache c m addr data 8 with
    | ok m₁ => exact ⟨m₁, rfl, memWriteCache_sameOutput hr⟩
    | error e =>
      rw [hr] at hb
      unfold memWriteCache at hr
      split at hr
      · cases hr
      · next c₁ m₁ _ =>
        cases hset : setWordCache c₁ addr data with
        | ok c₂ =>
          rw [hset] at hr
          cases hr
        | error e' =>
          rw [hset] at hr
          cases hr
          exact absurd (hb.symm.trans (breaks_of_setWordCache hset)) Bool.false_ne_true
  · rw [memWrite_flat hs (not_exists.1 hc)]
    exact ⟨_, rfl, rfl, rfl⟩

theorem memReadSpecial_output {v : Word} {width : Nat}
    (hr : memReadSpecial m addr width = .ok (v, m₁)) (h : m.SameOutput m') :
    ∃ v' m₁', memReadSpecial m' addr width = .ok (v', m₁') ∧ m₁.SameOutput m₁' := by
  unfold memReadSpecial at hr ⊢
  split_ifs at hr ⊢ <;> cases hr <;> exact ⟨_, _, rfl, h.segStart, h.printed⟩

theorem memWriteSpecial_output {data : Word} {width : Nat}
    (hr : memWriteSpecial m addr data width = .ok m₁) (h : m.SameOutput m') :
    ∃ m₁', memWriteSpecial m' addr data width = .ok m₁' ∧ m₁.SameOutput m₁' := by
  unfold memWriteSpecial at hr ⊢
  split_ifs at hr ⊢ <;> cases hr
  · exact ⟨m', rfl, h⟩
  · exact ⟨_, rfl, h.segStart, congrArg (· ++ [_]) h.printed⟩

/-- **A data access that goes through without a cache** goes through with one, unless it gets
through to two blocks, and prints the same. -/
theorem dmem_output {wval rval v : Word} (rval' : Word) {read write err : Bool}
    (hrw : (read && write) = false) (hflat : m.Uncached) (ht : m'.Tagged) (h : m.SameOutput m')
    (ho : (read || write) = true → m'.overreaches addr = false)
    (hd : dmem m addr wval read write rval = .ok (v, err, m₁)) :
    ∃ v' err' m₁', dmem m' addr wval read write rval' = .ok (v', err', m₁') ∧ m₁.SameOutput m₁' := by
  rcases dmem_inv hrw hd with ⟨rfl, rfl, rfl, -, -⟩ | ⟨rfl, rfl, hr, -⟩ | ⟨rfl, rfl, hr, -, -⟩
  · exact ⟨rval', false, m', rfl, h⟩
  · obtain ⟨v', m₁', hr', h'⟩ : ∃ v' m₁', memRead m' addr 8 = .ok (v', m₁') ∧ m₁.SameOutput m₁' := by
      cases hs : isSpecialAddr addr with
      | true =>
        rw [memRead_special hs] at hr ⊢
        exact memReadSpecial_output hr h
      | false =>
        obtain ⟨v', m₁', hr', h'⟩ := exists_memRead ht hs (ho rfl)
        obtain ⟨pt, -, heq⟩ := hflat.memRead_eq hs 8
        rw [heq] at hr
        cases hr
        exact ⟨v', m₁', hr', (h.trans h').segStart, (h.trans h').printed⟩
    refine ⟨v', dmemErr m' addr, m₁', ?_, h'⟩
    rw [dmem]
    simp [hr', bind, Except.bind]
  · obtain ⟨m₁', hr', h'⟩ : ∃ m₁', memWrite m' addr wval 8 = .ok m₁' ∧ m₁.SameOutput m₁' := by
      cases hs : isSpecialAddr addr with
      | true =>
        rw [memWrite_special hs] at hr ⊢
        exact memWriteSpecial_output hr h
      | false =>
        obtain ⟨m₁', hr', h'⟩ := exists_memWrite ht hs (ho rfl) wval
        rw [hflat.memWrite_eq hs] at hr
        cases hr
        exact ⟨m₁', hr', (h.trans h').segStart, (h.trans h').printed⟩
    refine ⟨rval', dmemErr m' addr, m₁', ?_, h'⟩
    rw [dmem]
    simp [hr', bind, Except.bind]

end Access

/-- A fetch that keeps off the data memory goes through. -/
theorem exists_fetch_alone {ec : Bool} {t : Machine} (hsl : t.Seamless ec) :
    ∃ d fStatus fPC pt, fetchWires ec t = .ok (d, fStatus, fPC, { t.mem with ptable := pt }) ∧
      pt.byteAt = t.mem.ptable.byteAt := by
  unfold fetchWires
  cases hh : fetchHalts ec t with
  | true => exact ⟨_, _, _, t.mem.ptable, if_pos rfl, rfl⟩
  | false =>
    have hclear := hsl.fetch hh
    rw [Memory.fetchClear, Bool.and_eq_true, bne_iff_ne] at hclear
    obtain ⟨v, pt, hr, hpt⟩ : ∃ v pt, memRead t.mem (fetchPC ec t) 4 =
        .ok (v, { t.mem with ptable := pt }) ∧ pt.byteAt = t.mem.ptable.byteAt := by
      cases hs : isSpecialAddr (fetchPC ec t) with
      | true =>
        have h0 : ¬ NULL_ADDR = fetchPC ec t := fun h0 => by
          rw [fetchHalts, ← h0] at hh
          cases hh
        refine ⟨0, t.mem.ptable, (memRead_special hs t.mem 4).trans ?_, rfl⟩
        unfold memReadSpecial
        rw [if_neg h0, if_neg (Ne.symm hclear.1)]
        split_ifs with hret hcheckpoint
        · rfl
        · rfl
        · simp only [isSpecialAddr, Bool.or_eq_true, beq_iff_eq] at hs
          exact absurd hs (by simp [h0, Ne.symm hclear.1, hret, hcheckpoint])
      | false =>
        rw [hs, Bool.false_or, decide_eq_true_eq] at hclear
        exact ⟨_, _, memRead_flat hs (fun c hc => BitVec.not_le.2 hclear.2.1 hc.2) 4,
          byteAt_memReadLE t.mem.ptable _ 4⟩
    rw [if_neg Bool.false_ne_true, imem_of_memRead hr]
    exact ⟨_, _, _, pt, rfl, hpt⟩

/-! ## The end of a run that fails -/

theorem not_isError_of_goesOn {status : Stat} (h : status.goesOn = true) :
    status.isError = false := by
  cases status <;> first | rfl | cases h

/-- Does the machine show the status of an `HLT`? -/
def Machine.halted (s : Machine) : Bool := s.status == .hlt

/-- What a run without a limit leaves behind: `s` without a cache, `t` with one.  After an `HLT`
loads and fetch see the same memory. -/
structure SameEnd (s t : Machine) : Prop where
  status : t.status = s.status
  PC : t.PC = s.PC
  regWrites : t.regWrites = s.regWrites
  NZCV : t.NZCV = s.NZCV
  printed : t.mem.printed = s.mem.printed
  mirrors : s.halted = true → ∃ g c, Memory.Mirrors g c s.mem t.mem

/-- The instruction in M has failed in both machines; the one in W may have been drained. -/
structure Failing (ec : Bool) (s t : Machine) : Prop where
  sOk : s.WellFormed ec
  tOk : t.WellFormed ec
  m : s.M.out.Twin t.M.out
  fails : s.M.out.status.isError = true ∨ accessFaults s.mem s.M.out = true
  notHalted : s.W.out.status ≠ .hlt
  status : t.W.out.status = s.W.out.status ∨
    s.W.out.status.goesOn = true ∧ t.W.out.status.goesOn = true
  regWrites : t.regWrites ++ retireWrites t.W.out = s.regWrites ++ retireWrites s.W.out
  NZCV : t.NZCV = s.NZCV
  flat : s.mem.Uncached
  tagged : t.mem.Tagged
  output : s.mem.SameOutput t.mem

section Pair

variable {ec : Bool} {g : Geometry} {c : Cache} {s t u : Machine} {v w : Wires} {n : Nat}

theorem accessFaults_alike (hs : s.WellFormed ec) (ht : t.WellFormed ec)
    (h : s.M.out.Alike t.M.out) (hseg : t.mem.segStart = s.mem.segStart) :
    accessFaults t.mem t.M.out = accessFaults s.mem s.M.out := by
  have hacc := accesses_alike hs ht h
  cases hsacc : s.accesses with
  | true => rw [h.eq (not_idle_of_accesses hs hsacc), accessFaults, accessFaults, dmemErr_congr hseg]
  | false =>
    rw [hsacc] at hacc
    rw [Machine.accesses] at hacc hsacc
    rw [accessFaults, accessFaults, hacc, hsacc, Bool.false_and, Bool.false_and]

/-- The next cycle of both machines. -/
theorem Failing.exists_work (h : Failing ec s t) (hv : wires ec s = .ok v) (hsl : t.Seamless ec) :
    ∃ w, wires ec t = .ok w ∧ v.mem.Uncached ∧ w.mem.Tagged ∧ v.mem.SameOutput w.mem := by
  obtain ⟨d, fStatus, fPC, pt, hf, -⟩ := exists_fetch_alone hsl
  obtain ⟨hflat, hflat'⟩ := uncached_of_wires h.sOk h.flat hv
  have heff := (fetch_keeps (p := fun _ => True) h.flat hv).1
  have hout : v.fMem.SameOutput { t.mem with ptable := pt } :=
    ⟨h.output.segStart.trans heff.segStart.symm, h.output.printed.trans heff.printed.symm⟩
  have hacc := accesses_alike h.sOk h.tOk h.m.toAlike
  have hdm := (wires_inv hv).2
  have ho := hsl.access
  obtain ⟨v', err', m', hdm', hm'⟩ : ∃ v' err' m', dmem { t.mem with ptable := pt } t.M.out.valEx
      t.M.out.valB t.M.out.mSigs.dmemRead t.M.out.mSigs.dmemWrite t.W.inp.valMem =
        .ok (v', err', m') ∧ v.mem.SameOutput m' := by
    cases hsacc : s.accesses with
    | true =>
      have hM := h.m.eq (not_idle_of_accesses h.sOk hsacc)
      rw [hM] at ho ⊢
      exact dmem_output t.W.inp.valMem h.sOk.m.not_both hflat h.tagged hout
        (fun _ => ho (hacc.trans hsacc)) hdm
    | false =>
      rw [hsacc] at hacc
      rw [Machine.accesses, Bool.or_eq_false_iff] at hacc hsacc
      rw [hsacc.1, hsacc.2] at hdm
      rw [hacc.1, hacc.2]
      obtain ⟨-, -, hmem⟩ := by simpa [dmem] using hdm
      exact ⟨_, _, _, rfl, hmem ▸ hout⟩
  have hw := wires_eq hf hdm'
  exact ⟨_, hw, hflat', tagged_of_wires h.tOk h.tagged hw, hm'⟩

/-- A failed instruction in M stays there, and nothing behind it has an effect. -/
theorem next_of_fails (hs : s.WellFormed ec) (hf : (wIn s v).status.isError = true) :
    (next ec s v).M.out = s.M.out ∧ (next ec s v).NZCV = s.NZCV ∧
      (next ec s v).PC = s.M.out.seqSuccPC - 4#64 ∧
      (next ec s v).W.out = if s.W.out.status.isError then s.W.out else wIn s v := by
  have hdead : flagsLatch ec s v = false := by
    have : hazardDeasserts (hazards ec s v) = true := by
      change (_ || (wIn s v).status.isError || _) = true
      rw [hf, Bool.or_true, Bool.true_or]
    rw [flagsLatch, flagsDeasserted, this, Bool.or_true]
    rfl
  refine ⟨?_, if_neg (by rw [hdead]; exact Bool.false_ne_true), ?_, ?_⟩
  · rw [hs.next_M v]
    cases hW : (wOut s).status.isError with
    | true => rw [hazardOf_wbackError ec (h := hazards ec s v) hW]; rfl
    | false => rw [hazardOf_memoryError ec (h := hazards ec s v) hW hf]; rfl
  · change pcNext s v = _
    rw [pcNext, mPCNext, hf, if_pos rfl, if_pos rfl]
  · rw [hs.next_W v, ← wOut_eq hs.w]
    cases hW : (wOut s).status.isError with
    | true => rw [hazardOf_wbackError ec (h := hazards ec s v) hW]; rfl
    | false => rw [hazardOf_memoryError ec (h := hazards ec s v) hW hf]; rfl

/-- Only an instruction that is `STAT_AOK` writes a register. -/
theorem retireWrites_of_ne_aok {i : WInstr} (h : i.status ≠ .aok) : retireWrites i = [] := by
  have hen : writeEnable i = false := by
    rw [writeEnable, Bool.and_eq_false_iff]
    exact Or.inr (beq_eq_false_iff_ne.2 h)
  rw [retireWrites, hen]
  rfl

theorem retireWrites_of_isError {i : WInstr} (h : i.status.isError = true) : retireWrites i = [] := by
  refine retireWrites_of_ne_aok fun haok => ?_
  rw [haok] at h
  cases h

/-- If the uncached machine stops, it does so without an `HLT`, and the cached one stops too, from
seamless states, with the same end. -/
abbrev FailsAlike (ec : Bool) (n : Nat) (s t : Machine) : Prop :=
  Runs.EndsLike (cycle ec) Machine.running (cycle ec) Machine.running (Machine.Seamless ec)
    (fun s t => SameEnd s t ∧ s.halted = false) n s t

theorem ne_hlt_of_isError {status : Stat} (h : status.isError = true) : status ≠ .hlt := by
  rintro rfl
  cases h

theorem ne_hlt_of_goesOn {status : Stat} (h : status.goesOn = true) : status ≠ .hlt := by
  rintro rfl
  cases h

namespace Failing

theorem next (h : Failing ec s t) (hv : wires ec s = .ok v) (hw : wires ec t = .ok w)
    (hflat : v.mem.Uncached) (htag : w.mem.Tagged) (hout : v.mem.SameOutput w.mem) :
    Failing ec (ChArm.next ec s v) (ChArm.next ec t w) ∧
      (ChArm.next ec s v).W.out.status.isError = true ∧
      (ChArm.next ec t w).PC = (ChArm.next ec s v).PC ∧
      (ChArm.next ec t w).regWrites = (ChArm.next ec s v).regWrites := by
  have hfaults := accessFaults_alike h.sOk h.tOk h.m.toAlike h.output.segStart
  have hf := (wIn_isError_iff h.sOk hv).2 h.fails
  have hst : (wIn t w).status = (wIn s v).status := by
    rw [wIn, wIn, memErr_eq h.tOk hw, memErr_eq h.sOk hv, hfaults, h.m.status]
  have hf' : (wIn t w).status.isError = true := by rw [hst, hf]
  obtain ⟨hM, hN, hPC, hW⟩ := next_of_fails h.sOk hf
  obtain ⟨hM', hN', hPC', hW'⟩ := next_of_fails h.tOk hf'
  have herr : ∀ {k : Machine} {x : Wires}, (wIn k x).status.isError = true →
      (if k.W.out.status.isError then k.W.out else wIn k x).status.isError = true := by
    intro k x hk
    split_ifs with hW
    · exact hW
    · exact hk
  have hWs : (ChArm.next ec t w).W.out.status = (ChArm.next ec s v).W.out.status := by
    rw [hW, hW']
    rcases h.status with hs | ⟨hs, ht⟩
    · rw [hs]
      split_ifs
      · exact hs
      · exact hst
    · rw [not_isError_of_goesOn hs, not_isError_of_goesOn ht, if_neg Bool.false_ne_true,
      if_neg Bool.false_ne_true, hst]
  have hregs : (ChArm.next ec t w).regWrites = (ChArm.next ec s v).regWrites := by
    rw [next_regWrites h.tOk, next_regWrites h.sOk, h.regWrites]
  refine ⟨⟨h.sOk.next hv, h.tOk.next hw, by rw [hM, hM']; exact h.m, ?_,
    ne_hlt_of_isError (by rw [hW]; exact herr hf), Or.inl hWs, ?_, by rw [hN, hN', h.NZCV], hflat, htag,
    hout⟩, by rw [hW]; exact herr hf, ?_, hregs⟩
  · rw [hM]
    have herr := dmemErr_congr (segStart_of_wires h.sOk hv) s.M.out.valEx
    exact h.fails.imp_right fun ha => (congrArg (_ && ·) herr).trans ha
  · rw [hregs, retireWrites_of_isError (by rw [hW']; exact herr hf'),
      retireWrites_of_isError (by rw [hW]; exact herr hf)]
  · rw [hPC, hPC', h.m.succ]

/-- One cycle of both machines. -/
theorem step (h : Failing ec s t) (hs : s.running = true) (ht : t.running = true)
    (hgo : ∀ m s' t', Failing ec s' t' → s'.running = true → t'.running = true →
      s.W.out.status.isError = false → s'.W.out.status.isError = true → FailsAlike ec m s' t') :
    FailsAlike ec n s t := by
  refine .left hs fun m hm s' hstep => .right ht fun hsl => ?_
  obtain ⟨v, hv, rfl⟩ := exists_wires hstep.2
  obtain ⟨w, hw, hflat, htag, hout⟩ := h.exists_work hv hsl
  refine ⟨ChArm.next ec t w, by rw [cycle_eq, hw]; rfl, ?_⟩
  obtain ⟨h', herr, hPC, hregs⟩ := h.next hv hw hflat htag hout
  have hst : (ChArm.next ec s v).status = s.W.out.status := h.sOk.statusNext_eq v
  have hst' : (ChArm.next ec t w).status = t.W.out.status := h.tOk.statusNext_eq w
  have hgoes : ∀ {k : Machine}, k.running = k.status.goesOn := rfl
  cases hrun : (ChArm.next ec s v).running with
  | true =>
    refine hgo m _ _ h' hrun ?_ ?_ herr
    · rw [hgoes, hst] at hrun
      rw [hgoes, hst']
      rcases h.status with hsame | hboth
      · rw [hsame, hrun]
      · exact hboth.2
    · rw [hgoes, hst] at hrun
      cases hW : s.W.out.status <;> rw [hW] at hrun <;> first | rfl | cases hrun
  | false =>
    have hsame : t.W.out.status = s.W.out.status := by
      refine h.status.resolve_right fun hboth => ?_
      rw [hgoes, hst, hboth.1] at hrun
      cases hrun
    have hnot : (ChArm.next ec s v).halted = false := by
      rw [Machine.halted, hst]
      exact beq_false_of_ne h.notHalted
    refine .stopped hrun ?_ ⟨⟨?_, hPC, hregs, h'.NZCV, hout.printed, fun hhalted => ?_⟩, hnot⟩
    · rw [hgoes, hst', hsame, ← hst, ← hgoes, hrun]
    · rw [hst, hst', hsame]
    · rw [hnot] at hhalted
      cases hhalted

/-- **A failed instruction ends both runs alike.** -/
theorem failsAlike (h : Failing ec s t) (hs : s.running = true) (ht : t.running = true) :
    FailsAlike ec n s t :=
  h.step hs ht fun _ _ _ h' hs' ht' _ herr => h'.step hs' ht' fun _ _ _ _ _ _ hq _ =>
    absurd (hq.symm.trans herr) Bool.false_ne_true

end Failing

/-- An error in X goes on to M, whatever memory is doing. -/
theorem next_of_executeError (hs : s.WellFormed ec) (hW : s.W.out.status.isError = false)
    (hM : (wIn s v).status.isError = false) (hX : s.X.out.status.isError = true) :
    (next ec s v).M.out = mIn ec s ∧ (next ec s v).W.out = wIn s v ∧ (next ec s v).NZCV = s.NZCV := by
  have hwout : (wOut s).status.isError = false := by rw [wOut_eq hs.w, hW]
  have hz : hazardOf ec (hazards ec s v) = .executeError := by
    rw [hazardOf, show (hazards ec s v).wOutStatus.isError = false from hwout,
      show (hazards ec s v).wInStatus.isError = false from hM,
      show (hazards ec s v).mInStatus.isError = true from hX]
    rfl
  refine ⟨by rw [hs.next_M v, hz]; rfl, by rw [hs.next_W v, hz]; rfl, if_neg fun hl => ?_⟩
  have hdeassert : hazardDeasserts (hazards ec s v) = true := by
    change (s.X.out.status.isError || _ || _) = true
    rw [hX, Bool.true_or, Bool.true_or]
  rw [flagsLatch, flagsDeasserted, hdeassert, Bool.or_true] at hl
  cases hl

/-! ## An undecodable word behind a load -/

/-- The undecodable word `d` is in D, and X is empty. -/
structure Held (d : DInstr) (s : Machine) : Prop where
  x : s.X.out = .zero
  op : s.D.out.op = .error
  status : s.D.out.status = d.status
  succ : s.D.out.seqSuccPC = d.seqSuccPC

/-- The undecodable word `d` is in X. -/
structure Ahead (d : DInstr) (s : Machine) : Prop where
  op : s.X.out.op = .error
  status : s.X.out.status = d.status
  succ : s.X.out.seqSuccPC = d.seqSuccPC

/-- The undecodable word `d` is in M. -/
structure Arrived (d : DInstr) (s : Machine) : Prop where
  op : s.M.out.op = .error
  status : s.M.out.status = d.status
  succ : s.M.out.seqSuccPC = d.seqSuccPC

section Word

variable {d : DInstr}

theorem Arrived.twin (hs : Arrived d s) (ht : Arrived d t) : s.M.out.Twin t.M.out := by
  have hsucc : t.M.out.seqSuccPC = s.M.out.seqSuccPC := by rw [ht.succ, hs.succ]
  refine ⟨⟨by rw [hs.op, ht.op], by rw [hs.status, ht.status], fun _ => hsucc, fun hidle => ?_⟩, hsucc⟩
  rw [hs.op] at hidle
  cases hidle

/-- An instruction that sets no flags leaves them alone. -/
theorem next_NZCV_of_idle (hs : s.WellFormed ec) (h : s.X.out.op.idle = true) :
    (next ec s v).NZCV = s.NZCV := by
  refine if_neg fun hl => ?_
  rw [flagsLatch, Bool.and_eq_true] at hl
  exact absurd (h.symm.trans (hs.x.not_idle (Or.inl hl.2))) (by decide)

theorem Ahead.next (h : Ahead d s) (hs : s.WellFormed ec) (hd : d.status.isError = true)
    (hW : s.W.out.status.isError = false) (hM : (wIn s v).status.isError = false) :
    Arrived d (next ec s v) ∧ (ChArm.next ec s v).W.out = wIn s v ∧
      (ChArm.next ec s v).NZCV = s.NZCV := by
  obtain ⟨hnext, hWout, hN⟩ := next_of_executeError hs hW hM (by rw [h.status, hd])
  refine ⟨⟨?_, ?_, ?_⟩, hWout, hN⟩ <;> rw [hnext]
  · exact h.op
  · exact h.status
  · exact h.succ

/-- A word that was held back goes on once memory is ready. -/
theorem Held.next (h : Held d s) (hs : s.WellFormed ec) (hW : s.W.out.status.isError = false)
    (hM : (wIn s v).status.isError = false) (hready : v.mem.dmemStatus ≠ .inFlight) :
    Ahead d (next ec s v) ∧ (ChArm.next ec s v).M.out.op = .nop ∧
      (ChArm.next ec s v).M.out.status = .bub ∧ (ChArm.next ec s v).W.out = wIn s v ∧
      (ChArm.next ec s v).NZCV = s.NZCV := by
  have hz : hazardOf ec (hazards ec s v) = .none := by
    have hwout : (hazards ec s v).wOutStatus.isError = false := by
      change (wOut s).status.isError = false
      rw [wOut_eq hs.w, hW]
    have hwin : (hazards ec s v).wInStatus.isError = false := hM
    have hmin : (hazards ec s v).mInStatus.isError = false := by
      change s.X.out.status.isError = false
      rw [h.x]
      rfl
    have hX : (hazards ec s v).xOpcode = .nop := congrArg XInstr.op h.x
    have hD : (hazards ec s v).dOpcode = .error := h.op
    have hmem : ¬ (hazards ec s v).dmemStatus = .inFlight := hready
    simp [hazardOf, hwout, hwin, hmin, hmem, hX, hD, checkLoadUseHazard, checkMispredBranchHazard,
      checkRetHazard, checkCbHazard, checkBrHazard]
  have hX : (ChArm.next ec s v).X.out = xIn ec s v := by
    rw [hs.next_X v, hz]
    rfl
  have hMout : (ChArm.next ec s v).M.out = mIn ec s := by
    rw [hs.next_M v, hz]
    rfl
  refine ⟨⟨?_, ?_, ?_⟩, ?_, ?_, ?_, next_NZCV_of_idle hs (by rw [h.x]; rfl)⟩
  · rw [hX]
    exact h.op
  · rw [hX]
    exact h.status
  · rw [hX]
    exact h.succ
  · rw [hMout]
    exact congrArg XInstr.op h.x
  · rw [hMout]
    exact congrArg XInstr.status h.x
  · rw [hs.next_W v, hz]
    rfl

/-- Behind a load, load-use detection decides whether an undecodable word is held back. -/
theorem forked (hs : s.WellFormed ec) (hq : (hazards ec s v).Quiet)
    (hready : v.mem.dmemStatus = .ready) (hd : d.Twin s.D.out) (hop : d.op = .error)
    (hX : s.X.out.op = .ldur) :
    (ChArm.next ec s v).M.out = mIn ec s ∧ (ChArm.next ec s v).W.out = wIn s v ∧
      if (hazards ec s v).loadUse = true then
        Held d (ChArm.next ec s v) ∧ (ChArm.next ec s v).F.out.predPC = s.F.out.predPC
      else Ahead d (ChArm.next ec s v) ∧
        (ChArm.next ec s v).F.out.predPC = (ChArm.next ec s v).PC := by
  have hmem : ¬ (hazards ec s v).dmemStatus = .inFlight := by
    rw [show (hazards ec s v).dmemStatus = .ready from hready]
    decide
  have hD : s.D.out.op = .error := hd.op.trans hop
  -- a hazard with the load or none: an undecodable word is no branch
  split_ifs with hlu
  · have hz : hazardOf ec (hazards ec s v) = .loadUse := by
      rw [HazardIn.loadUse] at hlu
      simp [hazardOf, hq.wOut, hq.wIn, hq.mIn, hmem, hlu]
    refine ⟨by rw [hs.next_M v, hz]; rfl, by rw [hs.next_W v, hz]; rfl, ⟨?_, ?_, ?_, ?_⟩, ?_⟩
    · rw [hs.next_X v, hz]
      rfl
    · rw [hs.next_D v, hz]
      exact hD
    · rw [hs.next_D v, hz]
      exact hd.status
    · rw [hs.next_D v, hz]
      exact hd.succ
    · rw [hs.next_predPC v, hz]
      rfl
  · have hz : hazardOf ec (hazards ec s v) = .none := by
      rw [HazardIn.loadUse] at hlu
      have hX : (hazards ec s v).xOpcode = .ldur := hX
      have hD : (hazards ec s v).dOpcode = .error := hD
      rw [hX, hD] at hlu
      simp [hazardOf, hq.wOut, hq.wIn, hq.mIn, hmem, hlu, hX, hD, checkMispredBranchHazard,
        checkRetHazard, checkCbHazard, checkBrHazard]
    refine ⟨by rw [hs.next_M v, hz]; rfl, by rw [hs.next_W v, hz]; rfl, ⟨?_, ?_, ?_⟩, ?_⟩
    · rw [hs.next_X v, hz]
      exact hD
    · rw [hs.next_X v, hz]
      exact hd.status
    · rw [hs.next_X v, hz]
      exact hd.succ
    · rw [hs.next_predPC v, hz]
      rfl

/-- The last cycle of the machine that held the word back; it has an empty M. -/
theorem Ahead.last (h : Ahead d s) (hs : s.WellFormed ec) (hv : wires ec s = .ok v)
    (hd : d.status.isError = true) (hW : s.W.out.status.isError = false)
    (hop : s.M.out.op = .nop) (hbub : s.M.out.status = .bub) :
    Arrived d (ChArm.next ec s v) ∧ (ChArm.next ec s v).W.out.status = .bub ∧
      (ChArm.next ec s v).NZCV = s.NZCV ∧
      (ChArm.next ec s v).regWrites ++ retireWrites (ChArm.next ec s v).W.out =
        s.regWrites ++ retireWrites s.W.out := by
  have hst : (wIn s v).status = .bub := by
    have hno : accessFaults s.mem s.M.out = false := by
      rw [accessFaults, hs.m.access.1, hs.m.access.2, hop]
      rfl
    rw [wIn, memErr_eq hs hv, hno, hbub]
    rfl
  obtain ⟨harr, hWout, hN⟩ := h.next (v := v) hs hd hW (by rw [hst]; rfl)
  have hnone : retireWrites (wIn s v) = [] := by
    refine retireWrites_of_ne_aok fun haok => ?_
    rw [hst] at haok
    cases haok
  refine ⟨harr, by rw [hWout, hst], hN, ?_⟩
  rw [hWout, next_regWrites hs, hnone, List.append_nil]

/-- A cycle without an access goes through in a machine with a cache. -/
theorem exists_wires_idle (ht : t.WellFormed ec) (hsl : t.Seamless ec) (hop : t.M.out.op = .nop) :
    ∃ w pt, wires ec t = .ok w ∧ w.mem = { t.mem with ptable := pt } := by
  obtain ⟨d', fStatus, fPC, pt, hf, -⟩ := exists_fetch_alone hsl
  refine ⟨⟨d', fStatus, fPC, _, t.W.inp.valMem, false, _⟩, pt, wires_eq hf ?_, rfl⟩
  rw [ht.m.access.1, ht.m.access.2, hop]
  rfl

theorem mem_of_idle (hs : s.WellFormed ec) (hv : wires ec s = .ok v) (hop : s.M.out.op = .nop) :
    v.mem = v.fMem := by
  have hd := (wires_inv hv).2
  rw [hs.m.access.1, hs.m.access.2, hop] at hd
  obtain ⟨-, -, hm⟩ := by simpa [dmem] using hd
  exact hm.symm

/-- The undecodable word `d` is in X in one machine and held back in the other, behind the load in
M; `t` has a cache. -/
structure Lost (ec : Bool) (g : Geometry) (c : Cache) (d : DInstr) (s t : Machine) : Prop where
  sOk : s.WellFormed ec
  tOk : t.WellFormed ec
  m : s.M.out.Twin t.M.out
  fails : d.status.isError = true
  status : s.M.out.status.goesOn = true ∧ s.W.out.status.goesOn = true ∧ t.W.out.status.goesOn = true
  regWrites : t.regWrites ++ retireWrites t.W.out = s.regWrites ++ retireWrites s.W.out
  NZCV : t.NZCV = s.NZCV
  mirrors : Memory.Mirrors g c s.mem t.mem
  ready : t.mem.dmemStatus = .ready ∨ s.accesses = true ∧ isSpecialAddr s.M.out.valEx = false
  console : s.readsConsole ec = false
  places : Ahead d s ∧ Held d t ∨ Held d s ∧ Ahead d t

end Word

namespace Lost

variable {d : DInstr} (h : Lost ec g c d s t)
include h

theorem failing (hf : accessFaults s.mem s.M.out = true) : Failing ec s t where
  sOk := h.sOk
  tOk := h.tOk
  m := h.m
  fails := Or.inr hf
  notHalted := ne_hlt_of_goesOn h.status.2.1
  status := Or.inr h.status.2
  regWrites := h.regWrites
  NZCV := h.NZCV
  flat := h.mirrors.flat
  tagged := h.mirrors.tagged
  output := h.mirrors.output

theorem sound (hf : accessFaults s.mem s.M.out = false) : s.Sound :=
  ⟨not_isError_of_goesOn h.status.1, hf⟩

/-- While the load waits, the word is still in D in the machine with a cache. -/
theorem wait (hd : 1 ≤ g.d) (hsl : t.Seamless ec) (hw : t.waits = true) :
    ∃ t', cycle ec t = .ok t' ∧ Lost ec g c d s t' ∧ t'.running = true ∧
      t'.mem.waits g c t'.M.out.valEx + 1 = t.mem.waits g c t.M.out.valEx := by
  obtain ⟨hMs, hWs, hWt⟩ := h.status
  obtain ⟨hs, ht⟩ : Ahead d s ∧ Held d t := by
    refine h.places.resolve_right fun hp => ?_
    have hX := hsl.error hw
    rw [hp.2.status, h.fails] at hX
    cases hX
  obtain ⟨d', fStatus, fPC, pt, hf, hpt⟩ := exists_fetch_alone hsl
  obtain ⟨w, hwires, -, -, -, hmem, hsp, hstall, hwaits⟩ := exists_wait hd hf
    (h.mirrors.with_ptable hpt) h.tOk (not_isError_of_goesOn hWt) (by rw [ht.x]; rfl) hw
  have hacc : s.accesses = true := by
    rw [← accesses_alike h.sOk h.tOk h.m.toAlike]
    exact accesses_of_waits hw
  refine ⟨next ec t w, by rw [cycle_eq, hwires]; rfl, ⟨h.sOk, h.tOk.next hwires, hstall.m ▸ h.m, h.fails,
    ⟨hMs, hWs, by rw [hstall.w]; rfl⟩, ?_, ?_, hmem, Or.inr ⟨hacc, ?_⟩, h.console,
    Or.inl ⟨hs, ?_⟩⟩, ?_, by rw [hstall.m]; exact hwaits⟩
  · rw [hstall.w, hstall.regWrites, ← h.regWrites]
    exact List.append_nil _
  · rw [next_NZCV_of_idle h.tOk (by rw [ht.x]; rfl), h.NZCV]
  · rw [← hsp, h.m.eq (not_idle_of_accesses h.sOk hacc)]
  · exact ⟨hstall.x.trans ht.x, by rw [hstall.d, ht.op], by rw [hstall.d, ht.status],
      by rw [hstall.d, ht.succ]⟩
  · change (next ec t w).status.goesOn = true
    rw [hstall.status, hWt]

/-- The cycle in which the load is done. -/
theorem exists_work (hv : wires ec s = .ok v) (hf : accessFaults s.mem s.M.out = false)
    (hsl : t.Seamless ec) (hno : t.waits = false) :
    ∃ c' w, wires ec t = .ok w ∧ (wIn s v).Alike (wIn t w) ∧
      (wIn s v).status = s.M.out.status ∧ Memory.Mirrors g c' v.mem w.mem ∧
      w.mem.dmemStatus = .ready := by
  obtain ⟨d', fStatus, fPC, pt, hfetch, hpt⟩ := exists_fetch_alone hsl
  have hm : Memory.Mirrors g c v.fMem { t.mem with ptable := pt } :=
    (h.mirrors.with_ptable hpt).of_agree (uncached_of_wires h.sOk h.mirrors.flat hv).1
      ((fetch_keeps h.mirrors.flat hv).2 h.console)
  obtain ⟨c', val, mem, hdm, hmir, hrd, hval⟩ :=
    exists_access h.sOk h.tOk h.m.toAlike hm hv (h.sound hf) h.ready fun hacc =>
      waitsFor_eq_false h.sOk h.tOk h.m.toAlike h.mirrors.agree.segStart (h.sound hf) hno hacc
  have herr : v.memErr = false := (memErr_eq h.sOk hv).trans hf
  refine ⟨c', _, wires_eq hfetch hdm, wIn_alike h.m.toAlike herr.symm fun hop _ => hval hop, ?_, hmir,
    hrd⟩
  rw [wIn, herr]
  rfl

/-- Once the load is done, the machine that has held the word back is one cycle behind. -/
theorem failsAlike_of_done (hf : accessFaults s.mem s.M.out = false) (hno : t.waits = false)
    (hs : s.running = true) (ht : t.running = true) : FailsAlike ec n s t := by
  obtain ⟨hMs, hWs, hWt⟩ := h.status
  refine .left hs fun m hm s' hstep => .right ht fun hsl => ?_
  obtain ⟨v, hv, rfl⟩ := exists_wires hstep.2
  obtain ⟨c', w, hw, hwin, hst, hmir, hrd⟩ := h.exists_work hv hf hsl hno
  have hMs' : (wIn s v).status.goesOn = true := by rw [hst, hMs]
  have hMt' : (wIn t w).status.goesOn = true := by rw [hwin.status, hMs']
  have hsOk := h.sOk.next hv
  have htOk := h.tOk.next hw
  have hsrun : (next ec s v).running = true :=
    (congrArg Stat.goesOn (h.sOk.statusNext_eq v)).trans hWs
  have htrun : (next ec t w).running = true :=
    (congrArg Stat.goesOn (h.tOk.statusNext_eq w)).trans hWt
  have hregs : (next ec t w).regWrites ++ retireWrites (wIn t w) =
      (next ec s v).regWrites ++ retireWrites (wIn s v) := by
    rw [next_regWrites h.tOk, next_regWrites h.sOk, h.regWrites,
      hwin.retireWrites (wIn_ok h.sOk.m v) (wIn_ok h.tOk.m w)]
  have hready : v.mem.dmemStatus ≠ .inFlight := by
    rw [hmir.flat.ready]
    decide
  have hready' : w.mem.dmemStatus ≠ .inFlight := by
    rw [hrd]
    decide
  refine ⟨next ec t w, by rw [cycle_eq, hw]; rfl, ?_⟩
  -- the machine that is behind takes one more cycle, in which M is empty; after it both have failed
  rcases h.places with ⟨hsa, hth⟩ | ⟨hsh, hta⟩
  · obtain ⟨harr, hWs', hNs⟩ := hsa.next h.sOk h.fails (not_isError_of_goesOn hWs)
      (not_isError_of_goesOn hMs')
    obtain ⟨hta', hop, hbub, hWt', hNt⟩ := hth.next h.tOk (not_isError_of_goesOn hWt)
      (not_isError_of_goesOn hMt') hready'
    refine .right htrun fun hsl' => ?_
    obtain ⟨x, pt, hx, hmem⟩ := exists_wires_idle htOk hsl' hop
    obtain ⟨harr', hbub', hN', hregs'⟩ := hta'.last htOk hx h.fails
      (by rw [hWt']; exact not_isError_of_goesOn hMt') hop hbub
    have hfailing : Failing ec (next ec s v) (next ec (next ec t w) x) := by
      refine ⟨hsOk, htOk.next hx, harr.twin harr', Or.inl (by rw [harr.status, h.fails]),
        ne_hlt_of_goesOn (by rw [hWs', hMs']), Or.inr ⟨by rw [hWs', hMs'], by rw [hbub']; rfl⟩, ?_, ?_,
        hmir.flat, fun c hc => ?_, ?_⟩
      · rw [hregs', hWt', hWs', hregs]
      · rw [hN', hNt, hNs, h.NZCV]
      · have hc : x.mem.cache = some c := hc
        rw [hmem] at hc
        exact hmir.tagged c hc
      · change v.mem.SameOutput x.mem
        rw [hmem]
        exact ⟨hmir.output.segStart, hmir.output.printed⟩
    refine ⟨next ec (next ec t w) x, by rw [cycle_eq, hx]; rfl, hfailing.failsAlike hsrun ?_⟩
    refine (congrArg Stat.goesOn (htOk.statusNext_eq x)).trans ?_
    rw [hWt', hMt']
  · obtain ⟨harr, hWt', hNt⟩ := hta.next h.tOk h.fails (not_isError_of_goesOn hWt)
      (not_isError_of_goesOn hMt')
    obtain ⟨hsa', hop, hbub, hWs', hNs⟩ := hsh.next h.sOk (not_isError_of_goesOn hWs)
      (not_isError_of_goesOn hMs') hready
    refine .left hsrun fun m hm s'' hstep' => ?_
    obtain ⟨x, hx, rfl⟩ := exists_wires hstep'.2
    obtain ⟨harr', hbub', hN', hregs'⟩ := hsa'.last hsOk hx h.fails
      (by rw [hWs']; exact not_isError_of_goesOn hMs') hop hbub
    have hflat : (next ec s v).mem.Uncached := hmir.flat
    have heff := (fetch_keeps (p := fun _ => True) hflat hx).1
    have hfailing : Failing ec (next ec (next ec s v) x) (next ec t w) := by
      refine ⟨hsOk.next hx, htOk, harr'.twin harr, Or.inl (by rw [harr'.status, h.fails]),
        ne_hlt_of_goesOn (by rw [hbub']; rfl), Or.inr ⟨by rw [hbub']; rfl, by rw [hWt', hMt']⟩, ?_, ?_,
        (uncached_of_wires hsOk hflat hx).2, hmir.tagged, ?_⟩
      · rw [hregs', hWt', hWs', hregs]
      · rw [hN', hNt, hNs, h.NZCV]
      · change x.mem.SameOutput w.mem
        rw [mem_of_idle hsOk hx hop]
        exact ⟨hmir.output.segStart.trans heff.segStart.symm,
          hmir.output.printed.trans heff.printed.symm⟩
    refine hfailing.failsAlike ?_ htrun
    refine (congrArg Stat.goesOn (hsOk.statusNext_eq x)).trans ?_
    rw [hWs', hMs']

/-- **An undecodable word ends both runs alike**, whether it is held back behind the load or not. -/
theorem failsAlike (hd : 1 ≤ g.d) (hs : s.running = true) (ht : t.running = true) :
    FailsAlike ec n s t := by
  induction hk : t.mem.waits g c t.M.out.valEx using Nat.strong_induction_on generalizing t with
  | _ k ih =>
    cases hf : accessFaults s.mem s.M.out with
    | true => exact (h.failing hf).failsAlike hs ht
    | false =>
      cases hw : t.waits with
      | false => exact h.failsAlike_of_done hf hw hs ht
      | true =>
        refine .right ht fun hsl => ?_
        obtain ⟨t', hstep, h', ht', hwaits⟩ := h.wait hd hsl hw
        exact ⟨t', hstep, ih _ (by omega) h' ht' rfl⟩

end Lost

end Pair

end ChArm
