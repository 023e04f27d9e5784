import ChArm.Base.Execution
import ChArm.Pipe.ControlFlow
import ChArm.Pipe.FailingAlike

/-!
# The cache does not show

A machine without a cache beside one with a cache.  Between accesses the two are `Abreast`.  Each
cycle of the first is answered by the cycles in which the second waits for its access and the one
in which the access is done, after which they are abreast again or fail alike.  So from a state
where every cycle is seamless both runs end alike (`Abreast.endsAlike`).

* `CatchingUp.endsAlike` — the cached machine answers a cycle in which nothing fails.
* `Abreast.endsAlike` — the induction over the run without a cache.
* `cache_invisible` — whole programs, with the cycles that the cached run takes.
* `mirrors_of_halted` — at an `HLT` loads and fetch see the same memory.
-/

namespace ChArm

/-- If the uncached machine stops, so does the cached one, from seamless states, with the same end;
where it ends with an `HLT`, the cached one has taken the same cycles and those its accesses
have waited. -/
abbrev EndsAlike (ec : Bool) (n : Nat) (s t : Machine) : Prop :=
  Runs.EndsTimed (cycle ec) Machine.running (cycle ec) Machine.running (Machine.Seamless ec) SameEnd
    Machine.waits Machine.halted n s t

section Pair

variable {ec : Bool} {g : Geometry} {c c' : Cache} {s t u : Machine} {v w : Wires} {n : Nat}

/-! ## Abreast -/

/-- The machine `s`, without a cache, and `t`, with one, are about to start the same cycle. -/
structure Abreast (ec : Bool) (g : Geometry) (s t : Machine) : Prop extends SameFront s t where
  sOk : s.WellFormed ec
  tOk : t.WellFormed ec
  haltsLast : s.HaltsLast
  flagsApart : s.X.out.FlagsApart
  w : s.W.out.Alike t.W.out
  wQuiet : s.W.out.status.isError = false
  regs : t.regs = s.regs
  regWrites : t.regWrites = s.regWrites
  NZCV : t.NZCV = s.NZCV
  PC : t.PC = s.PC
  status : t.status = s.status ∨ s.running = true ∧ t.running = true
  xNzcvval : t.xNzcvval = s.xNzcvval
  fStatus : t.F.inp.status = s.F.inp.status
  succ : t.D.inp.seqSuccPC = s.D.inp.seqSuccPC
  fPC : t.fPC = s.fPC
  mirrors : ∃ c, Memory.Mirrors g c s.mem t.mem
  ready : t.mem.dmemStatus = .ready

theorem Abreast.init (ec : Bool) (g : Geometry) (img : Image) (locals : Nat → Locals) (entry : Word) :
    Abreast ec g (.init { img with cache := none } entry)
      (.init { img with cache := some g.cache, locals := locals } entry) where
  d := .refl _
  x := .refl _
  m := .refl _
  predPC := rfl
  deassertFlags := rfl
  sOk := .init ec _ _
  tOk := .init ec _ _
  haltsLast := .init _ _
  flagsApart := fun hset => Bool.noConfusion hset
  w := .refl _
  wQuiet := rfl
  regs := rfl
  regWrites := rfl
  NZCV := rfl
  PC := rfl
  status := Or.inl rfl
  xNzcvval := rfl
  fStatus := rfl
  succ := rfl
  fPC := rfl
  mirrors := ⟨g.cache, .init g rfl rfl rfl rfl rfl⟩
  ready := rfl

namespace Abreast

variable (h : Abreast ec g s t)
include h

/-- The cached machine sets out to catch up with the next cycle. -/
theorem catchingUp (hm : Memory.Mirrors g c s.mem t.mem) (hv : wires ec s = .ok v) :
    CatchingUp ec g c s v t where
  toSameFront := h.toSameFront
  sOk := h.sOk
  uOk := h.tOk
  haltsLast := h.haltsLast
  flagsApart := h.flagsApart
  fetch := by
    have hhalts : fetchHalts ec t = fetchHalts ec s := by
      rw [fetchHalts, fetchHalts, h.fetchPC, h.fStatus]
    rcases fetch_inv hv with ⟨hh, hd, hst, hpc, hmem⟩ | ⟨hh, -⟩
    · refine Or.inl ⟨hst, hhalts.trans hh, ?_, by rw [hpc, h.fPC], by rw [hmem]; exact .refl _ _⟩
      rw [hd, h.succ]
      rfl
    · exact Or.inr ⟨hh, hhalts.trans hh⟩
  mirrors := hm
  ready := Or.inl h.ready
  xNzcv := xNzcv_alike h.x.toAlike h.sOk.x h.tOk.x h.xNzcvval
  mIn := ⟨mIn_alike ec h.x.toAlike h.xNzcvval, h.x.succ⟩
  wQuiet := h.wQuiet
  behind := Or.inl ⟨h.w, h.regs, h.regWrites, h.NZCV⟩

theorem running_eq : t.running = s.running := by
  rcases h.status with hst | ⟨hs, ht⟩
  · exact congrArg Stat.goesOn hst
  · rw [hs, ht]

/-- Both have stopped. -/
theorem sameEnd (hs : s.running = false) : SameEnd s t where
  status := h.status.resolve_right fun hr => by
    rw [hs] at hr
    cases hr.1
  PC := h.PC
  regWrites := h.regWrites
  NZCV := h.NZCV
  printed := by
    obtain ⟨c, hm⟩ := h.mirrors
    exact hm.output.printed
  mirrors := fun _ => ⟨g, h.mirrors⟩

/-- An instruction in M that fails does so in both. -/
theorem failing (hf : s.M.out.status.isError = true ∨ accessFaults s.mem s.M.out = true) :
    Failing ec s t := by
  obtain ⟨c, hm⟩ := h.mirrors
  refine ⟨h.sOk, h.tOk, h.m, hf, fun hW => ?_, Or.inl h.w.status, ?_, h.NZCV, hm.flat, hm.tagged,
    hm.output⟩
  · have hidle : s.M.out.op.idle = true ∧ s.M.out.status.isError = false := by
      rcases h.haltsLast.w hW with hM | hM
      · rw [h.sOk.m.status.of_hlt hM, hM]
        exact ⟨rfl, rfl⟩
      · rw [h.sOk.m.status.of_bub hM, hM]
        exact ⟨rfl, rfl⟩
    rcases hf with hf | hf
    · exact absurd (hidle.2.symm.trans hf) Bool.false_ne_true
    · rw [accessFaults, Bool.and_eq_true] at hf
      exact absurd ((not_idle_of_accesses h.sOk hf.1).symm.trans hidle.1) Bool.false_ne_true
  · rw [h.regWrites, h.w.retireWrites h.sOk.w h.tOk.w]

end Abreast

/-! ## Abreast again -/

namespace CatchingUp

variable (h : CatchingUp ec g c s v u)
include h

/-! What the two machines have in common after the cycle. -/

theorem next_regWrites_eq : (next ec u w).regWrites = (next ec s v).regWrites := by
  rw [next_regWrites h.uOk, next_regWrites h.sOk, h.regWrites_eq]

theorem next_status : (next ec u w).status = (next ec s v).status ∨
    (next ec s v).running = true ∧ (next ec u w).running = true := by
  have hst : (next ec s v).status = s.W.out.status := h.sOk.statusNext_eq v
  have hst' : (next ec u w).status = u.W.out.status := h.uOk.statusNext_eq w
  rcases h.behind with hb | hb
  · exact Or.inl (by rw [hst, hst', hb.w.status])
  · refine Or.inr ⟨(congrArg Stat.goesOn hst).trans hb.goesOn, (congrArg Stat.goesOn hst').trans ?_⟩
    rw [hb.w]
    rfl

variable (hv : wires ec s = .ok v) (hs : s.Sound) (hwork : SameWork g c' s v w)
include hv hs hwork

/-- Nothing behind X fails in this cycle. -/
theorem wIn_quiet : (wIn s v).status.isError = false ∧ (wIn u w).status.isError = false := by
  have hst : (wIn s v).status.isError = false := by
    rw [wIn, memErr_eq h.sOk hv, hs.access]
    exact hs.status
  exact ⟨hst, by rw [(h.wIn_alike hwork).status, hst]⟩

/-- If X signals no error either, nothing does. -/
theorem quiet (hX : s.X.out.status.isError = false) :
    (hazards ec s v).Quiet ∧ (hazards ec u w).Quiet := by
  obtain ⟨hwin, hwin'⟩ := h.wIn_quiet hv hs hwork
  refine ⟨⟨?_, hwin, hX⟩, ⟨?_, hwin', ?_⟩⟩
  · change (wOut s).status.isError = false
    rw [wOut_eq h.sOk.w, h.wQuiet]
  · change (wOut u).status.isError = false
    rw [wOut_eq h.uOk.w, h.wQuiet']
  · change u.X.out.status.isError = false
    rw [h.x.status, hX]

theorem next_PC : (next ec u w).PC = (next ec s v).PC := by
  obtain ⟨hwin, hwin'⟩ := h.wIn_quiet hv hs hwork
  change pcNext u w = pcNext s v
  rw [pcNext_quiet hwin, pcNext_quiet hwin', hwork.fPC]

theorem next_NZCV (hX : s.X.out.status.isError = false) :
    (next ec u w).NZCV = (next ec s v).NZCV := by
  obtain ⟨hq, hq'⟩ := h.quiet hv hs hwork hX
  change (if flagsLatch ec u w then _ else _) = if flagsLatch ec s v then _ else _
  rw [flagsLatch_quiet hq, flagsLatch_quiet hq', h.deassertFlags,
    setFlags_alike h.x.toAlike h.sOk.x h.uOk.x, h.xNzcv]
  exact h.NZCV_eq

/-- Both have stopped, or both go on. -/
theorem endsAlike_next (hN : (next ec u w).NZCV = (next ec s v).NZCV)
    (hgo : (next ec s v).running = true → (next ec u w).running = true →
      EndsAlike ec n (next ec s v) (next ec u w)) : EndsAlike ec n (next ec s v) (next ec u w) := by
  rcases h.next_status with hst | ⟨hr, hr'⟩
  · have hrun : (next ec u w).running = (next ec s v).running := congrArg Stat.goesOn hst
    cases hr : (next ec s v).running with
    | true => exact hgo hr (hrun.trans hr)
    | false =>
      exact .stopped hr (hrun.trans hr) ⟨hst, h.next_PC hv hs hwork,
        h.next_regWrites_eq, hN, hwork.mirrors.output.printed, fun _ => ⟨g, c', hwork.mirrors⟩⟩
  · exact hgo hr hr'

/-- **The cycle in which the access is done** brings the two machines abreast again. -/
theorem done (hw : wires ec u = .ok w) (hX : s.X.out.status.isError = false)
    (hlu : (hazards ec u w).loadUse = (hazards ec s v).loadUse) :
    Abreast ec g (next ec s v) (next ec u w) := by
  obtain ⟨hq, hq'⟩ := h.quiet hv hs hwork hX
  have hz : hazardOf ec (hazards ec u w) = hazardOf ec (hazards ec s v) :=
    hazardOf_alike h.d.toAlike h.x.toAlike h.mIn.toAlike (hwork.ready.trans hwork.mirrors.flat.ready.symm)
      (hq'.wIn.trans hq.wIn.symm) (hq'.wOut.trans hq.wOut.symm) hlu
  obtain ⟨hctlM, hctlW⟩ := ctls_of_quiet h.sOk h.mirrors.flat hv hq.wIn h.wQuiet
  refine ⟨⟨?_, ?_, ?_, ?_, ?_⟩, h.sOk.next hv, h.uOk.next hw, h.haltsLast.next h.sOk hv, ?_, ?_, ?_, ?_,
    h.next_regWrites_eq, h.next_NZCV hv hs hwork hX, h.next_PC hv hs hwork,
    h.next_status, h.xNzcv, hwork.fStatus, hwork.d.succ, hwork.fPC,
    ⟨c', hwork.mirrors⟩, hwork.ready⟩
  · rw [h.sOk.next_D v, h.uOk.next_D w, hz]
    cases (hazardOf ec (hazards ec s v)).ctls.d <;> first | exact hwork.d | exact h.d | exact .refl _
  · rw [h.sOk.next_X v, h.uOk.next_X w, hz]
    cases (hazardOf ec (hazards ec s v)).ctls.x <;>
      first | exact h.xIn_twin hwork.valMem | exact h.x | exact .refl _
  · rw [h.sOk.next_M v, h.uOk.next_M w, hz, hctlM]
    exact h.mIn
  · rw [h.sOk.next_predPC v, h.uOk.next_predPC w, hz, h.predPC]
    exact ite_congr rfl (fun _ => h.next_PC hv hs hwork) fun _ => rfl
  · rw [deassertFlags_quiet hq, deassertFlags_quiet hq', h.deassertFlags]
  · rw [h.sOk.next_X v]
    exact clocked_mem (P := XInstr.FlagsApart) _ (fun hset => Bool.noConfusion hset)
      (flagsApart_decode ec (s.locals s.numInstr) s.regs s.D.out) h.flagsApart
  · rw [h.sOk.next_W v, h.uOk.next_W w, hz, hctlW]
    exact h.wIn_alike hwork
  · rw [h.sOk.next_W v, hctlW]
    exact hq.wIn
  · rw [next_regs h.uOk, next_regs h.sOk, h.retire_eq]

/-! ## An error in X -/

/-- An error in X goes on to M in both machines. -/
theorem failing (hw : wires ec u = .ok w) (hX : s.X.out.status.isError = true) :
    Failing ec (next ec s v) (next ec u w) ∧ (next ec u w).NZCV = (next ec s v).NZCV := by
  obtain ⟨hwin, hwin'⟩ := h.wIn_quiet hv hs hwork
  obtain ⟨hM, hW, hN⟩ := next_of_executeError h.sOk h.wQuiet hwin hX
  obtain ⟨hM', hW', hN'⟩ := next_of_executeError h.uOk h.wQuiet' hwin' (by rw [h.x.status, hX])
  have hb : Undrained s u := h.behind.resolve_right fun hb => by
    rw [hb.xQuiet] at hX
    cases hX
  have hNZCV : (next ec u w).NZCV = (next ec s v).NZCV := by rw [hN, hN', hb.NZCV]
  refine ⟨⟨h.sOk.next hv, h.uOk.next hw, by rw [hM, hM']; exact h.mIn, Or.inl (by rw [hM]; exact hX),
    fun hhlt => ?_, Or.inl ?_, ?_, hNZCV, hwork.mirrors.flat, hwork.mirrors.tagged,
    hwork.mirrors.output⟩, hNZCV⟩
  · rw [hW, wIn, memErr_eq h.sOk hv, hs.access] at hhlt
    rcases h.haltsLast.m hhlt with hx | hx <;> rw [hx] at hX <;> cases hX
  · rw [hW, hW', (h.wIn_alike hwork).status]
  · rw [h.next_regWrites_eq, hW, hW',
      (h.wIn_alike hwork).retireWrites (wIn_ok h.sOk.m v) (wIn_ok h.uOk.m w)]

/-! ## An undecodable word in D -/

omit h hv hs hwork in
/-- Behind a load, fetch follows the prediction. -/
theorem fetchPC_behindLoad (hM : s.M.out.op = .ldur) (hX : s.X.out.op = .nop ∨ s.X.out.op = .error) :
    fetchPC ec s = s.F.out.predPC := by
  rcases hX with hX | hX <;> simp [fetchPC, selectPC, hM, hX]

omit hv hs hwork in
/-- Load-use detection tells the two machines apart only by an undecodable word behind a load. -/
theorem error_of_loadUse_ne (hne : (hazards ec u w).loadUse ≠ (hazards ec s v).loadUse) :
    s.D.out.op = .error ∧ s.X.out.op = .ldur := by
  constructor
  · by_contra hop
    refine hne (checkLoadUseHazard_alike h.d.toAlike h.x.toAlike fun hsrc => h.sources ?_)
    have hnop : s.D.out.op ≠ .nop := fun hc => hsrc (by rw [hc]; decide)
    have hhlt : s.D.out.op ≠ .hlt := fun hc => hsrc (by rw [hc]; decide)
    exact decide_eq_false (by simp [hop, hnop, hhlt])
  · by_contra hop
    have hno : ∀ {k : Machine} {x : Wires}, k.X.out.op ≠ .ldur → (hazards ec k x).loadUse = false :=
      fun hk => Bool.eq_false_iff.2 fun hl => hk (HazardIn.loadUse_ops hl).1
    exact hne ((hno (by rwa [h.x.op])).trans (hno hop).symm)

/-- Where load-use detection tells them apart, one machine holds the undecodable word back. -/
theorem lost (hw : wires ec u = .ok w) (hX : s.X.out.status.isError = false)
    (hne : (hazards ec u w).loadUse ≠ (hazards ec s v).loadUse) (hsl : u.Seamless ec)
    (hsl' : (next ec u w).Seamless ec) :
    Lost ec g c' s.D.out (next ec s v) (next ec u w) := by
  obtain ⟨hD, hld⟩ := h.error_of_loadUse_ne hne
  obtain ⟨hq, hq'⟩ := h.quiet hv hs hwork hX
  obtain ⟨hM, hW, hfork⟩ := forked h.sOk hq hwork.mirrors.flat.ready (.refl _) hD hld
  obtain ⟨hM', hW', hfork'⟩ := forked h.uOk hq' hwork.ready h.d hD (h.x.op.trans hld)
  have hxGoes : s.X.out.status.goesOn = true := by
    refine goesOn_of_not_hlt hX fun hst => ?_
    rw [h.sOk.x.status.of_hlt hst] at hld
    cases hld
  -- behind an `HLT` there is no load
  have hmGoes : (wIn s v).status.goesOn = true := by
    have hst : (wIn s v).status = s.M.out.status := by
      rw [wIn, memErr_eq h.sOk hv, hs.access]
      rfl
    rw [hst]
    refine goesOn_of_not_hlt hs.status fun hM => ?_
    rcases h.haltsLast.m hM with hx | hx
    · rw [hx] at hxGoes
      cases hxGoes
    · rw [h.sOk.x.status.of_bub hx] at hld
      cases hld
  refine ⟨h.sOk.next hv, h.uOk.next hw, by rw [hM, hM']; exact h.mIn,
    h.sOk.d.status.error_isError hD, ⟨by rw [hM]; exact hxGoes, by rw [hW]; exact hmGoes,
    by rw [hW', (h.wIn_alike hwork).status, hmGoes]⟩, ?_, h.next_NZCV hv hs hwork hX, hwork.mirrors,
    Or.inl hwork.ready, ?_, ?_⟩
  · rw [h.next_regWrites_eq, hW, hW',
      (h.wIn_alike hwork).retireWrites (wIn_ok h.sOk.m v) (wIn_ok h.uOk.m w)]
  · -- fetch follows the prediction, which `Seamless` keeps off the console
    have hpc : fetchPC ec (next ec s v) = (next ec s v).F.out.predPC := by
      have hMop : (next ec s v).M.out.op = .ldur := by
        rw [hM]
        exact hld
      refine fetchPC_behindLoad hMop ?_
      split_ifs at hfork with hlu
      · exact Or.inl (congrArg XInstr.op hfork.1.x)
      · exact Or.inr hfork.1.op
    have hne : (next ec s v).F.out.predPC ≠ IO_CHAR_ADDR := by
      split_ifs at hfork hfork' with hlu hlu' hlu'
      · exact absurd (hlu'.trans hlu.symm) hne
      · rw [hfork.2, ← h.predPC]
        exact (hsl.predicted (h.d.op.trans hD)).2
      · rw [hfork.2, ← h.next_PC hv hs hwork]
        exact (hsl'.predicted hfork'.1.op).1
      · rw [Bool.not_eq_true] at hlu hlu'
        exact absurd (hlu'.trans hlu.symm) hne
    rw [Machine.readsConsole, hpc, beq_false_of_ne hne, Bool.and_false]
  · split_ifs at hfork hfork' with hlu hlu' hlu'
    · exact absurd (hlu'.trans hlu.symm) hne
    · exact Or.inr ⟨hfork.1, hfork'.1⟩
    · exact Or.inl ⟨hfork.1, hfork'.1⟩
    · rw [Bool.not_eq_true] at hlu hlu'
      exact absurd (hlu'.trans hlu.symm) hne

end CatchingUp

/-! ## Whole runs -/

/-- The cached machine answers a cycle in which nothing fails. -/
theorem CatchingUp.endsAlike (h : CatchingUp ec g c s v u) (hd : 1 ≤ g.d) (hv : wires ec s = .ok v)
    (hs : s.Sound) (hrun : s.running = true) (hu : u.running = true)
    (ih : ∀ m, n = m + 1 → ∀ s t, Abreast ec g s t → EndsAlike ec m s t) : EndsAlike ec n s u := by
  induction hk : u.mem.waits g c u.M.out.valEx using Nat.strong_induction_on generalizing u with
  | _ k ihk =>
    refine .peek hrun hu fun hsl _ _ => ?_
    cases hwaits : u.waits with
    | true =>
      obtain ⟨u', hstep, h', hu', hlt, hM⟩ := h.wait hd hv hsl hwaits
      exact .wait ⟨hu, hstep⟩ hwaits (ihk _ (by rw [hM]; omega) h' hu' rfl)
    | false =>
      obtain ⟨c', w, hw, hwork⟩ := h.exists_work hv hs hsl hwaits
      refine .both ⟨hu, by rw [cycle_eq, hw]; rfl⟩ hwaits ⟨hrun, by rw [cycle_eq, hv]; rfl⟩
        fun m hm => ?_
      cases hX : s.X.out.status.isError with
      | true =>
        obtain ⟨hf, hN⟩ := h.failing hv hs hwork hw hX
        exact h.endsAlike_next hv hs hwork hN fun hgo hgo' => .of_endsLike (hf.failsAlike hgo hgo')
      | false =>
        by_cases hlu : (hazards ec u w).loadUse = (hazards ec s v).loadUse
        · exact ih m hm _ _ (h.done hv hs hwork hw hX hlu)
        · refine h.endsAlike_next hv hs hwork (h.next_NZCV hv hs hwork hX) fun hgo hgo' => ?_
          refine .peek hgo hgo' fun hsl' _ _ => ?_
          exact .of_endsLike ((h.lost hv hs hwork hw hX hlu hsl hsl').failsAlike hd hgo hgo')

/-- **Two machines abreast end alike**, as long as every state the cached one goes on from is
seamless. -/
theorem Abreast.endsAlike (hd : 1 ≤ g.d) (h : Abreast ec g s t) : EndsAlike ec n s t := by
  induction n using Nat.strong_induction_on generalizing s t with
  | _ n ih =>
    cases hs : s.running with
    | false => exact .stopped hs (h.running_eq.trans hs) (h.sameEnd hs)
    | true =>
      have ht : t.running = true := h.running_eq.trans hs
      by_cases hf : s.M.out.status.isError = true ∨ accessFaults s.mem s.M.out = true
      · exact .of_endsLike ((h.failing hf).failsAlike hs ht)
      · rw [not_or, Bool.not_eq_true, Bool.not_eq_true] at hf
        refine .peek hs ht fun _ s' hstep => ?_
        obtain ⟨v, hv, rfl⟩ := exists_wires hstep.2
        obtain ⟨c, hmir⟩ := h.mirrors
        exact (h.catchingUp hmir hv).endsAlike hd hv ⟨hf.1, hf.2⟩ hs ht
          fun m hm s t h' => ih m (by omega) h'

end Pair

/-- At the end of two runs that end with an `HLT`, loads see the same memory. -/
theorem mirrors_of_halted {ec : Bool} {img : Image} {g : Geometry} (hd : 1 ≤ g.d)
    (locals : Nat → Locals) {entry : Word} {n m : Nat} {σ τ : Nat → Machine}
    (hx : Execution ec { img with cache := none } entry n σ) (hstop : (σ n).running = false)
    (hhalted : (σ n).halted = true)
    (hx' : Execution ec { img with cache := some g.cache, locals := locals } entry m τ)
    (hstop' : (τ m).running = false) (hall : ∀ k < m, (τ k).Seamless ec) :
    ∃ g c, Memory.Mirrors g c (σ n).mem (τ m).mem := by
  obtain ⟨m', τ', hτ', hend, hsame, -⟩ := (Abreast.init ec g img locals entry).endsAlike hd σ hx hstop
    (hx'.always hstop' hall)
  rw [hx'.end_unique hτ' hstop' hend]
  exact hsame.mirrors hhalted

/-- **The cache does not show.**  In both builds, for every program and every valid cache of a delay
of at least one cycle: if every state the cached run goes on from is seamless, then whenever the run
without a cache stops, so does the run with the cache, with the same status and PC, the same
register writes, the same flags and the same output.  If it ends with an `HLT`, loads see the same
memory, and the cached run takes exactly the cycles more in which an access has waited. -/
theorem cache_invisible {ec : Bool} {img : Image} {g : Geometry} (hd : 1 ≤ g.d) (locals : Nat → Locals)
    {entry : Word} {n : Nat} {σ : Nat → Machine}
    (hx : Execution ec { img with cache := none } entry n σ) (hstop : (σ n).running = false)
    (hall : Runs.Always (cycle ec) Machine.running (Machine.Seamless ec)
      (.init { img with cache := some g.cache, locals := locals } entry)) :
    ∃ m τ, Execution ec { img with cache := some g.cache, locals := locals } entry m τ ∧
      (τ m).running = false ∧ SameEnd (σ n) (τ m) ∧
      ((σ n).halted = true → m = n + Nat.count (fun k => (τ k).waits = true) m) :=
  (Abreast.init ec g img locals entry).endsAlike hd σ hx hstop hall

/-- `ldur x3, [sp]`, `ret`. -/
def loadAndReturn : List (BitVec 32) := [0xf84003e3#32, 0xd65f03c0#32]

theorem cache_invisible_loadAndReturn :
    ∃ m τ, Execution false { Image.ofWords loadAndReturn none with
        cache := some Geometry.oneLine.cache, locals := fun _ => ⟨1, 2, 3, fun _ => 0⟩ } 0x400000#64 m τ ∧
      (τ m).running = false ∧
      SameEnd (stateAt false { Image.ofWords loadAndReturn none with cache := none } 0x400000#64 8)
        (τ m) ∧
      ((stateAt false { Image.ofWords loadAndReturn none with cache := none }
          0x400000#64 8).halted = true →
        m = 8 + Nat.count (fun k => (τ k).waits = true) m) := by
  refine cache_invisible (by decide) _ (execution_stateAt (by decide +kernel)) (by decide +kernel) ?_
  exact (execution_stateAt (n := 10) (by decide +kernel)).always (by decide +kernel)
    (by decide +kernel)

end ChArm
