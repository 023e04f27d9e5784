import ChArm.Base.Cycle
import ChArm.Pipe.Hazards
import ChArm.Lib.Runs

/-!
# What the pipeline registers hold

The format, the control signals and the status of what a pipeline register holds
go with its opcode; an empty register is a `NOP` with status `STAT_BUB`.
`Machine.WellFormed` says this of all four registers and that no stage shows a
pipeline control error.  Every cycle keeps it.

* `WellFormed.next` — every cycle keeps it.
-/

namespace ChArm

/-! ## Opcodes and statuses -/

/-- The statuses an instruction can carry with its opcode. -/
structure StatusFits (op : Opcode) (status : Stat) : Prop where
  of_bub : status = .bub → op = .nop
  of_hlt : status = .hlt → op = .hlt
  hlt_ne_aok : op = .hlt → status ≠ .aok
  error_isError : op = .error → status.isError = true

/-- A fetched instruction, or the empty register. -/
structure DInstr.Ok (ec : Bool) (d : DInstr) : Prop where
  format : d.status ≠ .bub → d.format = ftable ec d.op
  base : ec = false → d.op.isEC = false
  status : StatusFits d.op d.status
  ne_adr : d.status ≠ .adr

/-- A decoded instruction: its signals are those of its opcode. -/
structure XInstr.Ok (ec : Bool) (x : XInstr) : Prop where
  sigs : (x.xSigs, x.mSigs, x.wSigs) = generateDXMWControl ec x.op
  base : ec = false → x.op.isEC = false
  status : StatusFits x.op x.status
  ne_adr : x.status ≠ .adr
  dst : x.op = .bl → x.dst = 30#8

/-- The conditional branches set no flags. -/
theorem XInstr.Ok.setFlags_of_branch {ec : Bool} {x : XInstr} (h : x.Ok ec)
    (hop : x.op ∈ [Opcode.bCond, .cbz, .cbnz]) : x.xSigs.setFlags = false := by
  rw [show x.xSigs = _ from congrArg Prod.fst h.sigs]
  simp only [List.mem_cons, List.not_mem_nil, or_false] at hop
  rcases hop with hop | hop | hop <;> rw [hop] <;> cases ec <;> rfl

/-- An instruction that has been executed. -/
structure MInstr.Ok (ec : Bool) (m : MInstr) : Prop where
  sigs : (m.mSigs, m.wSigs) = (generateDXMWControl ec m.op).2
  base : ec = false → m.op.isEC = false
  status : StatusFits m.op m.status
  ne_adr : m.status ≠ .adr
  dst : m.op = .bl → m.dst = 30#8

/-- An instruction that has passed the memory stage. -/
structure WInstr.Ok (ec : Bool) (w : WInstr) : Prop where
  sigs : w.wSigs = (generateDXMWControl ec w.op).2.2
  status : w.status ≠ .adr → StatusFits w.op w.status
  dst : w.op = .bl → w.dst = 30#8

/-- What the pipeline registers hold, and no pipeline control error. -/
structure Machine.WellFormed (ec : Bool) (s : Machine) : Prop where
  ctls : s.ctls.Clean
  d : s.D.out.Ok ec
  x : s.X.out.Ok ec
  m : s.M.out.Ok ec
  w : s.W.out.Ok ec

theorem statusFits_bub : StatusFits .nop .bub := ⟨fun _ => rfl, nofun, nofun, nofun⟩

theorem statusFits_hlt : StatusFits .hlt .hlt := ⟨nofun, fun _ => rfl, fun _ => nofun, nofun⟩

theorem DInstr.zero_ok (ec : Bool) : DInstr.zero.Ok ec :=
  ⟨fun h => absurd rfl h, fun _ => rfl, statusFits_bub, nofun⟩

theorem XInstr.zero_ok (ec : Bool) : XInstr.zero.Ok ec :=
  ⟨by cases ec <;> rfl, fun _ => rfl, statusFits_bub, nofun, nofun⟩

theorem MInstr.zero_ok (ec : Bool) : MInstr.zero.Ok ec :=
  ⟨by cases ec <;> rfl, fun _ => rfl, statusFits_bub, nofun, nofun⟩

theorem WInstr.zero_ok (ec : Bool) : WInstr.zero.Ok ec :=
  ⟨by cases ec <;> rfl, fun _ => statusFits_bub, nofun⟩

/-! ## Fetch -/

/-- The opcodes `fix_instr_aliases` puts for another have its format. -/
theorem ftable_fixInstrAliases (ec : Bool) (insnbits : BitVec 32) (op : Opcode) :
    ftable ec (fixInstrAliases ec insnbits op) = ftable ec op := by
  unfold fixInstrAliases
  cases op <;> cases ec <;> simp only [Bool.false_eq_true, if_true, if_false] <;> split_ifs <;> rfl

theorem isEC_fixInstrAliases (insnbits : BitVec 32) {op : Opcode} (h : op.isEC = false) :
    (fixInstrAliases false insnbits op).isEC = false := by
  unfold fixInstrAliases
  cases op <;> simp only [Bool.false_eq_true, if_false] <;> first | exact h | (split_ifs <;> rfl)

theorem statusFits_fetchStatus (imemErr : Bool) (op : Opcode) :
    StatusFits op (fetchStatus imemErr op) := by
  unfold fetchStatus
  by_cases he : imemErr = true ∨ op = .error
  · rw [if_pos he]
    exact ⟨nofun, nofun, fun _ => nofun, fun _ => rfl⟩
  · rw [if_neg he]
    by_cases hh : op = .hlt
    · rw [if_pos hh]
      exact ⟨nofun, fun _ => hh, fun _ => nofun, fun h => absurd (Or.inr h) he⟩
    · rw [if_neg hh]
      exact ⟨nofun, nofun, fun h => absurd h hh, fun h => absurd (Or.inr h) he⟩

theorem fetchStatus_ne (imemErr : Bool) (op : Opcode) :
    fetchStatus imemErr op ≠ .adr ∧ fetchStatus imemErr op ≠ .bub := by
  unfold fetchStatus
  split_ifs <;> exact ⟨nofun, nofun⟩

theorem fetchedInstr_ok (ec : Bool) (pc : Word) (insnbits : BitVec 32) (imemErr : Bool) :
    (fetchedInstr ec pc insnbits imemErr).Ok ec where
  format := by
    intro _
    simp only [fetchedInstr, ftable_fixInstrAliases]
    by_cases h : itable ec (insnbits >>> 21).toNat = .error
    · rw [h]
      rfl
    · rw [if_pos h]
  base := by
    rintro rfl
    exact isEC_fixInstrAliases insnbits (itable_ne_ec _)
  status := statusFits_fetchStatus imemErr _
  ne_adr := (fetchStatus_ne imemErr _).1

theorem haltInstr_ok (ec : Bool) (old : DInstr) : (haltInstr ec old).Ok ec :=
  ⟨fun _ => rfl, fun _ => rfl, statusFits_hlt, nofun⟩

theorem fetchedInstr_seqSuccPC (ec : Bool) (pc : Word) (insnbits : BitVec 32) (imemErr : Bool) :
    (fetchedInstr ec pc insnbits imemErr).seqSuccPC = pc + 4#64 := by
  simp only [fetchedInstr, predictPC]
  split_ifs <;> rfl

/-! ## The other stages -/

/-- The destination of a `BL`. -/
theorem extractRegs_bl_dst (ec : Bool) (l : Locals) (insnbits : BitVec 32) :
    (extractRegs ec l insnbits .bl (ftable ec .bl)).dst = 30#8 := rfl

theorem xIn_ok {ec : Bool} {s : Machine} (h : s.D.out.Ok ec) (v : Wires) : (xIn ec s v).Ok ec where
  sigs := rfl
  base := h.base
  status := h.status
  ne_adr := h.ne_adr
  dst := by
    intro hop
    have hop : s.D.out.op = .bl := hop
    have hst : s.D.out.status ≠ .bub := fun hb => by
      have := h.status.of_bub hb
      rw [hop] at this
      cases this
    change (extractRegs ec _ _ s.D.out.op s.D.out.format).dst = 30#8
    rw [h.format hst, hop, extractRegs_bl_dst]

theorem mIn_ok {ec : Bool} {s : Machine} (h : s.X.out.Ok ec) : (mIn ec s).Ok ec where
  sigs := congrArg Prod.snd h.sigs
  base := h.base
  status := h.status
  ne_adr := h.ne_adr
  dst := h.dst

theorem wIn_ok {ec : Bool} {s : Machine} (h : s.M.out.Ok ec) (v : Wires) : (wIn s v).Ok ec where
  sigs := congrArg Prod.snd h.sigs
  status := by
    intro hne
    simp only [wIn] at hne ⊢
    by_cases herr : v.memErr = true
    · rw [if_pos herr] at hne
      exact absurd rfl hne
    · rw [if_neg herr]
      exact h.status
  dst := h.dst

/-- The choice of `dst_sel` repeats what decode has chosen. -/
theorem wOut_eq {ec : Bool} {s : Machine} (h : s.W.out.Ok ec) : wOut s = s.W.out := by
  unfold wOut
  by_cases hsel : s.W.out.wSigs.dstSel = true
  · rw [if_pos hsel]
    have hbl : s.W.out.op = .bl := by
      rw [h.sigs] at hsel
      simpa [generateDXMWControl] using hsel
    rw [← h.dst hbl]
  · rw [if_neg hsel]

/-- The control signals of an instruction in M name its access. -/
theorem MInstr.Ok.access {ec : Bool} {i : MInstr} (h : i.Ok ec) :
    i.mSigs.dmemRead = decide (i.op = .ldur) ∧ i.mSigs.dmemWrite = decide (i.op = .stur) := by
  rw [show i.mSigs = _ from congrArg Prod.fst h.sigs]
  exact ⟨rfl, rfl⟩

theorem MInstr.Ok.not_both {ec : Bool} {i : MInstr} (h : i.Ok ec) :
    (i.mSigs.dmemRead && i.mSigs.dmemWrite) = false := by
  rw [h.access.1, h.access.2]
  cases i.op <;> rfl

/-! ## Every cycle keeps it -/

theorem clocked_mem {α : Type} {P : α → Prop} (ctl : PipeCtl) {zero inp out : α} (hz : P zero)
    (hi : P inp) (ho : P out) : P (clocked ctl zero inp out) := by
  cases ctl <;> assumption

/-- A cycle that goes through is the circuit of its wires. -/
theorem exists_wires {ec : Bool} {s s' : Machine} (h : cycle ec s = .ok s') :
    ∃ v, wires ec s = .ok v ∧ s' = next ec s v := by
  rw [cycle_eq] at h
  cases hw : wires ec s with
  | error e =>
    rw [hw] at h
    cases h
  | ok v =>
    rw [hw] at h
    exact ⟨v, rfl, (Except.ok.inj h).symm⟩

/-- What the wires are. -/
theorem wires_inv {ec : Bool} {s : Machine} {v : Wires} (h : wires ec s = .ok v) :
    fetchWires ec s = .ok (v.d, v.fStatus, v.fPC, v.fMem) ∧
      dmem v.fMem s.M.out.valEx s.M.out.valB s.M.out.mSigs.dmemRead s.M.out.mSigs.dmemWrite
        s.W.inp.valMem = .ok (v.valMem, v.memErr, v.mem) := by
  unfold wires at h
  cases hf : fetchWires ec s with
  | error e =>
    rw [hf] at h
    cases h
  | ok r =>
    obtain ⟨d, fStatus, fPC, fMem⟩ := r
    rw [hf] at h
    simp only [bind, Except.bind] at h
    cases hd : dmem fMem s.M.out.valEx s.M.out.valB s.M.out.mSigs.dmemRead s.M.out.mSigs.dmemWrite
        s.W.inp.valMem with
    | error e =>
      rw [hd] at h
      cases h
    | ok r =>
      rw [hd] at h
      cases h
      exact ⟨rfl, hd⟩

theorem wires_eq {ec : Bool} {s : Machine} {d : DInstr} {fStatus : Stat} {fPC valMem : Word}
    {fMem mem : Memory} {memErr : Bool} (hf : fetchWires ec s = .ok (d, fStatus, fPC, fMem))
    (hd : dmem fMem s.M.out.valEx s.M.out.valB s.M.out.mSigs.dmemRead s.M.out.mSigs.dmemWrite
      s.W.inp.valMem = .ok (valMem, memErr, mem)) :
    wires ec s = .ok ⟨d, fStatus, fPC, fMem, valMem, memErr, mem⟩ := by
  rw [wires, hf]
  simp only [bind, Except.bind, hd]

theorem fetchWires_inv {ec : Bool} {s : Machine} {d : DInstr} {fStatus : Stat} {fPC : Word}
    {fMem : Memory} (hf : fetchWires ec s = .ok (d, fStatus, fPC, fMem)) :
    (fetchHalts ec s = true ∧ d = haltInstr ec s.D.inp ∧ fStatus = .hlt ∧ fPC = s.fPC ∧
        fMem = s.mem) ∨
      (fetchHalts ec s = false ∧ ∃ insnbits imemErr,
        imem s.mem (fetchPC ec s) = .ok (insnbits, imemErr, fMem) ∧
        d = fetchedInstr ec (fetchPC ec s) insnbits imemErr ∧ fStatus = d.status ∧
        fPC = (predictPC ec (fetchPC ec s) insnbits d.op).1) := by
  unfold fetchWires at hf
  by_cases hh : fetchHalts ec s = true
  · rw [if_pos hh] at hf
    injection hf with hf
    simp only [Prod.mk.injEq] at hf
    exact Or.inl ⟨hh, hf.1.symm, hf.2.1.symm, hf.2.2.1.symm, hf.2.2.2.symm⟩
  · rw [if_neg hh] at hf
    refine Or.inr ⟨Bool.eq_false_iff.2 hh, ?_⟩
    cases hi : imem s.mem (fetchPC ec s) with
    | error e =>
      rw [hi] at hf
      cases hf
    | ok r =>
      obtain ⟨insnbits, imemErr, mem⟩ := r
      rw [hi] at hf
      injection hf with hf
      simp only [Prod.mk.injEq] at hf
      obtain ⟨h1, h2, h3, h4⟩ := hf
      subst h4
      rw [h1] at h2 h3
      exact ⟨insnbits, imemErr, rfl, h1.symm, h2.symm, h3.symm⟩

/-- What fetch has done: made up an `HLT`, or read a word of instruction memory. -/
theorem fetch_inv {ec : Bool} {s : Machine} {v : Wires} (h : wires ec s = .ok v) :
    (fetchHalts ec s = true ∧ v.d = haltInstr ec s.D.inp ∧ v.fStatus = .hlt ∧ v.fPC = s.fPC ∧
        v.fMem = s.mem) ∨
      (fetchHalts ec s = false ∧ ∃ insnbits imemErr,
        imem s.mem (fetchPC ec s) = .ok (insnbits, imemErr, v.fMem) ∧
        v.d = fetchedInstr ec (fetchPC ec s) insnbits imemErr ∧ v.fStatus = v.d.status ∧
        v.fPC = (predictPC ec (fetchPC ec s) insnbits v.d.op).1) :=
  fetchWires_inv (wires_inv h).1

/-- Whatever fetch delivers is a fetched instruction. -/
theorem fetchWires_ok {ec : Bool} {s : Machine} {d : DInstr} {fStatus : Stat} {fPC : Word}
    {fMem : Memory} (hf : fetchWires ec s = .ok (d, fStatus, fPC, fMem)) :
    d.Ok ec ∧ fStatus = d.status ∧ d.status ≠ .bub := by
  rcases fetchWires_inv hf with ⟨-, hd, hst, -⟩ | ⟨-, insnbits, imemErr, -, hd, hst, -⟩
  · rw [hst, hd]
    exact ⟨haltInstr_ok ec _, rfl, nofun⟩
  · rw [hst, hd]
    exact ⟨fetchedInstr_ok ec _ _ _, rfl, (fetchStatus_ne _ _).2⟩

theorem fetch_ok {ec : Bool} {s : Machine} {v : Wires} (h : wires ec s = .ok v) :
    v.d.Ok ec ∧ v.fStatus = v.d.status ∧ v.d.status ≠ .bub :=
  fetchWires_ok (wires_inv h).1

namespace Machine.WellFormed

variable {ec : Bool} {s s' : Machine}

theorem init (ec : Bool) (img : Image) (entry : Word) : (Machine.init img entry).WellFormed ec :=
  ⟨⟨nofun, nofun, nofun, nofun, nofun⟩, DInstr.zero_ok ec, XInstr.zero_ok ec, MInstr.zero_ok ec,
    WInstr.zero_ok ec⟩

/-- The block of `handle_hazards` that decides in a cycle. -/
theorem cycleCtls_eq (h : s.WellFormed ec) (v : Wires) :
    cycleCtls ec s v = (hazardOf ec (hazards ec s v)).ctls :=
  hazardCtls_eq ec _ h.ctls

/-- Whatever has been fetched, the clock edge keeps the registers well formed. -/
theorem next_of_fetched (h : s.WellFormed ec) {v : Wires} (hd : v.d.Ok ec) :
    (ChArm.next ec s v).WellFormed ec where
  ctls := by
    have := (hazardOf ec (hazards ec s v)).ctls_clean
    rwa [← h.cycleCtls_eq v] at this
  d := clocked_mem _ (DInstr.zero_ok ec) hd h.d
  x := clocked_mem _ (XInstr.zero_ok ec) (xIn_ok h.d v) h.x
  m := clocked_mem _ (MInstr.zero_ok ec) (mIn_ok h.x) h.m
  w := clocked_mem _ (WInstr.zero_ok ec) (wIn_ok h.m v) (by rw [wOut_eq h.w]; exact h.w)

theorem next (h : s.WellFormed ec) {v : Wires} (hv : wires ec s = .ok v) :
    (ChArm.next ec s v).WellFormed ec :=
  h.next_of_fetched (fetch_ok hv).1

/-! The output sides after a cycle. -/

theorem next_D (h : s.WellFormed ec) (v : Wires) :
    (ChArm.next ec s v).D.out =
      clocked (hazardOf ec (hazards ec s v)).ctls.d .zero v.d s.D.out := by
  rw [← h.cycleCtls_eq v]
  rfl

theorem next_X (h : s.WellFormed ec) (v : Wires) :
    (ChArm.next ec s v).X.out =
      clocked (hazardOf ec (hazards ec s v)).ctls.x .zero (xIn ec s v) s.X.out := by
  rw [← h.cycleCtls_eq v]
  rfl

theorem next_M (h : s.WellFormed ec) (v : Wires) :
    (ChArm.next ec s v).M.out =
      clocked (hazardOf ec (hazards ec s v)).ctls.m .zero (mIn ec s) s.M.out := by
  rw [← h.cycleCtls_eq v]
  rfl

theorem next_W (h : s.WellFormed ec) (v : Wires) :
    (ChArm.next ec s v).W.out =
      clocked (hazardOf ec (hazards ec s v)).ctls.w .zero (wIn s v) s.W.out := by
  rw [← h.cycleCtls_eq v, ← wOut_eq h.w]
  rfl

/-- The predicted PC moves on when F is latched. -/
theorem next_predPC (h : s.WellFormed ec) (v : Wires) :
    (ChArm.next ec s v).F.out.predPC =
      if (hazardOf ec (hazards ec s v)).ctls.f = .load then pcNext s v else s.F.out.predPC := by
  have hf : (ChArm.next ec s v).F.out = clocked (cycleCtls ec s v).f .zero
      { predPC := pcNext s v, status := v.fStatus } { s.F.out with status := v.fStatus } := rfl
  rw [hf, h.cycleCtls_eq v]
  cases hazardOf ec (hazards ec s v) <;> rfl

/-- The control signals after a cycle. -/
theorem next_ctls (h : s.WellFormed ec) (v : Wires) :
    (ChArm.next ec s v).ctls = (hazardOf ec (hazards ec s v)).ctls := by
  rw [← h.cycleCtls_eq v]
  rfl

theorem cycle (h : s.WellFormed ec) (hc : ChArm.cycle ec s = .ok s') : s'.WellFormed ec := by
  obtain ⟨v, hv, rfl⟩ := exists_wires hc
  exact h.next hv

/-- An instruction that stays in X and sets no flags computes the same again. -/
theorem mIn_stalled {v : Wires} (hX : (ChArm.next ec s v).X.out = s.X.out)
    (hset : s.X.out.xSigs.setFlags = false) : mIn ec (ChArm.next ec s v) = mIn ec s := by
  have hflags : (ChArm.next ec s v).xNzcvval = s.xNzcvval := by
    change (executeAlu s.rca s.xNzcvval s.X.out).nzcv = _
    simp only [executeAlu, alu, hset, Bool.false_eq_true, if_false]
  rw [mIn, mIn, hX, hflags, execute_rca ec _ s.rca]

/-- The status after a cycle is that of the instruction in W. -/
theorem statusNext_eq (h : s.WellFormed ec) (v : Wires) : statusNext ec s v = s.W.out.status := by
  unfold statusNext
  rw [h.cycleCtls_eq v, wOut_eq h.w]
  obtain ⟨h1, h2, h3, h4, h5⟩ := (hazardOf ec (hazards ec s v)).ctls_clean
  rw [if_neg]
  simp [h1.symm, h2.symm, h3.symm, h4.symm, h5.symm]

end Machine.WellFormed

end ChArm
