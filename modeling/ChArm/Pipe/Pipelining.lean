import ChArm.Pipe.Sequential
import ChArm.Pipe.CycleAccounting
import ChArm.Pipe.DecodedRegs

/-!
# Pipelining preserves the sequential meaning

The overlapped loop against the machine of `ChArm.Pipe.Sequential`, base build, no cache.
`Behind` is the simulation relation: the instructions in M and W, each known by its
effect alone, stand between the sequential states that memory and the registers
have reached and the one the flags have reached.  A cycle moves all of them on
(`Behind.next`), whatever they are; only an instruction that enters X needs its own
argument, and is a step of the sequential machine (`Behind.issue`).

The pipeline fails it in three places: the operands that `forward_reg` gets wrong,
the `HLT` that fetch remembers although it was squashed, and squashed fetches that
read the console.  `Machine.Benign` says of a cycle that it meets none of them.

* `Behind.next` — a cycle moves every older instruction one stage on.
* `Behind.issue` — an instruction that enters X is the next one of the sequential machine.
* `Trails.next` — a cycle is a step of the sequential machine, or none.
* `pipelining_sequential` — whole programs: registers, flags, memory and the order of all writes.
-/

namespace ChArm

/-! ## The older instructions -/

/-- A cycle of the base build without a cache that meets no fault and reads nothing from the console
in fetch. -/
structure Plain (s : Machine) (v : Wires) : Prop extends Smooth s v where
  uncached : s.mem.Uncached
  noFault : (next false s v).deassertFlags = false
  console : s.readsConsole false = false

/-- The instructions in M and W are on their way through the sequential states `tW`, `tM` and `tX`:
the registers are those of the first, memory is that of the second, the flags are those of the
third. -/
structure Behind (tX tM tW s : Machine) : Prop where
  access : MEffect s.M.out tM tX
  wback : WEffect s.W.out tW tM
  xNzcvval : s.xNzcvval = tX.xNzcvval
  nzcvWrites : s.nzcvWrites = tX.nzcvWrites
  mem : tM.mem.Agrees s.mem
  regs : s.regs = tW.regs
  regWrites : s.regWrites = tW.regWrites

section
variable {t tX tM tW s : Machine} {v : Wires}

/-- The instruction in M makes its access. -/
theorem Behind.accessed (h : Behind tX tM tW s) (hp : Plain s v) :
    tX.mem.Agrees v.mem ∧ WEffect (wIn s v) tM tX := by
  obtain ⟨hf, hd⟩ := wires_inv hp.wires
  obtain ⟨valMem, mem', hd', hag, hw⟩ := h.access v.fMem s.W.inp.valMem
    (uncached_of_wires hp.wf hp.uncached hp.wires).1
    (h.mem.trans ((fetch_keeps hp.uncached hp.wires).2 hp.console))
  obtain ⟨hval, -, hmem⟩ := by simpa only [Except.ok.injEq, Prod.mk.injEq] using hd'.symm.trans hd
  have hin : wIn s v = passMemory s.M.out v.valMem := by
    rw [wIn, (hp.latched hp.uncached).2.2]
    rfl
  rw [hin, ← hmem, ← hval]
  exact ⟨hag, hw⟩

/-- **A cycle moves every older instruction one stage on.** -/
theorem Behind.next (h : Behind tX tM tW s) (hp : Plain s v) (hx : XEffect s.X.out tX t) :
    Behind t tX tM (next false s v) := by
  obtain ⟨hmem, hw⟩ := h.accessed hp
  obtain ⟨hM, hW, -⟩ := hp.latched hp.uncached
  have hflags : (ChArm.next false s v).xNzcvval = flagsAfter s.X.out tX.xNzcvval := by
    rw [(next_flags hp.noFault).1, h.xNzcvval]
  have hwb := wOut_eq hp.wf.w
  refine ⟨?_, ?_, hflags.trans hx.xNzcvval.symm, ?_, hmem, ?_, ?_⟩
  · rw [hM, mIn, execute_rca false s.rca .zero, h.xNzcvval]
    exact hx.access
  · rw [hW]
    exact hw
  · have hno : flagsDeasserted false s v = false := hp.noFault
    rw [hx.nzcvWrites, ← h.nzcvWrites, flagWritesOf, ← h.xNzcvval, ← xNzcv_eq]
    show (if flagsLatch false s v then _ else _) = _
    rw [flagsLatch, hno, Bool.not_false, Bool.true_and]
    split_ifs
    · rfl
    · rw [List.append_nil]
  · rw [next_regs hp.wf, h.wback.regs, h.regs]
  · have hwr : (ChArm.next false s v).regWrites = s.regWrites ++ regWritesOf s.W.out := by
      simp only [ChArm.next, wVal, hwb, regWritesOf, wbackDst_eq hp.wf.w]
      rfl
    rw [hwr, h.wback.regWrites, h.regWrites]

end

/-! ## Where the pipeline goes wrong -/

/-- Does hazard control let the instruction in D go on to X? -/
def Machine.issues (s : Machine) : Bool :=
  !checkLoadUseHazard s.D.out.op (decoded false s).2.1 (decoded false s).2.2 s.X.out.op
      s.X.out.dst &&
    !checkMispredBranchHazard s.X.out.op (mIn false s).condHolds

/-- Is this one of the two numbers `forward_reg` gets wrong, and does an instruction in X, M or W
still have to write it? -/
def Machine.stale (s : Machine) (src : RegNum) : Bool :=
  (src == SP_NUM || src == XZR_NUM) &&
    ((s.X.out.wSigs.wEnable && s.X.out.dst == src) ||
      (s.M.out.wSigs.wEnable && s.M.out.dst == src) ||
      (s.W.out.wSigs.wEnable && s.W.out.dst == src))

/-- Does the instruction in D go on to X with a wrong operand that it uses? -/
def Machine.misreads (s : Machine) : Bool :=
  s.issues &&
    ((s.D.out.op.usesA && s.stale (decoded false s).2.1) ||
      (s.D.out.op.usesB && s.stale (decoded false s).2.2))

/-- Does the program end at the PC fetch is about to work on, with address 0 or an `HLT`? -/
def Machine.fetchesEnd (s : Machine) : Bool :=
  fetchPC false s == 0 ||
    match imem s.mem (fetchPC false s) with
    | .ok (insnbits, imemErr, _) =>
        (fetchedInstr false (fetchPC false s) insnbits imemErr).status == .hlt
    | .error _ => false

/-- The next cycle does nothing the sequential machine would not do: no instruction goes on to X
with a wrong operand, fetch does not remember an `HLT` it has squashed, unless there is another one
on the right path, and it reads nothing from the console. -/
structure Machine.Benign (s : Machine) : Prop where
  operands : s.misreads = false
  halt : s.D.ctl = .bubble → s.F.inp.status = .hlt → s.fetchesEnd = true
  console : s.readsConsole false = false

instance (s : Machine) : Decidable s.Benign :=
  decidable_of_iff (s.misreads = false ∧
      (s.D.ctl = .bubble → s.F.inp.status = .hlt → s.fetchesEnd = true) ∧
      s.readsConsole false = false)
    ⟨fun h => ⟨h.1, h.2.1, h.2.2⟩, fun h => ⟨h.operands, h.halt, h.console⟩⟩

theorem fetchesEnd_iff {img : Image} {s : Machine} (h : s.mem.Loaded img) :
    s.fetchesEnd = true ↔ img.EndsAt (fetchPC false s) := by
  rw [Machine.fetchesEnd, Bool.or_eq_true, beq_iff_eq, Image.EndsAt]
  by_cases h0 : fetchPC false s = 0
  · exact ⟨fun _ => .inl h0, fun _ => .inl h0⟩
  refine or_congr Iff.rfl ?_
  by_cases hpc : img.InText (fetchPC false s)
  · obtain ⟨m', hi, -⟩ := h.imem hpc
    rw [hi]
    exact beq_iff_eq.trans ⟨fun hs => ⟨hpc, hs⟩, And.right⟩
  · refine ⟨fun hs => ?_, fun hs => absurd hs.1 hpc⟩
    cases hi : imem s.mem (fetchPC false s) with
    | error e =>
      rw [hi] at hs
      cases hs
    | ok r =>
      obtain ⟨insnbits, imemErr, m'⟩ := r
      rw [hi, imem_error h h0 hpc hi] at hs
      simp [fetchedInstr, fetchStatus] at hs

/-! ## The end of the program -/

/-- An `HLT` in D, or remembered by fetch, is where the program ends: `pc` is where it goes on. -/
structure HaltPath (img : Image) (pc : Word) (s : Machine) : Prop where
  sticky : s.D.out.status = .hlt → s.F.inp.status = .hlt
  ahead : s.D.out.status ≠ .hlt → s.F.inp.status = .hlt → img.EndsAt (fetchPC false s)
  behind : s.D.out.status = .hlt → s.X.out.status = .aok → s.X.out.op ≠ .ret →
    img.EndsAt (successor s.X.out true)
  alone : s.D.out.status = .hlt → s.X.out.status = .bub → img.EndsAt pc

section
variable {img : Image} {x : XInstr} {c : Bool} {pc : Word} {s : Machine} {v : Wires}

/-- Every cycle keeps it; `pc` changes only when an instruction enters X. -/
theorem HaltPath.next (h : HaltPath img (successor x c) s) (hf : Follows x c s)
    (hx : x.status = .aok) (hpath : OnPath s) (hs : Smooth s v) (hl : s.mem.Loaded img)
    (hl' : v.mem.Loaded img) (hb : (ChArm.next false s v).Benign)
    (hpc : (ChArm.next false s v).X.out.status = .bub → pc = successor x c) :
    HaltPath img pc (ChArm.next false s v) := by
  have hg := hazardOf_guard false (hazards false s v)
  have hD := hs.wf.next_D v
  have hX := hs.wf.next_X v
  have hM := hs.wf.next_M v
  have hF := hs.wf.next_predPC v
  have hctl : (ChArm.next false s v).D.ctl = (hazardOf false (hazards false s v)).ctls.d :=
    congrArg Ctls.d (hs.wf.next_ctls v)
  have hend := fetchStatus_hlt_iff hl hs.wires
  have hsticky : (ChArm.next false s v).F.inp.status = v.fStatus := rfl
  -- a squash: the condition says where fetch goes on
  have hsquash : (ChArm.next false s v).D.out = .zero →
      (hazardOf false (hazards false s v)).ctls.d = .bubble →
      HaltPath img pc (ChArm.next false s v) := by
    intro hzero hbub
    have hne : (ChArm.next false s v).D.out.status ≠ .hlt := by
      rw [hzero]
      exact nofun
    exact ⟨fun hh => absurd hh hne, fun _ hq => (fetchesEnd_iff hl').1 (hb.halt (hctl.trans hbub) hq),
      fun hh => absurd hh hne, fun hh => absurd hh hne⟩
  rcases hs.cases with hz | hz | hz | hz <;> rw [hz] at hg hD hX hM hF
  · have hld : s.X.out.op = .ldur := (HazardIn.loadUse_ops hg.2.2).1
    have hDout : (ChArm.next false s v).D.out = s.D.out := hD
    have hXout : (ChArm.next false s v).X.out = .zero := hX
    have hMop : (ChArm.next false s v).M.out.op = .ldur := by
      rw [hM]
      exact hld
    have hsx : s.X.out = x := by
      rcases hf with ⟨hsx, -⟩ | ⟨hbub, -⟩
      · exact hsx
      · exact absurd (hld.symm.trans (bubble_nop hs.wf hbub)) (by decide)
    have hfetch : fetchPC false (ChArm.next false s v) = fetchPC false s := by
      rw [fetchPC_base (by rw [hXout]; exact nofun) (by rw [hMop]; exact nofun),
        fetchPC_base (by rw [hld]; exact nofun), hF]
      · rfl
      · rintro ⟨hop, hc⟩
        have hbub := (hpath.taken hop hc).2
        rw [hsx, hx] at hbub
        cases hbub
    refine ⟨fun hh => ?_, fun hne hq => ?_, fun _ hh => ?_, fun hh _ => ?_⟩
    · exact hend.2 (.inl (h.sticky (hDout ▸ hh)))
    · rw [hfetch]
      rcases hend.1 hq with hq | hq
      · exact h.ahead (hDout ▸ hne) hq
      · exact hq
    · rw [hXout] at hh
      cases hh
    · have hop : x.op ≠ .bCond := by
        rw [← hsx, hld]
        exact nofun
      rw [hpc (by rw [hXout]; rfl), successor_of_ne_bCond hop c true, ← hsx]
      exact h.behind (hDout ▸ hh) (by rw [hsx, hx]) (by rw [hld]; exact nofun)
  · exact hsquash hD (by rw [hz]; rfl)
  · exact hsquash hD (by rw [hz]; rfl)
  · obtain ⟨-, -, hret, -⟩ := hg
    have hDout : (ChArm.next false s v).D.out = v.d := hD
    have hXout : (ChArm.next false s v).X.out = xIn false s v := hX
    have hstatus : (ChArm.next false s v).D.out.status = v.fStatus := by
      rw [hDout, (fetch_ok hs.wires).2.1]
    -- the `HLT` that now is in D was fetched on the right path
    have hfetched : s.D.out.status ≠ .hlt → v.fStatus = .hlt → img.EndsAt (fetchPC false s) :=
      fun hne hh => (hend.1 hh).elim (h.ahead hne) id
    refine ⟨fun hh => hstatus.symm.trans hh, fun hne hq => absurd (hstatus.trans hq) hne,
      fun hh haok hop => ?_, fun hh hbub => ?_⟩
    · have haok : s.D.out.status = .aok := by
        rw [hXout] at haok
        exact haok
      rw [hXout, successor_xIn s v (not_ret hret), ← hpath.fetchPC_eq haok]
      exact hfetched (by rw [haok]; exact nofun) (hstatus ▸ hh)
    · rw [hpc hbub]
      have hbub : s.D.out.status = .bub := by
        rw [hXout] at hbub
        exact hbub
      rw [← hf.fetchPC_eq hx hpath hbub]
      exact hfetched (by rw [hbub]; exact nofun) (hstatus ▸ hh)

/-- The `HLT` that enters X is where the program goes on. -/
theorem HaltPath.enters (h : HaltPath img (successor x c) s) (hf : Follows x c s)
    (hx : x.status = .aok) (hpath : OnPath s) (hw : s.WellFormed false)
    (hent : (ChArm.next false s v).entersX) (hhlt : (ChArm.next false s v).X.out.status = .hlt) :
    img.EndsAt (successor x c) := by
  have hctl : (hazardOf false (hazards false s v)).ctls.x = .load := by
    rw [← hw.next_ctls v]
    exact hent.1
  have hmis := (hazardOf_x_load hctl).2
  have hD : s.D.out.status = .hlt := by
    rw [hw.next_X v, hctl] at hhlt
    exact hhlt
  rcases hf with ⟨hsx, hc⟩ | ⟨hbub, -⟩
  · have hret : s.X.out.op ≠ .ret := fun hr => by
      rw [hpath.ret hr] at hD
      cases hD
    have hend := h.behind hD (by rw [hsx, hx]) hret
    rwa [hsx, successor_of_taken hsx hc hmis] at hend
  · exact h.alone hD hbub

end

/-! ## Operands -/

/-- The register numbers of an instruction that can be decoded are its own, and they exist. -/
theorem extractRegs_spec {d : DInstr} (hd : d.Ok false) (hst : d.status = .aok) (l l' : Locals) :
    extractRegs false l d.insnbits d.op d.format = extractRegs false l' d.insnbits d.op d.format ∧
      (extractRegs false l d.insnbits d.op d.format).src1 ≤ XZR_NUM ∧
      (extractRegs false l d.insnbits d.op d.format).src2 ≤ XZR_NUM := by
  have herr : d.op ≠ .error := fun he => by
    have := hd.status.error_isError he
    rw [hst] at this
    cases this
  obtain ⟨hne, hec⟩ := ftable_handled hd.base herr
  rw [← hd.format (by rw [hst]; exact nofun)] at hne hec
  obtain ⟨heq, h1, h2, -⟩ := extractRegs_handled hne hec l l' d.insnbits d.op
  exact ⟨heq, h1, h2⟩

/-- No operand the instruction in D uses is read too early. -/
theorem not_stale {s : Machine} {src : RegNum} (h : s.stale src = false)
    (hsp : src = SP_NUM ∨ src = XZR_NUM) :
    (s.X.out.wSigs.wEnable && s.X.out.dst == src) = false ∧
      (s.M.out.wSigs.wEnable && s.M.out.dst == src) = false ∧
      (s.W.out.wSigs.wEnable && s.W.out.dst == src) = false := by
  have hnum : (src == SP_NUM || src == XZR_NUM) = true := by
    rw [Bool.or_eq_true, beq_iff_eq, beq_iff_eq]
    exact hsp
  rw [Machine.stale, hnum, Bool.true_and, Bool.or_eq_false_iff, Bool.or_eq_false_iff] at h
  exact ⟨h.1.1, h.1.2, h.2⟩

section
variable {t tX tM tW s : Machine} {v : Wires}

/-- The registers the sequential machine reads are those that forwarding collects. -/
theorem Behind.seqRegs (h : Behind tX tM tW s) (hp : Plain s v) (hx : XEffect s.X.out tX t) :
    ∃ load, t.regs =
      retire (retire (retire s.regs s.W.out) (wIn s v)) (passMemory (mIn false s) load) := by
  obtain ⟨hmem, hw⟩ := h.accessed hp
  obtain ⟨load, -, -, -, hx'⟩ := hx.access v.mem 0
    (uncached_of_wires hp.wf hp.uncached hp.wires).2 hmem
  refine ⟨load, ?_⟩
  rw [hx'.regs, hw.regs, h.wback.regs, ← h.regs, mIn, execute_rca false s.rca .zero, h.xNzcvval]

/-- **The operands that are used are right.** -/
theorem Behind.sameUse (h : Behind tX tM tW s) (hp : Plain s v) (hx : XEffect s.X.out tX t)
    (hb : s.Benign) (hload : (hazardOf false (hazards false s v)).ctls.x = .load)
    (hst : s.D.out.status = .aok) : SameUse (xIn false s v) (seqX t s.D.out) := by
  obtain ⟨hflow, hmis⟩ := hazardOf_x_load hload
  have hissues : s.issues = true := by
    have hlu : checkLoadUseHazard s.D.out.op (decoded false s).2.1 (decoded false s).2.2
        s.X.out.op s.X.out.dst = false := hflow.noLoadUse
    have hmis : checkMispredBranchHazard s.X.out.op (mIn false s).condHolds = false := hmis
    rw [Machine.issues, hlu, hmis]
    rfl
  have hops := hb.operands
  rw [Machine.misreads, hissues, Bool.true_and, Bool.or_eq_false_iff] at hops
  obtain ⟨hregs, hle1, hle2⟩ :=
    extractRegs_spec hp.wf.d hst (s.locals s.numInstr) (t.locals t.numInstr)
  obtain ⟨load, hseq⟩ := h.seqRegs hp hx
  have hnb : s.D.out.status ≠ .bub := by rw [hst]; exact nofun
  -- one operand: what forwarding delivers is what the sequential machine reads
  have hoperand : s.D.out.op ≠ .nop → ∀ src, src = (decoded false s).2.1 ∨
      src = (decoded false s).2.2 → src ≤ XZR_NUM → s.stale src = false →
      readPort (t.locals t.numInstr) t.regs src =
        operand false s v src (readPort (s.locals s.numInstr) s.regs src) := by
    intro hop src hmem hle hs
    rw [readPort_eq_readReg _ _ hle, readPort_eq_readReg _ _ hle, hseq]
    exact (operand_eq hp.wf hload hnb hop hmem hle (not_stale hs) load).symm
  have hread : ∀ (l : Locals) (r : Regs), s.D.out.op ≠ .nop →
      (decode false l r s.D.out).1.valA = readPort l r (decode false l r s.D.out).2.1 ∧
        (decode false l r s.D.out).1.valB = readPort l r (decode false l r s.D.out).2.2 := by
    intro l r hop
    simp only [decode, if_neg (not_or.2 ⟨hnb, hop⟩)]
    exact ⟨rfl, rfl⟩
  have hsrc : (decode false (t.locals t.numInstr) t.regs s.D.out).2 = (decoded false s).2 := by
    simp only [decoded, decode, hregs]
  refine ⟨?_, fun hu => ?_, fun hu => ?_⟩
  · simp only [seqX, xIn, decoded, decode, hregs]
  · have hop : s.D.out.op ≠ .nop := fun hop => by
      rw [show (xIn false s v).op = s.D.out.op from rfl, hop] at hu
      exact absurd hu (by decide)
    have hs : s.stale (decoded false s).2.1 = false := by
      have := hops.1
      rwa [show s.D.out.op.usesA = true from hu, Bool.true_and] at this
    rw [seqX, (hread _ _ hop).1, hsrc, hoperand hop _ (.inl rfl) hle1 hs, xIn, decoded,
      (hread _ _ hop).1]
  · have hop : s.D.out.op ≠ .nop := fun hop => by
      rw [show (xIn false s v).op = s.D.out.op from rfl, hop] at hu
      exact absurd hu (by decide)
    have hs : s.stale (decoded false s).2.2 = false := by
      have := hops.2
      rwa [show s.D.out.op.usesB = true from hu, Bool.true_and] at this
    rw [seqX, (hread _ _ hop).2, hsrc, hoperand hop _ (.inr rfl) hle2 hs, xIn, decoded,
      (hread _ _ hop).2]

end

/-! ## The sequential machine follows -/

section
variable {img : Image} {t : Machine}

/-- What the sequential machine fetches. -/
theorem seqFetch (hl : t.mem.Loaded img) (hpc : img.InText t.PC) :
    ∃ fMem, fetchWires false t.emptied = .ok (img.instrAt t.PC, (img.instrAt t.PC).status,
        (img.instrAt t.PC).predicted, fMem) ∧ fMem.Uncached ∧ t.mem.Agrees fMem := by
  obtain ⟨fMem, hi, hu, hag⟩ := hl.imem hpc
  have hfetch : fetchPC false t.emptied = t.PC := rfl
  have hh : fetchHalts false t.emptied = false := by
    rw [fetchHalts, hfetch, beq_eq_false_iff_ne.2 hpc.ne_zero]
    rfl
  have hi : imem t.emptied.mem t.PC = .ok (img.word t.PC, false, fMem) := hi
  refine ⟨fMem, ?_, hu, hag⟩
  rw [fetchWires, hh, if_neg (by decide), hfetch, hi, DInstr.predicted, img.instrAt_pc]
  rfl

/-- Where the program ends, it fetches an `HLT`. -/
theorem seqFetch_ends (hl : t.mem.Loaded img) (hpc : img.EndsAt t.PC) :
    ∃ d fPC fMem, fetchWires false t.emptied = .ok (d, d.status, fPC, fMem) ∧ d.status = .hlt ∧
      fMem.Uncached ∧ t.mem.Agrees fMem := by
  rcases hpc with h0 | ⟨hpc, hhlt⟩
  · have hh : fetchHalts false t.emptied = true := by
      rw [fetchHalts, show fetchPC false t.emptied = t.PC from rfl, h0]
      rfl
    exact ⟨haltInstr false .zero, t.fPC, t.mem, by rw [fetchWires, if_pos hh]; rfl, rfl,
      hl.uncached, .refl _ _⟩
  · obtain ⟨fMem, hf, hu, hag⟩ := seqFetch hl hpc
    exact ⟨_, _, fMem, hf, hhlt, hu, hag⟩

end

section
variable {img : Image} {t tX tM tW s : Machine} {v v' v'' : Wires}

/-- `select_PC` resolves an instruction to its successor. -/
theorem selectPC_eq_successor {y : XInstr} (hy : SameUse (xIn false s v) y) (c : Bool) :
    selectPC false s.D.out.predicted y.op y.valA y.op c y.seqSuccPC =
      successor (xIn false s v) c := by
  have hop : y.op = (xIn false s v).op := by rw [hy.eq]
  have hseq : y.seqSuccPC = (xIn false s v).seqSuccPC := by rw [hy.eq]
  rw [hop, hseq]
  by_cases hret : (xIn false s v).op = .ret
  · have hA : y.valA = (xIn false s v).valA := hy.valA (by rw [hret]; rfl)
    have hsucc : successor (xIn false s v) c = (xIn false s v).valA := by rw [successor, hret]
    rw [hA, hsucc, selectPC]
    by_cases h0 : (xIn false s v).valA = RET_FROM_MAIN_ADDR
    · rw [if_pos ⟨hret, h0⟩, h0]
      rfl
    · rw [if_neg (fun hc => h0 hc.2), if_pos hret]
  · have hpred := successor_xIn s v hret
    by_cases huntaken : (xIn false s v).op = .bCond ∧ c = false
    · rw [huntaken.2, successor_untaken huntaken.1]
      simp [selectPC, huntaken.1]
    · have hsel : ∀ valA seqSucc, selectPC false s.D.out.predicted (xIn false s v).op valA
          (xIn false s v).op c seqSucc = s.D.out.predicted := by
        intro valA seqSucc
        simp [selectPC, hret, huntaken]
      rw [hsel, ← hpred]
      by_cases hbr : (xIn false s v).op = .bCond
      · rw [Bool.eq_true_of_not_eq_false fun hc => huntaken ⟨hbr, hc⟩]
      · exact successor_of_ne_bCond hbr _ _

theorem condHolds_eq {x : XInstr} (hop : x.aluOp = .passA) (rca : Rca) (f : BitVec 8) :
    (execute false rca f x).condHolds = condHolds x.cond f := by
  simp only [execute, executeAlu, alu, aluSwitch, hop]

/-- **An instruction that enters X is the next one of the sequential machine.** -/
theorem Behind.issue (h : Behind tX tM tW s) (hx : XEffect s.X.out tX t) (hp : Plain s v)
    (hp' : Plain (ChArm.next false s v) v')
    (hp'' : Plain (ChArm.next false (ChArm.next false s v) v') v'') (hb : s.Benign)
    (hl : t.mem.Loaded img) (hno : t.deassertFlags = false)
    (hload : (hazardOf false (hazards false s v)).ctls.x = .load)
    (hst : s.D.out.status = .aok) (hpc : s.D.out.pc = t.PC) (hin : img.InText s.D.out.pc)
    (hd : s.D.out = img.instrAt s.D.out.pc) :
    ∃ t', seqStep t = .ok t' ∧ XEffect (xIn false s v) t t' ∧
      t'.PC = successor (xIn false s v) (mIn false (ChArm.next false s v)).condHolds ∧
      t'.mem.Loaded img ∧ t'.status = .aok ∧ t'.deassertFlags = false := by
  have hX : (ChArm.next false s v).X.out = xIn false s v := by
    rw [hp.wf.next_X v, hload]
    rfl
  have hxok : (xIn false s v).Ok false := xIn_ok hp.wf.d v
  have huse := h.sameUse hp hx hb hload hst
  have h' := h.next hp hx
  obtain ⟨hmem, -⟩ := h'.accessed hp'
  rw [hpc] at hin hd
  obtain ⟨fMem, hf, hfu, hfag⟩ := seqFetch hl hin
  rw [← hd] at hf
  -- two cycles later the pipeline makes the access, and it goes through
  have hM : (ChArm.next false (ChArm.next false s v) v').M.out =
      execute false .zero t.xNzcvval (xIn false s v) := by
    rw [(hp'.latched hp'.uncached).1, mIn, hX, execute_rca false _ .zero, h'.xNzcvval]
  have hacc := (wires_inv hp''.wires).2
  rw [(hp''.latched hp''.uncached).2.2, hM] at hacc
  have hacc := (huse.dmem_eq hxok .zero t.xNzcvval _ _).trans hacc
  have hag : v''.fMem.Agrees fMem :=
    ((hmem.trans ((fetch_keeps hp''.uncached hp''.wires).2 hp''.console)).symm).trans hfag
  have hm := seqM_ok t hp.wf.d
  obtain ⟨valMem, mem, hacc, -⟩ := dmem_both (p := fun _ => False) 0 hm.not_both
    (uncached_of_wires hp''.wf hp''.uncached hp''.wires).1 hfu hag.toSameEffects hacc
  have hacc : seqAccess t s.D.out fMem = .ok (valMem, false, mem) := by
    rw [seqAccess, seqM, execute_rca false t.rca .zero]
    exact hacc
  obtain ⟨t', hstep, hnext⟩ := seqStep_eq hno (by rw [hst]; rfl) hf hacc
  refine ⟨t', hstep, huse.xEffect hxok (hnext.xEffect hp.wf.d hfu hfag hacc), ?_, ?_,
    hnext.status.trans hst, hnext.deassertFlags⟩
  · have hsucc : successor (xIn false s v) (seqM t s.D.out).condHolds =
        successor (xIn false s v) (mIn false (ChArm.next false s v)).condHolds := by
      by_cases hop : (xIn false s v).op = .bCond
      · have hpass : (xIn false s v).aluOp = .passA := by
          rw [show (xIn false s v).aluOp = decideAluOp false (xIn false s v).op from rfl, hop]
          rfl
        have hpass' : (seqX t s.D.out).aluOp = .passA := by rw [huse.eq, hpass]
        have hcond : (seqX t s.D.out).cond = (xIn false s v).cond := by rw [huse.eq]
        rw [seqM, condHolds_eq hpass', mIn, hX, condHolds_eq hpass, h'.xNzcvval, hcond]
      · exact successor_of_ne_bCond hop _ _
    rw [hnext.pc, ← hsucc]
    exact selectPC_eq_successor huse _
  · rw [hnext.mem]
    exact (hl.of_agrees hfu hfag).dmem hm.not_both hacc

end

/-! ## One cycle of the pipeline -/

/-- The pipeline `s` is behind the sequential machine `t`, which has done everything up to the
instruction `x` last latched into X and is about to do what comes next. -/
structure Trails (img : Image) (x : XInstr) (c : Bool) (tX tM tW t s : Machine) : Prop where
  behind : Behind tX tM tW s
  effect : XEffect s.X.out tX t
  seqLoaded : t.mem.Loaded img
  seqRunning : t.running = true
  seqNoFault : t.deassertFlags = false
  loaded : s.mem.Loaded img
  fetched : s.D.out.status = .aok → img.InText s.D.out.pc ∧ s.D.out = img.instrAt s.D.out.pc
  onPath : OnPath s
  aok : x.status = .aok
  follows : Follows x c s
  pc : t.PC = successor x c
  halt : HaltPath img t.PC s

/-- Some sequential states between `t` and what the pipeline has committed. -/
def Trailing (img : Image) (t s : Machine) : Prop :=
  ∃ x c tX tM tW, Trails img x c tX tM tW t s

/-- Before the first cycle: what comes next follows an instruction just before the entry. -/
theorem trailing_init {img : Image} (hc : img.cache = none) (entry : Word) :
    Trailing img (.init img entry) (.init img entry) := by
  have hx : XEffect XInstr.zero (.init img entry) (.init img entry) :=
    xEffect_idle (XInstr.zero_ok false) (.inl rfl) (.refl _)
  have hsucc : successor { XInstr.zero with seqSuccPC := entry, status := .aok } false = entry :=
    BitVec.sub_add_cancel _ _
  refine ⟨{ XInstr.zero with seqSuccPC := entry, status := .aok }, false, .init img entry,
    .init img entry, .init img entry, ?_⟩
  refine ⟨⟨?_, ?_, rfl, rfl, .refl _ _, rfl, rfl⟩, hx, .init hc, rfl, rfl, .init hc, nofun,
    ⟨nofun, nofun, nofun, nofun⟩, rfl, .inr ⟨rfl, fun _ => hsucc.symm, nofun⟩, hsucc.symm,
    ⟨nofun, nofun, nofun, nofun⟩⟩
  · exact hx.access
  · exact ⟨(retire_of_disabled rfl _).symm, rfl⟩

section
variable {img : Image} {x : XInstr} {c : Bool} {t tX tM tW s : Machine} {v v' v'' : Wires}

/-- What does not depend on an instruction entering X. -/
theorem Trails.next_loaded (h : Trails img x c tX tM tW t s) (hp : Plain s v) :
    v.mem.Loaded img ∧ ((next false s v).D.out.status = .aok →
      img.InText (next false s v).D.out.pc ∧
        (next false s v).D.out = img.instrAt (next false s v).D.out.pc) := by
  obtain ⟨hf, hd⟩ := wires_inv hp.wires
  have hl : v.fMem.Loaded img := h.loaded.of_agrees
    (uncached_of_wires hp.wf hp.uncached hp.wires).1
    ((fetch_keeps hp.uncached hp.wires).2 hp.console)
  rw [(hp.latched hp.uncached).2.2] at hd
  refine ⟨hl.dmem hp.wf.m.not_both hd, ?_⟩
  rw [hp.wf.next_D v]
  exact clocked_mem (P := fun d : DInstr => d.status = .aok → img.InText d.pc ∧
    d = img.instrAt d.pc) _ nofun (fetched_instrAt h.loaded hp.wires) h.fetched

/-- **A cycle is a step of the sequential machine, or none.** -/
theorem Trails.next (h : Trails img x c tX tM tW t s) (hp : Plain s v)
    (hp' : Plain (ChArm.next false s v) v')
    (hp'' : Plain (ChArm.next false (ChArm.next false s v) v') v'') (hb : s.Benign)
    (hb' : (ChArm.next false s v).Benign) (hhlt : (ChArm.next false s v).X.out.status ≠ .hlt) :
    ∃ t', (t' = t ∨ Runs.Step seqStep Machine.running t t') ∧
      Trailing img t' (ChArm.next false s v) := by
  have hXok : s.X.out.status.isError = false := hp.quiet.mIn
  obtain ⟨hl, hfetched⟩ := h.next_loaded hp
  have hpath := h.onPath.next hp.wf hp.wires hXok
  have hhalt : ∀ pc, ((ChArm.next false s v).X.out.status = .bub → pc = successor x c) →
      HaltPath img pc (ChArm.next false s v) := fun pc hpc =>
    (h.pc ▸ h.halt).next h.follows h.aok h.onPath hp.toSmooth h.loaded hl hb' hpc
  rcases hp.next_X with ⟨hent, hX, hD⟩ | ⟨hent, hbub⟩
  · have hst : (ChArm.next false s v).X.out.status = .aok := by
      have herr : (ChArm.next false s v).X.out.status.isError = false := hp'.quiet.mIn
      have hadr := hp'.wf.x.ne_adr
      cases hs : (ChArm.next false s v).X.out.status with
      | aok => rfl
      | bub => exact absurd hs hent.2
      | hlt => exact absurd hs hhlt
      | adr => exact absurd hs hadr
      | ins => rw [hs] at herr; exact absurd herr (by decide)
    have hDst : s.D.out.status = .aok := by
      rw [hX] at hst
      exact hst
    have hpc : s.D.out.pc = t.PC := by
      rw [h.pc, ← h.follows.enters h.aok h.onPath hp.wf hent hst, hX]
      rfl
    have hload : (hazardOf false (hazards false s v)).ctls.x = .load := by
      rw [← hp.wf.next_ctls v]
      exact hent.1
    obtain ⟨hin, hd⟩ := h.fetched hDst
    obtain ⟨t', hstep, hx', hpc', hl', hst', hno'⟩ := h.behind.issue h.effect hp hp' hp'' hb
      h.seqLoaded h.seqNoFault hload hDst hpc hin hd
    refine ⟨t', .inr ⟨h.seqRunning, hstep⟩, (ChArm.next false s v).X.out,
      (mIn false (ChArm.next false s v)).condHolds, t, tX, tM, ?_⟩
    rw [← hX] at hx' hpc'
    exact ⟨h.behind.next hp h.effect, hx', hl', by rw [Machine.running, hst']; rfl, hno', hl,
      hfetched, hpath, hst, .inl ⟨rfl, fun _ => rfl⟩, hpc',
      hhalt _ fun hb => absurd hb hent.2⟩
  · have hidle : XEffect (ChArm.next false s v).X.out t t :=
      xEffect_idle hp'.wf.x (.inl (hp'.wf.x.status.of_bub hbub)) (.refl t)
    exact ⟨t, .inl rfl, x, c, t, tX, tM, h.behind.next hp h.effect, hidle, h.seqLoaded,
      h.seqRunning, h.seqNoFault, hl, hfetched, hpath, h.aok,
      h.follows.next h.aok h.onPath hp.wf hp.wires hent, h.pc, hhalt _ fun _ => h.pc⟩

/-- An `HLT` enters X where the sequential machine executes one. -/
theorem Trails.ends (h : Trails img x c tX tM tW t s) (hp : Plain s v)
    (hhlt : (ChArm.next false s v).X.out.status = .hlt) :
    ∃ t', Runs.Step seqStep Machine.running t t' ∧ t'.status = .hlt ∧ SameState t t' := by
  have hent : (ChArm.next false s v).entersX := by
    rcases hp.next_X with ⟨hent, -⟩ | ⟨-, hbub⟩
    · exact hent
    · rw [hbub] at hhlt
      cases hhlt
  have hends : img.EndsAt t.PC := by
    rw [h.pc]
    exact (h.pc ▸ h.halt).enters h.follows h.aok h.onPath hp.wf hent hhlt
  obtain ⟨d, fPC, fMem, hf, hst, hu, hag⟩ := seqFetch_ends h.seqLoaded hends
  have hd : d.Ok false := (fetchWires_ok hf).1
  have hop : d.op = .hlt := hd.status.of_hlt hst
  have hacc : seqAccess t d fMem = .ok (0, false, fMem) := by
    have hsigs := (seqM_ok t hd).access
    have hop : (seqM t d).op = .hlt := hop
    rw [seqAccess, hsigs.1, hsigs.2, hop]
    exact dmem_nothing _ _ _ _
  obtain ⟨t', hstep, hnext⟩ := seqStep_eq h.seqNoFault (by rw [hst]; rfl) hf hacc
  have hset : (seqX t d).xSigs.setFlags = false := by
    rw [show (seqX t d).xSigs = _ from congrArg Prod.fst (seqX_ok t hd).sigs,
      show (seqX t d).op = .hlt from hop]
    rfl
  have hen : writeEnable (passMemory (seqM t d) 0) = false := by
    have hstatus : (passMemory (seqM t d) 0).status = .hlt := hst
    rw [writeEnable, hstatus]
    exact Bool.and_false _
  refine ⟨t', ⟨h.seqRunning, hstep⟩, hnext.status.trans hst, ?_, ?_, ?_, ?_, ?_⟩
  · rw [hnext.regs, retire_of_disabled hen]
  · rw [hnext.regWrites, regWritesOf_of_disabled hen, List.append_nil]
  · rw [hnext.xNzcvval, flagsAfter_of_not_setFlags hset]
  · rw [hnext.nzcvWrites, flagWritesOf, hset, if_neg (by decide), List.append_nil]
  · rw [hnext.mem]
    exact hag

/-! ## After the end -/

/-- Behind the `HLT` that ends the run there are only others. -/
structure Tail (s : Machine) : Prop where
  sticky : s.F.inp.status = .hlt
  d : s.D.out.op = .hlt
  x : s.X.out.op = .hlt

theorem sticky_fStatus (hs : Smooth s v) (h : s.F.inp.status = .hlt) : v.fStatus = .hlt := by
  rcases fetch_inv hs.wires with ⟨-, -, hst, -⟩ | ⟨hh, -⟩
  · exact hst
  · rw [fetchHalts, h] at hh
    exact absurd (Bool.or_eq_false_iff.1 hh).2 (by decide)

/-- Where an `HLT` is in D and X goes on, one is fetched, and both are latched. -/
theorem tail_next (hs : Smooth s v) (hsticky : s.F.inp.status = .hlt) (hd : s.D.out.op = .hlt)
    (hload : (hazardOf false (hazards false s v)).ctls.x = .load) :
    Tail (ChArm.next false s v) := by
  have hD := hs.wf.next_D v
  have hX := hs.wf.next_X v
  have hst := sticky_fStatus hs hsticky
  have hnone : hazardOf false (hazards false s v) = .none := by
    have hg := hazardOf_guard false (hazards false s v)
    rcases hs.cases with hz | hz | hz | hz <;> rw [hz] at hg hload
    · cases hload
    · cases hload
    · have hret : s.D.out.op = .ret := checkRetHazard_iff.1 hg.2.2
      rw [hd] at hret
      cases hret
    · exact hz
  rw [hnone] at hD hX
  refine ⟨hst, ?_, ?_⟩
  · obtain ⟨hok, hf, -⟩ := fetch_ok hs.wires
    rw [hD]
    exact hok.status.of_hlt (hf.symm.trans hst)
  · rw [hX]
    exact hd

theorem Tail.next (h : Tail s) (hs : Smooth s v) : Tail (ChArm.next false s v) := by
  refine tail_next hs h.sticky h.d ?_
  have hg := hazardOf_guard false (hazards false s v)
  have hxop : (hazards false s v).xOpcode = .hlt := h.x
  rcases hs.cases with hz | hz | hz | hz <;> rw [hz] at hg ⊢
  · rw [(HazardIn.loadUse_ops hg.2.2).1] at hxop
    cases hxop
  · rw [(checkMispredBranchHazard_iff.1 hg.2).1] at hxop
    cases hxop
  · rfl
  · rfl

/-- The `HLT` that enters X has others behind it. -/
theorem Trails.tail (h : Trails img x c tX tM tW t s) (hp : Plain s v)
    (hhlt : (ChArm.next false s v).X.out.status = .hlt) : Tail (ChArm.next false s v) := by
  rcases hp.next_X with ⟨hent, hX, -⟩ | ⟨-, hbub⟩
  · rw [hX] at hhlt
    have hst : s.D.out.status = .hlt := hhlt
    refine tail_next hp.toSmooth (h.halt.sticky hst) (hp.wf.d.status.of_hlt hst) ?_
    rw [← hp.wf.next_ctls v]
    exact hent.1
  · rw [hbub] at hhlt
    cases hhlt

end

/-! ## Whole runs -/

section
variable {img : Image} {entry : Word} {n : Nat} {σ : Nat → Machine}

/-- **Pipelining preserves the sequential meaning.**  In every run of the base build without a
cache that halts without a fault and in which every cycle is benign, the registers, the flags,
memory and the console are written as the sequential machine writes them until it halts. -/
theorem pipelining_sequential (h : Execution false img entry n σ) (hc : img.cache = none)
    (hfault : (σ n).deassertFlags = false) (hend : (σ n).status = .hlt)
    (hb : ∀ k < n, (σ k).Benign) :
    ∃ m τ, Sequential img entry m τ ∧ (τ m).status = .hlt ∧
      (σ n).regWrites = (τ m).regWrites ∧ (σ n).nzcvWrites = (τ m).nzcvWrites ∧
      (σ n).mem.stores = (τ m).mem.stores ∧ (σ n).mem.printed = (τ m).mem.printed := by
  obtain ⟨k, rfl, hhalt, hbefore⟩ := h.exists_halt hc hfault hend
  obtain ⟨j, rfl⟩ : ∃ j, k = j + 1 := by
    cases k with
    | zero =>
      rw [h.start] at hhalt
      cases hhalt
    | succ j => exact ⟨j, rfl⟩
  have hplain : ∀ i < j + 1 + 3, ∃ v, Plain (σ i) v ∧ σ (i + 1) = next false (σ i) v := by
    intro i hi
    obtain ⟨v, hs, hnext⟩ := h.smooth hc hfault hi
    refine ⟨v, ⟨hs, h.uncached hc hi.le, ?_, (hb i hi).console⟩, hnext⟩
    rw [← hnext]
    exact h.quiet hfault (i + 1) hi
  -- up to the cycle before the `HLT` enters X
  have hstart : Trailing img (.init img entry) (σ 0) := by
    rw [h.start]
    exact trailing_init hc entry
  obtain ⟨m, τ, hτ, x, c, tX, tM, tW, ht⟩ : ∃ m τ, Sequential img entry m τ ∧
      Trailing img (τ m) (σ j) := by
    refine Runs.Trace.of_stutter (R := fun i t => Trailing img t (σ i)) hstart fun i hi t ht => ?_
    obtain ⟨x, c, tX, tM, tW, ht⟩ := ht
    obtain ⟨v, hp, hn⟩ := hplain i (by omega)
    obtain ⟨v', hp', hn'⟩ := hplain (i + 1) (by omega)
    obtain ⟨v'', hp'', -⟩ := hplain (i + 2) (by omega)
    have hb' := hb (i + 1) (by omega)
    have hhlt := hbefore (i + 1) (by omega)
    rw [hn'] at hp''
    rw [hn] at hp' hp'' hb' hhlt ⊢
    exact ht.next hp hp' hp'' (hb i (by omega)) hb' hhlt
  -- the sequential machine executes its `HLT`, and the pipeline drains
  obtain ⟨v, hp, hn⟩ := hplain j (by omega)
  obtain ⟨v₁, hp₁, hn₁⟩ := hplain (j + 1) (by omega)
  obtain ⟨v₂, hp₂, hn₂⟩ := hplain (j + 2) (by omega)
  obtain ⟨v₃, hp₃, hn₃⟩ := hplain (j + 3) (by omega)
  rw [hn] at hhalt
  obtain ⟨t', hstep, hst, hsame⟩ := ht.ends hp hhalt
  have htail₁ : Tail (σ (j + 1)) := hn ▸ ht.tail hp hhalt
  have htail₂ : Tail (σ (j + 2)) := hn₁ ▸ htail₁.next hp₁.toSmooth
  have htail₃ : Tail (σ (j + 3)) := hn₂ ▸ htail₂.next hp₂.toSmooth
  have hbehind : Behind (τ m) tX tM (σ (j + 1)) := hn ▸ ht.behind.next hp ht.effect
  have hbehind : Behind t' (τ m) tX (σ (j + 2)) :=
    hn₁ ▸ hbehind.next hp₁ (xEffect_idle hp₁.wf.x (.inr htail₁.x) hsame)
  have hbehind : Behind t' t' (τ m) (σ (j + 3)) :=
    hn₂ ▸ hbehind.next hp₂ (xEffect_idle hp₂.wf.x (.inr htail₂.x) (.refl t'))
  have hbehind : Behind t' t' t' (σ (j + 4)) :=
    hn₃ ▸ hbehind.next hp₃ (xEffect_idle hp₃.wf.x (.inr htail₃.x) (.refl t'))
  obtain ⟨τ', hτ', -, hlast⟩ := hτ.snoc hstep
  refine ⟨m + 1, τ', hτ', ?_⟩
  rw [hlast]
  exact ⟨hst, hbehind.regWrites, hbehind.nzcvWrites, hbehind.mem.stores, hbehind.mem.printed⟩

end

/-- The load-use stall and the untaken branch of this run are benign. -/
theorem pipelining_sequential_loadAndBranch :
    let σ := stateAt false (.ofWords loadAndBranch none) 0x400000#64
    ∃ m τ, Sequential (.ofWords loadAndBranch none) 0x400000#64 m τ ∧ (τ m).status = .hlt ∧
      (σ 13).regWrites = (τ m).regWrites ∧ (σ 13).nzcvWrites = (τ m).nzcvWrites ∧
      (σ 13).mem.stores = (τ m).mem.stores ∧ (σ 13).mem.printed = (τ m).mem.printed := by
  have hrun : Execution false (.ofWords loadAndBranch none) 0x400000#64 13
      (stateAt false (.ofWords loadAndBranch none) 0x400000#64) :=
    execution_stateAt (by decide +kernel)
  exact pipelining_sequential hrun rfl (by decide +kernel) (by decide +kernel)
    (by decide +kernel)

/-- The state after `k` instructions of the sequential machine, as far as they go through. -/
def seqStateAt (img : Image) (entry : Word) (k : Nat) : Machine :=
  Runs.states seqStep Machine.running (.init img entry) k

/-- Instructions that all go through are a run of the sequential machine. -/
theorem sequential_seqStateAt {img : Image} {entry : Word} {n : Nat}
    (h : ∀ k < n, okAnd (Runs.iter seqStep Machine.running k (.init img entry))
      (fun s => s.running && okAnd (seqStep s) fun _ => true) = true) :
    Sequential img entry n (seqStateAt img entry) := by
  refine Runs.trace_states fun k hk => ?_
  obtain ⟨s, hs, hgo⟩ := exists_of_okAnd (h k hk)
  rw [Bool.and_eq_true] at hgo
  obtain ⟨s', hs', -⟩ := exists_of_okAnd hgo.2
  exact ⟨s, s', hs, hgo.1, hs'⟩

/-- The store behind the subtraction goes to another address than in the sequential machine. -/
theorem not_pipelining_pushAfterSub :
    ∃ n σ, Execution false (.ofWords pushAfterSub none) 0x400000#64 n σ ∧
      (σ n).status = .hlt ∧ (σ n).deassertFlags = false ∧
      ∀ m τ, Sequential (.ofWords pushAfterSub none) 0x400000#64 m τ → (τ m).status = .hlt →
        (σ n).mem.stores ≠ (τ m).mem.stores := by
  refine ⟨9, _, execution_stateAt (by decide +kernel), by decide +kernel, by decide +kernel,
    fun m τ hτ hend => ?_⟩
  have hseq : Sequential (.ofWords pushAfterSub none) 0x400000#64 4
      (seqStateAt (.ofWords pushAfterSub none) 0x400000#64) :=
    sequential_seqStateAt (by decide +kernel)
  rw [hτ.end_unique hseq (by rw [Machine.running, hend]; rfl) (by decide +kernel)]
  decide +kernel

end ChArm
