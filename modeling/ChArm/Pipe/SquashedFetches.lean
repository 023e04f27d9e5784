import ChArm.Pipe.Alike
import ChArm.Pipe.ControlFlow

/-!
# Squashed fetches

Two runs of the base build without a cache, from images that differ in words of instruction memory
which the first run fetches but never latches into X.  Such a fetch can leave two traces all the
same: the status of fetch, which an `HLT` sets for good, and the console input that a fetch from
`IO_CHAR_ADDR` consumes.  Wherever a fetched word is dropped and both runs agree in these two,
the runs do the same (`squashed_leave_no_trace`).

* `OnTrack.step` — one cycle of both runs, while they hold the same instructions.
* `Alongside.step` — one cycle, also behind a word in which they differ.
* `squashed_leave_no_trace` — whole runs, compared after every cycle.
-/

namespace ChArm

/-! ## Squashed words -/

/-- The cycle in which the instruction in D after `k` cycles was fetched. -/
def fetchCycle (σ : Nat → Machine) : Nat → Option Nat
  | 0 => none
  | k + 1 => clocked (σ (k + 1)).D.ctl none (some k) (fetchCycle σ k)

/-- The word fetched in cycle `j` is latched into X in one of the first `n` cycles. -/
def LatchedX (σ : Nat → Machine) (n j : Nat) : Prop :=
  ∃ k < n, (σ (k + 1)).X.ctl = .load ∧ fetchCycle σ k = some j

instance (σ : Nat → Machine) (n j : Nat) : Decidable (LatchedX σ n j) :=
  inferInstanceAs (Decidable (∃ k < n, (σ (k + 1)).X.ctl = .load ∧ fetchCycle σ k = some j))

/-- The bytes in which an image with the page table `pt` differs. -/
def Image.differs (img : Image) (pt : PTable) (a : Word) : Prop :=
  pt.byteAt a ≠ img.ptable.byteAt a

instance (img : Image) (pt : PTable) (a : Word) : Decidable (img.differs pt a) :=
  inferInstanceAs (Decidable (pt.byteAt a ≠ img.ptable.byteAt a))

/-- The images differ in instruction memory only, and every word with such a byte that the run
fetches in its first `n` cycles is squashed. -/
structure OnlySquashed (img : Image) (pt : PTable) (n : Nat) (σ : Nat → Machine) : Prop where
  text : ∀ a, img.differs pt a → addrInImem img.memory a = true
  squashed : ∀ j < n, fetchHalts false (σ j) = false →
    (∃ k < 4, img.differs pt (fetchPC false (σ j) + BitVec.ofNat 64 k)) → ¬ LatchedX σ n j

/-- Does fetch deliver an `HLT` in this cycle? -/
def Machine.fetchesHlt (ec : Bool) (s : Machine) : Bool :=
  fetchHalts ec s || okAnd (imem s.mem (fetchPC ec s)) fun r =>
    (fetchedInstr ec (fetchPC ec s) r.1 r.2.1).status == .hlt

/-- In a cycle that drops the fetched word, fetch leaves the same behind in both machines. -/
structure DropsAlike (z : Hazard) (s t : Machine) : Prop where
  halts : z ∈ [Hazard.loadUse, .mispredicted, .ret] → t.fetchesHlt false = s.fetchesHlt false
  console : z ∈ [Hazard.executeError, .loadUse, .mispredicted, .ret] →
    t.readsConsole false = s.readsConsole false

instance (z : Hazard) (s t : Machine) : Decidable (DropsAlike z s t) :=
  decidable_of_iff ((z ∈ [Hazard.loadUse, .mispredicted, .ret] →
      t.fetchesHlt false = s.fetchesHlt false) ∧
    (z ∈ [Hazard.executeError, .loadUse, .mispredicted, .ret] →
      t.readsConsole false = s.readsConsole false))
    ⟨fun h => ⟨h.1, h.2⟩, fun h => ⟨h.halts, h.console⟩⟩

theorem fetchesHlt_iff {ec : Bool} {s : Machine} {v : Wires} (hv : wires ec s = .ok v) :
    s.fetchesHlt ec = true ↔ v.fStatus = .hlt := by
  unfold Machine.fetchesHlt
  rcases fetch_inv hv with ⟨hh, -, hst, -⟩ | ⟨hh, insnbits, imemErr, hi, hd, hst, -⟩
  · rw [hh, hst]
    exact ⟨fun _ => rfl, fun _ => rfl⟩
  · rw [hh, hi, hst, hd, Bool.false_or, okAnd, beq_iff_eq]

/-! ## What the two runs share -/

/-- Everything that the instructions past X have done and will do. -/
structure Core (s t : Machine) : Prop where
  regs : t.regs = s.regs
  NZCV : t.NZCV = s.NZCV
  status : t.status = s.status
  regWrites : t.regWrites = s.regWrites
  nzcvWrites : t.nzcvWrites = s.nzcvWrites
  m : s.M.out.Alike t.M.out
  w : s.W.out.Alike t.W.out
  effects : s.mem.SameEffects t.mem

/-- The instruction in W has failed, or the one in M does. -/
def Machine.fails (s : Machine) : Prop :=
  s.W.out.status.isError = true ∨ s.M.out.status.isError = true ∨ accessFaults s.mem s.M.out = true

/-- A machine of a run of the base build without a cache. -/
structure Machine.Plain (s : Machine) : Prop where
  wellFormed : s.WellFormed false
  uncached : s.mem.Uncached

theorem Machine.Plain.next {s : Machine} {v : Wires} (h : s.Plain) (hv : wires false s = .ok v) :
    (ChArm.next false s v).Plain :=
  ⟨h.wellFormed.next hv, (uncached_of_wires h.wellFormed h.uncached hv).2⟩

section Pair

variable {p : Word → Prop} {s t : Machine} {v w : Wires}

theorem not_fails_iff (hs : s.Plain) (hv : wires false s = .ok v) :
    ¬ s.fails ↔ s.W.out.status.isError = false ∧ (wIn s v).status.isError = false := by
  rw [Machine.fails, not_or, ← wIn_isError_iff hs.wellFormed hv, Bool.not_eq_true, Bool.not_eq_true]

/-- The blocks of hazard control that can decide while nothing fails. -/
theorem hazardOf_mem (hs : s.Plain) (hv : wires false s = .ok v) (hf : ¬ s.fails) :
    hazardOf false (hazards false s v) ∈
      [Hazard.executeError, .loadUse, .mispredicted, .ret, .none] := by
  have hg := hazardOf_guard false (hazards false s v)
  obtain ⟨hwout, hwin⟩ := (not_fails_iff hs hv).1 hf
  cases hz : hazardOf false (hazards false s v) <;> rw [hz] at hg <;> first | decide | skip
  case wbackError =>
    rw [← wOut_eq hs.wellFormed.w] at hwout
    exact absurd (hwout.symm.trans hg) (by decide)
  case memoryError => exact absurd (hwin.symm.trans hg.2) (by decide)
  case inFlight =>
    exact absurd ((uncached_of_wires hs.wellFormed hs.uncached hv).2.ready.symm.trans hg.2)
      (by decide)
  case cb => exact absurd hg.2.2.2.1 (by decide)
  case br => exact absurd hg.2.2.2.2.1 (by decide)

/-- What has to be seen of a cycle to know that it keeps the core. -/
theorem Core.next (h : Core s t) (hs : s.Plain) (ht : t.Plain)
    (hlatch : flagsLatch false t w = flagsLatch false s v)
    (hflags : flagsLatch false s v = true → xNzcv t = xNzcv s)
    (hM : (ChArm.next false s v).M.out.Alike (ChArm.next false t w).M.out)
    (hW : (ChArm.next false s v).W.out.Alike (ChArm.next false t w).W.out)
    (hmem : v.mem.SameEffects w.mem) : Core (ChArm.next false s v) (ChArm.next false t w) where
  regs := by
    rw [next_regs hs.wellFormed, next_regs ht.wellFormed, h.regs,
      h.w.retire hs.wellFormed.w ht.wellFormed.w]
  NZCV := by
    change (if _ then _ else _) = if _ then _ else _
    rw [hlatch, h.NZCV]
    split_ifs with hl
    · exact hflags hl
    · rfl
  status := by
    have hst : (ChArm.next false s v).status = s.W.out.status := hs.wellFormed.statusNext_eq v
    have hst' : (ChArm.next false t w).status = t.W.out.status := ht.wellFormed.statusNext_eq w
    rw [hst, hst', h.w.status]
  regWrites := by
    rw [next_regWrites hs.wellFormed, next_regWrites ht.wellFormed, h.regWrites,
      h.w.retireWrites hs.wellFormed.w ht.wellFormed.w]
  nzcvWrites := by
    change (if _ then _ else _) = if _ then _ else _
    rw [hlatch, h.nzcvWrites]
    split_ifs with hl
    · rw [hflags hl]
    · rfl
  m := hM
  w := hW
  effects := hmem

theorem Core.wIn_status (h : Core s t) (herr : w.memErr = v.memErr) :
    (wIn t w).status = (wIn s v).status := by
  simp only [wIn, herr, h.m.status]

theorem Core.wOut_status (h : Core s t) (hs : s.Plain) (ht : t.Plain) :
    (wOut t).status = (wOut s).status := by
  rw [wOut_eq hs.wellFormed.w, wOut_eq ht.wellFormed.w, h.w.status]

/-- **The end of a run.**  Once an instruction has failed, nothing in front of M counts. -/
theorem Core.next_of_fails (h : Core s t) (hs : s.Plain) (ht : t.Plain) (hv : wires false s = .ok v)
    (hf : s.fails) : ∃ w, wires false t = .ok w ∧
      Core (ChArm.next false s v) (ChArm.next false t w) ∧ (ChArm.next false s v).fails := by
  obtain ⟨w, hw, herr, hmem, -⟩ := wires_both (p := fun _ => True) hs.wellFormed ht.wellFormed
    hs.uncached ht.uncached h.m h.effects hv
  have hwin := h.wIn_status herr
  have hwout := h.wOut_status hs ht
  have hfail : (wOut s).status.isError = true ∨ (wIn s v).status.isError = true := by
    rw [wOut_eq hs.wellFormed.w, wIn_isError_iff hs.wellFormed hv]
    exact hf
  -- an error in M or W keeps the flags from being set
  have hdead : ∀ {u : Machine} {x : Wires}, (wOut u).status.isError = true ∨
      (wIn u x).status.isError = true → flagsLatch false u x = false := by
    intro u x hu
    have : hazardDeasserts (hazards false u x) = true := by
      change (_ || (wIn u x).status.isError || (wOut u).status.isError) = true
      rcases hu with hu | hu <;> rw [hu] <;> simp
    simp [flagsLatch, flagsDeasserted, this]
  have hl := hdead hfail
  have hl' := hdead (u := t) (x := w) (by rw [hwin, hwout]; exact hfail)
  have hM := hs.wellFormed.next_M v
  have hM' := ht.wellFormed.next_M w
  have hW := hs.wellFormed.next_W v
  have hW' := ht.wellFormed.next_W w
  refine ⟨w, hw, ?_⟩
  have hwout' : (hazards false t w).wOutStatus = (hazards false s v).wOutStatus := hwout
  have hwin' : (hazards false t w).wInStatus = (hazards false s v).wInStatus := hwin
  have hnext : ∀ z, hazardOf false (hazards false s v) = z → hazardOf false (hazards false t w) = z →
      z.ctls.m = .stall → (clocked z.ctls.w .zero (wIn s v) s.W.out).Alike
        (clocked z.ctls.w .zero (wIn t w) t.W.out) →
      Core (ChArm.next false s v) (ChArm.next false t w) := by
    intro z hz hz' hstall hWz
    refine h.next hs ht (by rw [hl, hl']) (fun hc => absurd (hl.symm.trans hc) (by decide)) ?_ ?_ hmem
    · rw [hM, hM', hz, hz', hstall]
      exact h.m
    · rw [hW, hW', hz, hz']
      exact hWz
  -- the fault is in W already and stays there, or M hands it on
  cases ho : (wOut s).status.isError with
  | true =>
    have hz := hazardOf_wbackError false (h := hazards false s v) ho
    have hz' := hazardOf_wbackError false (h := hazards false t w) (by rw [hwout']; exact ho)
    refine ⟨hnext _ hz hz' rfl h.w, Or.inl ?_⟩
    rw [hW, hz]
    rw [wOut_eq hs.wellFormed.w] at ho
    exact ho
  | false =>
    have hi : (wIn s v).status.isError = true := hfail.resolve_left (by rw [ho]; decide)
    have hz := hazardOf_memoryError false (h := hazards false s v) ho hi
    have hz' := hazardOf_memoryError false (h := hazards false t w) (by rw [hwout']; exact ho)
      (by rw [hwin']; exact hi)
    refine ⟨hnext _ hz hz' rfl ?_, Or.inl (by rw [hW, hz]; exact hi)⟩
    refine ⟨h.m.op, hwin, fun hidle => congrArg MInstr.dst (h.m.eq hidle),
      fun hidle => congrArg MInstr.valEx (h.m.eq hidle), fun _ hne => ?_⟩
    exact absurd (hi.symm.trans hne) (by decide)

/-! ## Before a failure -/

/-- What the two runs share as long as nothing has failed; `p` holds of the bytes that may differ. -/
structure Live (p : Word → Prop) (s t : Machine) : Prop extends Core s t where
  x : s.X.out.Alike t.X.out
  xNzcvval : t.xNzcvval = s.xNzcvval
  deassertFlags : t.deassertFlags = s.deassertFlags
  numInstr : t.numInstr = s.numInstr
  locals : t.locals = s.locals
  agree : s.mem.Agree p t.mem
  text : ∀ a, p a → addrInImem s.mem a = true

/-- An instruction that has not failed moves on from M alike in both runs. -/
theorem Live.next_core (h : Live p s t) (hs : s.Plain) (ht : t.Plain) (hv : wires false s = .ok v)
    (hw : wires false t = .ok w) (herr : w.memErr = v.memErr) (hmem : v.mem.SameEffects w.mem)
    (hval : s.M.out.op = .ldur → v.memErr = false → w.valMem = v.valMem) (hf : ¬ s.fails) :
    Core (ChArm.next false s v) (ChArm.next false t w) := by
  obtain ⟨hwout, hwin⟩ := (not_fails_iff hs hv).1 hf
  have hwin' : (wIn t w).status.isError = false := by
    rw [h.wIn_status herr, hwin]
  obtain ⟨hm, hwl⟩ := ctls_of_quiet hs.wellFormed hs.uncached hv hwin hwout
  obtain ⟨hm', hwl'⟩ := ctls_of_quiet ht.wellFormed ht.uncached hw hwin' (by rw [h.w.status, hwout])
  have hflags : flagsDeasserted false t w = flagsDeasserted false s v := by
    have : hazardDeasserts (hazards false t w) = hazardDeasserts (hazards false s v) := by
      change (t.X.out.status.isError || (wIn t w).status.isError || (wOut t).status.isError) =
        (s.X.out.status.isError || (wIn s v).status.isError || (wOut s).status.isError)
      rw [h.x.status, h.wIn_status herr, h.wOut_status hs ht]
    rw [flagsDeasserted, flagsDeasserted, h.deassertFlags, this]
  refine h.next hs ht ?_ (fun _ => xNzcv_alike h.x hs.wellFormed.x ht.wellFormed.x h.xNzcvval) ?_ ?_
    hmem
  · rw [flagsLatch, flagsLatch, hflags, setFlags_alike h.x hs.wellFormed.x ht.wellFormed.x]
  · rw [hs.wellFormed.next_M v, ht.wellFormed.next_M w, hm, hm']
    exact mIn_alike false h.x h.xNzcvval
  · rw [hs.wellFormed.next_W v, ht.wellFormed.next_W w, hwl, hwl']
    exact wIn_alike h.m herr hval

theorem Live.next (h : Live p s t) (hs : s.Plain) (ht : t.Plain) (hv : wires false s = .ok v)
    (hw : wires false t = .ok w) (herr : w.memErr = v.memErr) (hmem : v.mem.Agree p w.mem)
    (hval : s.M.out.op = .ldur → v.memErr = false → w.valMem = v.valMem) (hf : ¬ s.fails)
    (hX : (ChArm.next false s v).X.out.Alike (ChArm.next false t w).X.out) :
    Live p (ChArm.next false s v) (ChArm.next false t w) where
  toCore := h.next_core hs ht hv hw herr hmem.toSameEffects hval hf
  x := hX
  xNzcvval := xNzcv_alike h.x hs.wellFormed.x ht.wellFormed.x h.xNzcvval
  deassertFlags := by
    change (t.deassertFlags || (t.X.out.status.isError || (wIn t w).status.isError ||
      (wOut t).status.isError)) = (s.deassertFlags || (s.X.out.status.isError ||
        (wIn s v).status.isError || (wOut s).status.isError))
    rw [h.deassertFlags, h.x.status, h.wIn_status herr, h.wOut_status hs ht]
  numInstr := congrArg (· + 1) h.numInstr
  locals := h.locals
  agree := hmem
  text := by
    intro a ha
    change addrInImem v.mem a = true
    rw [addrInImem, segStart_of_wires hs.wellFormed hv]
    exact h.text a ha

/-! ## On one track -/

/-- Both runs fetch, and have in D, the same. -/
structure OnTrack (s t : Machine) : Prop where
  d : s.D.out.Alike t.D.out
  halted : t.F.inp.status = .hlt ↔ s.F.inp.status = .hlt
  fetchPC : s.F.inp.status ≠ .hlt → fetchPC false t = fetchPC false s

theorem OnTrack.fetchHalts (h : OnTrack s t) : fetchHalts false t = fetchHalts false s := by
  unfold ChArm.fetchHalts
  by_cases hh : s.F.inp.status = .hlt
  · rw [hh, h.halted.2 hh]
    simp
  · have hh' : ¬ t.F.inp.status = .hlt := fun hc => hh (h.halted.1 hc)
    rw [h.fetchPC hh, beq_false_of_ne hh, beq_false_of_ne hh']

theorem not_halted {ec : Bool} {u : Machine} (hh : ChArm.fetchHalts ec u = false) :
    u.F.inp.status ≠ .hlt := by
  intro hc
  rw [ChArm.fetchHalts, hc] at hh
  simp at hh

theorem OnTrack.readsConsole (h : OnTrack s t) : t.readsConsole false = s.readsConsole false := by
  unfold Machine.readsConsole
  rw [h.fetchHalts]
  cases hh : ChArm.fetchHalts false s with
  | true => rfl
  | false => rw [h.fetchPC (not_halted hh)]

/-- What is fetched is the same, unless a byte of the word may differ. -/
theorem OnTrack.fetch (h : OnTrack s t) (hs : s.Plain) (ht : t.Plain) (hag : s.mem.Agree p t.mem)
    (hv : wires false s = .ok v) (hw : wires false t = .ok w) :
    (v.d.Alike w.d ∧ w.fStatus = v.fStatus ∧ (v.fStatus ≠ .hlt → w.fPC = v.fPC)) ∨
      (ChArm.fetchHalts false s = false ∧
        ∃ k < 4, p (ChArm.fetchPC false s + BitVec.ofNat 64 k)) := by
  rcases fetch_inv hv with ⟨hh, hd, hst, -⟩ | ⟨hh, insnbits, imemErr, hi, hd, hst, hp⟩
  · rcases fetch_inv hw with ⟨-, hd', hst', -⟩ | ⟨hh', -⟩
    · rw [hd, hd', hst, hst']
      exact Or.inl ⟨⟨rfl, rfl, fun hne => absurd rfl hne, nofun⟩, rfl, fun hne => absurd rfl hne⟩
    · rw [h.fetchHalts, hh] at hh'
      cases hh'
  · rcases fetch_inv hw with ⟨hh', -⟩ | ⟨-, insnbits', imemErr', hi', hd', hst', hp'⟩
    · rw [h.fetchHalts, hh] at hh'
      cases hh'
    · rw [h.fetchPC (not_halted hh)] at hi' hd' hp'
      obtain ⟨b, m₁, hb, -, hdiff⟩ := imem_both hs.uncached ht.uncached hag hi
      rw [hb] at hi'
      cases hi'
      by_cases heq : insnbits' = insnbits
      · have hdd : w.d = v.d := by rw [hd, hd', heq]
        refine Or.inl ⟨by rw [hdd]; exact .refl _, by rw [hst, hst', hdd], fun _ => ?_⟩
        rw [hp, hp', hdd, heq]
      · exact Or.inr ⟨hh, hdiff heq⟩

/-- The instructions in D have the same sources. -/
theorem sameSources (hs : s.Plain) (ht : t.Plain) (hD : s.D.out.Alike t.D.out)
    (hregs : t.regs = s.regs) (hl : t.locals t.numInstr = s.locals s.numInstr) :
    SameSources false s t := by
  intro hop
  cases hidle : s.D.out.op.idle with
  | false => rw [decoded_alike false hD hregs hl hidle]
  | true =>
    have hsop : s.D.out.op = .error := by
      rcases of_decide_eq_true hidle with h | h | h
      · exact absurd (by rw [h]; decide) hop
      · exact absurd (by rw [h]; decide) hop
      · exact h
    have hsrc : ∀ {u : Machine}, u.Plain → u.D.out.op = .error →
        (decoded false u).2 = ((fixRegs .error ⟨(u.locals u.numInstr).src1,
          (u.locals u.numInstr).src2, (u.locals u.numInstr).dest⟩).src1,
          (fixRegs .error ⟨(u.locals u.numInstr).src1, (u.locals u.numInstr).src2,
            (u.locals u.numInstr).dest⟩).src2) := by
      intro u hu hou
      have hst : u.D.out.status ≠ .bub := fun hb => by
        have := hu.wellFormed.d.status.of_bub hb
        rw [hou] at this
        cases this
      have hfmt := hu.wellFormed.d.format hst
      rw [hou] at hfmt
      change ((extractRegs false _ u.D.out.insnbits u.D.out.op u.D.out.format).src1,
        (extractRegs false _ u.D.out.insnbits u.D.out.op u.D.out.format).src2) = _
      rw [hou, hfmt]
      rfl
    rw [hsrc hs hsop, hsrc ht (hD.op.trans hsop), hl]

/-- The second run's cycle goes through and accesses memory alike. -/
theorem Live.exists_wires (h : Live p s t) (hs : s.Plain) (ht : t.Plain) (hv : wires false s = .ok v)
    (hcon : t.readsConsole false = s.readsConsole false) :
    ∃ w, wires false t = .ok w ∧ w.memErr = v.memErr ∧ v.mem.Agree p w.mem ∧
      (s.M.out.op = .ldur → v.memErr = false → w.valMem = v.valMem) := by
  obtain ⟨w, hw, herr, -, hag⟩ := wires_both (p := p) hs.wellFormed ht.wellFormed hs.uncached
    ht.uncached h.m h.effects hv
  obtain ⟨hmem, hval⟩ := hag (fetch_agree hs.uncached ht.uncached h.agree hv hw hcon)
  refine ⟨w, hw, herr, hmem, hval fun a ha => ?_⟩
  rw [addrInImem, segStart_of_fetch hv]
  exact h.text a ha

theorem Live.xIn (h : Live p s t) (hs : s.Plain) (ht : t.Plain) (hD : s.D.out.Alike t.D.out)
    (hval : s.M.out.op = .ldur → w.valMem = v.valMem) (herr : s.W.out.status.isError = false) :
    (xIn false s v).Alike (xIn false t w) := by
  refine xIn_alike hD fun hidle => ?_
  have hdec := decoded_alike false hD h.regs (by rw [h.locals, h.numInstr]) hidle
  simp only [ChArm.xIn, hdec, operand_alike hs.wellFormed ht.wellFormed h.x h.m h.w
    (mIn_alike false h.x h.xNzcvval) hval herr]

/-- An error in X has failed once it is in M. -/
theorem fails_of_executeError (hs : s.Plain)
    (hz : hazardOf false (hazards false s v) = .executeError) (hX : s.X.out.status.isError = true) :
    (next false s v).fails := by
  refine Or.inr (Or.inl ?_)
  rw [hs.wellFormed.next_M v, hz]
  exact hX

theorem not_halted_of_fStatus (hv : wires false s = .ok v) (h : v.fStatus ≠ .hlt) :
    s.F.inp.status ≠ .hlt := by
  rcases fetch_inv hv with ⟨-, -, hst, -⟩ | ⟨hh, -⟩
  · exact absurd hst h
  · exact not_halted hh

/-- An untaken branch in M leaves X empty. -/
theorem taken_of_ldur (hs : s.Plain) (hp : OnPath s) (hX : s.X.out.op = .ldur) :
    ¬ (s.M.out.op = .bCond ∧ s.M.out.condHolds = false) := by
  rintro ⟨hop, hc⟩
  exact absurd (hX.symm.trans (bubble_nop hs.wellFormed (hp.taken hop hc).2)) (by decide)

/-- A mispredicted branch brings both runs onto one track, whatever is in D. -/
theorem OnTrack.of_mispredicted (h : Live p s t) (hs : s.Plain) (ht : t.Plain)
    (hz : hazardOf false (hazards false s v) = .mispredicted)
    (hz' : hazardOf false (hazards false t w) = .mispredicted)
    (hhalted : w.fStatus = .hlt ↔ v.fStatus = .hlt) :
    OnTrack (next false s v) (next false t w) := by
  have hg := hazardOf_guard false (hazards false s v)
  have hD := hs.wellFormed.next_D v
  have hX := hs.wellFormed.next_X v
  have hM := hs.wellFormed.next_M v
  have hD' := ht.wellFormed.next_D w
  have hX' := ht.wellFormed.next_X w
  have hM' := ht.wellFormed.next_M w
  rw [hz] at hg hD hX hM
  rw [hz'] at hD' hX' hM'
  obtain ⟨hop, hc⟩ := checkMispredBranchHazard_iff.1 hg.2
  have hop : s.X.out.op = .bCond := hop
  have hmeq : mIn false t = mIn false s := (mIn_alike false h.x h.xNzcvval).eq (by
    change s.X.out.op.idle = false
    rw [hop]
    rfl)
  refine ⟨by rw [hD, hD']; exact .refl _, hhalted, fun _ => ?_⟩
  have huntaken : ∀ {u : Machine} {x : Wires}, (next false u x).X.out = .zero →
      (next false u x).M.out = mIn false s →
      ChArm.fetchPC false (next false u x) = (mIn false s).seqSuccPC := by
    intro u x hXu hMu
    rw [fetchPC_untaken (by rw [hXu]; exact nofun) (by rw [hMu]; exact hop) (by rw [hMu]; exact hc),
      hMu]
  rw [huntaken hX hM, huntaken hX' (hM'.trans hmeq)]

/-- A load-use stall keeps both runs waiting for the same word. -/
theorem OnTrack.of_loadUse (ho : OnTrack s t) (h : Live p s t) (hs : s.Plain) (ht : t.Plain)
    (hp : OnPath s) (hv : wires false s = .ok v)
    (hz : hazardOf false (hazards false s v) = .loadUse)
    (hz' : hazardOf false (hazards false t w) = .loadUse)
    (hhalted : w.fStatus = .hlt ↔ v.fStatus = .hlt) :
    OnTrack (next false s v) (next false t w) := by
  have hg := hazardOf_guard false (hazards false s v)
  have hD := hs.wellFormed.next_D v
  have hX := hs.wellFormed.next_X v
  have hM := hs.wellFormed.next_M v
  have hF := hs.wellFormed.next_predPC v
  have hD' := ht.wellFormed.next_D w
  have hX' := ht.wellFormed.next_X w
  have hM' := ht.wellFormed.next_M w
  have hF' := ht.wellFormed.next_predPC w
  rw [hz] at hg hD hX hM hF
  rw [hz'] at hD' hX' hM' hF'
  have hop : s.X.out.op = .ldur := (HazardIn.loadUse_ops hg.2.2).1
  have hop' : t.X.out.op = .ldur := h.x.op.trans hop
  have htaken := taken_of_ldur hs hp hop
  have htaken' : ¬ (t.M.out.op = .bCond ∧ t.M.out.condHolds = false) := by
    rintro ⟨hb, hc⟩
    have hb' : s.M.out.op = .bCond := h.m.op.symm.trans hb
    exact htaken ⟨hb', by rw [← h.m.eq (by rw [hb']; rfl), hc]⟩
  refine ⟨by rw [hD, hD']; exact ho.d, hhalted, fun hne => ?_⟩
  -- with the load in M and nothing in X, fetch takes the predicted PC
  have hbase : ∀ {u : Machine} {x : Wires}, (next false u x).X.out = .zero →
      (next false u x).M.out.op = .ldur → ChArm.fetchPC false (next false u x) =
        (next false u x).F.out.predPC := by
    intro u x hXu hMu
    refine fetchPC_base (by rw [hXu]; exact nofun) fun hc => ?_
    exact absurd (hMu.symm.trans hc.1) (by decide)
  rw [hbase hX' (by rw [hM']; exact hop'), hbase hX (by rw [hM]; exact hop), hF, hF']
  change t.F.out.predPC = s.F.out.predPC
  rw [← fetchPC_base (by rw [hop]; exact nofun) htaken,
    ← fetchPC_base (by rw [hop']; exact nofun) htaken']
  exact ho.fetchPC (not_halted_of_fStatus hv hne)

/-- A `RET` sends both runs to the same address. -/
theorem OnTrack.of_ret (hs : s.Plain) (ht : t.Plain) (hxin : (xIn false s v).Alike (xIn false t w))
    (hz : hazardOf false (hazards false s v) = .ret)
    (hz' : hazardOf false (hazards false t w) = .ret)
    (hhalted : w.fStatus = .hlt ↔ v.fStatus = .hlt) :
    OnTrack (next false s v) (next false t w) := by
  have hg := hazardOf_guard false (hazards false s v)
  have hD := hs.wellFormed.next_D v
  have hX := hs.wellFormed.next_X v
  have hD' := ht.wellFormed.next_D w
  have hX' := ht.wellFormed.next_X w
  rw [hz] at hg hD hX
  rw [hz'] at hD' hX'
  have hop : (ChArm.xIn false s v).op = .ret := checkRetHazard_iff.1 hg.2.2
  refine ⟨by rw [hD, hD']; exact .refl _, hhalted, fun _ => ?_⟩
  rw [fetchPC_ret (by rw [hX']; exact hxin.op.trans hop), fetchPC_ret (by rw [hX]; exact hop), hX,
    hX']
  have heq : ChArm.xIn false t w = ChArm.xIn false s v := hxin.eq (by
    rw [hop]
    rfl)
  exact congrArg XInstr.valA heq

/-- Where both runs latch the same word, they go on together. -/
theorem OnTrack.of_none (ho : OnTrack s t) (h : Live p s t) (hs : s.Plain) (ht : t.Plain)
    (hz : hazardOf false (hazards false s v) = .none)
    (hz' : hazardOf false (hazards false t w) = .none) (hd : v.d.Alike w.d)
    (hst : w.fStatus = v.fStatus) (hpc : v.fStatus ≠ .hlt → w.fPC = v.fPC)
    (hwin : (wIn s v).status.isError = false) (hwin' : (wIn t w).status.isError = false) :
    OnTrack (next false s v) (next false t w) := by
  have hg := hazardOf_guard false (hazards false s v)
  have hD := hs.wellFormed.next_D v
  have hX := hs.wellFormed.next_X v
  have hM := hs.wellFormed.next_M v
  have hF := hs.wellFormed.next_predPC v
  have hD' := ht.wellFormed.next_D w
  have hX' := ht.wellFormed.next_X w
  have hM' := ht.wellFormed.next_M w
  have hF' := ht.wellFormed.next_predPC w
  rw [hz] at hg hD hX hM hF
  rw [hz'] at hD' hX' hM' hF'
  obtain ⟨-, hmis, hret, -⟩ := hg
  have hDop : s.D.out.op ≠ .ret := not_ret hret
  refine ⟨by rw [hD, hD']; exact hd, ?_, fun hne => ?_⟩
  · change w.fStatus = .hlt ↔ v.fStatus = .hlt
    rw [hst]
  · have hbase := fetchPC_base (s := next false s v) (by rw [hX]; exact hDop) fun hc => by
      rw [hM] at hc
      exact not_mispredicted hmis hc
    have hbase' := fetchPC_base (s := next false t w)
      (by rw [hX']; exact fun hc => hDop (ho.d.op.symm.trans hc)) fun hc => by
        rw [hM'] at hc
        have hb : s.X.out.op = .bCond := h.x.op.symm.trans hc.1
        have hmeq : mIn false t = mIn false s :=
          (mIn_alike false h.x h.xNzcvval).eq (by
            change s.X.out.op.idle = false
            rw [hb]
            rfl)
        have hcond : (mIn false t).condHolds = false := hc.2
        rw [hmeq] at hcond
        exact not_mispredicted hmis ⟨hb, hcond⟩
    rw [hbase, hbase', hF, hF']
    change pcNext t w = pcNext s v
    rw [pcNext_quiet hwin, pcNext_quiet hwin', hpc hne]

/-- A cycle on one track stays on it, unless it latches a word into D that may differ. -/
theorem OnTrack.step (ho : OnTrack s t) (h : Live p s t) (hs : s.Plain) (ht : t.Plain)
    (hp : s.X.out.status.isError = true ∨ OnPath s) (hv : wires false s = .ok v) (hf : ¬ s.fails)
    (hdrop : DropsAlike (hazardOf false (hazards false s v)) s t) :
    ∃ w, wires false t = .ok w ∧ Core (next false s v) (next false t w) ∧
      ((next false s v).fails ∨ (Live p (next false s v) (next false t w) ∧
        (OnTrack (next false s v) (next false t w) ∨
          (hazardOf false (hazards false s v) = .none ∧ ChArm.fetchHalts false s = false ∧
            ∃ k < 4, p (ChArm.fetchPC false s + BitVec.ofNat 64 k))))) := by
  obtain ⟨w, hw, herr, hag, hval⟩ := h.exists_wires hs ht hv ho.readsConsole
  refine ⟨w, hw, h.next_core hs ht hv hw herr hag.toSameEffects hval hf, ?_⟩
  obtain ⟨hwout, hwin⟩ := (not_fails_iff hs hv).1 hf
  have hmemErr : v.memErr = false := by
    by_contra he
    rw [Bool.not_eq_false] at he
    rw [wIn, he, if_pos rfl] at hwin
    cases hwin
  have hready : w.mem.dmemStatus = v.mem.dmemStatus :=
    (uncached_of_wires ht.wellFormed ht.uncached hw).2.ready.trans
      (uncached_of_wires hs.wellFormed hs.uncached hv).2.ready.symm
  -- hazard control decides alike, since it sees alike instructions
  have hz' : hazardOf false (hazards false t w) = hazardOf false (hazards false s v) :=
    hazardOf_alike ho.d h.x (mIn_alike false h.x h.xNzcvval) hready
      (congrArg Stat.isError (h.wIn_status herr)) (congrArg Stat.isError (h.wOut_status hs ht))
      (checkLoadUseHazard_alike ho.d h.x
        (sameSources hs ht ho.d h.regs (by rw [h.locals, h.numInstr])))
  have hlive := h.next hs ht hv hw herr hag hval hf
  have hxin := h.xIn (v := v) (w := w) hs ht ho.d (fun hop => hval hop hmemErr) hwout
  have hhalted : hazardOf false (hazards false s v) ∈ [Hazard.loadUse, .mispredicted, .ret] →
      (w.fStatus = .hlt ↔ v.fStatus = .hlt) := by
    intro hz
    rw [← fetchesHlt_iff hv, ← fetchesHlt_iff hw, hdrop.halts hz]
  have hg := hazardOf_guard false (hazards false s v)
  have hX := hs.wellFormed.next_X v
  have hX' := ht.wellFormed.next_X w
  rw [hz'] at hX'
  have hmem := hazardOf_mem hs hv hf
  cases hz : hazardOf false (hazards false s v) <;> rw [hz] at hmem hg hX hX' hhalted hz' <;>
    first | exact absurd hmem (by decide) | skip
  case executeError => exact Or.inl (fails_of_executeError hs hz hg.2.2)
  case loadUse =>
    have hmIn : s.X.out.status.isError = false := hg.1.mIn
    have hpath : OnPath s := hp.resolve_left (by rw [hmIn]; decide)
    exact Or.inr ⟨hlive (by rw [hX, hX']; exact .refl _),
      Or.inl (ho.of_loadUse h hs ht hpath hv hz hz' (hhalted (by decide)))⟩
  case mispredicted =>
    exact Or.inr ⟨hlive (by rw [hX, hX']; exact .refl _),
      Or.inl (.of_mispredicted h hs ht hz hz' (hhalted (by decide)))⟩
  case ret =>
    exact Or.inr ⟨hlive (by rw [hX, hX']; exact hxin),
      Or.inl (.of_ret hs ht hxin hz hz' (hhalted (by decide)))⟩
  case none =>
    have hl := hlive (by rw [hX, hX']; exact hxin)
    -- the fetched word goes on to D: it is the same, or one of those that may differ
    rcases ho.fetch hs ht h.agree hv hw with ⟨hd, hst, hpc⟩ | hdiff
    · have hwin' : (wIn t w).status.isError = false := by rw [h.wIn_status herr, hwin]
      exact Or.inr ⟨hl, Or.inl (ho.of_none h hs ht hz hz' hd hst hpc hwin hwin')⟩
    · exact Or.inr ⟨hl, Or.inr ⟨rfl, hdiff⟩⟩

/-! ## One cycle of both runs -/

/-- The word in D after `k` cycles is never latched into X. -/
def Strayed (σ : Nat → Machine) (n k : Nat) : Prop :=
  (σ k).D.out.status ≠ .bub ∧ ∃ j, fetchCycle σ k = some j ∧ ¬ LatchedX σ n j

/-- The two runs, after `k` cycles of the first. -/
def Alongside (p : Word → Prop) (σ : Nat → Machine) (n k : Nat) (t : Machine) : Prop :=
  Core (σ k) t ∧ ((σ k).fails ∨ (Live p (σ k) t ∧ (OnTrack (σ k) t ∨ Strayed σ n k)) ∨
    ((σ k).X.out = .zero ∧ Strayed σ n k))

/-- A word that strays stays in D or is bubbled. -/
theorem Strayed.not_load {σ : Nat → Machine} {n k : Nat} (h : Strayed σ n k) (hk : k < n) :
    (σ (k + 1)).X.ctl ≠ .load := by
  obtain ⟨-, j, hj, hno⟩ := h
  exact fun hx => hno ⟨k, hk, hx, hj⟩

theorem Strayed.stall {σ : Nat → Machine} {n k : Nat} (h : Strayed σ n k)
    (hctl : (σ (k + 1)).D.ctl = .stall) (hD : (σ (k + 1)).D.out = (σ k).D.out) :
    Strayed σ n (k + 1) := by
  obtain ⟨hb, j, hj, hno⟩ := h
  refine ⟨by rw [hD]; exact hb, j, ?_, hno⟩
  rw [fetchCycle, hctl]
  exact hj

end Pair

section Step

variable {p : Word → Prop} {σ : Nat → Machine} {n k : Nat} {t : Machine} {v : Wires}

/-- A mispredicted branch is one in both runs. -/
theorem Live.mispredicted {s : Machine} {w : Wires} (h : Live p s t) (hs : s.Plain) (ht : t.Plain)
    (hw : wires false t = .ok w) (herr : w.memErr = v.memErr)
    (hz : hazardOf false (hazards false s v) = .mispredicted) :
    hazardOf false (hazards false t w) = .mispredicted := by
  have hg := hazardOf_guard false (hazards false s v)
  rw [hz] at hg
  obtain ⟨hflow, hmis⟩ := hg
  have hop : s.X.out.op = .bCond := (checkMispredBranchHazard_iff.1 hmis).1
  have hXt : t.X.out = s.X.out := h.x.eq (by rw [hop]; rfl)
  have hmis' : checkMispredBranchHazard t.X.out.op (mIn false t).condHolds = true := by
    rw [mIn, hXt, h.xNzcvval, execute_rca false t.rca s.rca]
    exact hmis
  have hf : ¬ t.fails := by
    refine (not_fails_iff ht hw).2 ⟨?_, ?_⟩
    · rw [← wOut_eq ht.wellFormed.w, h.wOut_status hs ht]
      exact hflow.wOut
    · rw [h.wIn_status herr]
      exact hflow.wIn
  have hmem := hazardOf_mem ht hw hf
  have hg' := hazardOf_guard false (hazards false t w)
  cases hz' : hazardOf false (hazards false t w) <;> rw [hz'] at hg' hmem <;>
    first | rfl | exact absurd hmem (by decide) | skip
  case executeError =>
    have hno : s.X.out.status.isError = false := hflow.mIn
    rw [← hXt] at hno
    exact absurd (hno.symm.trans hg'.2.2) (by decide)
  case loadUse =>
    have hld : t.X.out.op = .ldur := (HazardIn.loadUse_ops hg'.2.2).1
    rw [hXt, hop] at hld
    cases hld
  case ret => exact absurd (hmis'.symm.trans hg'.2.1) (by decide)
  case none => exact absurd (hmis'.symm.trans hg'.2.1) (by decide)

/-- A cycle with a word in D that strays drops it, or an instruction fails in the next. -/
theorem Strayed.step (hst : Strayed σ n k) (hk : k < n) (h : Live p (σ k) t) (hs : (σ k).Plain)
    (ht : t.Plain) (hv : wires false (σ k) = .ok v) (hnext : σ (k + 1) = next false (σ k) v)
    (hf : ¬ (σ k).fails) (hdrop : DropsAlike (hazardOf false (hazards false (σ k) v)) (σ k) t) :
    ∃ w, wires false t = .ok w ∧ Alongside p σ n (k + 1) (next false t w) := by
  have hg := hazardOf_guard false (hazards false (σ k) v)
  have hmem := hazardOf_mem hs hv hf
  have hxc : (hazardOf false (hazards false (σ k) v)).ctls.x ≠ .load := by
    rw [← hs.wellFormed.next_ctls v, ← hnext]
    exact hst.not_load hk
  have hdc := congrArg Ctls.d (hs.wellFormed.next_ctls v)
  have hD := hs.wellFormed.next_D v
  have hX := hs.wellFormed.next_X v
  have hcon : t.readsConsole false = (σ k).readsConsole false := by
    refine hdrop.console ?_
    cases hz : hazardOf false (hazards false (σ k) v) <;> rw [hz] at hmem hxc <;>
      first | decide | exact absurd hmem (by decide) | exact absurd rfl hxc
  obtain ⟨w, hw, herr, hag, hval⟩ := h.exists_wires hs ht hv hcon
  refine ⟨w, hw, ?_⟩
  unfold Alongside
  rw [hnext]
  refine ⟨h.next_core hs ht hv hw herr hag.toSameEffects hval hf, ?_⟩
  cases hz : hazardOf false (hazards false (σ k) v) <;> rw [hz] at hmem hg hxc hdc hD hX <;>
    first | exact absurd hmem (by decide) | exact absurd rfl hxc | skip
  case executeError => exact Or.inl (fails_of_executeError hs hz hg.2.2)
  case loadUse =>
    exact Or.inr (Or.inr ⟨hX, hst.stall (by rw [hnext]; exact hdc) (by rw [hnext]; exact hD)⟩)
  case mispredicted =>
    have hz' := h.mispredicted hs ht hw herr hz
    have hX' := ht.wellFormed.next_X w
    rw [hz'] at hX'
    refine Or.inr (Or.inl ⟨h.next hs ht hv hw herr hag hval hf (by rw [hX, hX']; exact .refl _),
      Or.inl (.of_mispredicted h hs ht hz hz' ?_)⟩)
    rw [← fetchesHlt_iff hv, ← fetchesHlt_iff hw, hdrop.halts (by rw [hz]; decide)]

/-- With nothing in X and nothing failing, what is in D is latched. -/
theorem load_of_empty {s : Machine} (hs : s.Plain) (hv : wires false s = .ok v) (hX : s.X.out = .zero)
    (hf : ¬ s.fails) : (next false s v).X.ctl = .load := by
  have hg := hazardOf_guard false (hazards false s v)
  have hmem := hazardOf_mem hs hv hf
  have hxop : s.X.out.op = .nop := by rw [hX]; rfl
  rw [show (next false s v).X.ctl = _ from congrArg Ctls.x (hs.wellFormed.next_ctls v)]
  cases hz : hazardOf false (hazards false s v) <;> rw [hz] at hg hmem <;>
    first | rfl | exact absurd hmem (by decide) | skip
  case executeError =>
    have herr : s.X.out.status.isError = true := hg.2.2
    rw [hX] at herr
    cases herr
  case loadUse => exact absurd (hxop.symm.trans (HazardIn.loadUse_ops hg.2.2).1) (by decide)
  case mispredicted =>
    exact absurd (hxop.symm.trans (checkMispredBranchHazard_iff.1 hg.2).1) (by decide)

/-- **Every cycle keeps the runs alongside.** -/
theorem Alongside.step (h : Alongside p σ n k t) (hk : k < n) (hs : (σ k).Plain) (ht : t.Plain)
    (hp : (σ k).X.out.status.isError = true ∨ OnPath (σ k)) (hv : wires false (σ k) = .ok v)
    (hnext : σ (k + 1) = next false (σ k) v)
    (hdrop : DropsAlike (hazardOf false (hazards false (σ k) v)) (σ k) t)
    (hsq : fetchHalts false (σ k) = false →
      (∃ i < 4, p (fetchPC false (σ k) + BitVec.ofNat 64 i)) → ¬ LatchedX σ n k) :
    ∃ w, wires false t = .ok w ∧ Alongside p σ n (k + 1) (next false t w) := by
  obtain ⟨hcore, hrest⟩ := h
  by_cases hf : (σ k).fails
  · obtain ⟨w, hw, hcore', hf'⟩ := hcore.next_of_fails hs ht hv hf
    exact ⟨w, hw, by rw [hnext]; exact hcore', Or.inl (by rw [hnext]; exact hf')⟩
  · rcases hrest with hfail | ⟨hlive, ho | hst⟩ | ⟨hX, hst⟩
    · exact absurd hfail hf
    · obtain ⟨w, hw, hcore', hrest'⟩ := ho.step hlive hs ht hp hv hf hdrop
      refine ⟨w, hw, by rw [hnext]; exact hcore', ?_⟩
      rcases hrest' with hf' | ⟨hlive', ho' | ⟨hz, hh, hdiff⟩⟩
      · exact Or.inl (by rw [hnext]; exact hf')
      · exact Or.inr (Or.inl ⟨by rw [hnext]; exact hlive', Or.inl (by rw [hnext]; exact ho')⟩)
      · have hD := hs.wellFormed.next_D v
        have hdc := congrArg Ctls.d (hs.wellFormed.next_ctls v)
        rw [hz] at hD hdc
        have hDk : (σ (k + 1)).D.out = v.d := by
          rw [hnext]
          exact hD
        have hctl : (σ (k + 1)).D.ctl = .load := by
          rw [hnext]
          exact hdc
        refine Or.inr (Or.inl ⟨by rw [hnext]; exact hlive', Or.inr ⟨?_, k, ?_, hsq hh hdiff⟩⟩)
        · rw [hDk]
          exact (fetch_ok hv).2.2
        · rw [fetchCycle, hctl]
          rfl
    · exact hst.step hk hlive hs ht hv hnext hf hdrop
    · exact absurd (by rw [hnext]; exact load_of_empty hs hv hX hf) (hst.not_load hk)

end Step

/-! ## Whole runs -/

theorem Execution.plain {img : Image} {entry : Word} {n : Nat} {σ : Nat → Machine}
    (h : Execution false img entry n σ) (hc : img.cache = none) {k : Nat} (hk : k ≤ n) :
    (σ k).Plain := ⟨h.wellFormed hk, h.uncached hc hk⟩

theorem alongside_init {img : Image} (hc : img.cache = none) (entry : Word) {pt : PTable} {n : Nat}
    {σ : Nat → Machine} (h : Execution false img entry n σ) (hsq : OnlySquashed img pt n σ) :
    Alongside (img.differs pt) σ n 0 (.init { img with ptable := pt } entry) := by
  have hag : (Machine.init img entry).mem.Agree (img.differs pt)
      (Machine.init { img with ptable := pt } entry).mem := by
    refine ⟨⟨rfl, rfl, rfl⟩, rfl, rfl, fun a ha => ?_⟩
    have hview : ∀ i : Image, i.cache = none → i.memory.view = i.ptable.byteAt := by
      intro i hi
      rw [Memory.view, show i.memory.cache = none from hi]
      rfl
    exact (congrFun (hview { img with ptable := pt } hc) a).trans
      ((not_not.1 ha).trans (congrFun (hview img hc) a).symm)
  have hcore : Core (Machine.init img entry) (.init { img with ptable := pt } entry) :=
    ⟨rfl, rfl, rfl, rfl, rfl, .refl _, .refl _, hag.toSameEffects⟩
  unfold Alongside
  rw [h.start]
  exact ⟨hcore, Or.inr (Or.inl ⟨⟨hcore, .refl _, rfl, rfl, rfl, rfl, hag, hsq.text⟩,
    Or.inl ⟨.refl _, Iff.rfl, fun _ => rfl⟩⟩)⟩

/-- **Squashed fetches leave no trace** where every dropped fetch leaves the same status and the
same console in both runs. -/
theorem squashed_leave_no_trace {img : Image} {entry : Word} {pt : PTable} {n : Nat}
    {σ : Nat → Machine} (h : Execution false img entry n σ) (hc : img.cache = none)
    (hsq : OnlySquashed img pt n σ)
    (hdrop : ∀ k < n, ∀ τ, Execution false { img with ptable := pt } entry k τ →
      ∀ v, wires false (σ k) = .ok v →
        DropsAlike (hazardOf false (hazards false (σ k) v)) (σ k) (τ k)) :
    ∃ τ, Execution false { img with ptable := pt } entry n τ ∧ ∀ k ≤ n,
      (τ k).regWrites = (σ k).regWrites ∧ (τ k).nzcvWrites = (σ k).nzcvWrites ∧
        (τ k).mem.stores = (σ k).mem.stores ∧ (τ k).mem.printed = (σ k).mem.printed ∧
        (τ k).status = (σ k).status := by
  obtain ⟨τ, hτ, hR⟩ : ∃ τ, Execution false { img with ptable := pt } entry n τ ∧
      ∀ k ≤ n, Alongside (img.differs pt) σ n k (τ k) := by
    refine h.simulate (R := fun k _ t => Alongside (img.differs pt) σ n k t)
      (alongside_init hc entry h hsq) fun k hk τ hτ hR => ?_
    obtain ⟨v, hv, hnext⟩ := h.wires hk
    obtain ⟨w, hw, hR'⟩ := hR.step hk (h.plain hc (by omega)) (Execution.plain hτ hc le_rfl)
      (h.onPath (by omega)) hv hnext (hdrop k hk τ hτ v hv) (hsq.squashed k hk)
    refine ⟨_, ⟨?_, ?_⟩, hR'⟩
    · rw [Machine.running, hR.1.status]
      exact (h.next k hk).1
    · rw [cycle_eq, hw]
      rfl
  refine ⟨τ, hτ, fun k hk => ?_⟩
  have hcore := (hR k hk).1
  exact ⟨hcore.regWrites, hcore.nzcvWrites, hcore.effects.stores, hcore.effects.printed,
    hcore.status⟩

/-! ## Two small programs -/

/-- Programs of at most 1024 words differ in instruction memory only. -/
theorem differs_ofWords {words words' : List (BitVec 32)} {c : Option Cache} {a : Word}
    (h : (Image.ofWords words c).differs (Image.ofWords words' c).ptable a) :
    addrInImem (Image.ofWords words c).memory a = true := by
  have hpage : pageOf a = 0x400#64 := by
    by_contra hp
    have hbyte : ∀ ws : List (BitVec 32), (Image.ofWords ws c).ptable.byteAt a = 0 := by
      intro ws
      have hnone : getPage (Image.ofWords ws c).ptable (pageOf a) = none := by
        unfold getPage Image.ofWords
        dsimp only
        split_ifs
        · simp [hp]
        · rfl
      rw [PTable.byteAt, hnone]
    exact h ((hbyte words').trans (hbyte words).symm)
  have hdiv : a.toNat / 4096 = 0x400 := congrArg BitVec.toNat hpage
  have hlo : (0x400000#64 : Word) ≤ a := by
    rw [BitVec.le_def, show (0x400000#64 : Word).toNat = 0x400000 from rfl]
    omega
  have hhi : a < (0x800000#64 : Word) := by
    rw [BitVec.lt_def, show (0x800000#64 : Word).toNat = 0x800000 from rfl]
    omega
  rw [addrInImem, Bool.and_eq_true]
  exact ⟨decide_eq_true hlo, decide_eq_true hhi⟩

/-- `b.eq .+12`, `movz x1, #7`, `ret`, and two words that are only fetched to be squashed. -/
def branchOver (word word' : BitVec 32) : List (BitVec 32) :=
  [0x54000060#32, 0xd28000e1#32, 0xd65f03c0#32, word, word']

/-- Two `NOP`s, replaced by a `B` to itself and an undecodable word. -/
theorem squashed_leave_no_trace_branchOver :
    ∃ τ, Execution false (.ofWords (branchOver 0x14000000#32 0#32) none) 0x400000#64 11 τ ∧
      (τ 11).status = .hlt ∧ (τ 11).regWrites = [(1#8, 7#64)] := by
  have hrun : Execution false (.ofWords (branchOver 0xd503201f#32 0xd503201f#32) none) 0x400000#64 11
      (stateAt false (.ofWords (branchOver 0xd503201f#32 0xd503201f#32) none) 0x400000#64) :=
    execution_stateAt (by decide +kernel)
  have hrun' : Execution false (.ofWords (branchOver 0x14000000#32 0#32) none) 0x400000#64 11
      (stateAt false (.ofWords (branchOver 0x14000000#32 0#32) none) 0x400000#64) :=
    execution_stateAt (by decide +kernel)
  have hsq : OnlySquashed (.ofWords (branchOver 0xd503201f#32 0xd503201f#32) none)
      (Image.ofWords (branchOver 0x14000000#32 0#32) none).ptable 11
      (stateAt false (.ofWords (branchOver 0xd503201f#32 0xd503201f#32) none) 0x400000#64) :=
    ⟨fun a ha => differs_ofWords ha, by decide +kernel⟩
  have hdrop : ∀ k < 11,
      okAnd (wires false (stateAt false (.ofWords (branchOver 0xd503201f#32 0xd503201f#32) none)
        0x400000#64 k)) (fun v => DropsAlike (hazardOf false (hazards false
          (stateAt false (.ofWords (branchOver 0xd503201f#32 0xd503201f#32) none) 0x400000#64 k) v))
        (stateAt false (.ofWords (branchOver 0xd503201f#32 0xd503201f#32) none) 0x400000#64 k)
        (stateAt false (.ofWords (branchOver 0x14000000#32 0#32) none) 0x400000#64 k)) = true := by
    decide +kernel
  obtain ⟨τ, hτ, hsame⟩ := squashed_leave_no_trace hrun rfl hsq fun k hk τ hτ v hv => by
    have heq := hrun'.unique hτ k (by omega) le_rfl
    rw [← heq]
    exact of_decide_eq_true (of_okAnd (hdrop k hk) hv)
  obtain ⟨hregs, -, -, -, hst⟩ := hsame 11 le_rfl
  exact ⟨τ, hτ, hst.trans (by decide +kernel), hregs.trans (by decide +kernel)⟩

/-- The same `NOP`, replaced by an `HLT`, stops the second run before it writes `x1`. -/
theorem not_squashed_leave_no_trace_hlt :
    ∃ σ τ, Execution false (.ofWords (branchOver 0xd503201f#32 0xd503201f#32) none) 0x400000#64 11 σ ∧
      OnlySquashed (.ofWords (branchOver 0xd503201f#32 0xd503201f#32) none)
        (Image.ofWords (branchOver 0xd503201f#32 0xd4400000#32) none).ptable 11 σ ∧
      (σ 11).status = .hlt ∧
      Execution false (.ofWords (branchOver 0xd503201f#32 0xd4400000#32) none) 0x400000#64 8 τ ∧
      (τ 8).status = .hlt ∧ (τ 8).regWrites ≠ (σ 11).regWrites := by
  exact ⟨_, _, execution_stateAt (by decide +kernel), ⟨fun a ha => differs_ofWords ha,
    by decide +kernel⟩, by decide +kernel, execution_stateAt (by decide +kernel), by decide +kernel,
    by decide +kernel⟩

end ChArm
