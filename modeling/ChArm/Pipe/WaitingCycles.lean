import ChArm.Base.Mirror
import ChArm.Pipe.Alike
import ChArm.Pipe.DecodedRegs
import ChArm.Pipe.FlagCopies
import ChArm.Pipe.GuestAccess

/-!
# Cycles that wait for the data memory

While an access is in flight all five stages work again on what they hold, and W runs dry.
`CatchingUp` relates a machine that waits like that to one without a cache, in a cycle
whose access need not wait.  Every waiting cycle keeps it (`CatchingUp.wait`), as long as the
cached machine is `Seamless`.

* `CatchingUp.wait` — one waiting cycle.
* `exists_work` — the cycle in which the access is done does the same work in both.
-/

namespace ChArm

/-! ## Where the cache shows -/

/-- Does the instruction in M access the data memory? -/
def Machine.accesses (s : Machine) : Bool := s.M.out.mSigs.dmemRead || s.M.out.mSigs.dmemWrite

/-- Does the instruction in M have to wait for its data? -/
def Machine.waits (s : Machine) : Bool :=
  s.accesses && !s.M.out.status.isError && !dmemErr s.mem s.M.out.valEx &&
    s.mem.waitsFor s.M.out.valEx

theorem accesses_of_waits {s : Machine} (h : s.waits = true) : s.accesses = true := by
  rw [Machine.waits, Bool.and_eq_true, Bool.and_eq_true, Bool.and_eq_true] at h
  exact h.1.1.1

/-- Does the instruction in D read SP or XZR while the one in W is about to write that number? -/
def readsBehindW (ec : Bool) (s : Machine) : Bool :=
  !s.D.out.op.idle && [(decoded ec s).2.1, (decoded ec s).2.2].any fun src =>
    (src == SP_NUM || src == XZR_NUM) && (s.W.out.wSigs.wEnable && s.W.out.dst == src)

/-- What has to hold of a machine with a cache for the next cycle not to show it: fetch keeps off
the console and the data segment, the access in M does not get through to two blocks, and
while it waits there is no error in X and D does not depend on when W writes back. -/
structure Machine.Seamless (ec : Bool) (s : Machine) : Prop where
  predicted : s.D.out.op = .error → s.PC ≠ IO_CHAR_ADDR ∧ s.F.out.predPC ≠ IO_CHAR_ADDR
  fetch : fetchHalts ec s = false → s.mem.fetchClear (fetchPC ec s) = true
  access : s.accesses = true → s.mem.overreaches s.M.out.valEx = false
  error : s.waits = true → s.X.out.status.isError = false
  operands : s.waits = true → readsBehindW ec s = false

instance (ec : Bool) (s : Machine) : Decidable (s.Seamless ec) :=
  decidable_of_iff ((s.D.out.op = .error → s.PC ≠ IO_CHAR_ADDR ∧ s.F.out.predPC ≠ IO_CHAR_ADDR) ∧
    (fetchHalts ec s = false → s.mem.fetchClear (fetchPC ec s) = true) ∧
    (s.accesses = true → s.mem.overreaches s.M.out.valEx = false) ∧
    (s.waits = true → s.X.out.status.isError = false) ∧
    (s.waits = true → readsBehindW ec s = false))
    ⟨fun h => ⟨h.1, h.2.1, h.2.2.1, h.2.2.2.1, h.2.2.2.2⟩,
      fun h => ⟨h.predicted, h.fetch, h.access, h.error, h.operands⟩⟩

/-! ## What decode makes of an instruction -/

/-- An instruction that is not idle is decoded the same whatever the locals held, to numbers the
register file has. -/
theorem decode_handled {ec : Bool} {d : DInstr} (h : d.Ok ec) (hidle : d.op.idle = false)
    (l l' : Locals) (r : Regs) : decode ec l r d = decode ec l' r d ∧
      (decode ec l r d).2.1 ≤ XZR_NUM ∧ (decode ec l r d).2.2 ≤ XZR_NUM := by
  have hne : d.op ≠ .error := fun hop => by
    rw [hop] at hidle
    cases hidle
  have hbub : d.status ≠ .bub := fun hb => by
    rw [h.status.of_bub hb] at hidle
    cases hidle
  obtain ⟨hf, hec⟩ := ftable_handled h.base hne
  rw [← h.format hbub] at hf hec
  obtain ⟨hsame, hin⟩ := extractRegs_handled hf hec l l' d.insnbits d.op
  obtain ⟨h1, h2, -⟩ := hin
  refine ⟨?_, h1, h2⟩
  have hread : regfileRead l r (extractRegs ec l d.insnbits d.op d.format).src1
      (extractRegs ec l d.insnbits d.op d.format).src2 =
      regfileRead l' r (extractRegs ec l d.insnbits d.op d.format).src1
      (extractRegs ec l d.insnbits d.op d.format).src2 := by
    simp only [regfileRead, readPort_eq_readReg _ r h1, readPort_eq_readReg _ r h2]
  simp only [decode, hread, ← hsame]

/-! ## An `HLT` comes last -/

/-- Is this the status of an `HLT` or of an empty register? -/
def Stat.ends (status : Stat) : Prop := status = .hlt ∨ status = .bub

/-- Nothing but bubbles and other `HLT`s follows an `HLT`. -/
structure Machine.HaltsLast (s : Machine) : Prop where
  d : s.D.out.status = .hlt → s.F.inp.status = .hlt
  x : s.X.out.status = .hlt → s.D.out.status.ends
  m : s.M.out.status = .hlt → s.X.out.status.ends
  w : s.W.out.status = .hlt → s.M.out.status.ends

theorem Machine.HaltsLast.init (img : Image) (entry : Word) :
    (Machine.init img entry).HaltsLast := by
  refine ⟨?_, ?_, ?_, ?_⟩ <;> exact fun h => absurd (a := Stat.bub = .hlt) h (by decide)

theorem Machine.HaltsLast.next {ec : Bool} {s : Machine} {v : Wires} (h : s.HaltsLast)
    (hw : s.WellFormed ec) (hv : wires ec s = .ok v) : (next ec s v).HaltsLast := by
  obtain ⟨-, hst, -⟩ := fetch_ok hv
  -- once fetch has delivered an `HLT` it delivers nothing else
  have hfetch : s.D.out.status = .hlt → v.fStatus = .hlt := by
    intro hd
    rcases fetch_inv hv with ⟨-, -, hst, -⟩ | ⟨hh, -⟩
    · exact hst
    · rw [fetchHalts, h.d hd] at hh
      simp at hh
  have hg := hazardOf_guard ec (hazards ec s v)
  have hwin : (wIn s v).status = .hlt → s.M.out.status = .hlt := by
    intro hi
    rw [wIn] at hi
    split_ifs at hi
    exact hi
  have hin : (ChArm.next ec s v).F.inp.status = v.fStatus := rfl
  have hbub : ∀ status : Stat, status = .bub → status.ends := fun _ hb => Or.inr hb
  rcases h with ⟨-, hx, hm, hwo⟩
  refine ⟨?_, ?_, ?_, ?_⟩
  · -- D, X, M and W in turn: an `HLT` moves on with what is behind it, or a bubble is put there
    rw [hw.next_D v, hin]
    exact clocked_mem (P := fun d : DInstr => d.status = .hlt → v.fStatus = .hlt) _
      (fun hz => absurd hz (by decide)) (fun hd => hst.trans hd) hfetch
  · rw [hw.next_X v, hw.next_D v]
    have hload : (xIn ec s v).status = .hlt → v.d.status.ends := fun hd =>
      Or.inl (hst.symm.trans (hfetch hd))
    cases hazardOf ec (hazards ec s v)
    case ret => exact fun _ => hbub _ rfl
    case br => exact fun _ => hbub _ rfl
    case none => exact hload
    case mispredicted => exact fun _ => hbub _ rfl
    case cb => exact fun _ => hbub _ rfl
    case loadUse => exact fun hz => absurd (a := Stat.bub = .hlt) hz (by decide)
    all_goals exact hx
  · rw [hw.next_M v, hw.next_X v]
    cases hz : hazardOf ec (hazards ec s v) <;> rw [hz] at hg
    case executeError =>
      intro hi
      have herr : s.X.out.status.isError = true := hg.2.2
      rw [show s.X.out.status = .hlt from hi] at herr
      cases herr
    case loadUse => exact fun _ => hbub _ rfl
    case mispredicted => exact fun _ => hbub _ rfl
    case cb => exact fun _ => hbub _ rfl
    case wbackError => exact hm
    case memoryError => exact hm
    case inFlight => exact hm
    all_goals exact hx
  · rw [hw.next_W v, hw.next_M v]
    cases hz : hazardOf ec (hazards ec s v) <;> rw [hz] at hg
    case wbackError => exact hwo
    case memoryError =>
      intro hi
      have herr : (wIn s v).status.isError = true := hg.2
      rw [show (wIn s v).status = .hlt from hi] at herr
      cases herr
    case inFlight => exact fun hi => absurd (a := Stat.bub = .hlt) hi (by decide)
    all_goals exact fun hi => hm (hwin hi)

/-! ## Executed again -/

/-- An instruction that sets the flags does not test them. -/
def XInstr.FlagsApart (x : XInstr) : Prop := x.xSigs.setFlags = true → x.cond = .al

theorem flagsApart_decode (ec : Bool) (l : Locals) (r : Regs) (d : DInstr) :
    (decode ec l r d).1.FlagsApart := by
  intro hset
  have hop : d.op ∈ [Opcode.addsRR, .cmnRR, .subsRR, .cmpRR, .andsRR, .tstRR] :=
    of_decide_eq_true hset
  show decodeCond ec d.insnbits d.op = .al
  simp only [List.mem_cons, List.not_mem_nil, or_false] at hop
  rcases hop with hop | hop | hop | hop | hop | hop <;> rw [hop] <;> cases ec <;> rfl

theorem XInstr.FlagsApart.executeAlu_eq {x : XInstr} (h : x.FlagsApart)
    (hset : x.xSigs.setFlags = true) (rca : Rca) (f f' : BitVec 8) :
    executeAlu rca f x = executeAlu rca f' x := by
  simp only [executeAlu, alu, h hset, hset, if_true]
  rfl

/-- **An instruction that stays in X** does the same again. -/
theorem execute_again {ec : Bool} {u : Machine} {w : Wires} (h : u.X.out.FlagsApart)
    (hX : (next ec u w).X.out = u.X.out) :
    xNzcv (next ec u w) = xNzcv u ∧ mIn ec (next ec u w) = mIn ec u := by
  have hn : (next ec u w).xNzcvval = xNzcv u := rfl
  cases hset : u.X.out.xSigs.setFlags with
  | false =>
    refine ⟨?_, Machine.WellFormed.mIn_stalled hX hset⟩
    rw [xNzcv_of_not_setFlags (by rw [hX]; exact hset), hn]
  | true =>
    rw [xNzcv, mIn, mIn, hX, hn, execute_rca ec _ u.rca, (executeAlu_rca _ u.rca _ _).2.2]
    have heq := fun f => h.executeAlu_eq hset u.rca f u.xNzcvval
    exact ⟨congrArg AluOut.nzcv (heq _), by simp only [execute, heq (xNzcv u)]⟩

/-! ## The same instructions in front of W -/

/-- Alike instructions from one address, the idle ones included. -/
structure DInstr.Twin (d d' : DInstr) : Prop extends d.Alike d' where
  succ : d'.seqSuccPC = d.seqSuccPC

structure XInstr.Twin (x x' : XInstr) : Prop extends x.Alike x' where
  succ : x'.seqSuccPC = x.seqSuccPC

structure MInstr.Twin (i i' : MInstr) : Prop extends i.Alike i' where
  succ : i'.seqSuccPC = i.seqSuccPC

theorem DInstr.Twin.refl (d : DInstr) : d.Twin d := ⟨.refl d, rfl⟩

theorem XInstr.Twin.refl (x : XInstr) : x.Twin x := ⟨.refl x, rfl⟩

theorem MInstr.Twin.refl (i : MInstr) : i.Twin i := ⟨.refl i, rfl⟩

/-- Two machines with the same instructions in D, X and M, and the same prediction. -/
structure SameFront (s t : Machine) : Prop where
  d : s.D.out.Twin t.D.out
  x : s.X.out.Twin t.X.out
  m : s.M.out.Twin t.M.out
  predPC : t.F.out.predPC = s.F.out.predPC
  deassertFlags : t.deassertFlags = s.deassertFlags

/-- `select_PC` looks at an operand for returns and calls only, at a condition for branches only. -/
theorem selectPC_congr (ec : Bool) (predPC : Word) {dOpcode mOpcode : Opcode} {valA valA' : Word}
    {mCondVal mCondVal' : Bool} (seqSucc : Word)
    (hA : dOpcode = .ret ∨ dOpcode = .br ∨ dOpcode = .blr → valA' = valA)
    (hC : mOpcode = .cbz ∨ mOpcode = .cbnz ∨ mOpcode = .bCond → mCondVal' = mCondVal) :
    selectPC ec predPC dOpcode valA' mOpcode mCondVal' seqSucc =
      selectPC ec predPC dOpcode valA mOpcode mCondVal seqSucc := by
  have hcond : selectPC ec predPC dOpcode valA' mOpcode mCondVal' seqSucc =
      selectPC ec predPC dOpcode valA' mOpcode mCondVal seqSucc := by
    by_cases hm : mOpcode = .cbz ∨ mOpcode = .cbnz ∨ mOpcode = .bCond
    · rw [hC hm]
    · obtain ⟨hcbz, hcbnz, hb⟩ := by simpa only [not_or] using hm
      simp only [selectPC, hcbz, hcbnz, hb, or_self, false_and, and_false, if_false]
  rw [hcond]
  by_cases hd : dOpcode = .ret ∨ dOpcode = .br ∨ dOpcode = .blr
  · rw [hA hd]
  · obtain ⟨hret, hbr, hblr⟩ := by simpa only [not_or] using hd
    simp only [selectPC, hret, hbr, hblr, or_self, false_and, and_false, if_false]

section Pair

variable {ec : Bool} {g : Geometry} {c c' : Cache} {s t u : Machine} {v w : Wires}

theorem SameFront.fetchPC (h : SameFront s t) : fetchPC ec t = fetchPC ec s := by
  rw [ChArm.fetchPC, ChArm.fetchPC, h.x.op, h.m.op, h.predPC, h.m.succ]
  refine selectPC_congr ec _ _ (fun hop => ?_) fun hop => ?_
  · rw [h.x.eq (by rcases hop with hop | hop | hop <;> rw [hop] <;> rfl)]
  · rw [h.m.eq (by rcases hop with hop | hop | hop <;> rw [hop] <;> rfl)]

/-! ## Fetch -/

/-- Fetch in `u` makes up an `HLT` and `s` has fetched one. -/
structure FetchEnded (ec : Bool) (s u : Machine) (v : Wires) : Prop where
  fStatus : v.fStatus = .hlt
  halts : fetchHalts ec u = true
  succ : u.D.inp.seqSuccPC = v.d.seqSuccPC
  fPC : u.fPC = v.fPC
  keeps : s.mem.Agree (fun _ => False) v.fMem

/-- Fetch delivers in `u` what it delivers in `s`. -/
def Refetches (ec : Bool) (s u : Machine) (v : Wires) : Prop :=
  FetchEnded ec s u v ∨ (fetchHalts ec s = false ∧ fetchHalts ec u = false)

theorem Memory.Mirrors.of_agree {m m' m₁ : Memory} (h : Memory.Mirrors g c m m')
    (hflat : m₁.Uncached) (hag : m.Agree (fun _ => False) m₁) : Memory.Mirrors g c m₁ m' :=
  ⟨hflat, h.coherent, h.settled, hag.symm.trans h.agree⟩

/-- **A fetch that keeps off the data memory** delivers the same with a cache and without. -/
theorem exists_fetch (hfront : SameFront s u) (hre : Refetches ec s u v)
    (hm : Memory.Mirrors g c s.mem u.mem) (hv : wires ec s = .ok v)
    (hsl : fetchHalts ec u = false → u.mem.fetchClear (fetchPC ec u) = true) :
    ∃ d pt, fetchWires ec u = .ok (d, v.fStatus, v.fPC, { u.mem with ptable := pt }) ∧
      v.d.Twin d ∧ Memory.Mirrors g c s.mem { u.mem with ptable := pt } ∧
      Memory.Mirrors g c v.fMem { u.mem with ptable := pt } := by
  obtain ⟨hok, hst, -⟩ := fetch_ok hv
  rcases hre with he | ⟨hs, hu⟩
  · have hop : v.d.op = .hlt := hok.status.of_hlt (hst.symm.trans he.fStatus)
    have hflat : v.fMem.Uncached := by
      rcases fetch_inv hv with ⟨-, -, -, -, hmem⟩ | ⟨-, insnbits, err, hi, -⟩
      · rw [hmem]
        exact hm.flat
      · obtain ⟨-, r, hr, -⟩ := imem_inv hi
        exact hm.flat.memRead hr
    refine ⟨haltInstr ec u.D.inp, u.mem.ptable, ?_, ⟨⟨hop.symm, hst.symm.trans he.fStatus |>.symm,
      fun hne => absurd hop hne, fun hidle => ?_⟩, he.succ⟩, hm, hm.of_agree hflat he.keeps⟩
    · rw [fetchWires, if_pos he.halts, he.fStatus, he.fPC]
    · rw [hop] at hidle
      cases hidle
  · rcases fetch_inv hv with ⟨hs', -⟩ | ⟨-, insnbits, err, hi, hd, hst, hp⟩
    · rw [hs] at hs'
      cases hs'
    · have hclear := hsl hu
      rw [hfront.fetchPC] at hclear
      obtain ⟨pt, hi', hm', hm₁⟩ := hm.imem hclear hi
      refine ⟨v.d, pt, ?_, .refl _, hm', hm₁⟩
      rw [fetchWires, hu, if_neg Bool.false_ne_true, hfront.fetchPC, hi']
      simp only [bind, Except.bind, ← hd, ← hst, ← hp]

/-! ## Waiting -/

/-- Does a run go on with this status? -/
def Stat.goesOn (status : Stat) : Bool := status == .aok || status == .bub

theorem goesOn_of_not_hlt {status : Stat} (h : status.isError = false) (hne : status ≠ .hlt) :
    status.goesOn = true := by
  cases status <;> first | rfl | exact absurd rfl hne | cases h

/-- A cycle from `u` to `u'` in which the access has waited. -/
structure Stalled (u u' : Machine) : Prop where
  d : u'.D.out = u.D.out
  x : u'.X.out = u.X.out
  m : u'.M.out = u.M.out
  w : u'.W.out = .zero
  predPC : u'.F.out.predPC = u.F.out.predPC
  deassertFlags : u'.deassertFlags = u.deassertFlags
  regs : u'.regs = retire u.regs u.W.out
  regWrites : u'.regWrites = u.regWrites ++ retireWrites u.W.out
  NZCV : u'.NZCV = if !u.deassertFlags && u.X.out.xSigs.setFlags then xNzcv u else u.NZCV
  status : u'.status = u.W.out.status

/-- Where nothing signals an error, the flags of the instruction in X are committed. -/
theorem flagsLatch_quiet (hq : (hazards ec u w).Quiet) :
    flagsLatch ec u w = (!u.deassertFlags && u.X.out.xSigs.setFlags) := by
  rw [flagsLatch, flagsDeasserted, hazardDeasserts, hq.mIn, hq.wIn, hq.wOut, Bool.or_self,
    Bool.or_false, Bool.or_false]

theorem deassertFlags_quiet (hq : (hazards ec u w).Quiet) :
    (next ec u w).deassertFlags = u.deassertFlags := by
  change (u.deassertFlags || hazardDeasserts (hazards ec u w)) = _
  rw [hazardDeasserts, hq.mIn, hq.wIn, hq.wOut]
  exact Bool.or_false _

/-- **An access that waits** holds the pipeline and lets W run dry. -/
theorem stalled_of_inFlight (hok : u.WellFormed ec) (hq : (hazards ec u w).Quiet)
    (hfl : w.mem.dmemStatus = .inFlight) : Stalled u (next ec u w) := by
  have hz : hazardOf ec (hazards ec u w) = .inFlight := by
    have hst : (hazards ec u w).dmemStatus = .inFlight := hfl
    rw [hazardOf, hq.wOut, hq.wIn, hq.mIn, hst]
    rfl
  refine ⟨?_, ?_, ?_, ?_, ?_, deassertFlags_quiet hq, next_regs hok w, next_regWrites hok w, ?_,
    hok.statusNext_eq w⟩
  · rw [hok.next_D w, hz]
    rfl
  · rw [hok.next_X w, hz]
    rfl
  · rw [hok.next_M w, hz]
    rfl
  · rw [hok.next_W w, hz]
    rfl
  · rw [hok.next_predPC w, hz]
    rfl
  · rw [← flagsLatch_quiet hq]
    rfl

/-- A cycle that waits, whatever it fetches. -/
theorem exists_wait {m : Memory} (hd : 1 ≤ g.d) {d : DInstr} {fStatus : Stat} {fPC : Word} {pt : PTable}
    (hf : fetchWires ec u = .ok (d, fStatus, fPC, { u.mem with ptable := pt }))
    (hm : Memory.Mirrors g c m { u.mem with ptable := pt }) (hok : u.WellFormed ec)
    (hW : u.W.out.status.isError = false) (hX : u.X.out.status.isError = false)
    (hw : u.waits = true) :
    ∃ w, wires ec u = .ok w ∧ w.d = d ∧ w.fStatus = fStatus ∧ w.fPC = fPC ∧
      Memory.Mirrors g c m w.mem ∧ isSpecialAddr u.M.out.valEx = false ∧ Stalled u (next ec u w) ∧
      w.mem.waits g c u.M.out.valEx + 1 = u.mem.waits g c u.M.out.valEx := by
  rw [Machine.waits, Bool.and_eq_true, Bool.and_eq_true, Bool.and_eq_true, Bool.not_eq_true',
    Bool.not_eq_true'] at hw
  obtain ⟨⟨⟨hacc, hM⟩, he⟩, hwf⟩ := hw
  obtain ⟨val, mem, hdm, hmem, hfl, hwaits⟩ :=
    hm.dmem_waits hd u.M.out.valB u.W.inp.valMem hok.m.not_both hacc he hwf
  refine ⟨_, wires_eq hf hdm, rfl, rfl, rfl, hmem, ((hm.waitsFor_iff _).1 hwf).1,
    stalled_of_inFlight hok ⟨?_, hM, hX⟩ hfl, hwaits⟩
  change (wOut u).status.isError = false
  rw [wOut_eq hok.w]
  exact hW

/-- W holds in `u` what it holds in `s`. -/
structure Undrained (s u : Machine) : Prop where
  w : s.W.out.Alike u.W.out
  regs : u.regs = s.regs
  regWrites : u.regWrites = s.regWrites
  NZCV : u.NZCV = s.NZCV

/-- W has run dry in `u`: the instruction it holds in `s` has written back, and nothing in D has
read the register too early. -/
structure Drained (ec : Bool) (s u : Machine) : Prop where
  w : u.W.out = .zero
  regs : u.regs = retire s.regs s.W.out
  regWrites : u.regWrites = s.regWrites ++ retireWrites s.W.out
  NZCV : u.NZCV = if !s.deassertFlags && s.X.out.xSigs.setFlags then xNzcv s else s.NZCV
  goesOn : s.W.out.status.goesOn = true
  xQuiet : s.X.out.status.isError = false
  behind : readsBehindW ec s = false

/-- The machine `u` has a cache and is in the cycle of `s`, which has none and whose wires are `v`;
its access has waited for some cycles, or none. -/
structure CatchingUp (ec : Bool) (g : Geometry) (c : Cache) (s : Machine) (v : Wires) (u : Machine) :
    Prop extends SameFront s u where
  sOk : s.WellFormed ec
  uOk : u.WellFormed ec
  haltsLast : s.HaltsLast
  flagsApart : s.X.out.FlagsApart
  fetch : Refetches ec s u v
  mirrors : Memory.Mirrors g c s.mem u.mem
  ready : u.mem.dmemStatus = .ready ∨ s.accesses = true ∧ isSpecialAddr s.M.out.valEx = false
  xNzcv : xNzcv u = xNzcv s
  mIn : (mIn ec s).Twin (mIn ec u)
  wQuiet : s.W.out.status.isError = false
  behind : Undrained s u ∨ Drained ec s u

/-- The access in M does not fail, if there is one. -/
structure Machine.Sound (s : Machine) : Prop where
  status : s.M.out.status.isError = false
  access : accessFaults s.mem s.M.out = false

theorem accesses_alike (hs : s.WellFormed ec) (ht : t.WellFormed ec) (h : s.M.out.Alike t.M.out) :
    t.accesses = s.accesses := by
  rw [Machine.accesses, Machine.accesses, hs.m.access.1, hs.m.access.2, ht.m.access.1,
    ht.m.access.2, h.op]

/-- An access is made by an instruction that is not idle. -/
theorem not_idle_of_accesses (hs : s.WellFormed ec) (h : s.accesses = true) :
    s.M.out.op.idle = false := by
  rw [Machine.accesses, hs.m.access.1, hs.m.access.2, Bool.or_eq_true, decide_eq_true_eq,
    decide_eq_true_eq] at h
  rcases h with h | h <;> rw [h] <;> rfl

/-- Behind an access the run goes on. -/
theorem goesOn_of_accesses (hs : s.WellFormed ec) (h : s.HaltsLast) (hacc : s.accesses = true)
    (hq : s.W.out.status.isError = false) : s.W.out.status.goesOn = true := by
  have hidle := not_idle_of_accesses hs hacc
  have hne : s.W.out.status ≠ .hlt := by
    intro hW
    rcases h.w hW with hM | hM
    · rw [hs.m.status.of_hlt hM] at hidle
      cases hidle
    · rw [hs.m.status.of_bub hM] at hidle
      cases hidle
  exact goesOn_of_not_hlt hq hne

namespace CatchingUp

variable (h : CatchingUp ec g c s v u)
include h

theorem wQuiet' : u.W.out.status.isError = false := by
  rcases h.behind with hb | hb
  · rw [hb.w.status]
    exact h.wQuiet
  · rw [hb.w]
    rfl

theorem flagsApart' : u.X.out.FlagsApart := by
  intro hset
  rw [h.x.eq ?_]
  · refine h.flagsApart ?_
    rw [← setFlags_alike h.x.toAlike h.sOk.x h.uOk.x]
    exact hset
  · rw [← h.x.op]
    exact h.uOk.x.not_idle (Or.inl hset)

/-! What `u` has when its W has written back is what `s` has then. -/

theorem retire_eq : retire u.regs u.W.out = retire s.regs s.W.out := by
  rcases h.behind with hb | hb
  · rw [hb.regs, hb.w.retire h.sOk.w h.uOk.w]
  · rw [hb.w, hb.regs]
    rfl

theorem regWrites_eq :
    u.regWrites ++ retireWrites u.W.out = s.regWrites ++ retireWrites s.W.out := by
  rcases h.behind with hb | hb
  · rw [hb.regWrites, hb.w.retireWrites h.sOk.w h.uOk.w]
  · rw [hb.w, hb.regWrites]
    exact List.append_nil _

theorem NZCV_eq :
    (if !s.deassertFlags && s.X.out.xSigs.setFlags then ChArm.xNzcv s else u.NZCV) =
      if !s.deassertFlags && s.X.out.xSigs.setFlags then ChArm.xNzcv s else s.NZCV := by
  split_ifs with hl
  · rfl
  · rcases h.behind with hb | hb
    · exact hb.NZCV
    · rw [hb.NZCV, if_neg hl]

/-- The instruction in D, if it is not idle, has the same sources. -/
theorem sources (hidle : s.D.out.op.idle = false) :
    (decoded ec u).2 = (decoded ec s).2 := by
  have hsame := congrArg Prod.snd
    (decode_handled h.sOk.d hidle (u.locals u.numInstr) (s.locals s.numInstr) s.regs).1
  rw [decoded, decoded, h.d.eq hidle]
  exact hsame

theorem readsBehindW_eq (hW : s.W.out.Alike u.W.out) :
    readsBehindW ec u = readsBehindW ec s := by
  unfold readsBehindW
  rw [h.d.op]
  cases hidle : s.D.out.op.idle with
  | true => rfl
  | false =>
    have hen : u.W.out.wSigs.wEnable = s.W.out.wSigs.wEnable := by
      rw [hW.wSigs h.sOk.w h.uOk.w]
    have hwrites : ∀ src, (u.W.out.wSigs.wEnable && u.W.out.dst == src) =
        (s.W.out.wSigs.wEnable && s.W.out.dst == src) := by
      intro src
      rw [hen]
      cases hs : s.W.out.wSigs.wEnable with
      | false => rfl
      | true => rw [hW.dst (h.sOk.w.not_idle hs)]
    simp only [h.sources hidle, hwrites]

/-- **A waiting cycle** drains W and changes nothing else that counts. -/
theorem wait (hd : 1 ≤ g.d) (hv : wires ec s = .ok v) (hsl : u.Seamless ec) (hw : u.waits = true) :
    ∃ u', cycle ec u = .ok u' ∧ CatchingUp ec g c s v u' ∧ u'.running = true ∧
      u'.mem.waits g c u.M.out.valEx + 1 = u.mem.waits g c u.M.out.valEx ∧ u'.M.out = u.M.out := by
  obtain ⟨d, pt, hf, hd', hm, hm₁⟩ := exists_fetch h.toSameFront h.fetch h.mirrors hv hsl.fetch
  obtain ⟨w, hwires, hwd, hwst, hwpc, hmem, hs, hstall, hwaits⟩ :=
    exists_wait hd hf hm h.uOk h.wQuiet' (hsl.error hw) hw
  obtain ⟨hagain, hmagain⟩ := execute_again h.flagsApart' hstall.x
  -- D, X and M stall, so they hold what they held
  have hfront : SameFront s (next ec u w) :=
    ⟨hstall.d ▸ h.d, hstall.x ▸ h.x, hstall.m ▸ h.m, hstall.predPC.trans h.predPC,
      hstall.deassertFlags.trans h.deassertFlags⟩
  have hacc : s.accesses = true := by
    rw [← accesses_alike h.sOk h.uOk h.m.toAlike]
    exact accesses_of_waits hw
  have haddr : s.M.out.valEx = u.M.out.valEx := by
    rw [h.m.eq (not_idle_of_accesses h.sOk hacc)]
  have hgoes := goesOn_of_accesses h.sOk h.haltsLast hacc h.wQuiet
  have hxQuiet : s.X.out.status.isError = false := by
    rw [← h.x.status]
    exact hsl.error hw
  have hin : (next ec u w).F.inp.status = v.fStatus := hwst
  refine ⟨next ec u w, by rw [cycle_eq, hwires]; rfl, ⟨hfront, h.sOk, h.uOk.next hwires, h.haltsLast,
    h.flagsApart, ?_, hmem, Or.inr ⟨hacc, by rw [haddr]; exact hs⟩, hagain.trans h.xNzcv,
    hmagain ▸ h.mIn, h.wQuiet, Or.inr ⟨hstall.w, hstall.regs.trans h.retire_eq,
    hstall.regWrites.trans h.regWrites_eq, ?_, hgoes, hxQuiet, ?_⟩⟩, ?_, hwaits, hstall.m⟩
  · -- fetch delivers an `HLT` in both machines or in neither
    by_cases hst : v.fStatus = .hlt
    · refine Or.inl ⟨hst, ?_, ?_, hwpc, hm.agree.trans hm₁.agree.symm⟩
      · rw [fetchHalts, hin, hst]
        exact Bool.or_true _
      · change w.d.seqSuccPC = _
        rw [hwd]
        exact hd'.succ
    · rcases fetch_inv hv with ⟨-, -, hst', -⟩ | ⟨hs, -⟩
      · exact absurd hst' hst
      · refine Or.inr ⟨hs, ?_⟩
        rw [fetchHalts, Bool.or_eq_false_iff] at hs ⊢
        rw [hfront.fetchPC, hin]
        exact ⟨hs.1, beq_eq_false_iff_ne.2 hst⟩
  · rw [hstall.NZCV, h.deassertFlags, setFlags_alike h.x.toAlike h.sOk.x h.uOk.x, h.xNzcv, h.NZCV_eq]
  · rcases h.behind with hb | hb
    · rw [← h.readsBehindW_eq hb.w]
      exact hsl.operands hw
    · exact hb.behind
  · change (next ec u w).status.goesOn = true
    rw [hstall.status]
    rcases h.behind with hb | hb
    · rw [hb.w.status]
      exact hgoes
    · rw [hb.w]
      rfl

end CatchingUp

/-! ## The access is done -/

/-- An access that need not wait has its block within reach. -/
theorem waitsFor_eq_false (hs : s.WellFormed ec) (hu : u.WellFormed ec)
    (hM : s.M.out.Alike u.M.out) (hseg : u.mem.segStart = s.mem.segStart) (hsound : s.Sound)
    (hno : u.waits = false) (hacc : s.accesses = true) :
    u.mem.waitsFor s.M.out.valEx = false := by
  have hMeq := hM.eq (not_idle_of_accesses hs hacc)
  have he : dmemErr u.mem u.M.out.valEx = false := by
    have hf := hsound.access
    rw [accessFaults, show (s.M.out.mSigs.dmemRead || s.M.out.mSigs.dmemWrite) = true from hacc,
      Bool.true_and] at hf
    rw [hMeq, dmemErr_congr hseg, hf]
  rw [Machine.waits, accesses_alike hs hu hM, hacc, he, hMeq, hsound.status] at hno
  exact hno

/-- The access of the instruction in M, once it need not wait. -/
theorem exists_access {fMem : Memory} (hs : s.WellFormed ec) (hu : u.WellFormed ec)
    (hM : s.M.out.Alike u.M.out) (hm : Memory.Mirrors g c v.fMem fMem) (hv : wires ec s = .ok v)
    (hsound : s.Sound)
    (hready : fMem.dmemStatus = .ready ∨ s.accesses = true ∧ isSpecialAddr s.M.out.valEx = false)
    (hno : s.accesses = true → fMem.waitsFor s.M.out.valEx = false) :
    ∃ c' val mem, dmem fMem u.M.out.valEx u.M.out.valB u.M.out.mSigs.dmemRead u.M.out.mSigs.dmemWrite
        u.W.inp.valMem = .ok (val, false, mem) ∧
      Memory.Mirrors g c' v.mem mem ∧ mem.dmemStatus = .ready ∧
      (s.M.out.op = .ldur → val = v.valMem) := by
  have hdm := (wires_inv hv).2
  rw [(memErr_eq hs hv).trans hsound.access] at hdm
  have hacc := accesses_alike hs hu hM
  cases hsacc : s.accesses with
  | false =>
    rw [hsacc] at hready
    rw [hsacc, Machine.accesses, Bool.or_eq_false_iff] at hacc
    rw [Machine.accesses, Bool.or_eq_false_iff] at hsacc
    rw [hsacc.1, hsacc.2] at hdm
    obtain ⟨-, hmem⟩ := by simpa [dmem] using hdm
    refine ⟨c, u.W.inp.valMem, fMem, ?_, hmem ▸ hm,
      hready.resolve_right fun hc => Bool.false_ne_true hc.1, fun hop => ?_⟩
    · rw [hacc.1, hacc.2]
      rfl
    · rw [hs.m.access.1, hop] at hsacc
      cases hsacc.1
  | true =>
    obtain ⟨c', val, mem, hdm', hmir, hrd, hval⟩ := hm.dmem_ready u.W.inp.valMem hs.m.not_both
      (fun _ => hno hsacc) (hready.imp_right fun hc => ⟨hsacc, hc.2⟩) hdm
    refine ⟨c', val, mem, ?_, hmir, hrd, fun hop => hval (by rw [hs.m.access.1, hop]; rfl)⟩
    rw [hM.eq (not_idle_of_accesses hs hsacc)]
    exact hdm'

/-- The wires `w` deliver what `v` delivers in `s`, and the cache is `c` then. -/
structure SameWork (g : Geometry) (c : Cache) (s : Machine) (v w : Wires) : Prop where
  d : v.d.Twin w.d
  fStatus : w.fStatus = v.fStatus
  fPC : w.fPC = v.fPC
  memErr : w.memErr = v.memErr
  valMem : s.M.out.op = .ldur → w.valMem = v.valMem
  mirrors : Memory.Mirrors g c v.mem w.mem
  ready : w.mem.dmemStatus = .ready

namespace CatchingUp

variable (h : CatchingUp ec g c s v u)
include h

/-- **The cycle in which the access is done** does the work of the machine without a cache. -/
theorem exists_work (hv : wires ec s = .ok v) (hs : s.Sound) (hsl : u.Seamless ec)
    (hno : u.waits = false) : ∃ c' w, wires ec u = .ok w ∧ SameWork g c' s v w := by
  obtain ⟨d, pt, hf, hd', hm, hm₁⟩ := exists_fetch h.toSameFront h.fetch h.mirrors hv hsl.fetch
  obtain ⟨c', val, mem, hdm, hmir, hrd, hval⟩ :=
    exists_access h.sOk h.uOk h.m.toAlike hm₁ hv hs h.ready fun hacc =>
      waitsFor_eq_false h.sOk h.uOk h.m.toAlike h.mirrors.agree.segStart hs hno hacc
  exact ⟨c', _, wires_eq hf hdm, hd', rfl, rfl, ((memErr_eq h.sOk hv).trans hs.access).symm, hval, hmir,
    hrd⟩

/-! What the stages behind D hand on. -/

theorem wIn_alike (hw : SameWork g c' s v w) : (wIn s v).Alike (wIn u w) :=
  ChArm.wIn_alike h.m.toAlike hw.memErr fun hop _ => hw.valMem hop

/-- A source of the instruction in D has the same value whether W still has to write it or has done
so. -/
theorem operand_drained (hb : Drained ec s u) (hval : s.M.out.op = .ldur → w.valMem = v.valMem)
    (hidle : s.D.out.op.idle = false) {src : RegNum}
    (hmem : src = (decoded ec s).2.1 ∨ src = (decoded ec s).2.2) (hsrc : src ≤ XZR_NUM) :
    operand ec u w src (readReg u.regs src) = operand ec s v src (readReg s.regs src) := by
  have hX := (forwardX_alike h.sOk h.uOk h.x.toAlike h.mIn.toAlike).forwards src
  have hM := (forwardM_alike h.sOk h.uOk h.m.toAlike hval).forwards src
  have hW : (forwardW u).forwards src = false := by
    rw [forwardW, wOut_eq h.uOk.w, hb.w]
    rfl
  have hsp : src = SP_NUM ∨ src = XZR_NUM → (s.W.out.wSigs.wEnable && s.W.out.dst == src) = false := by
    intro hsp
    have hno := hb.behind
    rw [readsBehindW, hidle, Bool.not_false, Bool.true_and, List.any_eq_false] at hno
    have := hno src (by rcases hmem with h | h <;> simp [h])
    have hsp' : (src == SP_NUM || src == XZR_NUM) = true := by
      rcases hsp with h | h <;> simp [h]
    rwa [hsp', Bool.true_and, Bool.not_eq_true] at this
  have hWs : (forwardW s).forwards src = true ↔
      s.W.out.wSigs.wEnable = true ∧ s.W.out.dst = src ∧ src ≠ XZR_NUM := by
    rw [forwardW, wOut_eq h.sOk.w]
    exact forwards_iff (p := ⟨s.W.out.wSigs.wEnable, s.W.out.dst, wVal s⟩) hsp
  have hread := readReg_retire h.sOk.w h.wQuiet s.regs hsrc
  unfold operand forwardOne
  rw [hX.1, hM.1, hW, if_neg Bool.false_ne_true, hb.regs, hread]
  split_ifs with h1 h2 h3 h4 h4
  · exact hX.2 h1
  · exact hM.2 h2
  · rw [forwardW, wVal, wOut_eq h.sOk.w]
    rfl
  · exact absurd (hWs.2 h3) h4
  · exact absurd (hWs.1 h4) h3
  · rfl

theorem operand_eq (hval : s.M.out.op = .ldur → w.valMem = v.valMem)
    (hidle : s.D.out.op.idle = false) {src : RegNum}
    (hmem : src = (decoded ec s).2.1 ∨ src = (decoded ec s).2.2) (hsrc : src ≤ XZR_NUM) :
    operand ec u w src (readReg u.regs src) = operand ec s v src (readReg s.regs src) := by
  rcases h.behind with hb | hb
  · rw [hb.regs]
    exact operand_alike h.sOk h.uOk h.x.toAlike h.m.toAlike hb.w h.mIn.toAlike hval h.wQuiet src _
  · exact h.operand_drained hb hval hidle hmem hsrc

/-- **Decode and forwarding** hand on the same. -/
theorem xIn_twin (hval : s.M.out.op = .ldur → w.valMem = v.valMem) :
    (xIn ec s v).Twin (xIn ec u w) := by
  refine ⟨xIn_alike h.d.toAlike fun hidle => ?_, h.d.succ⟩
  have hread : ∀ {k : Machine}, k.D.out = s.D.out →
      (decoded ec k).1.valA = readReg k.regs (decoded ec k).2.1 ∧
        (decoded ec k).1.valB = readReg k.regs (decoded ec k).2.2 := by
    intro k hk
    have hbub : s.D.out.status ≠ .bub := fun hb => by
      rw [h.sOk.d.status.of_bub hb] at hidle
      cases hidle
    have hnop : s.D.out.op ≠ .nop := fun hop => by
      rw [hop] at hidle
      cases hidle
    obtain ⟨-, h1, h2⟩ := decode_handled h.sOk.d hidle (k.locals k.numInstr) (k.locals k.numInstr) k.regs
    rw [← hk] at h1 h2 hbub hnop
    have hA := readPort_eq_readReg (k.locals k.numInstr) k.regs h1
    have hB := readPort_eq_readReg (k.locals k.numInstr) k.regs h2
    simp only [decode, decoded, if_neg (not_or.2 ⟨hbub, hnop⟩)] at hA hB ⊢
    exact ⟨hA, hB⟩
  have hD := h.d.eq hidle
  obtain ⟨hA, hB⟩ := hread (k := u) hD
  obtain ⟨hA', hB'⟩ := hread (k := s) rfl
  obtain ⟨hsame, h1, h2⟩ := decode_handled h.sOk.d hidle (s.locals s.numInstr) (u.locals u.numInstr)
    s.regs
  have hsrc := h.sources hidle
  have hopA := h.operand_eq (w := w) hval hidle (Or.inl rfl) h1
  have hopB := h.operand_eq (w := w) hval hidle (Or.inr rfl) h2
  have hfields : ∀ a b, ({ (decoded ec u).1 with valA := a, valB := b } : XInstr) =
      { (decoded ec s).1 with valA := a, valB := b } := by
    intro a b
    rw [decoded, decoded, hD]
    exact congrArg (fun r => { r.1 with valA := a, valB := b }) hsame.symm
  rw [xIn, xIn, hA, hB, hA', hB', hsrc, hopA, hopB, hfields]

end CatchingUp

end Pair

end ChArm
