import ChArm.Base.Agree
import ChArm.Pipe.Operands

/-!
# Alike pipeline registers

Two machines whose pipelines hold the same instructions.  `NOP`, `HLT` and undecodable words compute
nothing that is used, so of these only the operation and the status have to be equal, and the
address of the next instruction unless it is an `HLT`, whose made-up form keeps an old one.
Alike registers go through a cycle alike.

* `wires_both` — alike instructions in M do the same to memory.
* `operand_alike`, `decoded_alike` — what goes on from D to X.
* `hazardOf_alike` — what hazard control decides.
-/

namespace ChArm

/-! ## Idle instructions -/

/-- The operations whose results no stage uses. -/
def Opcode.idle (op : Opcode) : Bool := op = .nop ∨ op = .hlt ∨ op = .error

theorem generateDXMWControl_idle (ec : Bool) {op : Opcode} (h : op.idle = true) :
    generateDXMWControl ec op = (.zero, .zero, .zero) := by
  cases op <;> first | (cases ec <;> rfl) | cases h

/-- An operation that does something to a register, the flags or memory is not idle. -/
theorem not_idle_of (ec : Bool) {op : Opcode} (h : generateDXMWControl ec op ≠ (.zero, .zero, .zero)) :
    op.idle = false := by
  by_contra hi
  exact h (generateDXMWControl_idle ec (Bool.not_eq_false _ ▸ hi))

/-! ## Alike registers -/

structure DInstr.Alike (d d' : DInstr) : Prop where
  op : d'.op = d.op
  status : d'.status = d.status
  seqSuccPC : d.op ≠ .hlt → d'.seqSuccPC = d.seqSuccPC
  eq : d.op.idle = false → d' = d

structure XInstr.Alike (x x' : XInstr) : Prop where
  op : x'.op = x.op
  status : x'.status = x.status
  seqSuccPC : x.op ≠ .hlt → x'.seqSuccPC = x.seqSuccPC
  eq : x.op.idle = false → x' = x

structure MInstr.Alike (i i' : MInstr) : Prop where
  op : i'.op = i.op
  status : i'.status = i.status
  seqSuccPC : i.op ≠ .hlt → i'.seqSuccPC = i.seqSuccPC
  eq : i.op.idle = false → i' = i

/-- In W the loaded value counts only for a load that has not faulted. -/
structure WInstr.Alike (i i' : WInstr) : Prop where
  op : i'.op = i.op
  status : i'.status = i.status
  dst : i.op.idle = false → i'.dst = i.dst
  valEx : i.op.idle = false → i'.valEx = i.valEx
  valMem : i.op = .ldur → i.status.isError = false → i'.valMem = i.valMem

theorem DInstr.Alike.refl (d : DInstr) : d.Alike d := ⟨rfl, rfl, fun _ => rfl, fun _ => rfl⟩

theorem XInstr.Alike.refl (x : XInstr) : x.Alike x := ⟨rfl, rfl, fun _ => rfl, fun _ => rfl⟩

theorem MInstr.Alike.refl (i : MInstr) : i.Alike i := ⟨rfl, rfl, fun _ => rfl, fun _ => rfl⟩

theorem WInstr.Alike.refl (i : WInstr) : i.Alike i :=
  ⟨rfl, rfl, fun _ => rfl, fun _ => rfl, fun _ _ => rfl⟩

/-! ## Write-back -/

theorem WInstr.Alike.wSigs {ec : Bool} {i i' : WInstr} (h : i.Alike i') (hi : i.Ok ec)
    (hi' : i'.Ok ec) : i'.wSigs = i.wSigs := by
  rw [hi.sigs, hi'.sigs, h.op]

theorem WInstr.Ok.wvalSel {ec : Bool} {i : WInstr} (h : i.Ok ec) :
    i.wSigs.wvalSel = decide (i.op = .ldur) := by
  rw [h.sigs]
  rfl

theorem WInstr.Ok.not_idle {ec : Bool} {i : WInstr} (h : i.Ok ec) (hen : i.wSigs.wEnable = true) :
    i.op.idle = false := by
  refine not_idle_of ec fun hz => ?_
  rw [h.sigs, hz] at hen
  cases hen

/-- A write that is performed is the same. -/
theorem WInstr.Alike.wback {ec : Bool} {i i' : WInstr} (h : i.Alike i') (hi : i.Ok ec)
    (hi' : i'.Ok ec) : writeEnable i' = writeEnable i ∧
      (writeEnable i = true → wbackDst i' = wbackDst i ∧ wbackVal i' = wbackVal i) := by
  have hs := h.wSigs hi hi'
  refine ⟨by rw [writeEnable, writeEnable, hs, h.status], fun hen => ?_⟩
  rw [writeEnable, Bool.and_eq_true, beq_iff_eq] at hen
  have hidle := hi.not_idle hen.1
  refine ⟨by rw [wbackDst, wbackDst, hs, h.dst hidle], ?_⟩
  rw [wbackVal, wbackVal, hs, h.valEx hidle]
  by_cases hsel : i.wSigs.wvalSel = true
  · have hop : i.op = .ldur := by
      rw [hi.wvalSel] at hsel
      exact of_decide_eq_true hsel
    rw [if_pos hsel, if_pos hsel, h.valMem hop (by rw [hen.2]; rfl)]
  · rw [if_neg hsel, if_neg hsel]

theorem regfileWrite_disabled (r : Regs) (dst : RegNum) (val : Word) :
    regfileWrite r dst val false = r := rfl

theorem regWriteOf_disabled (dst : RegNum) (val : Word) : regWriteOf dst val false = [] := rfl

theorem WInstr.Alike.retire {ec : Bool} {i i' : WInstr} (h : i.Alike i') (hi : i.Ok ec)
    (hi' : i'.Ok ec) (r : Regs) : ChArm.retire r i' = ChArm.retire r i := by
  obtain ⟨hen, heq⟩ := h.wback hi hi'
  unfold ChArm.retire
  cases he : writeEnable i with
  | false => rw [hen, he, regfileWrite_disabled, regfileWrite_disabled]
  | true => rw [hen, he, (heq he).1, (heq he).2]

/-- The register writes an instruction in W performs. -/
def retireWrites (i : WInstr) : List (RegNum × Word) :=
  regWriteOf (wbackDst i) (wbackVal i) (writeEnable i)

theorem WInstr.Alike.retireWrites {ec : Bool} {i i' : WInstr} (h : i.Alike i') (hi : i.Ok ec)
    (hi' : i'.Ok ec) : ChArm.retireWrites i' = ChArm.retireWrites i := by
  obtain ⟨hen, heq⟩ := h.wback hi hi'
  unfold ChArm.retireWrites
  cases he : writeEnable i with
  | false => rw [hen, he, regWriteOf_disabled, regWriteOf_disabled]
  | true => rw [hen, he, (heq he).1, (heq he).2]

theorem next_regWrites {ec : Bool} {s : Machine} (hw : s.WellFormed ec) (v : Wires) :
    (next ec s v).regWrites = s.regWrites ++ retireWrites s.W.out := by
  simp only [next, wVal, wOut_eq hw.w, retireWrites, wbackDst_eq hw.w]
  rfl

/-! ## Execute and memory -/

theorem xNzcv_of_not_setFlags {s : Machine} (h : s.X.out.xSigs.setFlags = false) :
    xNzcv s = s.xNzcvval := by
  simp only [xNzcv, executeAlu, alu, h, Bool.false_eq_true, if_false]

theorem XInstr.Ok.not_idle {ec : Bool} {x : XInstr} (h : x.Ok ec)
    (hs : x.xSigs.setFlags = true ∨ x.wSigs.wEnable = true) : x.op.idle = false := by
  refine not_idle_of ec fun hz => ?_
  have hsig := h.sigs
  rw [hz, Prod.mk.injEq, Prod.mk.injEq] at hsig
  rw [hsig.1, hsig.2.2] at hs
  rcases hs with hs | hs <;> cases hs

theorem MInstr.Ok.not_idle {ec : Bool} {i : MInstr} (h : i.Ok ec) (hs : i.wSigs.wEnable = true) :
    i.op.idle = false := by
  refine not_idle_of ec fun hz => ?_
  rw [show i.wSigs = _ from congrArg Prod.snd h.sigs, hz] at hs
  cases hs

section Pair

variable {ec : Bool} {s t : Machine} {v w : Wires}

theorem mIn_alike (ec : Bool) (hX : s.X.out.Alike t.X.out) (hn : t.xNzcvval = s.xNzcvval) :
    (mIn ec s).Alike (mIn ec t) := by
  refine ⟨hX.op, hX.status, hX.seqSuccPC, fun hidle => ?_⟩
  rw [mIn, mIn, hX.eq hidle, hn, execute_rca ec t.rca s.rca]

theorem setFlags_alike (hX : s.X.out.Alike t.X.out) (hs : s.X.out.Ok ec) (ht : t.X.out.Ok ec) :
    t.X.out.xSigs.setFlags = s.X.out.xSigs.setFlags := by
  rw [show t.X.out.xSigs = _ from congrArg Prod.fst ht.sigs,
    show s.X.out.xSigs = _ from congrArg Prod.fst hs.sigs, hX.op]

theorem xNzcv_alike (hX : s.X.out.Alike t.X.out) (hs : s.X.out.Ok ec) (ht : t.X.out.Ok ec)
    (hn : t.xNzcvval = s.xNzcvval) : xNzcv t = xNzcv s := by
  have hset := setFlags_alike hX hs ht
  cases hf : s.X.out.xSigs.setFlags with
  | false => rw [xNzcv_of_not_setFlags (hset.trans hf), xNzcv_of_not_setFlags hf, hn]
  | true => rw [xNzcv, xNzcv, hX.eq (hs.not_idle (Or.inl hf)), hn, (executeAlu_rca _ _ _ _).2.2]

theorem wIn_alike (hM : s.M.out.Alike t.M.out) (herr : w.memErr = v.memErr)
    (hval : s.M.out.op = .ldur → v.memErr = false → w.valMem = v.valMem) :
    (wIn s v).Alike (wIn t w) := by
  refine ⟨hM.op, ?_, fun hidle => ?_, fun hidle => ?_, fun hop hst => hval hop ?_⟩
  · simp only [wIn, herr, hM.status]
  · exact congrArg MInstr.dst (hM.eq hidle)
  · exact congrArg MInstr.valEx (hM.eq hidle)
  · by_contra he
    rw [Bool.not_eq_false] at he
    rw [wIn, he, if_pos rfl] at hst
    cases hst

/-- Alike instructions in M access memory alike. -/
theorem wires_both {p : Word → Prop} (hs : s.WellFormed ec) (ht : t.WellFormed ec)
    (hsm : s.mem.Uncached) (htm : t.mem.Uncached) (hM : s.M.out.Alike t.M.out)
    (heff : s.mem.SameEffects t.mem) (hv : wires ec s = .ok v) :
    ∃ w, wires ec t = .ok w ∧ w.memErr = v.memErr ∧ v.mem.SameEffects w.mem ∧
      (v.fMem.Agree p w.fMem → v.mem.Agree p w.mem ∧
        ((∀ a, p a → addrInImem v.fMem a = true) → s.M.out.op = .ldur → v.memErr = false →
          w.valMem = v.valMem)) := by
  obtain ⟨d, fStatus, fPC, fMem, hf, hfm, hfeff⟩ := exists_fetchWires ec htm
  have hvm := (uncached_of_wires hs hsm hv).1
  have hfmem : v.fMem.SameEffects fMem :=
    ((fetch_keeps (p := p) hsm hv).1.symm.trans heff).trans hfeff
  cases hidle : s.M.out.op.idle with
  | true =>
    have hidle' : t.M.out.op.idle = true := by rw [hM.op, hidle]
    have hno : ∀ {u : Machine}, u.WellFormed ec → u.M.out.op.idle = true →
        u.M.out.mSigs.dmemRead = false ∧ u.M.out.mSigs.dmemWrite = false := by
      intro u hu hi
      have hsig := hu.m.sigs
      rw [generateDXMWControl_idle ec hi, Prod.mk.injEq] at hsig
      rw [hsig.1]
      exact ⟨rfl, rfl⟩
    obtain ⟨hr, hwr⟩ := hno hs hidle
    obtain ⟨hr', hwr'⟩ := hno ht hidle'
    have hd := (wires_inv hv).2
    rw [hr, hwr] at hd
    obtain ⟨-, he, hm⟩ := by simpa [dmem] using hd
    refine ⟨⟨d, fStatus, fPC, fMem, t.W.inp.valMem, false, fMem⟩, wires_eq hf ?_, he.symm,
      hm ▸ hfmem, fun hag => ⟨hm ▸ hag, fun _ hop => ?_⟩⟩
    · rw [hr', hwr']
      rfl
    · rw [hop] at hidle
      cases hidle
  | false =>
    obtain ⟨v', m', hd, heff', hag⟩ := dmem_both (p := p) t.W.inp.valMem hs.m.not_both hvm hfm hfmem
      (wires_inv hv).2
    refine ⟨_, wires_eq hf ?_, rfl, heff', fun h => ⟨(hag h).1, fun hp hop => (hag h).2 hp ?_⟩⟩
    · rw [hM.eq hidle]
      exact hd
    · rw [hs.m.access.1, hop]
      rfl

/-! ## Forwarding -/

/-- Two producers that forward alike. -/
structure Producer.Alike (p p' : Producer) : Prop where
  wEnable : p'.wEnable = p.wEnable
  eq : p.wEnable = true → p' = p

theorem Producer.Alike.forwards {p p' : Producer} (h : p.Alike p') (src : RegNum) :
    p'.forwards src = p.forwards src ∧ (p.forwards src = true → p'.value = p.value) := by
  cases hen : p.wEnable with
  | false =>
    have hno : p.forwards src = false := by simp [Producer.forwards, hen]
    have hno' : p'.forwards src = false := by simp [Producer.forwards, h.wEnable, hen]
    exact ⟨hno'.trans hno.symm, fun hf => absurd (hno.symm.trans hf) (by decide)⟩
  | true => rw [h.eq hen]; exact ⟨rfl, fun _ => rfl⟩

theorem forwardOne_alike {x m p x' m' p' : Producer} (hx : x.Alike x') (hm : m.Alike m')
    (hp : p.Alike p') (src : RegNum) (val : Word) :
    forwardOne x' m' p' src val = forwardOne x m p src val := by
  unfold forwardOne
  rw [(hx.forwards src).1, (hm.forwards src).1, (hp.forwards src).1]
  split_ifs with h1 h2 h3
  · exact (hx.forwards src).2 h1
  · exact (hm.forwards src).2 h2
  · exact (hp.forwards src).2 h3
  · rfl

theorem forwardX_alike (hs : s.WellFormed ec) (ht : t.WellFormed ec) (hX : s.X.out.Alike t.X.out)
    (hm : (mIn ec s).Alike (mIn ec t)) : (forwardX ec s).Alike (forwardX ec t) := by
  refine ⟨?_, fun hen => ?_⟩
  · change t.X.out.wSigs.wEnable = s.X.out.wSigs.wEnable
    rw [show t.X.out.wSigs = _ from congrArg (fun x => x.2.2) ht.x.sigs,
      show s.X.out.wSigs = _ from congrArg (fun x => x.2.2) hs.x.sigs, hX.op]
  · have hidle := hs.x.not_idle (Or.inr hen)
    rw [forwardX, forwardX, hX.eq hidle, hm.eq hidle]

theorem forwardM_alike (hs : s.WellFormed ec) (ht : t.WellFormed ec) (hM : s.M.out.Alike t.M.out)
    (hval : s.M.out.op = .ldur → w.valMem = v.valMem) :
    (forwardM s v).Alike (forwardM t w) := by
  refine ⟨?_, fun hen => ?_⟩
  · change t.M.out.wSigs.wEnable = s.M.out.wSigs.wEnable
    rw [show t.M.out.wSigs = _ from congrArg Prod.snd ht.m.sigs,
      show s.M.out.wSigs = _ from congrArg Prod.snd hs.m.sigs, hM.op]
  · rw [forwardM, forwardM, hM.eq (hs.m.not_idle hen)]
    by_cases hsel : s.M.out.wSigs.wvalSel = true
    · have hop : s.M.out.op = .ldur := by
        rw [show s.M.out.wSigs = _ from congrArg Prod.snd hs.m.sigs] at hsel
        exact of_decide_eq_true hsel
      rw [if_pos hsel, if_pos hsel, hval hop]
    · rw [if_neg hsel, if_neg hsel]

theorem forwardW_alike (hs : s.WellFormed ec) (ht : t.WellFormed ec) (hW : s.W.out.Alike t.W.out)
    (herr : s.W.out.status.isError = false) : (forwardW s).Alike (forwardW t) := by
  refine ⟨?_, fun hen => ?_⟩
  · change (wOut t).wSigs.wEnable = (wOut s).wSigs.wEnable
    rw [wOut_eq hs.w, wOut_eq ht.w, hW.wSigs hs.w ht.w]
  · rw [forwardW, wOut_eq hs.w] at hen
    have hidle := hs.w.not_idle hen
    simp only [forwardW, wVal, wOut_eq hs.w, wOut_eq ht.w, hW.wSigs hs.w ht.w, hW.dst hidle,
      hW.valEx hidle]
    by_cases hsel : s.W.out.wSigs.wvalSel = true
    · have hop : s.W.out.op = .ldur := by
        rw [hs.w.wvalSel] at hsel
        exact of_decide_eq_true hsel
      rw [if_pos hsel, if_pos hsel, hW.valMem hop herr]
    · rw [if_neg hsel, if_neg hsel]

/-- Alike pipelines behind D forward the same operands, if nothing in them has faulted. -/
theorem operand_alike (hs : s.WellFormed ec) (ht : t.WellFormed ec) (hX : s.X.out.Alike t.X.out)
    (hM : s.M.out.Alike t.M.out) (hW : s.W.out.Alike t.W.out)
    (hm : (mIn ec s).Alike (mIn ec t)) (hval : s.M.out.op = .ldur → w.valMem = v.valMem)
    (herr : s.W.out.status.isError = false) (src : RegNum) (val : Word) :
    operand ec t w src val = operand ec s v src val :=
  forwardOne_alike (forwardX_alike hs ht hX hm) (forwardM_alike hs ht hM hval)
    (forwardW_alike hs ht hW herr) src val

/-! ## Decode -/

/-- Alike instructions in D are decoded to alike instructions, once their operands are equal. -/
theorem xIn_alike (hD : s.D.out.Alike t.D.out)
    (heq : s.D.out.op.idle = false → xIn ec t w = xIn ec s v) : (xIn ec s v).Alike (xIn ec t w) :=
  ⟨hD.op, hD.status, hD.seqSuccPC, heq⟩

/-- An instruction with sources that is not idle names them in its word. -/
theorem decoded_alike (ec : Bool) (hD : s.D.out.Alike t.D.out) (hregs : t.regs = s.regs)
    (hl : t.locals t.numInstr = s.locals s.numInstr) (hidle : s.D.out.op.idle = false) :
    decoded ec t = decoded ec s := by
  rw [decoded, decoded, hD.eq hidle, hregs, hl]

/-! ## Hazards -/

/-- The sources load-use detection compares are the same. -/
def SameSources (ec : Bool) (s t : Machine) : Prop :=
  s.D.out.op ∉ [Opcode.nop, .hlt, .movz, .adrp, .b, .bl] → (decoded ec t).2 = (decoded ec s).2

theorem checkLoadUseHazard_alike (hD : s.D.out.Alike t.D.out) (hX : s.X.out.Alike t.X.out)
    (hsrc : SameSources ec s t) :
    (hazards ec t w).loadUse = (hazards ec s v).loadUse := by
  change checkLoadUseHazard t.D.out.op (decoded ec t).2.1 (decoded ec t).2.2 t.X.out.op t.X.out.dst =
    checkLoadUseHazard s.D.out.op (decoded ec s).2.1 (decoded ec s).2.2 s.X.out.op s.X.out.dst
  rw [hD.op, hX.op]
  unfold checkLoadUseHazard
  by_cases hno : s.D.out.op ∈ [Opcode.nop, .hlt, .movz, .adrp, .b, .bl]
  · rw [if_pos hno, if_pos hno]
  · rw [if_neg hno, if_neg hno, hsrc hno]
    by_cases hld : s.X.out.op = .ldur
    · rw [hX.eq (by rw [hld]; rfl)]
    · simp [hld]

/-- **Hazard control decides alike.** -/
theorem hazardOf_alike (hD : s.D.out.Alike t.D.out) (hX : s.X.out.Alike t.X.out)
    (hm : (mIn ec s).Alike (mIn ec t)) (hmem : w.mem.dmemStatus = v.mem.dmemStatus)
    (hwin : (wIn t w).status.isError = (wIn s v).status.isError)
    (hwout : (wOut t).status.isError = (wOut s).status.isError)
    (hlu : (hazards ec t w).loadUse = (hazards ec s v).loadUse) :
    hazardOf ec (hazards ec t w) = hazardOf ec (hazards ec s v) := by
  have hcond : s.X.out.op.idle = false → (mIn ec t).condHolds = (mIn ec s).condHolds :=
    fun hidle => by rw [hm.eq hidle]
  have hmis : checkMispredBranchHazard t.X.out.op (mIn ec t).condHolds =
      checkMispredBranchHazard s.X.out.op (mIn ec s).condHolds := by
    rw [hX.op]
    unfold checkMispredBranchHazard
    by_cases hop : s.X.out.op = .bCond
    · rw [hcond (by rw [hop]; rfl)]
    · simp [hop]
  have hcb : checkCbHazard t.X.out.op (mIn ec t).condHolds =
      checkCbHazard s.X.out.op (mIn ec s).condHolds := by
    rw [hX.op]
    unfold checkCbHazard
    by_cases hop : s.X.out.op = .cbz ∨ s.X.out.op = .cbnz
    · rw [hcond (by rcases hop with hop | hop <;> rw [hop] <;> rfl)]
    · simp [hop]
  unfold HazardIn.loadUse at hlu
  unfold hazardOf
  rw [hlu]
  simp only [hazards, hmem, hwin, hwout, hmis, hcb, hD.op, hX.status]
  rfl

end Pair

end ChArm
