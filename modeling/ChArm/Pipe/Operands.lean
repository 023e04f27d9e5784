import ChArm.Base.Execution

/-!
# Operands

The operands an instruction enters X with, compared with the registers as the
older instructions leave them.  For the general registers forwarding and the
load-use stall always deliver them.  `forward_reg` does not forward to the stack
pointer and does forward to the zero register, so an operand is also right for
these two unless an older instruction still has to write the same number
(`specialHazard`).

* `operand_eq` — what forwarding delivers is what the older instructions leave behind.
* `operandsRight_next` — one cycle.
* `operandsRight_of_no_specialHazard` — every cycle of every run.
-/

namespace ChArm

/-! ## Registers once the older instructions have retired -/

/-- The value a register number stands for. -/
def readReg (r : Regs) (src : RegNum) : Word :=
  if src = XZR_NUM then 0 else if src = SP_NUM then r.SP else r.GPR src

/-- The destination write-back chooses. -/
def wbackDst (w : WInstr) : RegNum := if w.wSigs.dstSel then 30#8 else w.dst

/-- The value write-back chooses. -/
def wbackVal (w : WInstr) : Word := if w.wSigs.wvalSel then w.valMem else w.valEx

/-- The registers once an instruction in W has written back. -/
def retire (r : Regs) (w : WInstr) : Regs :=
  regfileWrite r (wbackDst w) (wbackVal w) (writeEnable w)

/-- What M hands on to W when its load, if it is one, reads `load`. -/
def passMemory (m : MInstr) (load : Word) : WInstr where
  op := m.op
  wSigs := m.wSigs
  dst := m.dst
  valEx := m.valEx
  valMem := load
  status := m.status

/-- The registers once the instructions in W and M have written back. -/
def pendingRegs (s : Machine) (load : Word) : Regs :=
  retire (retire s.regs s.W.out) (passMemory s.M.out load)

/-- If an instruction has just been latched from D into X, its operands are the
values its sources hold once the older instructions, now in M and W, have written
back, whatever a load among them will read. -/
def OperandsRight (s : Machine) : Prop :=
  s.X.ctl = .load → s.X.out.status ≠ .bub → s.X.out.op ≠ .nop → ∀ load,
    (s.dSrc1 ≤ XZR_NUM → s.X.out.valA = readReg (pendingRegs s load) s.dSrc1) ∧
    (s.dSrc2 ≤ XZR_NUM → s.X.out.valB = readReg (pendingRegs s load) s.dSrc2)

/-- There is an instruction in D, and it does not have to wait for a load in X. -/
def leavesD (ec : Bool) (s : Machine) : Bool :=
  s.D.out.status != .bub && s.D.out.op != .nop &&
    !checkLoadUseHazard s.D.out.op (decoded ec s).2.1 (decoded ec s).2.2 s.X.out.op s.X.out.dst

/-- The instruction that leaves D reads SP or XZR and an older one in X, M or W writes that
number. -/
def specialHazard (ec : Bool) (s : Machine) : Bool :=
  leavesD ec s && [(decoded ec s).2.1, (decoded ec s).2.2].any fun src =>
    (src == SP_NUM || src == XZR_NUM) &&
      ((s.X.out.wSigs.wEnable && s.X.out.dst == src) ||
        (s.M.out.wSigs.wEnable && s.M.out.dst == src) ||
        (s.W.out.wSigs.wEnable && s.W.out.dst == src))

/-! ## Writing back and reading -/

theorem readReg_regfileWrite (r : Regs) {dst src : RegNum} (val : Word) (en : Bool)
    (hsrc : src ≤ XZR_NUM) :
    readReg (regfileWrite r dst val en) src =
      if en = true ∧ dst = src ∧ src ≠ XZR_NUM then val else readReg r src := by
  cases en with
  | false => simp [regfileWrite]
  | true =>
    unfold regfileWrite readReg
    by_cases hx : src = XZR_NUM
    · simp [hx]
    · by_cases hs : src = SP_NUM
      · subst hs
        by_cases hd : dst = SP_NUM
        · subst hd
          simp [SP_NUM, XZR_NUM]
        · simp only [if_neg hx, if_true, hd, false_and, and_false, if_false]
          split_ifs <;> rfl
      · have hlt : src < SP_NUM := by
          simp only [XZR_NUM, SP_NUM] at hsrc hx hs ⊢
          bv_omega
        by_cases hd : dst = src
        · subst hd
          simp [hx, hs, hlt]
        · simp only [if_neg hx, if_neg hs, if_true, hd, false_and, and_false, if_false]
          split_ifs with h1 h2
          · exact Function.update_of_ne (Ne.symm hd) _ _
          · rfl
          · rfl

theorem readPort_eq_readReg (l : Locals) (r : Regs) {src : RegNum} (hsrc : src ≤ XZR_NUM) :
    readPort l r src = readReg r src := by
  unfold readPort readReg
  by_cases hx : src = XZR_NUM
  · simp [hx]
  · by_cases hs : src = SP_NUM
    · simp [hs]
    · have hlt : src < 31#8 := by
        simp only [XZR_NUM, SP_NUM] at hsrc hx hs
        bv_omega
      simp [hx, hs, hlt]

/-- An instruction that writes a register and signals no error is `STAT_AOK`. -/
theorem writeEnable_eq {ec : Bool} {w : WInstr} (h : w.Ok ec) (hne : w.status.isError = false) :
    writeEnable w = w.wSigs.wEnable := by
  unfold writeEnable
  by_cases hen : w.wSigs.wEnable = true
  · have hadr : w.status ≠ .adr := fun ha => by simp [ha, Stat.isError] at hne
    have hst := h.status hadr
    have hop : w.op ≠ .nop ∧ w.op ≠ .hlt := by
      rw [h.sigs] at hen
      constructor <;> rintro hop <;> rw [hop] at hen <;> cases ec <;> cases hen
    have : w.status = .aok := by
      cases hs : w.status with
      | aok => rfl
      | bub => exact absurd (hst.of_bub hs) hop.1
      | hlt => exact absurd (hst.of_hlt hs) hop.2
      | adr => exact absurd hs hadr
      | ins => simp [hs, Stat.isError] at hne
    rw [hen, this]
    rfl
  · simp [hen]

theorem wbackDst_eq {ec : Bool} {w : WInstr} (h : w.Ok ec) : wbackDst w = w.dst := by
  unfold wbackDst
  by_cases hsel : w.wSigs.dstSel = true
  · rw [if_pos hsel, h.dst]
    rw [h.sigs] at hsel
    simpa [generateDXMWControl] using hsel
  · rw [if_neg hsel]

/-- Reading a register once an instruction that signals no error has written back. -/
theorem readReg_retire {ec : Bool} {w : WInstr} (h : w.Ok ec) (hne : w.status.isError = false)
    (r : Regs) {src : RegNum} (hsrc : src ≤ XZR_NUM) :
    readReg (retire r w) src =
      if w.wSigs.wEnable = true ∧ w.dst = src ∧ src ≠ XZR_NUM then wbackVal w
      else readReg r src := by
  rw [retire, readReg_regfileWrite r _ _ hsrc, writeEnable_eq h hne, wbackDst_eq h]

theorem passMemory_ok {ec : Bool} {m : MInstr} (h : m.Ok ec) (load : Word) :
    (passMemory m load).Ok ec :=
  ⟨congrArg Prod.snd h.sigs, fun _ => h.status, h.dst⟩

/-! ## Forwarding -/

/-- A producer whose instruction does not write the number does not forward to it. -/
theorem forwards_eq_false {p : Producer} {src : RegNum} (h : (p.wEnable && p.dst == src) = false) :
    p.forwards src = false := by
  simp only [Producer.forwards, h, Bool.false_and]

theorem forwards_eq {p : Producer} {src : RegNum} (h : src ≠ SP_NUM) :
    p.forwards src = (p.wEnable && p.dst == src) := by
  unfold Producer.forwards
  by_cases hd : p.dst = src
  · have : (p.dst != 0x1F#8) = true := by
      rw [hd, bne_iff_ne]
      exact h
    rw [this, Bool.and_true]
  · simp [hd]

/-- Opcodes without source registers read only the zero register. -/
theorem noSources {ec : Bool} {s : Machine} (h : s.D.out.Ok ec) (hst : s.D.out.status ≠ .bub)
    (hop : s.D.out.op ∈ [Opcode.hlt, .movz, .adrp, .b, .bl]) :
    (decoded ec s).2.1 = XZR_NUM ∧ (decoded ec s).2.2 = XZR_NUM := by
  change (extractRegs ec _ _ s.D.out.op s.D.out.format).src1 = _ ∧
    (extractRegs ec _ _ s.D.out.op s.D.out.format).src2 = _
  rw [h.format hst]
  simp only [List.mem_cons, List.not_mem_nil, or_false] at hop
  rcases hop with hop | hop | hop | hop | hop <;> rw [hop] <;> exact ⟨rfl, rfl⟩

/-- No older instruction writes a special register the instruction in D reads. -/
theorem no_special {ec : Bool} {s : Machine} (hs : specialHazard ec s = false)
    (hleaves : leavesD ec s = true) {src : RegNum}
    (hmem : src = (decoded ec s).2.1 ∨ src = (decoded ec s).2.2)
    (hsp : src = SP_NUM ∨ src = XZR_NUM) :
    (s.X.out.wSigs.wEnable && s.X.out.dst == src) = false ∧
      (s.M.out.wSigs.wEnable && s.M.out.dst == src) = false ∧
      (s.W.out.wSigs.wEnable && s.W.out.dst == src) = false := by
  rw [specialHazard, hleaves, Bool.true_and, List.any_eq_false] at hs
  have := hs src (by rcases hmem with h | h <;> simp [h])
  have hsp' : (src == SP_NUM || src == XZR_NUM) = true := by
    rcases hsp with h | h <;> simp [h]
  rw [hsp', Bool.true_and, Bool.not_eq_true, Bool.or_eq_false_iff, Bool.or_eq_false_iff] at this
  exact ⟨this.1.1, this.1.2, this.2⟩

/-- A producer forwards to a source exactly when its write changes what is read there. -/
theorem forwards_iff {p : Producer} {src : RegNum}
    (hsp : src = SP_NUM ∨ src = XZR_NUM → (p.wEnable && p.dst == src) = false) :
    p.forwards src = true ↔ p.wEnable = true ∧ p.dst = src ∧ src ≠ XZR_NUM := by
  by_cases h : src = SP_NUM ∨ src = XZR_NUM
  · rw [forwards_eq_false (hsp h)]
    refine ⟨nofun, fun ⟨hen, hd, _⟩ => ?_⟩
    have := hsp h
    rw [hen, hd] at this
    simp at this
  · rw [not_or] at h
    rw [forwards_eq h.1, Bool.and_eq_true, beq_iff_eq]
    exact ⟨fun ⟨hen, hd⟩ => ⟨hen, hd, h.2⟩, fun ⟨hen, hd, _⟩ => ⟨hen, hd⟩⟩

/-- The load-use stall keeps an instruction out of X while its source is being loaded. -/
theorem ldur_not_source {ec : Bool} {s : Machine} (hw : s.WellFormed ec)
    (hst : s.D.out.status ≠ .bub) (hop : s.D.out.op ≠ .nop)
    (hlu : checkLoadUseHazard s.D.out.op (decoded ec s).2.1 (decoded ec s).2.2 s.X.out.op
      s.X.out.dst = false) (hld : s.X.out.op = .ldur) {src : RegNum}
    (hmem : src = (decoded ec s).2.1 ∨ src = (decoded ec s).2.2) (hx : src ≠ XZR_NUM) :
    s.X.out.dst ≠ src := by
  unfold checkLoadUseHazard at hlu
  by_cases hno : s.D.out.op ∈ [Opcode.nop, .hlt, .movz, .adrp, .b, .bl]
  · obtain ⟨h1, h2⟩ := noSources hw.d hst ((List.mem_cons.1 hno).resolve_left hop)
    rcases hmem with h | h
    · exact absurd (h.trans h1) hx
    · exact absurd (h.trans h2) hx
  · rw [if_neg hno] at hlu
    rintro rfl
    simp [hld] at hlu
    rcases hmem with h | h
    · exact hlu.1 h.symm
    · exact hlu.2 h.symm

/-- What is read after the three older instructions have retired is what forwarding
delivers. -/
theorem operand_eq {ec : Bool} {s : Machine} {v : Wires} (hw : s.WellFormed ec)
    (hx : (hazardOf ec (hazards ec s v)).ctls.x = .load) (hst : s.D.out.status ≠ .bub)
    (hop : s.D.out.op ≠ .nop) {src : RegNum}
    (hmem : src = (decoded ec s).2.1 ∨ src = (decoded ec s).2.2) (hsrc : src ≤ XZR_NUM)
    (hsp : src = SP_NUM ∨ src = XZR_NUM →
      (s.X.out.wSigs.wEnable && s.X.out.dst == src) = false ∧
        (s.M.out.wSigs.wEnable && s.M.out.dst == src) = false ∧
        (s.W.out.wSigs.wEnable && s.W.out.dst == src) = false) (load : Word) :
    operand ec s v src (readReg s.regs src) =
      readReg (retire (retire (retire s.regs s.W.out) (wIn s v)) (passMemory (mIn ec s) load))
        src := by
  obtain ⟨⟨⟨hW, hM, hX⟩, -, hlu⟩, -⟩ := hazardOf_x_load hx
  have hout := wOut_eq hw.w
  have hW : s.W.out.status.isError = false := by
    rw [← hout]
    exact hW
  rw [readReg_retire (passMemory_ok (mIn_ok hw.x) load) hX _ hsrc,
    readReg_retire (wIn_ok hw.m v) hM _ hsrc, readReg_retire hw.w hW _ hsrc]
  have hfX : (forwardX ec s).forwards src = true ↔
      s.X.out.wSigs.wEnable = true ∧ s.X.out.dst = src ∧ src ≠ XZR_NUM :=
    forwards_iff (p := forwardX ec s) fun h => (hsp h).1
  have hfM : (forwardM s v).forwards src = true ↔
      s.M.out.wSigs.wEnable = true ∧ s.M.out.dst = src ∧ src ≠ XZR_NUM :=
    forwards_iff (p := forwardM s v) fun h => (hsp h).2.1
  have hWeq : forwardW s = ⟨s.W.out.wSigs.wEnable, s.W.out.dst, wbackVal s.W.out⟩ := by
    simp only [forwardW, wVal, wbackVal, hout]
  have hfW : (forwardW s).forwards src = true ↔
      s.W.out.wSigs.wEnable = true ∧ s.W.out.dst = src ∧ src ≠ XZR_NUM := by
    rw [hWeq]
    exact forwards_iff fun h => (hsp h).2.2
  change _ = if s.X.out.wSigs.wEnable = true ∧ s.X.out.dst = src ∧ src ≠ XZR_NUM then
      wbackVal (passMemory (mIn ec s) load)
    else if s.M.out.wSigs.wEnable = true ∧ s.M.out.dst = src ∧ src ≠ XZR_NUM then
      wbackVal (wIn s v)
    else if s.W.out.wSigs.wEnable = true ∧ s.W.out.dst = src ∧ src ≠ XZR_NUM then
      wbackVal s.W.out
    else readReg s.regs src
  unfold operand forwardOne
  by_cases h1 : (forwardX ec s).forwards src = true
  · have hwr := hfX.1 h1
    rw [if_pos h1, if_pos hwr, wbackVal, if_neg]
    · rfl
    · intro hsel
      have hld : s.X.out.op = .ldur := by
        have : s.X.out.wSigs.wvalSel = true := hsel
        rw [show s.X.out.wSigs = _ from congrArg (fun t => t.2.2) hw.x.sigs] at this
        simpa [generateDXMWControl] using this
      exact ldur_not_source hw hst hop hlu hld hmem hwr.2.2 hwr.2.1
  · rw [if_neg h1, if_neg (fun h => h1 (hfX.2 h))]
    by_cases h2 : (forwardM s v).forwards src = true
    · rw [if_pos h2, if_pos (hfM.1 h2)]
      rfl
    · rw [if_neg h2, if_neg (fun h => h2 (hfM.2 h))]
      by_cases h3 : (forwardW s).forwards src = true
      · rw [if_pos h3, if_pos (hfW.1 h3), hWeq]
      · rw [if_neg h3, if_neg (fun h => h3 (hfW.2 h))]

/-! ## Operands in a run -/

/-- The registers after a cycle are those of W retired. -/
theorem next_regs {ec : Bool} {s : Machine} (hw : s.WellFormed ec) (v : Wires) :
    (next ec s v).regs = retire s.regs s.W.out := by
  simp only [next, wVal, wOut_eq hw.w, retire, wbackDst_eq hw.w]
  rfl

/-- A cycle that reads no special register too early latches the right operands. -/
theorem operandsRight_next {ec : Bool} {s : Machine} {v : Wires} (hw : s.WellFormed ec)
    (hs : specialHazard ec s = false) : OperandsRight (next ec s v) := by
  intro hctl hst hop load
  have hz := hw.cycleCtls_eq v
  have hx : (hazardOf ec (hazards ec s v)).ctls.x = .load := by rw [← hz]; exact hctl
  obtain ⟨hm, hwb⟩ := Hazard.ctls_of_x_load hx
  have hXout : (next ec s v).X.out = xIn ec s v := by
    simp only [next, hz, hx, clocked]
  have hpend : pendingRegs (next ec s v) load =
      retire (retire (retire s.regs s.W.out) (wIn s v)) (passMemory (mIn ec s) load) := by
    rw [pendingRegs, next_regs hw]
    simp only [next, hz, hm, hwb, clocked]
  rw [hXout] at hst hop ⊢
  have hst : s.D.out.status ≠ .bub := hst
  have hop : s.D.out.op ≠ .nop := hop
  have hleaves : leavesD ec s = true := by
    obtain ⟨⟨-, -, hlu⟩, -⟩ := hazardOf_x_load hx
    have hlu : checkLoadUseHazard s.D.out.op (decoded ec s).2.1 (decoded ec s).2.2 s.X.out.op
        s.X.out.dst = false := hlu
    rw [leavesD, bne_iff_ne.2 hst, bne_iff_ne.2 hop, hlu]
    rfl
  rw [hpend]
  have hread : (decoded ec s).1.valA = readPort (s.locals s.numInstr) s.regs (decoded ec s).2.1 ∧
      (decoded ec s).1.valB = readPort (s.locals s.numInstr) s.regs (decoded ec s).2.2 := by
    simp only [decoded, decode, if_neg (not_or.2 ⟨hst, hop⟩)]
    exact ⟨rfl, rfl⟩
  constructor <;> intro hsrc
  · have hsrc : (decoded ec s).2.1 ≤ XZR_NUM := hsrc
    have hA := operand_eq hw hx hst hop (Or.inl rfl) hsrc (no_special hs hleaves (Or.inl rfl)) load
    rw [← readPort_eq_readReg (s.locals s.numInstr) s.regs hsrc, ← hread.1] at hA
    exact hA
  · have hsrc : (decoded ec s).2.2 ≤ XZR_NUM := hsrc
    have hB := operand_eq hw hx hst hop (Or.inr rfl) hsrc (no_special hs hleaves (Or.inr rfl)) load
    rw [← readPort_eq_readReg (s.locals s.numInstr) s.regs hsrc, ← hread.2] at hB
    exact hB

/-- **Operands are right wherever SP and XZR are not read too early.** -/
theorem operandsRight_of_no_specialHazard {ec : Bool} {img : Image} {entry : Word} {n : Nat}
    {σ : Nat → Machine} (h : Execution ec img entry n σ) :
    ∀ k < n, specialHazard ec (σ k) = false → OperandsRight (σ (k + 1)) := by
  intro k hk hs
  obtain ⟨v, -, hnext⟩ := h.wires hk
  rw [hnext]
  exact operandsRight_next (h.wellFormed (by omega)) hs

/-- `movz x1, #7`, `add x2, x1, #1`, `ret`. -/
def addAfterMov : List (BitVec 32) := [0xd28000e1#32, 0x91000422#32, 0xd65f03c0#32]

theorem operandsRight_addAfterMov :
    OperandsRight (stateAt false (.ofWords addAfterMov none) 0x400000#64 3) :=
  operandsRight_of_no_specialHazard (n := 3) (execution_stateAt (by decide +kernel)) 2 (by decide)
    (by decide +kernel)

/-- `sub sp, sp, #16`, `stur x30, [sp]`, `ret`. -/
def pushAfterSub : List (BitVec 32) := [0xd10043ff#32, 0xf80003fe#32, 0xd65f03c0#32]

/-- The store addresses the stack pointer from before the subtraction. -/
theorem not_operandsRight_pushAfterSub :
    ∃ n σ, Execution false (.ofWords pushAfterSub none) 0x400000#64 n σ ∧
      ∃ k < n, ¬ OperandsRight (σ (k + 1)) := by
  refine ⟨3, _, execution_stateAt (by decide +kernel), 2, by decide, fun h => ?_⟩
  have := (h (by decide +kernel) (by decide +kernel) (by decide +kernel) 0).1 (by decide +kernel)
  exact absurd this (by decide +kernel)

end ChArm
