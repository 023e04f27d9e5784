import ChArm.Pipe.HazardControl

/-!
# What hazard control decides

`handle_hazards` writes the control signals up to five times, later blocks over
earlier ones.  `hazardOf` names the block that has the last word and
`Hazard.ctls` its signals; from signals that show no pipeline error these are
the signals `handle_hazards` leaves behind (`hazardCtls_eq`), and they show none
again (`Hazard.ctls_clean`).

* `hazardCtls_eq` — the last block to write decides.
* `hazardOf_guard` — the guard of that block holds.
* `hazardOf_x_load` — what it takes for D to be latched into X.
-/

namespace ChArm

/-! ## Signals without a pipeline error -/

/-- No stage shows a pipeline control error. -/
def Ctls.Clean (c : Ctls) : Prop :=
  c.f ≠ .error ∧ c.d ≠ .error ∧ c.x ≠ .error ∧ c.m ≠ .error ∧ c.w ≠ .error

/-- The signal `pipe_control_stage` sets where nothing contradicts itself. -/
def ctlOf (b : Bool × Bool) : PipeCtl :=
  if b.1 then .bubble else if b.2 then .stall else .load

theorem pipeControl_eq {old : PipeCtl} (h : old ≠ .error) {b : Bool × Bool}
    (hb : (b.1 && b.2) = false) : pipeControl old b.1 b.2 = ctlOf b := by
  simp only [pipeControl, hb, Bool.false_eq_true, if_false, if_neg h, ctlOf]

theorem controlAll_eq {c : Ctls} (h : c.Clean) {f d x m w : Bool × Bool} (hf : (f.1 && f.2) = false)
    (hd : (d.1 && d.2) = false) (hx : (x.1 && x.2) = false) (hm : (m.1 && m.2) = false)
    (hw : (w.1 && w.2) = false) :
    controlAll f d x m w c = ⟨ctlOf f, ctlOf d, ctlOf x, ctlOf m, ctlOf w⟩ := by
  obtain ⟨h1, h2, h3, h4, h5⟩ := h
  simp only [controlAll, pipeControlStage, pipeControl_eq h1 hf, pipeControl_eq h2 hd,
    pipeControl_eq h3 hx, pipeControl_eq h4 hm, pipeControl_eq h5 hw]

/-! ## The deciding block -/

/-- The blocks of `handle_hazards`, the last to write first. -/
inductive Hazard where
  | wbackError | memoryError | executeError
  | inFlight | loadUse | mispredicted | ret | cb | br | none
  deriving DecidableEq, Repr

/-- The block that has the last word. -/
def hazardOf (ec : Bool) (h : HazardIn) : Hazard :=
  if h.wOutStatus.isError then .wbackError
  else if h.wInStatus.isError then .memoryError
  else if h.mInStatus.isError then .executeError
  else if h.dmemStatus = .inFlight then .inFlight
  else if checkLoadUseHazard h.dOpcode h.dSrc1 h.dSrc2 h.xOpcode h.xDst then .loadUse
  else if checkMispredBranchHazard h.xOpcode h.xCondval then .mispredicted
  else if checkRetHazard h.dOpcode then .ret
  else if ec ∧ checkCbHazard h.xOpcode h.xCondval then .cb
  else if ec ∧ checkBrHazard h.dOpcode then .br
  else .none

theorem hazardOf_wbackError (ec : Bool) {h : HazardIn} (hw : h.wOutStatus.isError = true) :
    hazardOf ec h = .wbackError := if_pos hw

theorem hazardOf_memoryError (ec : Bool) {h : HazardIn} (hw : h.wOutStatus.isError = false)
    (hm : h.wInStatus.isError = true) : hazardOf ec h = .memoryError := by
  rw [hazardOf, hw, hm]
  rfl

/-- The control signals of each block. -/
def Hazard.ctls : Hazard → Ctls
  | .wbackError => ⟨.stall, .stall, .stall, .stall, .stall⟩
  | .memoryError => ⟨.stall, .stall, .stall, .stall, .load⟩
  | .executeError => ⟨.stall, .stall, .stall, .load, .load⟩
  | .inFlight => ⟨.stall, .stall, .stall, .stall, .bubble⟩
  | .loadUse => ⟨.stall, .stall, .bubble, .load, .load⟩
  | .mispredicted | .cb => ⟨.load, .bubble, .bubble, .load, .load⟩
  | .ret => ⟨.load, .bubble, .load, .load, .load⟩
  | .br => ⟨.stall, .bubble, .load, .load, .load⟩
  | .none => ⟨.load, .load, .load, .load, .load⟩

theorem Hazard.ctls_clean (z : Hazard) : z.ctls.Clean := by
  cases z <;> simp [Hazard.ctls, Ctls.Clean]

/-- The chain of `else if`s, after all stages were set to load. -/
theorem hazardChain_eq (ec : Bool) (h : HazardIn) :
    hazardChain ec h ⟨.load, .load, .load, .load, .load⟩ =
      (if h.dmemStatus = .inFlight then Hazard.inFlight
        else if checkLoadUseHazard h.dOpcode h.dSrc1 h.dSrc2 h.xOpcode h.xDst then .loadUse
        else if checkMispredBranchHazard h.xOpcode h.xCondval then .mispredicted
        else if checkRetHazard h.dOpcode then .ret
        else if ec ∧ checkCbHazard h.xOpcode h.xCondval then .cb
        else if ec ∧ checkBrHazard h.dOpcode then .br
        else .none).ctls := by
  unfold hazardChain
  split_ifs <;> rfl

/-- **The last block to write decides.** -/
theorem hazardCtls_eq (ec : Bool) (h : HazardIn) {c : Ctls} (hc : c.Clean) :
    hazardCtls ec h c = (hazardOf ec h).ctls := by
  unfold hazardCtls hazardOf
  rw [controlAll_eq hc rfl rfl rfl rfl rfl]
  simp only [ctlOf, Bool.false_eq_true, if_false, hazardChain_eq]
  generalize (if h.dmemStatus = .inFlight then Hazard.inFlight else _) = z
  have hz := z.ctls_clean
  by_cases hm : h.mInStatus.isError = true <;> by_cases hw : h.wInStatus.isError = true <;>
    by_cases ho : h.wOutStatus.isError = true <;>
    simp only [hm, hw, ho, if_true, if_false, Bool.false_eq_true]
  all_goals
    first
    | rfl
    | rw [controlAll_eq hz rfl rfl rfl rfl rfl]; rfl

/-! ## What the deciding block has found -/

/-- No stage signals an error. -/
structure HazardIn.Quiet (h : HazardIn) : Prop where
  wOut : h.wOutStatus.isError = false
  wIn : h.wInStatus.isError = false
  mIn : h.mInStatus.isError = false

/-- The load-use test as `handle_hazards` calls it. -/
def HazardIn.loadUse (h : HazardIn) : Bool :=
  checkLoadUseHazard h.dOpcode h.dSrc1 h.dSrc2 h.xOpcode h.xDst

/-- The tests that have failed before the blocks for control hazards are reached. -/
structure HazardIn.Flows (h : HazardIn) : Prop extends h.Quiet where
  ready : h.dmemStatus ≠ .inFlight
  noLoadUse : h.loadUse = false

theorem checkMispredBranchHazard_iff {op : Opcode} {cond : Bool} :
    checkMispredBranchHazard op cond = true ↔ op = .bCond ∧ cond = false := by
  simp [checkMispredBranchHazard]

theorem checkRetHazard_iff {op : Opcode} : checkRetHazard op = true ↔ op = .ret := by
  simp [checkRetHazard]

theorem not_mispredicted {op : Opcode} {cond : Bool} (h : checkMispredBranchHazard op cond = false) :
    ¬ (op = .bCond ∧ cond = false) := fun hc => by
  rw [checkMispredBranchHazard_iff.2 hc] at h
  cases h

theorem not_ret {op : Opcode} (h : checkRetHazard op = false) : op ≠ .ret := fun hc => by
  rw [checkRetHazard_iff.2 hc] at h
  cases h

theorem checkCbHazard_iff {op : Opcode} {cond : Bool} :
    checkCbHazard op cond = true ↔ (op = .cbz ∨ op = .cbnz) ∧ cond = false := by
  simp [checkCbHazard]

theorem checkBrHazard_iff {op : Opcode} : checkBrHazard op = true ↔ op = .br ∨ op = .blr := by
  simp [checkBrHazard]

/-- A load-use hazard needs a load in X and an instruction with sources in D. -/
theorem HazardIn.loadUse_ops {h : HazardIn} (hl : h.loadUse = true) :
    h.xOpcode = .ldur ∧ h.dOpcode ≠ .nop := by
  unfold HazardIn.loadUse checkLoadUseHazard at hl
  by_cases hno : h.dOpcode ∈ [Opcode.nop, .hlt, .movz, .adrp, .b, .bl]
  · rw [if_pos hno] at hl
    cases hl
  · rw [if_neg hno] at hl
    refine ⟨(of_decide_eq_true hl).1, fun hn => hno ?_⟩
    rw [hn]
    exact List.mem_cons_self

/-- What holds when a block decides. -/
def Hazard.Guard (ec : Bool) (h : HazardIn) : Hazard → Prop
  | .wbackError => h.wOutStatus.isError = true
  | .memoryError => h.wOutStatus.isError = false ∧ h.wInStatus.isError = true
  | .executeError =>
      h.wOutStatus.isError = false ∧ h.wInStatus.isError = false ∧ h.mInStatus.isError = true
  | .inFlight => h.Quiet ∧ h.dmemStatus = .inFlight
  | .loadUse => h.Quiet ∧ h.dmemStatus ≠ .inFlight ∧ h.loadUse = true
  | .mispredicted => h.Flows ∧ checkMispredBranchHazard h.xOpcode h.xCondval = true
  | .ret =>
      h.Flows ∧ checkMispredBranchHazard h.xOpcode h.xCondval = false ∧
        checkRetHazard h.dOpcode = true
  | .cb =>
      h.Flows ∧ checkMispredBranchHazard h.xOpcode h.xCondval = false ∧
        checkRetHazard h.dOpcode = false ∧ ec = true ∧ checkCbHazard h.xOpcode h.xCondval = true
  | .br =>
      h.Flows ∧ checkMispredBranchHazard h.xOpcode h.xCondval = false ∧
        checkRetHazard h.dOpcode = false ∧
        ¬ (ec = true ∧ checkCbHazard h.xOpcode h.xCondval = true) ∧
        ec = true ∧ checkBrHazard h.dOpcode = true
  | .none =>
      h.Flows ∧ checkMispredBranchHazard h.xOpcode h.xCondval = false ∧
        checkRetHazard h.dOpcode = false ∧
        ¬ (ec = true ∧ checkCbHazard h.xOpcode h.xCondval = true) ∧
        ¬ (ec = true ∧ checkBrHazard h.dOpcode = true)

/-- **The guard of the deciding block holds.** -/
theorem hazardOf_guard (ec : Bool) (h : HazardIn) : (hazardOf ec h).Guard ec h := by
  unfold hazardOf
  by_cases h1 : h.wOutStatus.isError = true
  · rw [if_pos h1]
    exact h1
  rw [if_neg h1]
  rw [Bool.not_eq_true] at h1
  by_cases h2 : h.wInStatus.isError = true
  · rw [if_pos h2]
    exact ⟨h1, h2⟩
  rw [if_neg h2]
  rw [Bool.not_eq_true] at h2
  by_cases h3 : h.mInStatus.isError = true
  · rw [if_pos h3]
    exact ⟨h1, h2, h3⟩
  rw [if_neg h3]
  rw [Bool.not_eq_true] at h3
  have hq : h.Quiet := ⟨h1, h2, h3⟩
  by_cases h4 : h.dmemStatus = .inFlight
  · rw [if_pos h4]
    exact ⟨hq, h4⟩
  rw [if_neg h4]
  by_cases h5 : checkLoadUseHazard h.dOpcode h.dSrc1 h.dSrc2 h.xOpcode h.xDst = true
  · rw [if_pos h5]
    exact ⟨hq, h4, h5⟩
  rw [if_neg h5]
  rw [Bool.not_eq_true] at h5
  have hf : h.Flows := ⟨hq, h4, h5⟩
  split_ifs with h6 h7 h8 h9
  · exact ⟨hf, h6⟩
  · exact ⟨hf, Bool.eq_false_iff.2 h6, h7⟩
  · exact ⟨hf, Bool.eq_false_iff.2 h6, Bool.eq_false_iff.2 h7, h8⟩
  · exact ⟨hf, Bool.eq_false_iff.2 h6, Bool.eq_false_iff.2 h7, h8, h9⟩
  · exact ⟨hf, Bool.eq_false_iff.2 h6, Bool.eq_false_iff.2 h7, h8, h9⟩

/-- Where D is latched into X, so are X into M and M into W. -/
theorem Hazard.ctls_of_x_load {z : Hazard} (h : z.ctls.x = .load) :
    z.ctls.m = .load ∧ z.ctls.w = .load := by
  cases z <;> first | exact ⟨rfl, rfl⟩ | cases h

/-- When D is latched into X, no error is signalled, memory is ready and neither a
load-use hazard nor a misprediction holds. -/
theorem hazardOf_x_load {ec : Bool} {h : HazardIn} (hx : (hazardOf ec h).ctls.x = .load) :
    h.Flows ∧ checkMispredBranchHazard h.xOpcode h.xCondval = false := by
  have hg := hazardOf_guard ec h
  cases hz : hazardOf ec h <;> rw [hz] at hg hx <;>
    first | exact ⟨hg.1, hg.2.1⟩ | cases hx

end ChArm
