import ChArm.Base.Execution

/-!
# Control flow of the base build

Which instruction enters X after which.  `OnPath` relates the predicted PC, the
instruction in D, the one in X and the branch in M; `Follows` says that whatever
reaches X next comes from the architectural successor of the last one.  Every
cycle keeps both, however long the stages stall.

* `OnPath.next`, `Follows.next` — one cycle.
* `Follows.enters` — whatever enters X next comes from the successor.
* `entersX_successor` — of two instructions that enter X one after the other, in any run.
-/

namespace ChArm

/-- The address an instruction was fetched from. -/
def XInstr.pc (x : XInstr) : Word := x.seqSuccPC - 4#64

/-- The address an instruction in D was fetched from. -/
def DInstr.pc (d : DInstr) : Word := d.seqSuccPC - 4#64

/-- The architectural successor of an instruction in X, from its own immediate or operand
and from the condition it has computed. -/
def successor (x : XInstr) (condHolds : Bool) : Word :=
  match x.op with
  | .b | .bl => x.pc + x.valImm
  | .bCond => if condHolds then x.pc + x.valImm else x.pc + 4#64
  | .ret => x.valA
  | _ => x.pc + 4#64

/-- Has an instruction, not a bubble, just been latched into X? -/
def Machine.entersX (s : Machine) : Prop := s.X.ctl = .load ∧ s.X.out.status ≠ .bub

instance (s : Machine) : Decidable s.entersX :=
  inferInstanceAs (Decidable (s.X.ctl = .load ∧ s.X.out.status ≠ .bub))

/-! ## Prediction -/

/-- The prediction for an instruction in D. -/
def DInstr.predicted (d : DInstr) : Word := (predictPC false d.pc d.insnbits d.op).1

/-- The invariant that keeps fetch, decode, execute and memory on one path. -/
structure OnPath (s : Machine) : Prop where
  ret : s.X.out.op = .ret → s.D.out.status = .bub
  taken : s.M.out.op = .bCond → s.M.out.condHolds = false →
    s.D.out.status = .bub ∧ s.X.out.status = .bub
  predPC : s.D.out.status = .aok → s.F.out.predPC = s.D.out.predicted
  inX : s.X.out.status = .aok → s.X.out.op ≠ .ret →
    s.D.out.status ≠ .bub ∧ (s.D.out.status = .aok → s.D.out.pc = successor s.X.out true)

/-- What comes next is the successor of `x`, whose condition was `c`. -/
def Follows (x : XInstr) (c : Bool) (s : Machine) : Prop :=
  (s.X.out = x ∧ (x.op = .bCond → (mIn false s).condHolds = c)) ∨
    (s.X.out.status = .bub ∧
      (s.D.out.status = .bub → fetchPC false s = successor x c) ∧
      (s.D.out.status = .aok → s.D.out.pc = successor x c))

/-- The prediction is the successor, taken if it is a branch. -/
theorem successor_xIn (s : Machine) (v : Wires) (h : s.D.out.op ≠ .ret) :
    successor (xIn false s v) true = s.D.out.predicted := by
  have hop : (xIn false s v).op = s.D.out.op := rfl
  have himm : (xIn false s v).valImm = extractImmval false s.D.out.insnbits s.D.out.op := rfl
  have hpc : (xIn false s v).pc = s.D.out.pc := rfl
  rw [successor, hop, himm, hpc, DInstr.predicted, predictPC]
  generalize s.D.out.op = op at h
  cases op <;> first | rfl | exact absurd rfl h

/-- What a cycle fetches, if it fetches an instruction that is not made up. -/
theorem fetched_aok {ec : Bool} {s : Machine} {v : Wires} (hv : wires ec s = .ok v)
    (h : v.d.status = .aok) :
    v.d.pc = fetchPC ec s ∧ v.fPC = (predictPC ec v.d.pc v.d.insnbits v.d.op).1 := by
  rcases fetch_inv hv with ⟨-, hd, -⟩ | ⟨-, insnbits, imemErr, -, hd, -, hp⟩
  · rw [hd] at h
    cases h
  · have hpc : v.d.pc = fetchPC ec s := by
      rw [hd, DInstr.pc, fetchedInstr_seqSuccPC]
      exact BitVec.add_sub_cancel _ _
    have hbits : v.d.insnbits = insnbits := by
      rw [hd]
      rfl
    rw [hpc, hbits]
    exact ⟨rfl, hp⟩

/-- Where neither a return nor an untaken branch redirects it, fetch follows the prediction. -/
theorem fetchPC_base {s : Machine} (hx : s.X.out.op ≠ .ret)
    (hm : ¬ (s.M.out.op = .bCond ∧ s.M.out.condHolds = false)) :
    fetchPC false s = s.F.out.predPC := by
  simp [fetchPC, selectPC, hx, hm]

/-! ## What one cycle keeps -/

/-- With an instruction in D on its right path, fetch follows the prediction for it. -/
theorem OnPath.fetchPC_eq {s : Machine} (h : OnPath s) (hst : s.D.out.status = .aok) :
    fetchPC false s = s.D.out.predicted := by
  have hnb : s.D.out.status ≠ .bub := by rw [hst]; exact nofun
  rw [← h.predPC hst]
  exact fetchPC_base (fun hop => hnb (h.ret hop)) (fun hop => hnb (h.taken hop.1 hop.2).1)

theorem pcNext_quiet {s : Machine} {v : Wires} (h : (wIn s v).status.isError = false) :
    pcNext s v = v.fPC := by
  rw [pcNext, h, if_neg (by decide)]

/-- A cycle with an instruction in X that signals no error keeps the pipeline on its path. -/
theorem OnPath.next {s : Machine} {v : Wires} (h : OnPath s) (hw : s.WellFormed false)
    (hv : wires false s = .ok v) (hx : s.X.out.status.isError = false) :
    OnPath (next false s v) := by
  have hg := hazardOf_guard false (hazards false s v)
  have hD := hw.next_D v
  have hX := hw.next_X v
  have hM := hw.next_M v
  have hF := hw.next_predPC v
  have hbub : DInstr.zero.status = .bub := rfl
  -- where the stages stall everything stays as it is
  have hfrozen : (ChArm.next false s v).D.out = s.D.out → (ChArm.next false s v).X.out = s.X.out →
      (ChArm.next false s v).M.out = s.M.out →
      (ChArm.next false s v).F.out.predPC = s.F.out.predPC → OnPath (ChArm.next false s v) := by
    intro hD hX hM hF
    refine ⟨?_, ?_, ?_, ?_⟩
    · rw [hD, hX]
      exact h.ret
    · rw [hD, hX, hM]
      exact h.taken
    · rw [hD, hF]
      exact h.predPC
    · rw [hD, hX]
      exact h.inX
  -- one case for each block of `handle_hazards`; its guard is `hg`
  cases hz : hazardOf false (hazards false s v) <;> rw [hz] at hg hD hX hM hF
  case wbackError => exact hfrozen hD hX hM hF
  case memoryError => exact hfrozen hD hX hM hF
  case inFlight => exact hfrozen hD hX hM hF
  case executeError => exact absurd (hx.symm.trans hg.2.2) (by decide)
  case cb => exact absurd hg.2.2.2.1 (by decide)
  case br => exact absurd hg.2.2.2.2.1 (by decide)
  case loadUse =>
    have hld : s.X.out.op = .ldur := (HazardIn.loadUse_ops hg.2.2).1
    have hMop : (ChArm.next false s v).M.out.op = .ldur := by
      rw [hM]
      exact hld
    refine ⟨?_, ?_, ?_, ?_⟩
    · rw [hX]
      exact nofun
    · rw [hMop]
      exact nofun
    · rw [hD, hF]
      exact h.predPC
    · rw [hX]
      exact nofun
  case mispredicted =>
    refine ⟨?_, ?_, ?_, ?_⟩
    · rw [hX]
      exact nofun
    · rw [hD, hX]
      exact fun _ _ => ⟨rfl, rfl⟩
    · rw [hD]
      exact nofun
    · rw [hX]
      exact nofun
  case ret =>
    -- the `RET` goes on to X, and what was fetched behind it is dropped
    obtain ⟨hflow, hmis, hret⟩ := hg
    refine ⟨?_, ?_, ?_, ?_⟩
    · rw [hD]
      exact fun _ => rfl
    · rw [hM]
      exact fun hop hc => absurd ⟨hop, hc⟩ (not_mispredicted hmis)
    · rw [hD]
      exact nofun
    · rw [hX]
      exact fun _ hop => absurd (checkRetHazard_iff.1 hret) hop
  case none =>
    -- everything moves on: what is fetched now is what was predicted
    obtain ⟨hflow, hmis, hret, -⟩ := hg
    have hDop : s.D.out.op ≠ .ret := not_ret hret
    refine ⟨?_, ?_, ?_, ?_⟩
    · rw [hX]
      exact fun hop => absurd hop hDop
    · rw [hM]
      exact fun hop hc => absurd ⟨hop, hc⟩ (not_mispredicted hmis)
    · have hF : (ChArm.next false s v).F.out.predPC = pcNext s v := hF
      rw [hD, hF]
      intro hst
      rw [pcNext_quiet hflow.wIn]
      exact (fetched_aok hv hst).2
    · rw [hD, hX]
      intro hst _
      refine ⟨(fetch_ok hv).2.2, fun hd => ?_⟩
      have hst : s.D.out.status = .aok := hst
      rw [show (clocked Hazard.none.ctls.x .zero (xIn false s v) s.X.out) = xIn false s v from rfl,
        successor_xIn s v hDop, ← h.fetchPC_eq hst]
      exact (fetched_aok hv hd).1

/-- Fetch looks at nothing but the predicted PC, the operation in X and the branch in M. -/
theorem fetchPC_congr {ec : Bool} {s t : Machine} (hF : t.F.out.predPC = s.F.out.predPC)
    (hX : t.X.out = s.X.out) (hM : t.M.out = s.M.out) : fetchPC ec t = fetchPC ec s := by
  rw [fetchPC, fetchPC, hF, hX, hM]

theorem fetchPC_ret {ec : Bool} {s : Machine} (h : s.X.out.op = .ret) :
    fetchPC ec s = s.X.out.valA := by
  unfold fetchPC selectPC
  by_cases h0 : s.X.out.valA = RET_FROM_MAIN_ADDR
  · rw [if_pos ⟨h, h0⟩, h0]
    rfl
  · rw [if_neg (fun hc => h0 hc.2), if_pos h]

theorem fetchPC_untaken {s : Machine} (hX : s.X.out.op ≠ .ret) (hM : s.M.out.op = .bCond)
    (hc : s.M.out.condHolds = false) : fetchPC false s = s.M.out.seqSuccPC := by
  simp [fetchPC, selectPC, hX, hM, hc]

theorem successor_of_ne_bCond {x : XInstr} (h : x.op ≠ .bCond) (c c' : Bool) :
    successor x c = successor x c' := by
  unfold successor
  generalize x.op = op at h
  cases op <;> first | rfl | exact absurd rfl h

theorem successor_untaken {x : XInstr} (h : x.op = .bCond) : successor x false = x.seqSuccPC := by
  rw [successor, h]
  exact BitVec.sub_add_cancel _ _

/-- A bubble in X is a `NOP`. -/
theorem bubble_nop {ec : Bool} {s : Machine} (hw : s.WellFormed ec)
    (h : s.X.out.status = .bub) : s.X.out.op = .nop := hw.x.status.of_bub h

/-- With nothing in D, fetch works on what comes next. -/
theorem Follows.fetchPC_eq {x : XInstr} {c : Bool} {s : Machine} (h : Follows x c s)
    (hx : x.status = .aok) (hp : OnPath s) (hDb : s.D.out.status = .bub) :
    fetchPC false s = successor x c := by
  rcases h with ⟨hsx, -⟩ | ⟨-, hfetch, -⟩
  · have hret : s.X.out.op = .ret := by
      by_contra hr
      exact (hp.inX (by rw [hsx, hx]) hr).1 hDb
    rw [fetchPC_ret hret, hsx, successor, ← hsx, hret]
  · exact hfetch hDb

/-- Until something else enters X, a cycle keeps what comes next. -/
theorem Follows.next {x : XInstr} {c : Bool} {s : Machine} {v : Wires} (h : Follows x c s)
    (hx : x.status = .aok) (hp : OnPath s) (hw : s.WellFormed false) (hv : wires false s = .ok v)
    (hno : ¬ (next false s v).entersX) : Follows x c (next false s v) := by
  have hg := hazardOf_guard false (hazards false s v)
  have hD := hw.next_D v
  have hX := hw.next_X v
  have hM := hw.next_M v
  have hF := hw.next_predPC v
  have hctl : (ChArm.next false s v).X.ctl = (hazardOf false (hazards false s v)).ctls.x :=
    congrArg Ctls.x (hw.next_ctls v)
  have hXerr : s.X.out.status.isError = false := by
    rcases h with ⟨hsx, -⟩ | ⟨hbub, -⟩
    · rw [hsx, hx]
      rfl
    · rw [hbub]
      rfl
  -- where the stages stall, fetch has the same to go by
  have hfrozen : (ChArm.next false s v).D.out = s.D.out → (ChArm.next false s v).X.out = s.X.out →
      (ChArm.next false s v).M.out = s.M.out →
      (ChArm.next false s v).F.out.predPC = s.F.out.predPC →
      Follows x c (ChArm.next false s v) := by
    intro hD hX hM hF
    rcases h with ⟨hsx, hc⟩ | ⟨hbub, hfetch, hpc⟩
    · refine Or.inl ⟨hX.trans hsx, fun hop => ?_⟩
      rw [Machine.WellFormed.mIn_stalled hX
        (hw.x.setFlags_of_branch (by rw [hsx, hop]; exact List.mem_cons_self)), hc hop]
    · refine Or.inr ⟨by rw [hX, hbub], ?_, ?_⟩
      · rw [hD, fetchPC_congr hF hX hM]
        exact hfetch
      · rw [hD]
        exact hpc
  cases hz : hazardOf false (hazards false s v) <;> rw [hz] at hg hD hX hM hF hctl
  case wbackError => exact hfrozen hD hX hM hF
  case memoryError => exact hfrozen hD hX hM hF
  case inFlight => exact hfrozen hD hX hM hF
  case executeError => exact absurd (hXerr.symm.trans hg.2.2) (by decide)
  case cb => exact absurd hg.2.2.2.1 (by decide)
  case br => exact absurd hg.2.2.2.2.1 (by decide)
  case loadUse =>
    have hld : s.X.out.op = .ldur := (HazardIn.loadUse_ops hg.2.2).1
    rcases h with ⟨hsx, -⟩ | ⟨hbub, -⟩
    · -- `x` is the load that is waited for; behind it D keeps what comes next
      obtain ⟨hnb, hpc⟩ := hp.inX (by rw [hsx, hx]) (by rw [hld]; exact nofun)
      have hD : (ChArm.next false s v).D.out = s.D.out := hD
      have hop : x.op ≠ .bCond := by
        rw [← hsx, hld]
        exact nofun
      refine Or.inr ⟨by rw [hX]; rfl, ?_, ?_⟩
      · rw [hD]
        exact fun hb => absurd hb hnb
      · rw [hD, successor_of_ne_bCond hop c true, ← hsx]
        exact hpc
    · exact absurd (hld.symm.trans (bubble_nop hw hbub)) (by decide)
  case mispredicted =>
    obtain ⟨hop, hc'⟩ := checkMispredBranchHazard_iff.1 hg.2
    have hop : s.X.out.op = .bCond := hop
    rcases h with ⟨hsx, hc⟩ | ⟨hbub, -⟩
    · have hXop : (ChArm.next false s v).X.out.op ≠ .ret := by
        rw [hX]
        exact nofun
      have hMout : (ChArm.next false s v).M.out = mIn false s := hM
      -- `x` is the untaken branch, so fetch is sent behind it
      have hcf : c = false := (hc (by rw [← hsx, hop])).symm.trans hc'
      refine Or.inr ⟨by rw [hX]; rfl, fun _ => ?_, ?_⟩
      · rw [fetchPC_untaken hXop (by rw [hMout]; exact hop) (by rw [hMout]; exact hc'), hMout, hcf,
          successor_untaken (by rw [← hsx, hop]), ← hsx]
        rfl
      · rw [hD]
        exact nofun
    · exact absurd (hop.symm.trans (bubble_nop hw hbub)) (by decide)
  case ret =>
    -- here and below something would enter X unless D is empty
    have hop : s.D.out.op = .ret := checkRetHazard_iff.1 hg.2.2
    refine absurd ⟨hctl, ?_⟩ hno
    rw [hX]
    intro hb
    have := hw.d.status.of_bub hb
    rw [hop] at this
    cases this
  case none =>
    have hDb : s.D.out.status = .bub := by
      by_contra hb
      exact hno ⟨hctl, by rw [hX]; exact hb⟩
    have hfetch := h.fetchPC_eq hx hp hDb
    have hDout : (ChArm.next false s v).D.out = v.d := hD
    refine Or.inr ⟨by rw [hX]; exact hDb, ?_, ?_⟩
    · rw [hDout]
      exact fun hb => absurd hb (fetch_ok hv).2.2
    · rw [hDout, ← hfetch]
      exact fun hst => (fetched_aok hv hst).1

/-- A branch that is not found untaken goes where it was predicted to go. -/
theorem successor_of_taken {x : XInstr} {c : Bool} {s : Machine} (hsx : s.X.out = x)
    (hc : x.op = .bCond → (mIn false s).condHolds = c)
    (hmis : checkMispredBranchHazard s.X.out.op (mIn false s).condHolds = false) :
    successor x true = successor x c := by
  by_cases hop : x.op = .bCond
  · have : (mIn false s).condHolds = true := by
      by_contra hf
      exact not_mispredicted hmis ⟨by rw [hsx, hop], Bool.eq_false_iff.2 hf⟩
    rw [← hc hop, this]
  · exact successor_of_ne_bCond hop _ _

/-- Whatever enters X next comes from the successor. -/
theorem Follows.enters {x : XInstr} {c : Bool} {s : Machine} {v : Wires} (h : Follows x c s)
    (hx : x.status = .aok) (hp : OnPath s) (hw : s.WellFormed false)
    (hent : (ChArm.next false s v).entersX)
    (hst : (ChArm.next false s v).X.out.status = .aok) :
    (ChArm.next false s v).X.out.pc = successor x c := by
  have hctl : (hazardOf false (hazards false s v)).ctls.x = .load := by
    rw [← hw.next_ctls v]
    exact hent.1
  obtain ⟨hflow, hmis⟩ := hazardOf_x_load hctl
  have hX : (ChArm.next false s v).X.out = xIn false s v := by
    rw [hw.next_X v, hctl]
    rfl
  rw [hX] at hst ⊢
  have hst : s.D.out.status = .aok := hst
  change s.D.out.pc = _
  rcases h with ⟨hsx, hc⟩ | ⟨-, -, hpc⟩
  · have hret : s.X.out.op ≠ .ret := fun hr => by
      rw [hp.ret hr] at hst
      cases hst
    have hpc := (hp.inX (by rw [hsx, hx]) hret).2 hst
    rw [hpc, hsx]
    exact successor_of_taken hsx hc hmis
  · exact hpc hst

/-! ## Whole runs -/

/-- An instruction that signals an error stays in X. -/
theorem stays_of_isError {ec : Bool} {s : Machine} {v : Wires} (hw : s.WellFormed ec)
    (hx : s.X.out.status.isError = true) : (next ec s v).X.out = s.X.out := by
  have hg := hazardOf_guard ec (hazards ec s v)
  have hX := hw.next_X v
  have hloud : ¬ (hazards ec s v).Quiet := fun hq => by
    have := hq.mIn
    rw [show (hazards ec s v).mInStatus = s.X.out.status from rfl, hx] at this
    cases this
  cases hz : hazardOf ec (hazards ec s v) <;> rw [hz] at hg hX
  case wbackError => exact hX
  case memoryError => exact hX
  case executeError => exact hX
  case inFlight => exact absurd hg.1 hloud
  case loadUse => exact absurd hg.1 hloud
  all_goals exact absurd hg.1.toQuiet hloud

/-- Every state of an execution is on its path, or the instruction in X has faulted. -/
theorem Execution.onPath {img : Image} {entry : Word} {n : Nat} {σ : Nat → Machine}
    (h : Execution false img entry n σ) {k : Nat} (hk : k ≤ n) :
    (σ k).X.out.status.isError = true ∨ OnPath (σ k) := by
  refine (h.invariant (P := fun s => s.WellFormed false ∧
    (s.X.out.status.isError = true ∨ OnPath s)) ?_ ?_ k hk).2
  · exact ⟨.init false img entry, Or.inr ⟨nofun, nofun, nofun, nofun⟩⟩
  · rintro s s' ⟨hw, hp⟩ hstep
    obtain ⟨v, hv, rfl⟩ := exists_wires hstep.2
    refine ⟨hw.next hv, ?_⟩
    by_cases hx : s.X.out.status.isError = true
    · left
      rw [stays_of_isError hw hx, hx]
    · right
      exact (hp.resolve_left hx).next hw hv (Bool.eq_false_iff.2 hx)

/-- While nothing else enters X, what comes next is the successor of the last. -/
theorem Execution.follows {img : Image} {entry : Word} {n : Nat} {σ : Nat → Machine}
    (h : Execution false img entry n σ) {i : Nat} (hst : (σ (i + 1)).X.out.status = .aok) :
    ∀ j, i < j → j ≤ n → (∀ k, i < k → k < j → ¬ (σ (k + 1)).entersX) →
      Follows (σ (i + 1)).X.out (mIn false (σ (i + 1))).condHolds (σ j) ∧
        (σ j).X.out.status.isError = false := by
  intro j hij
  induction j, hij using Nat.le_induction with
  | base => exact fun _ _ => ⟨Or.inl ⟨rfl, fun _ => rfl⟩, by rw [hst]; rfl⟩
  | succ j hij ih =>
    intro hj hno
    obtain ⟨hf, hx⟩ := ih (by omega) fun k hk hkj => hno k hk (by omega)
    obtain ⟨v, hv, hnext⟩ := h.wires (k := j) (by omega)
    have hp := (h.onPath (k := j) (by omega)).resolve_left (by rw [hx]; decide)
    have hnoj := hno j (by omega) (Nat.lt_succ_self j)
    rw [hnext] at hnoj ⊢
    have hf' := hf.next hst hp (h.wellFormed (by omega)) hv hnoj
    refine ⟨hf', ?_⟩
    rcases hf' with ⟨hsx, -⟩ | ⟨hb, -⟩
    · rw [hsx, hst]
      rfl
    · rw [hb]
      rfl

/-- **Control flow.**  Of two instructions that enter X one after the other, both
`STAT_AOK`, the second comes from the architectural successor of the first (which may have been
stalled in X meanwhile). -/
theorem entersX_successor {img : Image} {entry : Word} {n : Nat} {σ : Nat → Machine}
    (h : Execution false img entry n σ) {i j : Nat} (hij : i < j) (hj : j < n)
    (hno : ∀ k, i < k → k < j → ¬ (σ (k + 1)).entersX)
    (hsecond : (σ (j + 1)).entersX)
    (hfirstAok : (σ (i + 1)).X.out.status = .aok) (hsecondAok : (σ (j + 1)).X.out.status = .aok) :
    (σ (j + 1)).X.out.pc =
      successor (σ (i + 1)).X.out (mIn false (σ (i + 1))).condHolds := by
  obtain ⟨hf, hx⟩ := h.follows hfirstAok j hij (by omega) hno
  obtain ⟨v, hv, hnext⟩ := h.wires hj
  have hp := (h.onPath (k := j) (by omega)).resolve_left (by rw [hx]; decide)
  rw [hnext] at hsecond hsecondAok ⊢
  exact hf.enters hfirstAok hp (h.wellFormed (by omega)) hsecond hsecondAok

/-- `b.eq .+8`, `ret`, `ret`: the branch is not taken, and the return after it is squashed. -/
def untakenBranch : List (BitVec 32) := [0x54000040#32, 0xd65f03c0#32, 0xd65f03c0#32]

theorem entersX_successor_untakenBranch :
    let σ := stateAt false (.ofWords untakenBranch none) 0x400000#64
    (σ (4 + 1)).X.out.pc = successor (σ (1 + 1)).X.out (mIn false (σ (1 + 1))).condHolds := by
  have hno : ∀ k < 4, 1 < k →
      ¬ (stateAt false (.ofWords untakenBranch none) 0x400000#64 (k + 1)).entersX := by
    decide +kernel
  have hrun : Execution false (.ofWords untakenBranch none) 0x400000#64 5
      (stateAt false (.ofWords untakenBranch none) 0x400000#64) :=
    execution_stateAt (by decide +kernel)
  exact entersX_successor hrun (by decide) (by decide)
    (fun k hk hlt => hno k hlt hk) (by decide +kernel) (by decide +kernel) (by decide +kernel)

end ChArm
