import ChArm.Base.Untouched
import ChArm.Pipe.ControlFlow

/-!
# Untaken branches of the extra-credit build

A conditional branch in X that is not taken squashes the instruction in D and the
one being fetched, and fetch goes on behind the branch.  This fails in two ways
(`branchTrap`): `handle_hazards` asks for a `RET` in D before it asks for an untaken
`CBZ` or `CBNZ` in X, and an `HLT` fetched in the cycle of the squash keeps fetch
from ever reading an instruction again.

* `untaken_squashes` — every untaken branch of every run.
-/

namespace ChArm

/-- A conditional branch in X is not taken. -/
def Machine.untaken (s : Machine) : Prop :=
  s.X.out.op ∈ [Opcode.bCond, .cbz, .cbnz] ∧ (mIn true s).condHolds = false

instance (s : Machine) : Decidable s.untaken :=
  inferInstanceAs (Decidable (s.X.out.op ∈ [Opcode.bCond, .cbz, .cbnz] ∧
    (mIn true s).condHolds = false))

/-- Has an instruction, not a bubble, just been latched into D? -/
def Machine.entersD (s : Machine) : Prop := s.D.ctl = .load ∧ s.D.out.status ≠ .bub

instance (s : Machine) : Decidable s.entersD :=
  inferInstanceAs (Decidable (s.D.ctl = .load ∧ s.D.out.status ≠ .bub))

/-- The squash goes wrong: the branch is a `CBZ` or `CBNZ` with a `RET` in D, or an `HLT` is
being fetched. -/
def branchTrap (s : Machine) (v : Wires) : Prop :=
  (s.X.out.op ≠ .bCond ∧ s.D.out.op = .ret) ∨ v.fStatus = .hlt

instance (s : Machine) (v : Wires) : Decidable (branchTrap s v) :=
  inferInstanceAs (Decidable ((s.X.out.op ≠ .bCond ∧ s.D.out.op = .ret) ∨ v.fStatus = .hlt))

/-- The squash has happened: the branch is in M, nothing is in D and X, and fetch reads on
behind the branch. -/
structure Squashed (seq : Word) (s : Machine) : Prop where
  branch : s.M.out.op ∈ [Opcode.bCond, .cbz, .cbnz]
  untaken : s.M.out.condHolds = false
  seqSucc : s.M.out.seqSuccPC = seq
  noError : s.M.out.status.isError = false
  d : s.D.out = .zero
  x : s.X.out = .zero
  noHalt : s.F.inp.status = .hlt → seq = 0
  ready : addrInImem s.mem seq = true → s.mem.dmemStatus ≠ .inFlight

/-- Fetch goes on behind a branch that was squashed. -/
theorem Squashed.fetchPC_eq {seq : Word} {s : Machine} (h : Squashed seq s) :
    fetchPC true s = seq := by
  have hX : s.X.out.op = .nop := by rw [h.x]; rfl
  have hb := h.branch
  simp only [List.mem_cons, List.not_mem_nil, or_false] at hb
  unfold fetchPC selectPC
  rw [hX, h.untaken, h.seqSucc]
  rcases hb with hb | hb | hb <;> simp [hb]

/-- Where nothing accesses data memory, it stays as fetch leaves it. -/
theorem wires_noAccess {ec : Bool} {s : Machine} {v : Wires} (hw : s.WellFormed ec)
    (hv : wires ec s = .ok v) (hl : s.M.out.op ≠ .ldur) (hst : s.M.out.op ≠ .stur) :
    v.mem = v.fMem ∧ v.memErr = false := by
  obtain ⟨hr, hwr⟩ := hw.m.access
  rcases dmem_inv hw.m.not_both (wires_inv hv).2 with
    ⟨-, -, hm, -, he⟩ | ⟨hread, -⟩ | ⟨-, hwrite, -⟩
  · exact ⟨hm, he⟩
  · rw [hr, decide_eq_true_eq] at hread
    exact absurd hread hl
  · rw [hwr, decide_eq_true_eq] at hwrite
    exact absurd hwrite hst

/-- Behind the branch, a fetch that has to wait is not of an `HLT` and not from instruction
memory. -/
theorem Squashed.fetch_inFlight {seq : Word} {s : Machine} {v : Wires} (h : Squashed seq s)
    (hv : wires true s = .ok v) (hmem : v.mem = v.fMem) (hfl : v.mem.dmemStatus = .inFlight) :
    (v.fStatus = .hlt → seq = 0) ∧ (addrInImem v.mem seq = true → v.mem.dmemStatus ≠ .inFlight) := by
  rw [hmem] at hfl ⊢
  rcases fetch_inv hv with ⟨hh, -, -, -, hm⟩ | ⟨-, insnbits, imemErr, hi, hd, hst, -⟩
  · simp only [fetchHalts, h.fetchPC_eq, Bool.or_eq_true, beq_iff_eq] at hh
    rw [hm]
    exact ⟨fun _ => hh.elim id h.noHalt, h.ready⟩
  · rw [h.fetchPC_eq] at hi
    obtain ⟨herr, w, hr, -⟩ := imem_inv hi
    have hseg : addrInImem v.fMem seq = addrInImem s.mem seq := by
      simp only [addrInImem, memRead_segStart hr]
    cases hin : addrInImem s.mem seq with
    | true =>
      rw [(imem_flat hin hi).2] at hfl
      exact absurd hfl (h.ready hin)
    | false =>
      rw [hin, Bool.not_false, Bool.true_or] at herr
      refine ⟨fun hhlt => ?_, fun hin' => ?_⟩
      · rw [hst, hd, fetchedInstr, herr] at hhlt
        simp [fetchStatus] at hhlt
      · rw [hseg, hin] at hin'
        cases hin'

/-! ## What one cycle keeps -/

/-- Until the branch leaves X nothing enters D or X, and then the squash has happened. -/
theorem untaken_next {s : Machine} {v : Wires} (hw : s.WellFormed true) (hbr : s.untaken)
    (hok : (hazards true s v).Flows → ¬ branchTrap s v) :
    ¬ (next true s v).entersX ∧ ¬ (next true s v).entersD ∧
      ((next true s v).untaken ∧ (next true s v).X.out.seqSuccPC = s.X.out.seqSuccPC ∨
        Squashed s.X.out.seqSuccPC (next true s v)) := by
  obtain ⟨hop, hcond⟩ := hbr
  have hg := hazardOf_guard true (hazards true s v)
  have hD := hw.next_D v
  have hX := hw.next_X v
  have hM := hw.next_M v
  have hctls := hw.next_ctls v
  -- the branch stays in X
  have hstall : (next true s v).X.out = s.X.out → (next true s v).X.ctl = .stall →
      (next true s v).D.ctl = .stall → ¬ (next true s v).entersX ∧ ¬ (next true s v).entersD ∧
      ((next true s v).untaken ∧ (next true s v).X.out.seqSuccPC = s.X.out.seqSuccPC ∨
        Squashed s.X.out.seqSuccPC (next true s v)) := by
    intro hX hxc hdc
    refine ⟨fun hx => ?_, fun hd => ?_, Or.inl ⟨⟨by rw [hX]; exact hop, ?_⟩, by rw [hX]⟩⟩
    · exact absurd (hxc.symm.trans hx.1) (by decide)
    · exact absurd (hdc.symm.trans hd.1) (by decide)
    · rw [Machine.WellFormed.mIn_stalled hX (hw.x.setFlags_of_branch hop), hcond]
  -- the branch goes on to M and leaves bubbles behind
  have hsquash : (hazards true s v).Flows → (next true s v).D.out = .zero →
      (next true s v).X.out = .zero → (next true s v).M.out = mIn true s →
      (next true s v).X.ctl = .bubble → (next true s v).D.ctl = .bubble →
      ¬ (next true s v).entersX ∧ ¬ (next true s v).entersD ∧
      ((next true s v).untaken ∧ (next true s v).X.out.seqSuccPC = s.X.out.seqSuccPC ∨
        Squashed s.X.out.seqSuccPC (next true s v)) := by
    intro hflow hD hX hM hxc hdc
    refine ⟨fun hx => ?_, fun hd => ?_, Or.inr ⟨?_, ?_, ?_, ?_, hD, hX, ?_, fun _ => hflow.ready⟩⟩
    · exact absurd (hxc.symm.trans hx.1) (by decide)
    · exact absurd (hdc.symm.trans hd.1) (by decide)
    · rw [hM]
      exact hop
    · rw [hM, hcond]
    · rw [hM]
      rfl
    · rw [hM]
      exact hflow.mIn
    · exact fun hhlt => absurd (Or.inr hhlt) (hok hflow)
  have hxc : (next true s v).X.ctl = (hazardOf true (hazards true s v)).ctls.x :=
    congrArg Ctls.x hctls
  have hdc : (next true s v).D.ctl = (hazardOf true (hazards true s v)).ctls.d :=
    congrArg Ctls.d hctls
  -- what is not found by the test for `B.cond` is a `CBZ` or a `CBNZ`
  have hseen : checkMispredBranchHazard s.X.out.op (mIn true s).condHolds = false →
      checkCbHazard s.X.out.op (mIn true s).condHolds = true := by
    intro hmis
    simp only [List.mem_cons, List.not_mem_nil, or_false] at hop
    rcases hop with hb | hcb
    · exact absurd ⟨hb, hcond⟩ (not_mispredicted hmis)
    · exact checkCbHazard_iff.2 ⟨hcb, hcond⟩
  cases hz : hazardOf true (hazards true s v) <;> rw [hz] at hg hD hX hM hxc hdc
  case wbackError => exact hstall hX hxc hdc
  case memoryError => exact hstall hX hxc hdc
  case executeError => exact hstall hX hxc hdc
  case inFlight => exact hstall hX hxc hdc
  case loadUse =>
    have hld : s.X.out.op = .ldur := (HazardIn.loadUse_ops hg.2.2).1
    rw [hld] at hop
    exact absurd hop (by decide)
  case mispredicted => exact hsquash hg.1 hD hX hM hxc hdc
  case cb => exact hsquash hg.1 hD hX hM hxc hdc
  case ret =>
    -- the test for a `RET` comes before that for a `CBZ`: this is the trap
    obtain ⟨hflow, hmis, hret⟩ := hg
    refine absurd (Or.inl ⟨fun hb => ?_, checkRetHazard_iff.1 hret⟩) (hok hflow)
    exact not_mispredicted hmis ⟨hb, hcond⟩
  case br => exact absurd hg.2.2.2.1 (not_not.2 ⟨rfl, hseen hg.2.1⟩)
  case none => exact absurd hg.2.2.2.1 (not_not.2 ⟨rfl, hseen hg.2.1⟩)

/-- After the squash, the next instruction to enter D is fetched behind the branch. -/
theorem Squashed.next {seq : Word} {s : Machine} {v : Wires} (h : Squashed seq s)
    (hw : s.WellFormed true) (hv : wires true s = .ok v) :
    ¬ (ChArm.next true s v).entersX ∧
      ((ChArm.next true s v).entersD → fetchHalts true s = true → seq = 0) ∧
      (¬ (ChArm.next true s v).entersD →
        Squashed seq (ChArm.next true s v) ∨ (ChArm.next true s v).running = false) := by
  have hg := hazardOf_guard true (hazards true s v)
  have hD := hw.next_D v
  have hX := hw.next_X v
  have hM := hw.next_M v
  have hctls := hw.next_ctls v
  have hxc : (ChArm.next true s v).X.ctl = (hazardOf true (hazards true s v)).ctls.x :=
    congrArg Ctls.x hctls
  have hdc : (ChArm.next true s v).D.ctl = (hazardOf true (hazards true s v)).ctls.d :=
    congrArg Ctls.d hctls
  have hXop : s.X.out.op = .nop := by rw [h.x]; rfl
  have hDop : s.D.out.op = .nop := by rw [h.d]; rfl
  have hMop : s.M.out.op ≠ .ldur ∧ s.M.out.op ≠ .stur := by
    constructor <;> intro hop <;> have hb := h.branch <;> rw [hop] at hb <;>
      exact absurd hb (by decide)
  obtain ⟨hmem, hmemErr⟩ := wires_noAccess hw hv hMop.1 hMop.2
  have hhalt : fetchHalts true s = true → seq = 0 := by
    intro hh
    simp only [fetchHalts, h.fetchPC_eq, Bool.or_eq_true, beq_iff_eq] at hh
    exact hh.elim id h.noHalt
  -- with bubbles in D and X only an older instruction can keep fetch from going on
  cases hz : hazardOf true (hazards true s v) <;> rw [hz] at hg hD hX hM hxc hdc
  case wbackError =>
    refine ⟨fun hx => absurd (hxc.symm.trans hx.1) (by decide), fun _ => hhalt, fun _ => Or.inr ?_⟩
    -- an error in W ends the run
    have hst : (ChArm.next true s v).status = s.W.out.status := hw.statusNext_eq v
    have herr : s.W.out.status.isError = true := by
      rw [← wOut_eq hw.w]
      exact hg
    rw [Machine.running, hst]
    cases hs : s.W.out.status <;> rw [hs] at herr <;> first | rfl | cases herr
  case memoryError =>
    have herr : (wIn s v).status.isError = true := hg.2
    rw [wIn, hmemErr, if_neg (by decide), h.noError] at herr
    cases herr
  case executeError =>
    have herr : s.X.out.status.isError = true := hg.2.2
    rw [h.x] at herr
    cases herr
  case inFlight =>
    refine ⟨fun hx => absurd (hxc.symm.trans hx.1) (by decide), fun _ => hhalt, fun _ => Or.inl ?_⟩
    -- the fetch itself has to wait, which a cache can make it do
    have hMout : (ChArm.next true s v).M.out = s.M.out := hM
    have hfl : v.mem.dmemStatus = .inFlight := hg.2
    obtain ⟨hst, hready⟩ := h.fetch_inFlight hv hmem hfl
    exact ⟨by rw [hMout]; exact h.branch, by rw [hMout]; exact h.untaken,
      by rw [hMout]; exact h.seqSucc, by rw [hMout]; exact h.noError, hD.trans h.d, hX.trans h.x,
      hst, hready⟩
  case loadUse => exact absurd (hXop.symm.trans (HazardIn.loadUse_ops hg.2.2).1) (by decide)
  case mispredicted =>
    exact absurd (hXop.symm.trans (checkMispredBranchHazard_iff.1 hg.2).1) (by decide)
  case ret => exact absurd (hDop.symm.trans (checkRetHazard_iff.1 hg.2.2)) (by decide)
  case cb =>
    have hop : s.X.out.op = .cbz ∨ s.X.out.op = .cbnz := (checkCbHazard_iff.1 hg.2.2.2.2).1
    rw [hXop] at hop
    exact absurd hop (by decide)
  case br =>
    have hop : s.D.out.op = .br ∨ s.D.out.op = .blr := checkBrHazard_iff.1 hg.2.2.2.2.2
    rw [hDop] at hop
    exact absurd hop (by decide)
  case none =>
    have hDout : (ChArm.next true s v).D.out = v.d := hD
    refine ⟨fun hx => hx.2 ?_, fun _ => hhalt, fun hno => ?_⟩
    · have hXout : (ChArm.next true s v).X.out = xIn true s v := hX
      rw [hXout]
      change s.D.out.status = .bub
      rw [h.d]
      rfl
    · exact absurd ⟨hdc, by rw [hDout]; exact (fetch_ok hv).2.2⟩ hno

/-! ## Whole runs -/

/-- **Control hazards of the extra-credit build.**  From a cycle `i` with an untaken branch in X,
as long as nothing has entered D, nothing enters X.  The next instruction to enter D does so
once the branch has left X, and it is fetched from behind the branch; only from the
address 0 fetch makes up an `HLT`. -/
theorem untaken_squashes {img : Image} {entry : Word} {n : Nat} {σ : Nat → Machine}
    (h : Execution true img entry n σ) {i j : Nat} (hij : i ≤ j) (hj : j < n)
    (hbr : (σ i).untaken)
    (hok : ∀ k, i ≤ k → k ≤ j → ∀ v, wires true (σ k) = .ok v →
      (σ k).untaken → (hazards true (σ k) v).Flows → ¬ branchTrap (σ k) v)
    (hno : ∀ k, i ≤ k → k < j → ¬ (σ (k + 1)).entersD) :
    ¬ (σ (j + 1)).entersX ∧
      ((σ (j + 1)).entersD → (σ j).X.out.status = .bub ∧
        fetchPC true (σ j) = (σ i).X.out.seqSuccPC ∧
        (fetchHalts true (σ j) = true → (σ i).X.out.seqSuccPC = 0)) := by
  have key : ∀ k, i ≤ k → k ≤ j →
      (σ k).untaken ∧ (σ k).X.out.seqSuccPC = (σ i).X.out.seqSuccPC ∨
        Squashed (σ i).X.out.seqSuccPC (σ k) := by
    intro k hik
    induction k, hik using Nat.le_induction with
    | base => exact fun _ => Or.inl ⟨hbr, rfl⟩
    | succ k hik ih =>
      intro hkj
      obtain ⟨v, hv, hnext⟩ := h.wires (k := k) (by omega)
      have hw := h.wellFormed (k := k) (by omega)
      have hnoD := hno k hik (by omega)
      rw [hnext] at hnoD ⊢
      rcases ih (by omega) with ⟨hun, hseq⟩ | hsq
      · have := (untaken_next hw hun (hok k hik (by omega) v hv hun)).2.2
        rwa [hseq] at this
      · refine Or.inr (((hsq.next hw hv).2.2 hnoD).resolve_right fun hstop => ?_)
        have hgo := (h.next (k + 1) (by omega)).1
        rw [hnext, hstop] at hgo
        cases hgo
  obtain ⟨v, hv, hnext⟩ := h.wires hj
  have hw := h.wellFormed (k := j) (by omega)
  rw [hnext]
  rcases key j hij le_rfl with ⟨hun, -⟩ | hsq
  · obtain ⟨hX, hD, -⟩ := untaken_next hw hun (hok j hij le_rfl v hv hun)
    exact ⟨hX, fun hd => absurd hd hD⟩
  · obtain ⟨hX, hhalt, -⟩ := hsq.next hw hv
    exact ⟨hX, fun hd => ⟨by rw [hsq.x]; rfl, hsq.fetchPC_eq, hhalt hd⟩⟩

/-- `movz x1, #1`, `cbz x1, .+8`, `ret`, `movz x2, #7`, `ret`. -/
def cbzOverReturn : List (BitVec 32) :=
  [0xd2800021#32, 0xb4000041#32, 0xd65f03c0#32, 0xd28000e2#32, 0xd65f03c0#32]

/-- `movz x1, #1`, `cbz x1, .+8`, `movz x2, #7`, `ret`. -/
def cbzToReturn : List (BitVec 32) := [0xd2800021#32, 0xb4000041#32, 0xd28000e2#32, 0xd65f03c0#32]

theorem untaken_squashes_cbzOverReturn :
    let σ := stateAt true (.ofWords cbzOverReturn none) 0x400000#64
    ¬ (σ (4 + 1)).entersX ∧
      ((σ (4 + 1)).entersD → (σ 4).X.out.status = .bub ∧
        fetchPC true (σ 4) = (σ 3).X.out.seqSuccPC ∧
        (fetchHalts true (σ 4) = true → (σ 3).X.out.seqSuccPC = 0)) := by
  have hrun : Execution true (.ofWords cbzOverReturn none) 0x400000#64 5
      (stateAt true (.ofWords cbzOverReturn none) 0x400000#64) :=
    execution_stateAt (by decide +kernel)
  have htrap : ∀ k < 5, 3 ≤ k →
      okAnd (wires true (stateAt true (.ofWords cbzOverReturn none) 0x400000#64 k)) (fun v =>
        !branchTrap (stateAt true (.ofWords cbzOverReturn none) 0x400000#64 k) v) = true := by
    decide +kernel
  have hno : ∀ k < 4, 3 ≤ k →
      ¬ (stateAt true (.ofWords cbzOverReturn none) 0x400000#64 (k + 1)).entersD := by
    decide +kernel
  exact untaken_squashes hrun (by decide) (by decide) (by decide +kernel)
    (fun k hk hkj v hv _ _ => by simpa using of_okAnd (htrap k (by omega) hk) hv)
    (fun k hk hkj => hno k hkj hk)

/-- The wrong-path `RET` in D is latched into X although the `CBZ` is not taken. -/
theorem not_untaken_squashes_cbzToReturn :
    ∃ n σ, Execution true (.ofWords cbzToReturn none) 0x400000#64 n σ ∧
      ∃ i < n, (σ i).untaken ∧ (σ i).D.out.op = .ret ∧
        (σ (i + 1)).entersX ∧ (σ (i + 1)).X.out.op = .ret := by
  exact ⟨4, _, execution_stateAt (by decide +kernel), 3, by decide, by decide +kernel,
    by decide +kernel, by decide +kernel, by decide +kernel⟩

end ChArm
