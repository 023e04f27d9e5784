import ChArm.Base.Execution

/-!
# The two copies of the flags

The execute stage tests and sets `X_nzcvval`; `guest.proc->NZCV` is updated from
it behind the back of hazard control.  `olderFlags` follows the flags through
the instructions in the order in which they pass X, whatever stalls and bubbles
come between them.  Until a fault is signalled `guest.proc->NZCV` holds just
these flags whenever an instruction tests them.  `X_nzcvval`, which nobody sets
before the first flag-setting instruction, holds them from then on
(`testedFlags_iff`).

* `FlagCopies.next` — a cycle keeps the copies in step, whether X stalls or not.
* `testedFlags_iff` — the flags that are tested, in every run.
-/

namespace ChArm

/-! ## The flags of an instruction -/

/-- Does the instruction test the flags? -/
def Opcode.testsFlags (op : Opcode) : Bool :=
  op ∈ [Opcode.bCond, .csel, .csinv, .csinc, .csneg]

/-- The flags after an instruction that is executed with the flags `f`. -/
def flagsAfter (x : XInstr) (f : BitVec 8) : BitVec 8 := (executeAlu .zero f x).nzcv

/-- The flags left by all instructions that were in X before the one that is there after `k`
cycles. -/
def olderFlags (σ : Nat → Machine) : Nat → BitVec 8
  | 0 => PACK_CC_Z
  | k + 1 =>
      if (σ (k + 1)).X.ctl = .stall then olderFlags σ k
      else flagsAfter (σ k).X.out (olderFlags σ k)

theorem flagsAfter_of_not_setFlags {x : XInstr} (h : x.xSigs.setFlags = false) (f : BitVec 8) :
    flagsAfter x f = f := by
  simp only [flagsAfter, executeAlu, alu, h, Bool.false_eq_true, if_false]

theorem xNzcv_eq (s : Machine) : xNzcv s = flagsAfter s.X.out s.xNzcvval :=
  (executeAlu_rca s.rca .zero s.xNzcvval s.X.out).2.2

/-- The operations of the flag-setting instructions. -/
def XInstr.FlagOp (x : XInstr) : Prop :=
  x.xSigs.setFlags = true → x.aluOp ∈ [AluOp.plus, .minus, .and]

theorem flagOp_decode (ec : Bool) (l : Locals) (r : Regs) (d : DInstr) :
    (decode ec l r d).1.FlagOp := by
  intro hset
  have hop : d.op ∈ [Opcode.addsRR, .cmnRR, .subsRR, .cmpRR, .andsRR, .tstRR] :=
    of_decide_eq_true hset
  show decideAluOp ec d.op ∈ [AluOp.plus, .minus, .and]
  simp only [List.mem_cons, List.not_mem_nil, or_false] at hop
  rcases hop with hop | hop | hop | hop | hop | hop <;> rw [hop] <;> cases ec <;> decide

/-- A flag-setting instruction sets the same flags whatever they were before. -/
theorem XInstr.FlagOp.flagsAfter_eq {x : XInstr} (h : x.FlagOp) (hset : x.xSigs.setFlags = true)
    (f g : BitVec 8) : flagsAfter x f = flagsAfter x g := by
  have hop := h hset
  simp only [List.mem_cons, List.not_mem_nil, or_false] at hop
  simp only [flagsAfter, executeAlu, alu, hset, if_true]
  rcases hop with hop | hop | hop
  · rw [hop]
    rfl
  · rw [hop]
    rfl
  · rw [hop]
    rfl

/-- The instructions that test the flags do not set them. -/
theorem XInstr.Ok.setFlags_of_testsFlags {ec : Bool} {x : XInstr} (h : x.Ok ec)
    (hop : x.op.testsFlags = true) : x.xSigs.setFlags = false := by
  rw [show x.xSigs = _ from congrArg Prod.fst h.sigs]
  simp only [Opcode.testsFlags, decide_eq_true_eq, List.mem_cons, List.not_mem_nil, or_false] at hop
  rcases hop with hop | hop | hop | hop | hop <;> rw [hop] <;> cases ec <;> rfl

/-! ## The invariant -/

/-- The copies after some cycles: `older` are the flags of the instructions that have passed X, and
`set` says whether one that sets flags has been there. -/
structure FlagCopies (older : BitVec 8) (set : Prop) (s : Machine) : Prop where
  flagOp : s.X.out.FlagOp
  tested : set → s.xNzcvval = s.NZCV
  unset : ¬ set → s.xNzcvval = 0 ∧ s.NZCV = PACK_CC_Z
  committed : s.X.out.xSigs.setFlags = false → s.NZCV = older
  stalled : s.X.out.xSigs.setFlags = true →
    s.NZCV = older ∨ s.NZCV = flagsAfter s.X.out older

theorem FlagCopies.init (img : Image) (entry : Word) :
    FlagCopies PACK_CC_Z False (.init img entry) :=
  ⟨nofun, nofun, fun _ => ⟨rfl, rfl⟩, fun _ => rfl, nofun⟩

/-- What a cycle without a fault does to the copies. -/
theorem next_flags {ec : Bool} {s : Machine} {v : Wires}
    (hfault : (next ec s v).deassertFlags = false) :
    (next ec s v).xNzcvval = flagsAfter s.X.out s.xNzcvval ∧
      (next ec s v).NZCV =
        if s.X.out.xSigs.setFlags then flagsAfter s.X.out s.xNzcvval else s.NZCV := by
  refine ⟨xNzcv_eq s, ?_⟩
  have hfault : flagsDeasserted ec s v = false := hfault
  show (if flagsLatch ec s v then xNzcv s else s.NZCV) = _
  rw [flagsLatch, hfault, xNzcv_eq, Bool.not_false, Bool.true_and]

/-- A cycle keeps the invariant, whether X stalls or not. -/
theorem FlagCopies.next {ec : Bool} {older : BitVec 8} {set : Prop} {s : Machine} {v : Wires}
    (h : FlagCopies older set s) (hw : s.WellFormed ec)
    (hfault : (ChArm.next ec s v).deassertFlags = false) :
    FlagCopies
      (if (ChArm.next ec s v).X.ctl = .stall then older else flagsAfter s.X.out older)
      (set ∨ s.X.out.xSigs.setFlags = true) (ChArm.next ec s v) := by
  obtain ⟨hx, hn⟩ := next_flags hfault
  have hX := hw.next_X v
  have hctl : (ChArm.next ec s v).X.ctl = (hazardOf ec (hazards ec s v)).ctls.x :=
    congrArg Ctls.x (hw.next_ctls v)
  rw [← hctl] at hX
  have hop : (ChArm.next ec s v).X.out.FlagOp := by
    rw [hX]
    exact clocked_mem _ nofun (flagOp_decode ec (s.locals s.numInstr) s.regs s.D.out) h.flagOp
  -- once the instruction in X has been executed, the committed flags are those it leaves
  have hdone : (ChArm.next ec s v).NZCV = flagsAfter s.X.out older := by
    rw [hn]
    cases hset : s.X.out.xSigs.setFlags with
    | true => exact (if_pos rfl).trans (h.flagOp.flagsAfter_eq hset _ _)
    | false =>
      rw [flagsAfter_of_not_setFlags hset older, if_neg (by decide)]
      exact h.committed hset
  refine ⟨hop, fun hs => ?_, fun hs => ?_, fun hset => ?_, fun hset => ?_⟩
  · rw [hx, hn]
    cases hset : s.X.out.xSigs.setFlags with
    | true => rfl
    | false =>
      rw [hset] at hs
      rw [flagsAfter_of_not_setFlags hset]
      exact h.tested (hs.resolve_right (by decide))
  · rw [not_or, Bool.not_eq_true] at hs
    rw [hx, hn, hs.2, flagsAfter_of_not_setFlags hs.2]
    exact h.unset hs.1
  · by_cases hst : (ChArm.next ec s v).X.ctl = .stall
    · rw [if_pos hst, hdone]
      rw [hst] at hX
      rw [show (ChArm.next ec s v).X.out = s.X.out from hX] at hset
      exact flagsAfter_of_not_setFlags hset older
    · rw [if_neg hst, hdone]
  · by_cases hst : (ChArm.next ec s v).X.ctl = .stall
    · rw [if_pos hst, hdone]
      rw [hst] at hX
      rw [show (ChArm.next ec s v).X.out = s.X.out from hX]
      exact .inr rfl
    · rw [if_neg hst, hdone]
      exact .inl rfl

/-! ## Whole runs -/

/-- The invariant holds in every cycle before a fault is signalled. -/
theorem flagCopies {ec : Bool} {img : Image} {entry : Word} {n : Nat} {σ : Nat → Machine}
    (h : Execution ec img entry n σ) {k : Nat} (hk : k ≤ n)
    (hfault : (σ k).deassertFlags = false) :
    FlagCopies (olderFlags σ k) (∃ i < k, (σ i).X.out.xSigs.setFlags = true) (σ k) := by
  induction k with
  | zero =>
    have hnone : (∃ i < 0, (σ i).X.out.xSigs.setFlags = true) = False :=
      eq_false fun ⟨i, hi, _⟩ => absurd hi (Nat.not_lt_zero i)
    rw [hnone, h.start]
    exact .init img entry
  | succ k ih =>
    obtain ⟨v, hv, hnext⟩ := h.wires (Nat.lt_of_succ_le hk)
    rw [hnext] at hfault
    have hprev := ih (by omega) (quiet_of_next hfault).1
    have hset : (∃ i < k + 1, (σ i).X.out.xSigs.setFlags = true) =
        ((∃ i < k, (σ i).X.out.xSigs.setFlags = true) ∨ (σ k).X.out.xSigs.setFlags = true) :=
      propext Nat.exists_lt_succ_right
    rw [hset, olderFlags, hnext]
    exact hprev.next (h.wellFormed (by omega)) hfault

/-- **Flags seen and flags committed.**  In every cycle before a fault is signalled in which an
instruction in X tests the flags, `guest.proc->NZCV` is what the older instructions have left.  The
flags tested are these exactly if one of the older instructions has set flags. -/
theorem testedFlags_iff {ec : Bool} {img : Image} {entry : Word} {n : Nat} {σ : Nat → Machine}
    (h : Execution ec img entry n σ) {k : Nat} (hk : k ≤ n)
    (hfault : (σ k).deassertFlags = false) (hop : (σ k).X.out.op.testsFlags = true) :
    (σ k).NZCV = olderFlags σ k ∧
      ((σ k).xNzcvval = (σ k).NZCV ↔ ∃ i < k, (σ i).X.out.xSigs.setFlags = true) := by
  have hcopies := flagCopies h hk hfault
  refine ⟨hcopies.committed ((h.wellFormed hk).x.setFlags_of_testsFlags hop), ?_, hcopies.tested⟩
  intro heq
  by_contra hnone
  obtain ⟨hx, hn⟩ := hcopies.unset hnone
  rw [hx, hn] at heq
  exact absurd heq (by decide)

/-- `b.eq .+8`, `movz x1, #1`, `ret`. -/
def branchFirst : List (BitVec 32) := [0x54000040#32, 0xd2800021#32, 0xd65f03c0#32]

/-- `cmp x1, x1`, `b.eq .+8`, `movz x1, #1`, `ret`. -/
def branchAfterCompare : List (BitVec 32) :=
  [0xeb01003f#32, 0x54000040#32, 0xd2800021#32, 0xd65f03c0#32]

theorem testedFlags_branchAfterCompare :
    let σ := stateAt false (.ofWords branchAfterCompare none) 0x400000#64
    (σ 3).NZCV = olderFlags σ 3 ∧
      ((σ 3).xNzcvval = (σ 3).NZCV ↔ ∃ i < 3, (σ i).X.out.xSigs.setFlags = true) := by
  have hrun : Execution false (.ofWords branchAfterCompare none) 0x400000#64 3
      (stateAt false (.ofWords branchAfterCompare none) 0x400000#64) :=
    execution_stateAt (by decide +kernel)
  exact testedFlags_iff hrun le_rfl (by decide +kernel) (by decide +kernel)

/-- The first `B.EQ` of a run tests no `Z` although `runElf` has set it, and is not taken. -/
theorem not_testedFlags_branchFirst :
    ∃ n σ, Execution false (.ofWords branchFirst none) 0x400000#64 n σ ∧
      (σ n).deassertFlags = false ∧ (σ n).X.out.op = .bCond ∧ (σ n).xNzcvval = 0 ∧
      (σ n).NZCV = PACK_CC_Z ∧ (mIn false (σ n)).condHolds = false :=
  ⟨2, _, execution_stateAt (by decide +kernel), by decide +kernel, by decide +kernel,
    by decide +kernel, by decide +kernel, by decide +kernel⟩

end ChArm
