import ChArm.Base.Uncached
import ChArm.Pipe.ControlFlow

/-!
# Where the cycles go

A run of the base build without a cache that ends in an `HLT` and meets no fault.
Every cycle either latches an instruction into X or leaves a bubble there, and
every bubble has one cause: filling the pipeline, a load-use stall, an untaken
branch or a `RET` (`cycles_eq`).

A load-use stall is either what it should be, a wait for the register a load
writes (`loadUse`), or idle: a load to the zero register stalls an instruction
behind it that has the zero register, or no register at all, in an operand
slot (`idleStall`).

* `Phase.next` — what one cycle does, and what it is accounted to.
* `cycles_eq` — all cycles of a run, each with its cause.
* `numInstr_eq_iff` — when the count has no idle stall in it.
-/

namespace ChArm

/-! ## Adjacent pairs -/

section
variable {α : Type} (p : α → α → Bool)

/-- How many elements of the list are followed by one they are related to. -/
def countAdjacent : List α → Nat
  | x :: y :: l => (p x y).toNat + countAdjacent (y :: l)
  | _ => 0

/-- The last element of the list is related to `y`. -/
def lastRelated (l : List α) (y : α) : Bool := l.getLast?.any fun x => p x y

theorem countAdjacent_concat (l : List α) (y : α) :
    countAdjacent p (l ++ [y]) = countAdjacent p l + (lastRelated p l y).toNat := by
  induction l with
  | nil => rfl
  | cons x l ih =>
    cases l with
    | nil =>
      show (p x y).toNat + 0 = 0 + (p x y).toNat
      omega
    | cons z l =>
      have hlast : lastRelated p (x :: z :: l) y = lastRelated p (z :: l) y := by
        unfold lastRelated
        rw [List.getLast?_cons_cons]
      rw [hlast]
      show (p x z).toNat + countAdjacent p (z :: l ++ [y]) = (p x z).toNat + _ + _
      rw [ih, Nat.add_assoc]

theorem countAdjacent_eq_zero_iff (l : List α) :
    countAdjacent p l = 0 ↔ l.IsChain fun x y => p x y = false := by
  induction l with
  | nil => exact ⟨fun _ => .nil, fun _ => rfl⟩
  | cons x l ih =>
    cases l with
    | nil => exact ⟨fun _ => .singleton x, fun _ => rfl⟩
    | cons y l =>
      rw [List.isChain_cons_cons, ← ih, countAdjacent, Nat.add_eq_zero_iff]
      cases p x y <;> simp

end

/-! ## The instructions of a run -/

/-- An instruction latched into X, and what its condition comes to there. -/
structure Issued where
  instr : DInstr
  condHolds : Bool

/-- The instructions latched into X in the first cycles of a run. -/
def issued (σ : Nat → Machine) : Nat → List Issued
  | 0 => []
  | k + 1 => issue (issued σ k) (σ k) (σ (k + 1))
where
  /-- The instructions after a cycle. -/
  issue (l : List Issued) (s s' : Machine) : List Issued :=
    if s'.entersX then l ++ [⟨s.D.out, (mIn false s').condHolds⟩] else l

/-- The part of a list up to and including the first `HLT`. -/
def untilHalt : List Issued → List Issued
  | [] => []
  | x :: l => if x.instr.status = .hlt then [x] else x :: untilHalt l

namespace DInstr

variable (d : DInstr)

/-- The fields of the register operands: `Rn`, `Rm`, and `Rt` or `Rd`. -/
def rn : RegNum := regField d.insnbits 5

def rm : RegNum := regField d.insnbits 16

def rt : RegNum := regField d.insnbits 0

/-- The register fields an instruction of the base build reads. -/
def reads : List RegNum :=
  match d.op with
  | .ldur | .addRI | .subRI | .lslRI | .lsrRI | .ubfm | .asr | .ret => [d.rn]
  | .stur => [d.rn, d.rt]
  | .movk => [d.rt]
  | .addsRR | .cmnRR | .subsRR | .cmpRR | .mvn | .orrRR | .eorRR | .andsRR | .tstRR | .lslRR
  | .lsrRR | .ubfmv => [d.rn, d.rm]
  | _ => []

/-- Does `check_load_use_hazard` see the zero register among the sources? -/
def zeroSource : Bool :=
  match d.op with
  | .nop | .hlt | .movz | .adrp | .b | .bl => false
  | .stur => d.rt == 31#8
  | .addsRR | .cmnRR | .subsRR | .cmpRR | .mvn | .orrRR | .eorRR | .andsRR | .tstRR | .lslRR
  | .lsrRR | .ubfmv => d.rn == 31#8 || d.rm == 31#8
  | _ => true

end DInstr

/-- An `LDUR` followed by an instruction that reads the register, X0 to X30, it loads. -/
def loadUse (x y : Issued) : Bool :=
  x.instr.op = .ldur ∧ x.instr.rt ≠ 31#8 ∧ x.instr.rt ∈ y.instr.reads

/-- An `LDUR` to the zero register that stalls the instruction behind it for nothing. -/
def idleStall (x y : Issued) : Bool :=
  x.instr.op = .ldur ∧ x.instr.rt = 31#8 ∧ y.instr.zeroSource

/-- A `B.cond` resolved not taken. -/
def Issued.untaken (x : Issued) : Bool := x.instr.op = .bCond ∧ x.condHolds = false

/-- A `RET`. -/
def Issued.isRet (x : Issued) : Bool := x.instr.op = .ret

/-! ## The load-use test -/

theorem DInstr.rt_le (d : DInstr) : d.rt ≤ 31#8 := regField_le _ _

theorem spToXzr_eq_iff {a b : RegNum} (ha : a ≤ 31#8) (hb : b ≤ 31#8) :
    spToXzr a = spToXzr b ↔ a = b := by
  have hne : ∀ r : RegNum, r ≤ 31#8 → r ≠ XZR_NUM := by
    rintro r hr rfl
    exact absurd hr (by decide)
  unfold spToXzr
  by_cases h1 : a = SP_NUM <;> by_cases h2 : b = SP_NUM
  · simp [h1, h2]
  · rw [if_pos h1, if_neg h2, h1]
    exact ⟨fun h => absurd h.symm (hne b hb), fun h => absurd h.symm h2⟩
  · rw [if_neg h1, if_pos h2, h2]
    exact ⟨fun h => absurd h (hne a ha), fun h => absurd h h1⟩
  · rw [if_neg h1, if_neg h2]

theorem xzr_eq_spToXzr_iff {a : RegNum} (ha : a ≤ 31#8) : XZR_NUM = spToXzr a ↔ a = 31#8 :=
  (spToXzr_eq_iff (BitVec.le_refl 31#8) ha).trans eq_comm

theorem eq_spToXzr_iff {a b : RegNum} (hb : b ≤ 31#8) :
    b = spToXzr a ↔ b = a ∧ a ≠ 31#8 := by
  unfold spToXzr
  by_cases h : a = SP_NUM
  · rw [if_pos h]
    refine ⟨?_, fun hc => absurd h hc.2⟩
    rintro rfl
    exact absurd hb (by decide)
  · rw [if_neg h]
    exact ⟨fun hc => ⟨hc, h⟩, fun hc => hc.1⟩

/-- The test finds the instructions that read the loaded register, and those that wait for the
zero register. -/
theorem checkLoadUseHazard_iff {d : DInstr} (hd : d.Ok false) (hbub : d.status ≠ .bub)
    (herr : d.op ≠ .error) (l : Locals) {rt : RegNum} (hrt : rt ≤ 31#8) :
    checkLoadUseHazard d.op (extractRegs false l d.insnbits d.op d.format).src1
        (extractRegs false l d.insnbits d.op d.format).src2 .ldur (spToXzr rt) = true ↔
      (rt ≠ 31#8 ∧ rt ∈ d.reads) ∨ (rt = 31#8 ∧ d.zeroSource = true) := by
  have hbase := hd.base rfl
  have hfixed : ∀ k, spToXzr (regField d.insnbits k) = spToXzr rt ↔ regField d.insnbits k = rt :=
    fun k => spToXzr_eq_iff (regField_le _ _) hrt
  have hzero : spToXzr XZR_NUM = spToXzr rt ↔ rt = 31#8 := xzr_eq_spToXzr_iff hrt
  have hsp : ∀ k, regField d.insnbits k = spToXzr rt ↔ regField d.insnbits k = rt ∧ rt ≠ 31#8 :=
    fun k => eq_spToXzr_iff (regField_le _ _)
  rw [hd.format hbub]
  obtain ⟨insnbits, op, format, seqSuccPC, status⟩ := d
  dsimp only at hfixed hsp
  cases op
  case error => exact absurd rfl herr
  all_goals try (cases hbase; done)
  all_goals simp [checkLoadUseHazard, extractRegs, extractRegsTable, ftable, DInstr.reads,
    DInstr.zeroSource, fixRegs, formatM, formatI1, formatRR, formatRI, formatB2, formatB3, DInstr.rn,
    DInstr.rm, DInstr.rt, hfixed, hzero, hsp]
  all_goals clear hfixed hzero hsp hd hbub herr hbase
  all_goals grind

/-! ## Quiet cycles -/

section
variable {s : Machine} {v : Wires}

/-- What a cycle without a fault has found: no error, and no wait for memory. -/
structure Smooth (s : Machine) (v : Wires) : Prop where
  wf : s.WellFormed false
  wires : wires false s = .ok v
  quiet : (hazards false s v).Quiet
  ready : v.mem.dmemStatus ≠ .inFlight

/-- The blocks of `handle_hazards` that decide in such a cycle. -/
theorem Smooth.cases (h : Smooth s v) :
    hazardOf false (hazards false s v) = .loadUse ∨
      hazardOf false (hazards false s v) = .mispredicted ∨
      hazardOf false (hazards false s v) = .ret ∨ hazardOf false (hazards false s v) = .none := by
  have hg := hazardOf_guard false (hazards false s v)
  cases hz : hazardOf false (hazards false s v) <;> rw [hz] at hg
  case wbackError => exact absurd (h.quiet.wOut.symm.trans hg) (by decide)
  case memoryError => exact absurd (h.quiet.wIn.symm.trans hg.2) (by decide)
  case executeError => exact absurd (h.quiet.mIn.symm.trans hg.2.2) (by decide)
  case inFlight => exact absurd hg.2 h.ready
  case cb => exact absurd hg.2.2.2.1 (by decide)
  case br => exact absurd hg.2.2.2.2.1 (by decide)
  all_goals simp

/-- X is latched or bubbled. -/
theorem Smooth.next_X (h : Smooth s v) :
    (next false s v).entersX ∧ (next false s v).X.out = xIn false s v ∧ s.D.out.status ≠ .bub ∨
      ¬ (next false s v).entersX ∧ (next false s v).X.out.status = .bub := by
  have hX := h.wf.next_X v
  have hctl : (next false s v).X.ctl = (hazardOf false (hazards false s v)).ctls.x :=
    congrArg Ctls.x (h.wf.next_ctls v)
  rw [← hctl] at hX
  have hload : (next false s v).X.ctl = .load ∨ (next false s v).X.ctl = .bubble := by
    rw [hctl]
    rcases h.cases with hz | hz | hz | hz <;> rw [hz] <;> decide
  rcases hload with hl | hl
  · rw [hl] at hX
    have hX : (next false s v).X.out = xIn false s v := hX
    by_cases hb : s.D.out.status = .bub
    · refine .inr ⟨fun he => he.2 ?_, ?_⟩ <;>
      · rw [hX]
        exact hb
    · refine .inl ⟨⟨hl, ?_⟩, hX, hb⟩
      rw [hX]
      exact hb
  · rw [hl] at hX
    have hX : (next false s v).X.out = .zero := hX
    refine .inr ⟨fun he => absurd (hl.symm.trans he.1) (by decide), ?_⟩
    rw [hX]
    rfl

/-- M and W are latched, and no access faults. -/
theorem Smooth.latched (h : Smooth s v) (hu : s.mem.Uncached) :
    (next false s v).M.out = mIn false s ∧ (next false s v).W.out = wIn s v ∧
      v.memErr = false := by
  have hwout : s.W.out.status.isError = false := by
    rw [← wOut_eq h.wf.w]
    exact h.quiet.wOut
  obtain ⟨hm, hw⟩ := ctls_of_quiet h.wf hu h.wires h.quiet.wIn hwout
  have hM := h.wf.next_M v
  have hW := h.wf.next_W v
  rw [hm] at hM
  rw [hw] at hW
  refine ⟨hM, hW, ?_⟩
  by_contra he
  have hwin : (wIn s v).status.isError = false := h.quiet.wIn
  rw [wIn, if_pos (Bool.eq_true_of_not_eq_false he)] at hwin
  cases hwin

/-- A status takes three cycles from X. -/
theorem Smooth.statuses (h : Smooth s v) (hu : s.mem.Uncached) :
    (next false s v).M.out.status = s.X.out.status ∧
      (next false s v).W.out.status = s.M.out.status ∧
      (next false s v).status = s.W.out.status := by
  obtain ⟨hM, hW, herr⟩ := h.latched hu
  refine ⟨by rw [hM]; rfl, ?_, h.wf.statusNext_eq v⟩
  rw [hW, wIn, herr]
  rfl

end

/-! ## What the instructions cost -/

/-- The cycles the instructions have to account for. -/
def cost (l : List Issued) : Nat :=
  l.length + countAdjacent loadUse l + countAdjacent idleStall l + 2 * l.countP Issued.untaken +
    l.countP Issued.isRet

/-- The load-use stalls, one or none, of an instruction that follows the list. -/
def stallsAfter (l : List Issued) (y : Issued) : Nat :=
  (lastRelated loadUse l y).toNat + (lastRelated idleStall l y).toNat

theorem cost_concat (l : List Issued) (y : Issued) :
    cost (l ++ [y]) =
      cost l + 1 + stallsAfter l y + 2 * y.untaken.toNat + y.isRet.toNat := by
  have hcount : ∀ p : Issued → Bool, [y].countP p = (p y).toNat := by
    intro p
    rw [List.countP_singleton]
    cases p y <;> rfl
  unfold cost stallsAfter
  rw [List.length_append, List.length_singleton, countAdjacent_concat, countAdjacent_concat,
    List.countP_append, List.countP_append, hcount, hcount]
  omega

theorem stallsAfter_of_not_ldur {l : List Issued} (h : ∀ x ∈ l.getLast?, x.instr.op ≠ .ldur)
    (y : Issued) : stallsAfter l y = 0 := by
  unfold stallsAfter lastRelated
  cases hl : l.getLast? with
  | none => rfl
  | some x =>
    have hx : x.instr.op ≠ .ldur := h x hl
    simp [loadUse, idleStall, hx]

/-- Behind a load, the stalls are those of the load-use test. -/
theorem stallsAfter_ldur {l : List Issued} {x y : Issued} (hlast : l.getLast? = some x)
    (hld : x.instr.op = .ldur) (hy : y.instr.Ok false) (hbub : y.instr.status ≠ .bub)
    (herr : y.instr.op ≠ .error) (locals : Locals) :
    stallsAfter l y = (checkLoadUseHazard y.instr.op
      (extractRegs false locals y.instr.insnbits y.instr.op y.instr.format).src1
      (extractRegs false locals y.instr.insnbits y.instr.op y.instr.format).src2
      .ldur (spToXzr x.instr.rt)).toNat := by
  have hiff := checkLoadUseHazard_iff hy hbub herr locals x.instr.rt_le
  unfold stallsAfter lastRelated
  rw [hlast]
  show (loadUse x y).toNat + (idleStall x y).toNat = _
  by_cases hrt : x.instr.rt = 31#8
  · have hidle : checkLoadUseHazard _ _ _ _ _ = true ↔ y.instr.zeroSource = true :=
      hiff.trans ⟨fun h => h.elim (fun h => absurd hrt h.1) (·.2), fun h => .inr ⟨hrt, h⟩⟩
    rw [Bool.eq_iff_iff.2 hidle]
    simp [loadUse, idleStall, hld, hrt]
  · have hreads : checkLoadUseHazard _ _ _ _ _ = true ↔ decide (x.instr.rt ∈ y.instr.reads) = true :=
      (hiff.trans ⟨fun h => h.elim (·.2) (fun h => absurd h.1 hrt), fun h => .inl ⟨hrt, h⟩⟩).trans
        decide_eq_true_iff.symm
    rw [Bool.eq_iff_iff.2 hreads]
    simp [loadUse, idleStall, hld, hrt]

/-! ## The phases of the pipeline -/

/-- Where the front of the pipeline stands, with the bubbles that are due and not yet in X, and
those that are in X and not yet accounted for. -/
inductive Phase (l : List Issued) (s : Machine) : Nat → Nat → Prop
  /-- The last instruction is in X, the next one in D. -/
  | issuing (x : Issued) (hlast : l.getLast? = some x) (hop : s.X.out.op = x.instr.op)
      (hstatus : s.X.out.status = x.instr.status)
      (hdst : x.instr.op = .ldur → s.X.out.dst = spToXzr x.instr.rt)
      (hcond : (mIn false s).condHolds = x.condHolds) (hd : s.D.out.status ≠ .bub) :
      Phase l s (2 * x.untaken.toNat) 0
  /-- A `RET` is in X, a bubble in D. -/
  | behindRet (x : Issued) (hlast : l.getLast? = some x) (hret : x.instr.op = .ret)
      (hop : s.X.out.op = .ret) (hd : s.D.out.status = .bub) : Phase l s 1 0
  /-- The instruction in D has had to wait for the load before it. -/
  | stalled (hx : s.X.out.status = .bub) (hd : s.D.out.status ≠ .bub)
      (hstall : ∀ c, stallsAfter l ⟨s.D.out, c⟩ = 1) : Phase l s 0 1
  /-- A bubble is in X that no load has caused. -/
  | empty (hx : s.X.out.status = .bub) (hlast : ∀ x ∈ l.getLast?, x.instr.op ≠ .ldur) :
      Phase l s (if s.D.out.status = .bub then 1 else 0) 0

section
variable {l : List Issued} {s : Machine} {v : Wires}

/-- A cycle that latches the instruction in D. -/
theorem Smooth.latch (hs : Smooth s v) (hd : s.D.out.status ≠ .bub)
    (hz : hazardOf false (hazards false s v) = .ret ∨
      hazardOf false (hazards false s v) = .none) (l : List Issued) :
    ∃ a, Phase (issued.issue l s (next false s v)) (next false s v) a 0 ∧
      1 + a + stallsAfter l ⟨s.D.out, (mIn false (next false s v)).condHolds⟩ + cost l =
        cost (issued.issue l s (next false s v)) := by
  have hg := hazardOf_guard false (hazards false s v)
  have hD := hs.wf.next_D v
  have hX := hs.wf.next_X v
  have hctl : (next false s v).X.ctl = (hazardOf false (hazards false s v)).ctls.x :=
    congrArg Ctls.x (hs.wf.next_ctls v)
  have hload : (hazardOf false (hazards false s v)).ctls.x = .load := by
    rcases hz with hz | hz <;> rw [hz] <;> rfl
  rw [hload] at hX hctl
  have hX : (next false s v).X.out = xIn false s v := hX
  have henters : (next false s v).entersX := by
    refine ⟨hctl, ?_⟩
    rw [hX]
    exact hd
  set y : Issued := ⟨s.D.out, (mIn false (next false s v)).condHolds⟩ with hy
  have hissue : issued.issue l s (next false s v) = l ++ [y] := if_pos henters
  have hlast : (l ++ [y]).getLast? = some y := List.getLast?_concat
  have hop : (next false s v).X.out.op = y.instr.op := by
    rw [hX]
    rfl
  rw [hissue, cost_concat]
  rcases hz with hz | hz <;> rw [hz] at hg hD
  · have hret : s.D.out.op = .ret := checkRetHazard_iff.1 hg.2.2
    have hD : (next false s v).D.out = .zero := hD
    refine ⟨1, .behindRet y hlast hret (hop.trans hret) (by rw [hD]; rfl), ?_⟩
    have hun : y.untaken = false := by simp [Issued.untaken, y, hret]
    have hisRet : y.isRet = true := by simp [Issued.isRet, y, hret]
    rw [hun, hisRet]
    show _ = _ + 1 + _ + 2 * 0 + 1
    omega
  · have hret : s.D.out.op ≠ .ret := not_ret hg.2.2.1
    have hD : (next false s v).D.out = v.d := hD
    refine ⟨_, .issuing y hlast hop (by rw [hX]; rfl) ?_ rfl
      (by rw [hD]; exact (fetch_ok hs.wires).2.2), ?_⟩
    · intro hld
      rw [hX]
      show (extractRegs false (s.locals s.numInstr) s.D.out.insnbits s.D.out.op
        s.D.out.format).dst = _
      rw [hs.wf.d.format hd, show s.D.out.op = .ldur from hld]
      rfl
    · have hisRet : y.isRet = false := by simp [Issued.isRet, y, hret]
      rw [hisRet]
      show _ = _ + 1 + _ + _ + 0
      omega

/-- A cycle that leaves a bubble in X. -/
theorem Smooth.bubbled (hs : Smooth s v)
    (hb : (hazardOf false (hazards false s v)).ctls.x = .bubble) (l : List Issued) :
    (next false s v).X.out = .zero ∧ issued.issue l s (next false s v) = l := by
  have hX := hs.wf.next_X v
  have hctl : (next false s v).X.ctl = (hazardOf false (hazards false s v)).ctls.x :=
    congrArg Ctls.x (hs.wf.next_ctls v)
  rw [hb] at hX hctl
  exact ⟨hX, if_neg fun he => absurd (hctl.symm.trans he.1) (by decide)⟩

/-- Behind a bubble in D, nothing is latched either. -/
theorem Smooth.drained (hs : Smooth s v) (hld : s.X.out.op ≠ .ldur) (hbr : s.X.out.op ≠ .bCond)
    (hd : s.D.out.status = .bub) (l : List Issued) :
    (next false s v).X.out.status = .bub ∧ (next false s v).D.out.status ≠ .bub ∧
      issued.issue l s (next false s v) = l := by
  have hg := hazardOf_guard false (hazards false s v)
  have hD := hs.wf.next_D v
  have hX := hs.wf.next_X v
  have hDop : s.D.out.op = .nop := hs.wf.d.status.of_bub hd
  rcases hs.cases with hz | hz | hz | hz <;> rw [hz] at hg hD hX
  · exact absurd (HazardIn.loadUse_ops hg.2.2).1 hld
  · exact absurd (checkMispredBranchHazard_iff.1 hg.2).1 hbr
  · exact absurd (hDop.symm.trans (checkRetHazard_iff.1 hg.2.2)) (by decide)
  · have hX : (next false s v).X.out = xIn false s v := hX
    have hD : (next false s v).D.out = v.d := hD
    have hbub : (next false s v).X.out.status = .bub := by
      rw [hX]
      exact hd
    refine ⟨hbub, ?_, if_neg fun he => he.2 hbub⟩
    rw [hD]
    exact (fetch_ok hs.wires).2.2

/-- With a `NOP` in X, the instruction in D is latched. -/
theorem Smooth.latches (hs : Smooth s v) (hx : s.X.out.status = .bub) :
    hazardOf false (hazards false s v) = .ret ∨ hazardOf false (hazards false s v) = .none := by
  have hg := hazardOf_guard false (hazards false s v)
  have hop : s.X.out.op = .nop := bubble_nop hs.wf hx
  rcases hs.cases with hz | hz | hz | hz
  · rw [hz] at hg
    exact absurd (hop.symm.trans (HazardIn.loadUse_ops hg.2.2).1) (by decide)
  · rw [hz] at hg
    exact absurd (hop.symm.trans (checkMispredBranchHazard_iff.1 hg.2).1) (by decide)
  · exact .inl hz
  · exact .inr hz

/-- The load-use test of the cycle counts the stalls of the instruction in D behind the one in X. -/
theorem Smooth.stallsAfter_eq (hs : Smooth s v) {x : Issued} (hlast : l.getLast? = some x)
    (hop : s.X.out.op = x.instr.op)
    (hdst : x.instr.op = .ldur → s.X.out.dst = spToXzr x.instr.rt) (hd : s.D.out.status ≠ .bub)
    (hclean : s.X.out.op = .ldur → s.D.out.op ≠ .error) (c : Bool) :
    stallsAfter l ⟨s.D.out, c⟩ = ((hazards false s v).loadUse).toNat := by
  by_cases hld : x.instr.op = .ldur
  · rw [stallsAfter_ldur hlast hld hs.wf.d hd (hclean (hop.trans hld)) (s.locals s.numInstr),
      ← hdst hld, ← hld, ← hop]
    rfl
  · have hno : (hazards false s v).loadUse = false := by
      by_contra h
      have hops := HazardIn.loadUse_ops (Bool.eq_true_of_not_eq_false h)
      exact hld (hop.symm.trans hops.1)
    rw [hno]
    refine stallsAfter_of_not_ldur (fun y hy => ?_) _
    rw [hlast] at hy
    cases hy
    exact hld

/-- What a cycle without a fault does to the phase: it goes on by one, and the cycle is accounted
for. -/
theorem Phase.next {a p : Nat} (h : Phase l s a p) (hs : Smooth s v)
    (hclean : s.X.out.op = .ldur → s.D.out.op ≠ .error) :
    ∃ a' p', Phase (issued.issue l s (ChArm.next false s v)) (ChArm.next false s v) a' p' ∧
      1 + a' + p + cost l = a + p' + cost (issued.issue l s (ChArm.next false s v)) := by
  have hg := hazardOf_guard false (hazards false s v)
  have hD := hs.wf.next_D v
  cases h with
  | issuing x hlast hop hstatus hdst hcond hd =>
    have hstalls := hs.stallsAfter_eq hlast hop hdst hd hclean
    -- where D is latched, the instruction in X is no untaken branch and no load D waits for
    have hlatched : hazardOf false (hazards false s v) = .ret ∨
        hazardOf false (hazards false s v) = .none → (hazards false s v).Flows →
        checkMispredBranchHazard s.X.out.op (mIn false s).condHolds = false →
        ∃ a' p', Phase (issued.issue l s (ChArm.next false s v)) (ChArm.next false s v) a' p' ∧
          1 + a' + 0 + cost l = 2 * x.untaken.toNat + p' +
            cost (issued.issue l s (ChArm.next false s v)) := by
      intro hz hflow hmis
      obtain ⟨a', hphase, hcost⟩ := hs.latch hd hz l
      have huntaken : x.untaken = false := by
        by_contra hun
        have hun := of_decide_eq_true (Bool.eq_true_of_not_eq_false hun)
        exact not_mispredicted hmis ⟨hop.trans hun.1, hcond.trans hun.2⟩
      refine ⟨a', 0, hphase, ?_⟩
      rw [hstalls, hflow.noLoadUse, Bool.toNat_false] at hcost
      rw [huntaken, Bool.toNat_false]
      omega
    rcases hs.cases with hz | hz | hz | hz <;> rw [hz] at hg hD
    · obtain ⟨hX, hissue⟩ := hs.bubbled (by rw [hz]; rfl) l
      have hD : (ChArm.next false s v).D.out = s.D.out := hD
      have hld : x.instr.op = .ldur := hop.symm.trans (HazardIn.loadUse_ops hg.2.2).1
      have huntaken : x.untaken = false := by simp [Issued.untaken, hld]
      rw [hissue]
      refine ⟨0, 1, .stalled (by rw [hX]; rfl) (by rw [hD]; exact hd) fun c => ?_, ?_⟩
      · rw [hD, hstalls, hg.2.2]
        rfl
      · rw [huntaken, Bool.toNat_false]
    · obtain ⟨hX, hissue⟩ := hs.bubbled (by rw [hz]; rfl) l
      have hD : (ChArm.next false s v).D.out = .zero := hD
      obtain ⟨hbr, hc⟩ : s.X.out.op = .bCond ∧ (mIn false s).condHolds = false :=
        checkMispredBranchHazard_iff.1 hg.2
      have huntaken : x.untaken = true := decide_eq_true ⟨hop.symm.trans hbr, hcond.symm.trans hc⟩
      rw [hissue]
      refine ⟨_, 0, .empty (by rw [hX]; rfl) fun y hy => ?_, ?_⟩
      · rw [hlast] at hy
        cases hy
        rw [← hop, hbr]
        decide
      · rw [hD, if_pos (show DInstr.zero.status = .bub from rfl), huntaken, Bool.toNat_true]
    · exact hlatched (.inl hz) hg.1 hg.2.1
    · exact hlatched (.inr hz) hg.1 hg.2.1
  | behindRet x hlast hret hop hd =>
    obtain ⟨hbub, hd', hissue⟩ := hs.drained (by rw [hop]; decide) (by rw [hop]; decide) hd l
    rw [hissue]
    refine ⟨_, 0, .empty hbub fun y hy => ?_, ?_⟩
    · rw [hlast] at hy
      cases hy
      rw [hret]
      decide
    · rw [if_neg hd']
  | stalled hx hd hstall =>
    obtain ⟨a', hphase, hcost⟩ := hs.latch hd (hs.latches hx) l
    rw [hstall] at hcost
    exact ⟨a', 0, hphase, by omega⟩
  | empty hx hlast =>
    have hop : s.X.out.op = .nop := bubble_nop hs.wf hx
    by_cases hd : s.D.out.status = .bub
    · obtain ⟨hbub, hd', hissue⟩ := hs.drained (by rw [hop]; decide) (by rw [hop]; decide) hd l
      rw [hissue, if_pos hd]
      refine ⟨_, 0, .empty hbub hlast, ?_⟩
      rw [if_neg hd']
    · obtain ⟨a', hphase, hcost⟩ := hs.latch hd (hs.latches hx) l
      rw [stallsAfter_of_not_ldur hlast] at hcost
      rw [if_neg hd]
      exact ⟨a', 0, hphase, by omega⟩

end

/-! ## Whole runs -/

section
variable {img : Image} {entry : Word} {n : Nat} {σ : Nat → Machine}

theorem Execution.smooth (h : Execution false img entry n σ) (hc : img.cache = none)
    (hfault : (σ n).deassertFlags = false) {k : Nat} (hk : k < n) :
    ∃ v, Smooth (σ k) v ∧ σ (k + 1) = next false (σ k) v := by
  obtain ⟨v, hv, hnext⟩ := h.wires hk
  have hw := h.wellFormed hk.le
  have hquiet := h.quiet hfault (k + 1) hk
  rw [hnext] at hquiet
  have hu := uncached_of_wires hw (h.uncached hc hk.le) hv
  refine ⟨v, ⟨hw, hv, (quiet_of_next hquiet).2, ?_⟩, hnext⟩
  rw [hu.2.ready]
  exact nofun

/-- No instruction that could not be decoded stands behind a load: it would get to X. -/
theorem Execution.decoded_behind_load (h : Execution false img entry n σ) (hc : img.cache = none)
    (hfault : (σ n).deassertFlags = false) {k : Nat} (hk : k + 3 ≤ n)
    (hld : (σ k).X.out.op = .ldur) : (σ k).D.out.op ≠ .error := by
  intro herr
  have hD := (h.wellFormed (k := k) (by omega)).d
  have hstatus : (σ k).D.out.status.isError = true := hD.status.error_isError herr
  obtain ⟨v, hs, hnext⟩ := h.smooth hc hfault (k := k) (by omega)
  obtain ⟨v', hs', hnext'⟩ := h.smooth hc hfault (k := k + 1) (by omega)
  obtain ⟨v'', hs'', -⟩ := h.smooth hc hfault (k := k + 2) (by omega)
  have hg := hazardOf_guard false (hazards false (σ k) v)
  have hnextD := hs.wf.next_D v
  have hnextX := hs.wf.next_X v
  rcases hs.cases with hz | hz | hz | hz <;> rw [hz] at hg hnextD hnextX
  · -- it waits one cycle, and is latched in the next
    have hX : (σ (k + 1)).X.out = .zero := by
      rw [hnext]
      exact hnextX
    have hD' : (σ (k + 1)).D.out = (σ k).D.out := by
      rw [hnext]
      exact hnextD
    have hX' := hs'.wf.next_X v'
    have hload : (hazardOf false (hazards false (σ (k + 1)) v')).ctls.x = .load := by
      rcases hs'.latches (by rw [hX]; rfl) with hz' | hz' <;> rw [hz'] <;> rfl
    rw [hload, ← hnext'] at hX'
    have hquiet : (σ (k + 2)).X.out.status.isError = false := hs''.quiet.mIn
    rw [show (σ (k + 2)).X.out = xIn false (σ (k + 1)) v' from hX'] at hquiet
    have hquiet : (σ (k + 1)).D.out.status.isError = false := hquiet
    rw [hD', hstatus] at hquiet
    cases hquiet
  · have hbr : (σ k).X.out.op = .bCond := (checkMispredBranchHazard_iff.1 hg.2).1
    rw [hld] at hbr
    cases hbr
  · have hret : (σ k).D.out.op = .ret := checkRetHazard_iff.1 hg.2.2
    rw [herr] at hret
    cases hret
  · have hX : (σ (k + 1)).X.out = xIn false (σ k) v := by
      rw [hnext]
      exact hnextX
    have hquiet : (σ (k + 1)).X.out.status.isError = false := hs'.quiet.mIn
    rw [hX] at hquiet
    exact absurd (hstatus.symm.trans hquiet) (by decide)

/-- Every cycle up to the one that finds the `HLT` in X is accounted for. -/
theorem Execution.phase (h : Execution false img entry n σ) (hc : img.cache = none)
    (hfault : (σ n).deassertFlags = false) {k : Nat} (hk : k + 3 ≤ n) :
    ∃ a p, Phase (issued σ k) (σ k) a p ∧ k + 1 + a = cost (issued σ k) + 2 + p := by
  induction k with
  | zero =>
    have hnone : ∀ x ∈ ([] : List Issued).getLast?, x.instr.op ≠ .ldur := by
      intro x hx
      cases hx
    have hempty : Phase [] (σ 0) _ 0 := .empty (by rw [h.start]; rfl) hnone
    refine ⟨_, 0, hempty, ?_⟩
    rw [h.start]
    rfl
  | succ k ih =>
    obtain ⟨a, p, hphase, hbalance⟩ := ih (by omega)
    obtain ⟨v, hs, hnext⟩ := h.smooth hc hfault (k := k) (by omega)
    obtain ⟨a', p', hphase', hcost⟩ :=
      hphase.next hs (h.decoded_behind_load hc hfault (by omega))
    rw [issued, hnext]
    exact ⟨a', p', hphase', by omega⟩

theorem Execution.statuses (h : Execution false img entry n σ) (hc : img.cache = none)
    (hfault : (σ n).deassertFlags = false) {k : Nat} (hk : k < n) :
    (σ (k + 1)).M.out.status = (σ k).X.out.status ∧
      (σ (k + 1)).W.out.status = (σ k).M.out.status ∧ (σ (k + 1)).status = (σ k).W.out.status := by
  obtain ⟨v, hs, hnext⟩ := h.smooth hc hfault hk
  rw [hnext]
  exact hs.statuses (h.uncached hc hk.le)

/-- The status of a run is that of the instruction that was in X three cycles before. -/
theorem Execution.status_eq (h : Execution false img entry n σ) (hc : img.cache = none)
    (hfault : (σ n).deassertFlags = false) {k : Nat} (hk : k + 3 ≤ n) :
    (σ (k + 3)).status = (σ k).X.out.status := by
  have hstep := fun j hj => h.statuses hc hfault (k := j) hj
  rw [(hstep (k + 2) (by omega)).2.2, (hstep (k + 1) (by omega)).2.1, (hstep k (by omega)).1]

/-- A run does not halt in its first three cycles. -/
theorem Execution.three_le (h : Execution false img entry n σ) (hc : img.cache = none)
    (hfault : (σ n).deassertFlags = false) (hend : (σ n).status = .hlt) : 3 ≤ n := by
  have hstep := fun j hj => h.statuses hc hfault (k := j) hj
  by_contra hn
  have hinit : (σ 0).status = .bub ∧ (σ 0).W.out.status = .bub ∧ (σ 0).M.out.status = .bub := by
    rw [h.start]
    exact ⟨rfl, rfl, rfl⟩
  obtain ⟨h0, hW, hM⟩ := hinit
  rcases (by omega : n = 0 ∨ n = 1 ∨ n = 2) with rfl | rfl | rfl
  · rw [h0] at hend
    cases hend
  · rw [(hstep 0 (by omega)).2.2, hW] at hend
    cases hend
  · rw [(hstep 1 (by omega)).2.2, (hstep 0 (by omega)).2.1, hM] at hend
    cases hend

/-- Every instruction of the list has been in X. -/
theorem Execution.mem_issued (h : Execution false img entry n σ) (hc : img.cache = none)
    (hfault : (σ n).deassertFlags = false) {k : Nat} (hk : k ≤ n) {x : Issued}
    (hx : x ∈ issued σ k) : ∃ j < k, (σ (j + 1)).X.out.status = x.instr.status := by
  induction k with
  | zero => exact absurd hx List.not_mem_nil
  | succ k ih =>
    by_cases he : (σ (k + 1)).entersX
    · rw [issued, issued.issue, if_pos he, List.mem_append, List.mem_singleton] at hx
      rcases hx with hx | rfl
      · obtain ⟨j, hj, hstatus⟩ := ih (by omega) hx
        exact ⟨j, by omega, hstatus⟩
      · obtain ⟨v, hs, hnext⟩ := h.smooth hc hfault (k := k) (by omega)
        refine ⟨k, Nat.lt_succ_self k, ?_⟩
        rw [hnext] at he ⊢
        rcases hs.next_X with ⟨-, hX, -⟩ | ⟨hno, -⟩
        · rw [hX]
          rfl
        · exact absurd he hno
    · rw [issued, issued.issue, if_neg he] at hx
      obtain ⟨j, hj, hstatus⟩ := ih (by omega) hx
      exact ⟨j, by omega, hstatus⟩

theorem issued_prefix (σ : Nat → Machine) {m k : Nat} (hmk : m ≤ k) :
    ∃ r, issued σ k = issued σ m ++ r := by
  induction k, hmk using Nat.le_induction with
  | base => exact ⟨[], (List.append_nil _).symm⟩
  | succ k _ ih =>
    obtain ⟨r, hr⟩ := ih
    rw [issued, issued.issue, hr]
    split_ifs
    · exact ⟨_, List.append_assoc _ _ _⟩
    · exact ⟨r, rfl⟩

theorem untilHalt_append {l : List Issued} {x : Issued} (hl : ∀ y ∈ l, y.instr.status ≠ .hlt)
    (hx : x.instr.status = .hlt) (r : List Issued) : untilHalt (l ++ x :: r) = l ++ [x] := by
  induction l with
  | nil => exact if_pos hx
  | cons y l ih =>
    show (if y.instr.status = .hlt then [y] else y :: untilHalt (l ++ x :: r)) = _
    rw [if_neg (hl y List.mem_cons_self), ih fun z hz => hl z (List.mem_cons_of_mem y hz)]
    rfl

/-- The `HLT` that ends the run is in X three cycles before its end, the first one there. -/
theorem Execution.exists_halt (h : Execution false img entry n σ) (hc : img.cache = none)
    (hfault : (σ n).deassertFlags = false) (hend : (σ n).status = .hlt) :
    ∃ k, k + 3 = n ∧ (σ k).X.out.status = .hlt ∧ ∀ j < k, (σ j).X.out.status ≠ .hlt := by
  obtain ⟨k, rfl⟩ : ∃ k, n = k + 3 := ⟨n - 3, by have := h.three_le hc hfault hend; omega⟩
  have hhalt : (σ k).X.out.status = .hlt := by
    rw [← h.status_eq hc hfault le_rfl]
    exact hend
  refine ⟨k, rfl, hhalt, fun j hj hhlt => ?_⟩
  have hgo := (h.next (j + 3) (by omega)).1
  rw [Machine.running, h.status_eq hc hfault (k := j) (by omega), hhlt] at hgo
  exact absurd hgo (by decide)

/-- The list of instructions up to that `HLT`. -/
theorem Execution.untilHalt_issued (h : Execution false img entry n σ) (hc : img.cache = none)
    (hfault : (σ n).deassertFlags = false) (hend : (σ n).status = .hlt) :
    ∃ k, k + 3 = n ∧ (σ k).X.out.status = .hlt ∧ untilHalt (issued σ n) = issued σ k := by
  obtain ⟨k, rfl, hhalt, hbefore⟩ := h.exists_halt hc hfault hend
  refine ⟨k, rfl, hhalt, ?_⟩
  cases k with
  | zero =>
    rw [h.start] at hhalt
    cases hhalt
  | succ k =>
    obtain ⟨v, hs, hnext⟩ := h.smooth hc hfault (k := k) (by omega)
    obtain ⟨he, hX⟩ : (σ (k + 1)).entersX ∧ (σ (k + 1)).X.out = xIn false (σ k) v := by
      rw [hnext] at hhalt ⊢
      rcases hs.next_X with ⟨he, hX, -⟩ | ⟨-, hbub⟩
      · exact ⟨he, hX⟩
      · rw [hbub] at hhalt
        cases hhalt
    have hlist : issued σ (k + 1) =
        issued σ k ++ [⟨(σ k).D.out, (mIn false (σ (k + 1))).condHolds⟩] := if_pos he
    obtain ⟨r, hr⟩ := issued_prefix σ (m := k + 1) (k := k + 1 + 3) (by omega)
    rw [hr, hlist, List.append_assoc]
    refine untilHalt_append (fun y hy hhlt => ?_) ?_ r
    · obtain ⟨j, hj, hstatus⟩ := h.mem_issued hc hfault (by omega) hy
      exact hbefore (j + 1) (by omega) (hstatus.trans hhlt)
    · rw [hX] at hhalt
      exact hhalt

/-- **Where the cycles go.**  The cycles of a run that halts without a fault: one for each
instruction, four to fill the pipeline, one for each load-use stall, called for or idle, two for
each untaken branch and one for each `RET`. -/
theorem Execution.cycles_eq (h : Execution false img entry n σ) (hc : img.cache = none)
    (hfault : (σ n).deassertFlags = false) (hend : (σ n).status = .hlt) :
    (σ n).numInstr = cost (untilHalt (issued σ n)) + 4 := by
  obtain ⟨k, hk, hhalt, hlist⟩ := h.untilHalt_issued hc hfault hend
  obtain ⟨a, p, hphase, hbalance⟩ := h.phase hc hfault (k := k) (by omega)
  have hop : (σ k).X.out.op = .hlt := (h.wellFormed (k := k) (by omega)).x.status.of_hlt hhalt
  rw [h.numInstr_eq le_rfl, hlist]
  cases hphase with
  | issuing x hlast hx =>
    have huntaken : x.untaken = false := by simp [Issued.untaken, ← hx, hop]
    rw [huntaken, Bool.toNat_false] at hbalance
    omega
  | behindRet x hlast hret hx =>
    rw [hop] at hx
    cases hx
  | stalled hx =>
    rw [hhalt] at hx
    cases hx
  | empty hx =>
    rw [hhalt] at hx
    cases hx

/-- **Cycle accounting.**  Let `l` be the instructions latched into X up to and including the `HLT`
that ends a run without a fault.  Its cycles are `N + 4 + L + 2 * M + R` exactly if no load to the
zero register stalls the instruction behind it. -/
theorem numInstr_eq_iff (h : Execution false img entry n σ) (hc : img.cache = none)
    (hfault : (σ n).deassertFlags = false) (hend : (σ n).status = .hlt) :
    let l := untilHalt (issued σ n)
    (σ n).numInstr = l.length + 4 + countAdjacent loadUse l + 2 * l.countP Issued.untaken +
        l.countP Issued.isRet ↔
      l.IsChain fun x y => idleStall x y = false := by
  intro l
  have hcycles : (σ n).numInstr = cost l + 4 := h.cycles_eq hc hfault hend
  rw [hcycles, ← countAdjacent_eq_zero_iff idleStall l, cost]
  omega

end

/-- `ldur x1, [sp]`, `subs x2, x1, x1`, `b.ne .+8`, `ret`. -/
def loadAndBranch : List (BitVec 32) := [0xf84003e1#32, 0xeb010022#32, 0x54000041#32, 0xd65f03c0#32]

/-- `ldur xzr, [sp]`, `movk x1, #1`, `ret`. -/
def idleLoad : List (BitVec 32) := [0xf84003ff#32, 0xf2800021#32, 0xd65f03c0#32]

theorem numInstr_loadAndBranch :
    let σ := stateAt false (.ofWords loadAndBranch none) 0x400000#64
    let l := untilHalt (issued σ 13)
    (σ 13).numInstr = l.length + 4 + countAdjacent loadUse l + 2 * l.countP Issued.untaken +
        l.countP Issued.isRet ↔
      l.IsChain fun x y => idleStall x y = false := by
  have hrun : Execution false (.ofWords loadAndBranch none) 0x400000#64 13
      (stateAt false (.ofWords loadAndBranch none) 0x400000#64) :=
    execution_stateAt (by decide +kernel)
  exact numInstr_eq_iff hrun rfl (by decide +kernel) (by decide +kernel)

/-- The load to the zero register costs the `MOVK` behind it a cycle. -/
theorem not_numInstr_idleLoad :
    ∃ n σ, Execution false (.ofWords idleLoad none) 0x400000#64 n σ ∧
      (σ n).deassertFlags = false ∧ (σ n).status = .hlt ∧
      let l := untilHalt (issued σ n)
      (σ n).numInstr ≠ l.length + 4 + countAdjacent loadUse l + 2 * l.countP Issued.untaken +
        l.countP Issued.isRet :=
  ⟨10, _, execution_stateAt (by decide +kernel), by decide +kernel, by decide +kernel,
    by decide +kernel⟩

end ChArm
