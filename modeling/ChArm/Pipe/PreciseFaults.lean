import ChArm.Base.Uncached
import ChArm.Pipe.ControlFlow
import ChArm.Pipe.Operands

/-!
# Precise faults

A run without a cache that stops with `STAT_ADR` or `STAT_INS`.  `Tags` follows the
instructions through X, M and W; an instruction is named by the cycle in which it
entered X.  Up to the fault these stages never stall, so the instruction that
enters X in cycle `i` is in M two and in W three cycles later; then its fault
freezes the stages one after the other.

* `x_load`, `m_load`, `w_load` — up to the fault the stages never stall.
* `exists_entersX` — which instruction it is that faults.
* `precise_of_fault` — the older ones have retired, in order; the younger ones have done nothing.
-/

namespace ChArm

/-! ## Following instructions -/

/-- The instructions in X, M and W, each named by the cycle in which it entered X. -/
structure Tags where
  x : Option Nat
  m : Option Nat
  w : Option Nat

/-- The clock edge at the end of cycle `k`, after which the state is `s`. -/
def Tags.clock (t : Tags) (k : Nat) (s : Machine) : Tags where
  x := clocked s.X.ctl none (if s.X.out.status = .bub then none else some k) t.x
  m := clocked s.M.ctl none t.x t.m
  w := clocked s.W.ctl none t.m t.w

/-- The instructions in the stages after `k` cycles. -/
def tags (σ : Nat → Machine) : Nat → Tags
  | 0 => ⟨none, none, none⟩
  | k + 1 => (tags σ k).clock k (σ (k + 1))

/-- The instruction that is new in X after `k` cycles. -/
def entered (σ : Nat → Machine) : Nat → Option Nat
  | 0 => none
  | k + 1 => if (σ (k + 1)).entersX then some k else none

theorem entered_eq_some {σ : Nat → Machine} {k j : Nat} (he : entered σ k = some j) :
    k = j + 1 ∧ (σ (j + 1)).entersX := by
  cases k with
  | zero => cases he
  | succ k =>
    rw [entered] at he
    split_ifs at he with hx
    obtain rfl := Option.some.inj he
    exact ⟨rfl, hx⟩

/-- Does the instruction `j` fault in M in one of the first `n` cycles? -/
def FaultsBy (ec : Bool) (σ : Nat → Machine) (n j : Nat) : Prop :=
  ∃ k < n, (tags σ k).m = some j ∧
    ∃ v, wires ec (σ k) = .ok v ∧ (wIn (σ k) v).status.isError = true

/-- What precision asks of the first `n` cycles when the instruction `i` faults. -/
structure Precise (ec : Bool) (σ : Nat → Machine) (n i : Nat) : Prop where
  entersX : (σ (i + 1)).entersX
  faults : FaultsBy ec σ n i
  /-- `i` is the first instruction that faults. -/
  first : ∀ j < i, ¬ FaultsBy ec σ n j
  /-- Whatever entered X before `i` has been in W for exactly one cycle. -/
  retired : ∀ j < i, (σ (j + 1)).entersX → ∃! k, k < n ∧ (tags σ k).w = some j
  inOrder : ∀ j j' k k', j < j' → k < n → k' < n → (tags σ k).w = some j →
    (tags σ k').w = some j' → k < k'
  /-- In that cycle its register write is done. -/
  written : ∀ k < n, ∀ j < i, (tags σ k).w = some j →
    (σ k).W.out.op = (σ (j + 1)).X.out.op ∧ (σ k).W.out.dst = (σ (j + 1)).X.out.dst ∧
      (σ (k + 1)).regs = regfileWrite (σ k).regs (wbackDst (σ k).W.out) (wbackVal (σ k).W.out)
        (σ k).W.out.wSigs.wEnable
  /-- Only instructions before `i` write registers, -/
  regs : ∀ k < n, (∃ j < i, (tags σ k).w = some j) ∨
    ((σ (k + 1)).regs = (σ k).regs ∧ (σ (k + 1)).regWrites = (σ k).regWrites)
  /-- or the flags. -/
  flags : ∀ k < n, (∃ j < i, (tags σ k).x = some j) ∨
    ((σ (k + 1)).NZCV = (σ k).NZCV ∧ (σ (k + 1)).nzcvWrites = (σ k).nzcvWrites)
  /-- No instruction after `i` accesses data memory. -/
  accesses : ∀ k < n, (σ k).M.out.op = .ldur ∨ (σ k).M.out.op = .stur →
    ∃ j ≤ i, (tags σ k).m = some j
  pc : (σ n).PC = (σ (i + 1)).X.out.pc

/-- A run without a cache whose last cycle, the cycle `N`, has a faulting instruction in W. -/
structure FaultRun (ec : Bool) (img : Image) (entry : Word) (N : Nat) (σ : Nat → Machine) : Prop where
  run : Execution ec img entry (N + 1) σ
  cache : img.cache = none
  fault : (σ N).W.out.status.isError = true

namespace FaultRun

variable {ec : Bool} {img : Image} {entry : Word} {N : Nat} {σ : Nat → Machine}
  (h : FaultRun ec img entry N σ)
include h

/-! ## Before the fault -/

/-- Nothing faulty was in W before. -/
theorem wOut_quiet {k : Nat} (hk : k < N) : (σ k).W.out.status.isError = false := by
  obtain ⟨v, hv, hnext⟩ := h.run.wires (k := k) (by omega)
  have hgo := (h.run.next (k + 1) (by omega)).1
  have hst : (next ec (σ k) v).status = (σ k).W.out.status :=
    (h.run.wellFormed (by omega)).statusNext_eq v
  rw [hnext, Machine.running, hst] at hgo
  cases hs : (σ k).W.out.status <;> rw [hs] at hgo <;> first | rfl | cases hgo

/-- W takes over what M hands on, up to the fault. -/
theorem w_load {k : Nat} (hk : k < N) {v : Wires} (hv : wires ec (σ k) = .ok v) :
    (σ (k + 1)).W.ctl = .load ∧ (σ (k + 1)).W.out = wIn (σ k) v := by
  have hw := h.run.wellFormed (k := k) (by omega)
  obtain ⟨v', hv', hnext⟩ := h.run.wires (k := k) (by omega)
  obtain rfl : v' = v := Except.ok.inj (hv'.symm.trans hv)
  have hW := hw.next_W v'
  have hctl : (next ec (σ k) v').W.ctl = (hazardOf ec (hazards ec (σ k) v')).ctls.w :=
    congrArg Ctls.w (hw.next_ctls v')
  have hload : (hazardOf ec (hazards ec (σ k) v')).ctls.w = .load := by
    have hg := hazardOf_guard ec (hazards ec (σ k) v')
    have hready := (uncached_of_wires hw (h.run.uncached h.cache (by omega)) hv').2.ready
    cases hz : hazardOf ec (hazards ec (σ k) v') <;> rw [hz] at hg
    case wbackError =>
      have herr : (wOut (σ k)).status.isError = true := hg
      rw [wOut_eq hw.w, h.wOut_quiet hk] at herr
      cases herr
    case inFlight =>
      have hfl : v'.mem.dmemStatus = .inFlight := hg.2
      rw [hready] at hfl
      cases hfl
    all_goals rfl
  rw [hnext, hctl, hW, hload]
  exact ⟨rfl, rfl⟩

/-- No instruction faulted in M before. -/
theorem wIn_quiet {k : Nat} (hk : k + 1 < N) {v : Wires} (hv : wires ec (σ k) = .ok v) :
    (wIn (σ k) v).status.isError = false := by
  rw [← (h.w_load (by omega) hv).2]
  exact h.wOut_quiet hk

/-- M takes over what X hands on, up to the fault. -/
theorem m_load {k : Nat} (hk : k + 1 < N) :
    (σ (k + 1)).M.ctl = .load ∧ (σ (k + 1)).M.out = mIn ec (σ k) := by
  have hw := h.run.wellFormed (k := k) (by omega)
  obtain ⟨v, hv, hnext⟩ := h.run.wires (k := k) (by omega)
  have hM := hw.next_M v
  have hctl : (next ec (σ k) v).M.ctl = (hazardOf ec (hazards ec (σ k) v)).ctls.m :=
    congrArg Ctls.m (hw.next_ctls v)
  rw [hnext, hctl, hM, (ctls_of_quiet hw (h.run.uncached h.cache (by omega)) hv (h.wIn_quiet hk hv)
    (h.wOut_quiet (by omega))).1]
  exact ⟨rfl, rfl⟩

/-- No faulty instruction was in X before. -/
theorem x_quiet {k : Nat} (hk : k + 2 < N) : (σ k).X.out.status.isError = false := by
  obtain ⟨v, hv, -⟩ := h.run.wires (k := k + 1) (by omega)
  have hq := h.wIn_quiet (k := k + 1) (by omega) hv
  have hst : (σ (k + 1)).M.out.status = (σ k).X.out.status := by
    rw [(h.m_load (k := k) (by omega)).2]
    rfl
  cases hs : (σ k).X.out.status.isError with
  | false => rfl
  | true =>
    have hw := h.run.wellFormed (k := k + 1) (by omega)
    rw [wIn, hst] at hq
    split_ifs at hq
    · cases hq
    · exact hs.symm.trans hq

/-- X does not stall, up to the fault: it takes over what D hands on, or a bubble. -/
theorem x_load {k : Nat} (hk : k + 2 < N) :
    (σ (k + 1)).X.ctl = .load ∨ (σ (k + 1)).X.ctl = .bubble ∧ (σ (k + 1)).X.out = .zero := by
  have hw := h.run.wellFormed (k := k) (by omega)
  obtain ⟨v, hv, hnext⟩ := h.run.wires (k := k) (by omega)
  have hX := hw.next_X v
  have hctl : (next ec (σ k) v).X.ctl = (hazardOf ec (hazards ec (σ k) v)).ctls.x :=
    congrArg Ctls.x (hw.next_ctls v)
  have hg := hazardOf_guard ec (hazards ec (σ k) v)
  have hml := (ctls_of_quiet hw (h.run.uncached h.cache (by omega)) hv
    (h.wIn_quiet (by omega) hv) (h.wOut_quiet (by omega))).1
  rw [hnext, hctl, hX]
  cases hz : hazardOf ec (hazards ec (σ k) v) <;> rw [hz] at hg hml <;> try cases hml
  case executeError =>
    have herr : (σ k).X.out.status.isError = true := hg.2.2
    rw [h.x_quiet hk] at herr
    cases herr
  case loadUse => exact Or.inr ⟨rfl, rfl⟩
  case mispredicted => exact Or.inr ⟨rfl, rfl⟩
  case cb => exact Or.inr ⟨rfl, rfl⟩
  all_goals exact Or.inl rfl

/-- An instruction in X has entered it in the cycle before, up to the fault. -/
theorem entersX_of_ne_bub {k : Nat} (hk : k + 1 < N) (hb : (σ k).X.out.status ≠ .bub) :
    ∃ j, k = j + 1 ∧ (σ (j + 1)).entersX := by
  cases k with
  | zero =>
    rw [h.run.start] at hb
    exact absurd rfl hb
  | succ j =>
    rcases h.x_load (k := j) (by omega) with hl | ⟨-, hz⟩
    · exact ⟨j, rfl, hl, hb⟩
    · rw [hz] at hb
      exact absurd rfl hb

theorem tags_x {k : Nat} (hk : k + 1 < N) : (tags σ k).x = entered σ k := by
  cases k with
  | zero => rfl
  | succ k =>
    change clocked (σ (k + 1)).X.ctl none _ _ = if (σ (k + 1)).entersX then some k else none
    rcases h.x_load (k := k) (by omega) with hl | ⟨hb, -⟩
    · rw [hl]
      by_cases hbub : (σ (k + 1)).X.out.status = .bub
      · rw [if_neg fun he : (σ (k + 1)).entersX => he.2 hbub]
        exact if_pos hbub
      · have he : (σ (k + 1)).entersX := ⟨hl, hbub⟩
        rw [if_pos he]
        exact if_neg hbub
    · rw [hb, if_neg fun he : (σ (k + 1)).entersX => absurd (hb.symm.trans he.1) (by decide)]
      rfl

theorem tags_m {k : Nat} (hk : k + 1 < N) : (tags σ (k + 1)).m = entered σ k := by
  change clocked (σ (k + 1)).M.ctl none _ _ = _
  rw [(h.m_load hk).1]
  exact h.tags_x hk

theorem tags_w {k : Nat} (hk : k + 2 ≤ N) : (tags σ (k + 2)).w = entered σ k := by
  obtain ⟨v, hv, -⟩ := h.run.wires (k := k + 1) (by omega)
  change clocked (σ (k + 2)).W.ctl none _ _ = _
  rw [(h.w_load (k := k + 1) (by omega) hv).1]
  exact h.tags_m (by omega)

/-- An instruction in M has entered X two cycles before, up to the fault. -/
theorem m_of_ne_bub {k : Nat} (hk : k < N) (hb : (σ k).M.out.status ≠ .bub) :
    ∃ j, k = j + 2 ∧ (σ (j + 1)).entersX := by
  cases k with
  | zero =>
    rw [h.run.start] at hb
    exact absurd rfl hb
  | succ k =>
    rw [(h.m_load hk).2] at hb
    obtain ⟨j, rfl, hent⟩ := h.entersX_of_ne_bub hk hb
    exact ⟨j, rfl, hent⟩

/-! ## The fault -/

/-- An instruction whose access faults is a load or a store. -/
theorem access_of_faults {k : Nat} (hk : k ≤ N + 1)
    (hf : accessFaults (σ k).mem (σ k).M.out = true) :
    (σ k).M.out.op = .ldur ∨ (σ k).M.out.op = .stur := by
  obtain ⟨hr, hwr⟩ := (h.run.wellFormed hk).m.access
  rw [accessFaults, hr, hwr, Bool.and_eq_true, Bool.or_eq_true, decide_eq_true_eq,
    decide_eq_true_eq] at hf
  exact hf.1

/-- The instruction that faults entered X three cycles before it is in W. -/
theorem exists_entersX : ∃ i, N = i + 3 ∧ (σ (i + 1)).entersX := by
  have hW := h.fault
  cases N with
  | zero =>
    rw [h.run.start] at hW
    cases hW
  | succ k =>
    obtain ⟨v, hv, -⟩ := h.run.wires (k := k) (by omega)
    have hw := h.run.wellFormed (k := k) (by omega)
    rw [(h.w_load (k := k) (by omega) hv).2] at hW
    have hne : (σ k).M.out.status ≠ .bub := by
      intro hb
      have hop := hw.m.status.of_bub hb
      rw [wIn, hb] at hW
      split_ifs at hW with he
      · rw [memErr_eq hw hv] at he
        rcases h.access_of_faults (by omega) he with ho | ho <;> rw [hop] at ho <;> cases ho
      · cases hW
    obtain ⟨j, rfl, hent⟩ := h.m_of_ne_bub (k := k) (by omega) hne
    exact ⟨j, rfl, hent⟩

end FaultRun

/-! ## The frozen stages -/

namespace FaultRun

variable {ec : Bool} {img : Image} {entry : Word} {i : Nat} {σ : Nat → Machine}
  (h : FaultRun ec img entry (i + 3) σ)
include h

/-- The fault in M freezes the stages before W. -/
theorem frozen_m : (σ (i + 3)).M.ctl = .stall ∧ (σ (i + 3)).M.out = (σ (i + 2)).M.out := by
  obtain ⟨v, hv, hnext⟩ := h.run.wires (k := i + 2) (by omega)
  have hw := h.run.wellFormed (k := i + 2) (by omega)
  have hM := hw.next_M v
  have hctl : (next ec (σ (i + 2)) v).M.ctl = (hazardOf ec (hazards ec (σ (i + 2)) v)).ctls.m :=
    congrArg Ctls.m (hw.next_ctls v)
  have herr : (hazards ec (σ (i + 2)) v).wInStatus.isError = true := by
    have := h.fault
    rwa [(h.w_load (k := i + 2) (by omega) hv).2] at this
  have hquiet : (hazards ec (σ (i + 2)) v).wOutStatus.isError = false := by
    change (wOut (σ (i + 2))).status.isError = false
    rw [wOut_eq hw.w]
    exact h.wOut_quiet (by omega)
  have hz : hazardOf ec (hazards ec (σ (i + 2)) v) = .memoryError := by
    rw [hazardOf, hquiet, herr]
    rfl
  rw [hnext, hctl, hM, hz]
  exact ⟨rfl, rfl⟩

theorem tags_m_last : (tags σ (i + 3)).m = (tags σ (i + 2)).m := by
  change clocked (σ (i + 3)).M.ctl none _ _ = _
  rw [h.frozen_m.1]
  rfl

/-! The instruction in each stage, by the cycle. -/

theorem eq_of_tags_m {k j : Nat} (hk : k ≤ i + 2) (hj : (tags σ k).m = some j) : k = j + 2 := by
  cases k with
  | zero => cases hj
  | succ k =>
    rw [h.tags_m (by omega)] at hj
    have := (entered_eq_some hj).1
    omega

theorem eq_of_tags_w {k j : Nat} (hk : k ≤ i + 3) (hj : (tags σ k).w = some j) : k = j + 3 := by
  rcases k with _ | _ | k
  · cases hj
  · obtain ⟨v, hv, -⟩ := h.run.wires (k := 0) (by omega)
    change clocked (σ 1).W.ctl none none none = some j at hj
    rw [(h.w_load (k := 0) (by omega) hv).1] at hj
    cases hj
  · rw [h.tags_w (by omega)] at hj
    have := (entered_eq_some hj).1
    omega

theorem tags_of_entersX {j : Nat} (hj : j ≤ i) (he : (σ (j + 1)).entersX) :
    (tags σ (j + 1)).x = some j ∧ (tags σ (j + 2)).m = some j ∧ (tags σ (j + 3)).w = some j := by
  have hent : entered σ (j + 1) = some j := if_pos he
  exact ⟨(h.tags_x (by omega)).trans hent, (h.tags_m (by omega)).trans hent,
    (h.tags_w (by omega)).trans hent⟩

/-- The M stage reports the fault in both cycles. -/
theorem wIn_fault {v v' : Wires} (hv : wires ec (σ (i + 2)) = .ok v)
    (hv' : wires ec (σ (i + 3)) = .ok v') :
    (wIn (σ (i + 2)) v).status.isError = true ∧ (wIn (σ (i + 3)) v').status.isError = true := by
  have hfault : (wIn (σ (i + 2)) v).status.isError = true := by
    rw [← (h.w_load (k := i + 2) (by omega) hv).2]
    exact h.fault
  refine ⟨hfault, ?_⟩
  have hw := h.run.wellFormed (k := i + 2) (by omega)
  have hw' := h.run.wellFormed (k := i + 3) (by omega)
  have hseg : (σ (i + 3)).mem.segStart = (σ (i + 2)).mem.segStart := by
    obtain ⟨u, hu, hnext⟩ := h.run.wires (k := i + 2) (by omega)
    rw [hnext]
    exact segStart_of_wires hw hu
  have hM := h.frozen_m.2
  rw [wIn, memErr_eq hw hv] at hfault
  rw [wIn, memErr_eq hw' hv', hM]
  simp only [accessFaults, dmemErr, addrInDmem, hseg] at hfault ⊢
  exact hfault

/-- An instruction in W has entered X three cycles before. -/
theorem w_of_ne_bub {k : Nat} (hk : k < i + 3) (hb : (σ k).W.out.status ≠ .bub) :
    ∃ j, k = j + 3 ∧ (σ (j + 1)).entersX := by
  cases k with
  | zero =>
    rw [h.run.start] at hb
    exact absurd rfl hb
  | succ k =>
    obtain ⟨v, hv, -⟩ := h.run.wires (k := k) (by omega)
    have hq := h.wIn_quiet (k := k) (by omega) hv
    rw [(h.w_load (by omega) hv).2] at hb
    have hne : (σ k).M.out.status ≠ .bub := by
      rw [wIn] at hb hq
      split_ifs at hb hq
      · cases hq
      · exact hb
    obtain ⟨j, rfl, he⟩ := h.m_of_ne_bub (by omega) hne
    exact ⟨j, rfl, he⟩

/-- The flags are written by an instruction in X that comes before the fault. -/
theorem x_of_flagsLatch {k : Nat} (hk : k < i + 4) {v : Wires} (hv : wires ec (σ k) = .ok v)
    (hfl : flagsLatch ec (σ k) v = true) : ∃ j < i, (tags σ k).x = some j := by
  have hw := h.run.wellFormed (k := k) (by omega)
  simp only [flagsLatch, flagsDeasserted, hazardDeasserts, Bool.and_eq_true, Bool.not_eq_true',
    Bool.or_eq_false_iff] at hfl
  obtain ⟨⟨-, ⟨hmin, hwin⟩, hwout⟩, hset⟩ := hfl
  have hne : (σ k).X.out.status ≠ .bub := by
    intro hb
    have hop := hw.x.status.of_bub hb
    rw [show (σ k).X.out.xSigs = _ from congrArg Prod.fst hw.x.sigs, hop] at hset
    cases ec <;> cases hset
  have hlt : k < i + 2 := by
    by_contra hge
    rcases Nat.lt_or_ge k (i + 3) with hk3 | hk3
    · obtain rfl : k = i + 2 := by omega
      obtain ⟨v', hv', -⟩ := h.run.wires (k := i + 3) (by omega)
      exact absurd (hwin.symm.trans (h.wIn_fault hv hv').1) (by decide)
    · obtain rfl : k = i + 3 := by omega
      have hwout : (wOut (σ (i + 3))).status.isError = false := hwout
      rw [wOut_eq hw.w] at hwout
      exact absurd (hwout.symm.trans h.fault) (by decide)
  obtain ⟨j, rfl, he⟩ := h.entersX_of_ne_bub (by omega) hne
  refine ⟨j, ?_, (h.tags_of_entersX (by omega) he).1⟩
  by_contra hge
  obtain rfl : j = i := by omega
  -- the instruction itself sets no flags: it reports no error in X, so its access faults
  obtain ⟨u, hu, -⟩ := h.run.wires (k := j + 2) (by omega)
  obtain ⟨u', hu', -⟩ := h.run.wires (k := j + 3) (by omega)
  have hM := (h.m_load (k := j + 1) (by omega)).2
  have herr := (h.wIn_fault hu hu').1
  have hmin : (σ (j + 1)).X.out.status.isError = false := hmin
  rw [wIn, memErr_eq (h.run.wellFormed (by omega)) hu] at herr
  split_ifs at herr with hacc
  · have hop := h.access_of_faults (k := j + 2) (by omega) hacc
    rw [hM] at hop
    change (σ (j + 1)).X.out.op = .ldur ∨ (σ (j + 1)).X.out.op = .stur at hop
    rw [show (σ (j + 1)).X.out.xSigs = _ from congrArg Prod.fst hw.x.sigs] at hset
    rcases hop with ho | ho <;> rw [ho] at hset <;> cases ec <;> cases hset
  · rw [hM] at herr
    exact absurd (hmin.symm.trans herr) (by decide)

theorem precise (hi : (σ (i + 1)).entersX) : Precise ec σ (i + 4) i where
  entersX := hi
  faults := by
    obtain ⟨v, hv, -⟩ := h.run.wires (k := i + 2) (by omega)
    obtain ⟨v', hv', -⟩ := h.run.wires (k := i + 3) (by omega)
    exact ⟨i + 2, by omega, (h.tags_of_entersX le_rfl hi).2.1, v, hv, (h.wIn_fault hv hv').1⟩
  first := by
    -- before `i + 2` the M stage has signalled no error, and from then on `i` is in it
    rintro j hj ⟨k, hk, htag, v, hv, herr⟩
    rcases Nat.lt_or_ge k (i + 3) with hlt | hge
    · have hkj := h.eq_of_tags_m (by omega) htag
      rw [h.wIn_quiet (by omega) hv] at herr
      cases herr
    · obtain rfl : k = i + 3 := by omega
      rw [h.tags_m_last] at htag
      have := h.eq_of_tags_m le_rfl htag
      omega
  retired := by
    intro j hj he
    -- nothing stalls before the fault, so `j` is in W in cycle `j + 3` and in no other
    refine ⟨j + 3, ⟨by omega, (h.tags_of_entersX (by omega) he).2.2⟩, ?_⟩
    rintro k ⟨hk, htag⟩
    exact h.eq_of_tags_w (by omega) htag
  inOrder := by
    intro j j' k k' hjj hk hk' htag htag'
    have := h.eq_of_tags_w (by omega) htag
    have := h.eq_of_tags_w (by omega) htag'
    omega
  written := by
    intro k hk j hj htag
    -- what W writes is what `j` had in X, passed on by the stages in between
    obtain rfl := h.eq_of_tags_w (by omega) htag
    obtain ⟨v, hv, -⟩ := h.run.wires (k := j + 2) (by omega)
    obtain ⟨v', hv', hnext⟩ := h.run.wires (k := j + 3) (by omega)
    have hW := (h.w_load (k := j + 2) (by omega) hv).2
    have hM := (h.m_load (k := j + 1) (by omega)).2
    have hw := h.run.wellFormed (k := j + 3) (by omega)
    refine ⟨?_, ?_, ?_⟩
    · rw [hW, wIn, hM]
      rfl
    · rw [hW, wIn, hM]
      rfl
    · rw [hnext, next_regs hw, retire, writeEnable_eq hw.w (h.wOut_quiet (by omega))]
  regs := by
    intro k hk
    obtain ⟨v, hv, hnext⟩ := h.run.wires (k := k) (by omega)
    have hw := h.run.wellFormed (k := k) (by omega)
    by_cases hen : writeEnable (σ k).W.out = true
    · left
      -- a write comes from an instruction that is not the faulty one
      have haok : (σ k).W.out.status = .aok := by
        rw [writeEnable, Bool.and_eq_true, beq_iff_eq] at hen
        exact hen.2
      have hlt : k < i + 3 := by
        by_contra hge
        obtain rfl : k = i + 3 := by omega
        have := h.fault
        rw [haok] at this
        cases this
      obtain ⟨j, rfl, he⟩ := h.w_of_ne_bub hlt (by rw [haok]; decide)
      exact ⟨j, by omega, (h.tags_of_entersX (by omega) he).2.2⟩
    · right
      rw [hnext, next_regs hw, retire]
      rw [Bool.not_eq_true] at hen
      refine ⟨by rw [hen]; rfl, ?_⟩
      change (σ k).regWrites ++ regWriteOf _ _ (writeEnable (wOut (σ k))) = _
      rw [wOut_eq hw.w, hen]
      exact List.append_nil _
  flags := by
    intro k hk
    obtain ⟨v, hv, hnext⟩ := h.run.wires (k := k) (by omega)
    have hw := h.run.wellFormed (k := k) (by omega)
    by_cases hfl : flagsLatch ec (σ k) v = true
    · left
      exact h.x_of_flagsLatch hk hv hfl
    · right
      rw [hnext]
      exact ⟨if_neg hfl, if_neg hfl⟩
  accesses := by
    intro k hk hop
    have hw := h.run.wellFormed (k := k) (by omega)
    -- in the last cycle M still holds the faulty instruction
    rcases Nat.lt_or_ge k (i + 3) with hlt | hge
    · have hne : (σ k).M.out.status ≠ .bub := by
        intro hb
        have := hw.m.status.of_bub hb
        rcases hop with ho | ho <;> rw [this] at ho <;> cases ho
      obtain ⟨j, rfl, he⟩ := h.m_of_ne_bub hlt hne
      exact ⟨j, by omega, (h.tags_of_entersX (by omega) he).2.1⟩
    · obtain rfl : k = i + 3 := by omega
      exact ⟨i, le_rfl, by rw [h.tags_m_last, (h.tags_of_entersX le_rfl hi).2.1]⟩
  pc := by
    obtain ⟨v, hv, -⟩ := h.run.wires (k := i + 2) (by omega)
    obtain ⟨v', hv', hnext⟩ := h.run.wires (k := i + 3) (by omega)
    have hM : (σ (i + 3)).M.out = mIn ec (σ (i + 1)) :=
      h.frozen_m.2.trans (h.m_load (k := i + 1) (by omega)).2
    rw [hnext]
    change pcNext (σ (i + 3)) v' = _
    rw [pcNext, mPCNext, (h.wIn_fault hv hv').2, if_pos rfl, if_pos rfl, hM]
    rfl

end FaultRun

/-- **Precise faults.**  In a run without a cache that stops with a fault, one instruction `i`
is the first to fault; what entered X before it has retired, once and in order, and nothing
from `i` on has changed the registers or the flags. -/
theorem precise_of_fault {ec : Bool} {img : Image} {entry : Word} {n : Nat} {σ : Nat → Machine}
    (h : Execution ec img entry n σ) (hc : img.cache = none)
    (hstop : (σ n).status = .adr ∨ (σ n).status = .ins) : ∃ i, Precise ec σ n i := by
  cases n with
  | zero =>
    rw [h.start] at hstop
    rcases hstop with hs | hs <;> cases hs
  | succ N =>
    obtain ⟨v, hv, hnext⟩ := h.wires (k := N) (by omega)
    have hst : (next ec (σ N) v).status = (σ N).W.out.status :=
      (h.wellFormed (by omega)).statusNext_eq v
    have hrun : FaultRun ec img entry N σ := ⟨h, hc, by
      rw [hnext, hst] at hstop
      rcases hstop with hs | hs <;> rw [hs] <;> rfl⟩
    obtain ⟨i, rfl, hi⟩ := hrun.exists_entersX
    exact ⟨i, hrun.precise hi⟩

/-- `adds x3, x2, x2`, `ldur x1, [sp, #1]`, `adds x4, x2, x2`. -/
def strayLoadAmongFlags : List (BitVec 32) := [0xab020043#32, 0xf84013e1#32, 0xab020044#32]

/-- The instruction before the load writes its register and the flags, the one after it neither. -/
theorem precise_strayLoadAmongFlags :
    (stateAt false (.ofWords strayLoadAmongFlags none) 0x400000#64 6).regWrites = [(3, 0)] ∧
      (stateAt false (.ofWords strayLoadAmongFlags none) 0x400000#64 6).nzcvWrites = [4] ∧
      ∃ i, Precise false (stateAt false (.ofWords strayLoadAmongFlags none) 0x400000#64) 6 i := by
  have hrun : Execution false (.ofWords strayLoadAmongFlags none) 0x400000#64 6
      (stateAt false (.ofWords strayLoadAmongFlags none) 0x400000#64) :=
    execution_stateAt (by decide +kernel)
  exact ⟨by decide +kernel, by decide +kernel, precise_of_fault hrun rfl (by decide +kernel)⟩

end ChArm
