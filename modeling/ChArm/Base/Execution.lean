import ChArm.Pipe.WellFormed

/-!
# Executions

An execution is a run of `runElf` seen cycle by cycle: `σ k` is the state after
`k` cycles, and every cycle but the last was followed by another one.

* `runElf` goes through these states (`run_eq_iter`).
* Every one of them is well formed (`Execution.wellFormed`).
* Programs are run to a state that a proof names by `stateAt` (`execution_stateAt`).
-/

namespace ChArm

/-- `σ 0, …, σ n` are the states `runElf` goes through in its first `n` cycles. -/
abbrev Execution (ec : Bool) (img : Image) (entry : Word) (n : Nat) (σ : Nat → Machine) : Prop :=
  Runs.Trace (cycle ec) Machine.running (.init img entry) n σ

theorem run_eq_iter (ec : Bool) (n : Nat) (s : Machine) :
    run ec n s = Runs.iter (cycle ec) Machine.running n s := by
  induction n generalizing s with
  | zero => rfl
  | succ n ih =>
    have : run ec n = Runs.iter (cycle ec) Machine.running n := funext ih
    rw [run, Runs.iter, this]

/-- `deassert_flags` is never cleared, and it is set where an error is seen. -/
theorem quiet_of_next {ec : Bool} {s : Machine} {v : Wires}
    (h : (next ec s v).deassertFlags = false) :
    s.deassertFlags = false ∧ (hazards ec s v).Quiet := by
  obtain ⟨hs, hnow⟩ := Bool.or_eq_false_iff.1 h
  obtain ⟨hmw, hw⟩ := Bool.or_eq_false_iff.1 hnow
  obtain ⟨hm, hwin⟩ := Bool.or_eq_false_iff.1 hmw
  exact ⟨hs, hw, hwin, hm⟩

namespace Execution

variable {ec : Bool} {img : Image} {entry : Word} {n : Nat} {σ : Nat → Machine}

/-- **Every state of an execution is well formed.** -/
theorem wellFormed (h : Execution ec img entry n σ) {k : Nat} (hk : k ≤ n) :
    (σ k).WellFormed ec :=
  h.invariant (.init ec img entry) (fun _ _ hs hstep => hs.cycle hstep.2) k hk

/-- The wires of a cycle of an execution. -/
theorem wires (h : Execution ec img entry n σ) {k : Nat} (hk : k < n) :
    ∃ v, wires ec (σ k) = .ok v ∧ σ (k + 1) = next ec (σ k) v :=
  exists_wires (h.next k hk).2

/-- Without a fault by the end, no cycle has seen an error. -/
theorem quiet (h : Execution ec img entry n σ) (hfault : (σ n).deassertFlags = false) :
    ∀ k ≤ n, (σ k).deassertFlags = false := by
  intro k hk
  induction hk using Nat.decreasingInduction with
  | self => exact hfault
  | of_succ k hk ih =>
    obtain ⟨v, hv, hnext⟩ := h.wires hk
    rw [hnext] at ih
    exact (quiet_of_next ih).1

/-- `num_instr` counts the cycles. -/
theorem numInstr_eq (h : Execution ec img entry n σ) {k : Nat} (hk : k ≤ n) :
    (σ k).numInstr = k := by
  induction k with
  | zero =>
    rw [h.start]
    rfl
  | succ k ih =>
    obtain ⟨v, hv, hnext⟩ := h.wires (Nat.lt_of_succ_le hk)
    rw [hnext]
    exact congrArg (· + 1) (ih (by omega))

end Execution

/-! ## Executions computed -/

/-- Do the next `n` cycles all go through? -/
def goesOn (ec : Bool) : Nat → Machine → Bool
  | 0, _ => true
  | n + 1, s =>
      s.running && match cycle ec s with
        | .ok s' => goesOn ec n s'
        | .error _ => false

/-- The state after `k` cycles, as far as they go through. -/
def stateAt (ec : Bool) (img : Image) (entry : Word) (k : Nat) : Machine :=
  Runs.states (cycle ec) Machine.running (.init img entry) k

theorem exists_of_goesOn {ec : Bool} {n : Nat} {s : Machine} (h : goesOn ec n s = true) :
    ∀ k < n, ∃ t t', Runs.iter (cycle ec) Machine.running k s = .ok t ∧ t.running = true ∧
      cycle ec t = .ok t' := by
  induction n generalizing s with
  | zero => exact fun k hk => absurd hk (Nat.not_lt_zero k)
  | succ n ih =>
    intro k hk
    rw [goesOn, Bool.and_eq_true] at h
    obtain ⟨hgo, hrest⟩ := h
    cases hs : cycle ec s with
    | error e =>
      rw [hs] at hrest
      cases hrest
    | ok s' =>
      rw [hs] at hrest
      cases k with
      | zero => exact ⟨s, s', rfl, hgo, hs⟩
      | succ k =>
        rw [Runs.iter_succ_of_step ⟨hgo, hs⟩]
        exact ih hrest k (by omega)

/-- Does a computation go through, with a result that passes a test? -/
def okAnd {ε α : Type} (x : Except ε α) (p : α → Bool) : Bool :=
  match x with
  | .ok a => p a
  | .error _ => false

theorem exists_of_okAnd {ε α : Type} {x : Except ε α} {p : α → Bool} (h : okAnd x p = true) :
    ∃ a, x = .ok a ∧ p a = true := by
  cases x with
  | error e => cases h
  | ok a => exact ⟨a, rfl, h⟩

theorem of_okAnd {ε α : Type} {x : Except ε α} {p : α → Bool} (h : okAnd x p = true) {a : α}
    (ha : x = .ok a) : p a = true := by
  rw [ha] at h
  exact h

/-- Cycles that all go through are an execution. -/
theorem execution_stateAt {ec : Bool} {img : Image} {entry : Word} {n : Nat}
    (h : goesOn ec n (.init img entry) = true) : Execution ec img entry n (stateAt ec img entry) :=
  Runs.trace_states (exists_of_goesOn h)

end ChArm
