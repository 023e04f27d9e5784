import ChArm.Lib.BarrierSteps
import ChArm.Pipe.StagesApart

/-!
# A thread for every stage

The parallel build gives each stage a thread and lets the threads and `runElf` meet at
`cycle_start` and `cycle_end`.  The threads take their steps in any order, a call of a stage as one
step (`stageThreads`).  That is fair as long as fetch and memory keep apart: then wherever in the
call of memory fetch reads its bytes, it reads the same and changes nothing (`Undisturbed`).

* The rounds of the threads are the cycles of the sequential build (`exists_inStep`).
* No schedule gets stuck or goes on for ever, and each ends in the state of the sequential build
  (`parallel_build`).
* Where the sequential build returns, every schedule can be carried on until `runElf` returns
  (`exists_returns`).
-/

namespace ChArm

open Reorder Barriers

/-- The loop condition. -/
def goesOnUntil (cycleMax : Nat) (s : Machine) : Bool := s.running && decide (s.numInstr < cycleMax)

/-- `stage_threads` and the thread that calls `runElf`. -/
def stageThreads (ec : Bool) (cycleMax : Nat) : System ProcStage Machine Abort where
  workers := [.fetch, .decode, .execute, .memory, .wback]
  work := stageInstr ec
  clock := clock ec
  go := goesOnUntil cycleMax
  mem_workers i := by cases i <;> decide
  nodup := by decide

/-! ## Rounds are cycles -/

theorem apart_of_trace {ec : Bool} {N n : Nat} {s₀ : Machine} {σ : Nat → Machine}
    (hapart : staysApart ec N s₀ = true) (h : Runs.Trace (cycle ec) Machine.running s₀ n σ)
    (hn : n < N) (hrun : (σ n).running = true) : apart ec (σ n) = true := by
  induction n generalizing N s₀ σ with
  | zero =>
    obtain ⟨N, rfl⟩ : ∃ N', N = N' + 1 := ⟨N - 1, by omega⟩
    rw [← h.start, staysApart, hrun, Bool.not_true, Bool.false_or, Bool.and_eq_true] at hapart
    exact hapart.1
  | succ n ih =>
    obtain ⟨N, rfl⟩ : ∃ N', N = N' + 1 := ⟨N - 1, by omega⟩
    obtain ⟨hgo, hstep⟩ := h.next 0 (Nat.succ_pos n)
    rw [h.start] at hgo hstep
    rw [staysApart, hgo, hstep, Bool.not_true, Bool.false_or, Bool.and_eq_true] at hapart
    have hrest := h.shift (m := 1) (by omega)
    rw [Nat.add_sub_cancel] at hrest
    have hnow := ih hapart.2 hrest (by omega) (by rw [Nat.add_comm 1 n]; exact hrun)
    rwa [Nat.add_comm 1 n] at hnow

section

variable {ec : Bool} {img : Image} {entry : Word} {cycleMax n : Nat} {t : Machine}
  {σ : Nat → Machine}

/-- The state after `n` rounds is that of the sequential build after `n` cycles. -/
structure InStep (ec : Bool) (img : Image) (entry : Word) (cycleMax n : Nat) (t : Machine)
    (σ : Nat → Machine) : Prop where
  execution : Execution ec img entry n σ
  last : σ n = t
  settled : t.TextSettled ec
  le : n ≤ max cycleMax 1

theorem InStep.numInstr (h : InStep ec img entry cycleMax n t σ) : t.numInstr = n := by
  rw [← h.last]
  exact h.execution.numInstr_eq le_rfl

/-- Where another round begins the sequential build goes on. -/
theorem InStep.goes (h : InStep ec img entry cycleMax n t σ)
    (hgo : 0 < n → goesOnUntil cycleMax t = true) : t.running = true ∧ n < max cycleMax 1 := by
  rcases Nat.eq_zero_or_pos n with rfl | hn
  · rw [← h.last, h.execution.start]
    exact ⟨rfl, by omega⟩
  · have hgo := hgo hn
    rw [goesOnUntil, Bool.and_eq_true, decide_eq_true_eq, h.numInstr] at hgo
    exact ⟨hgo.1, by omega⟩

/-- In the next round fetch and memory keep apart. -/
theorem InStep.apart (h : InStep ec img entry cycleMax n t σ)
    (hapart : staysApart ec (max cycleMax 1) (.init img entry) = true)
    (hgo : 0 < n → goesOnUntil cycleMax t = true) : ChArm.apart ec t = true := by
  obtain ⟨hrun, hn⟩ := h.goes hgo
  rw [← h.last] at hrun ⊢
  exact apart_of_trace hapart h.execution hn hrun

/-- **Rounds are cycles**: the state after `n` of them is that of the sequential build after `n`
cycles. -/
theorem exists_inStep (hcache : ∀ c, img.cache = some c → ∃ g : Geometry, c = g.cache)
    (hapart : staysApart ec (max cycleMax 1) (.init img entry) = true)
    (h : (stageThreads ec cycleMax).Rounds (.init img entry) n t) :
    ∃ σ, InStep ec img entry cycleMax n t σ := by
  induction h with
  | zero =>
    exact ⟨fun _ => .init img entry, ⟨rfl, fun k hk => absurd hk (Nat.not_lt_zero k)⟩, rfl,
      .init hcache, Nat.zero_le _⟩
  | @succ n t u order hrounds hgo horder hrun ih =>
    obtain ⟨σ, hσ⟩ := ih
    have hround : cycleIn ec order t = .ok (clock ec u) := by
      rw [cycleIn, show runSteps (stageInstr ec) order t = .ok u from hrun]
      rfl
    have hcycle : cycle ec (σ n) = .ok (clock ec u) := by
      rw [hσ.last, ← cycleIn_eq_cycle hσ.settled (hσ.apart hapart hgo) horder, hround]
    obtain ⟨hgoes, hn⟩ := hσ.goes hgo
    rw [← hσ.last] at hgoes
    obtain ⟨σ', hσ', -, hlast⟩ := hσ.execution.snoc ⟨hgoes, hcycle⟩
    exact ⟨σ', hσ', hlast, hσ.settled.cycleIn horder hround, hn⟩

/-- Where the rounds end the sequential build has ended. -/
theorem InStep.runElf_eq (h : InStep ec img entry cycleMax n t σ) (hn : 0 < n)
    (hstop : goesOnUntil cycleMax t = false) : runElf ec img entry cycleMax = .ok t := by
  obtain ⟨m, hm⟩ : ∃ m, max cycleMax 1 = n + m := ⟨_, (Nat.add_sub_of_le h.le).symm⟩
  rw [runElf, hm, run_eq_iter, h.execution.iter_add, h.last]
  cases m with
  | zero => rfl
  | succ m =>
    have hlt : t.numInstr < cycleMax := by
      rw [h.numInstr]
      omega
    rw [goesOnUntil, decide_eq_true hlt, Bool.and_true] at hstop
    rw [Runs.iter, hstop, if_neg Bool.false_ne_true]

/-- Where a stage aborts the sequential build aborts. -/
theorem InStep.runElf_error (h : InStep ec img entry cycleMax n t σ)
    (hapart : staysApart ec (max cycleMax 1) (.init img entry) = true)
    (hgo : 0 < n → goesOnUntil cycleMax t = true) {order : List ProcStage} (hnodup : order.Nodup)
    {e : Abort} (herr : runSteps (stageInstr ec) order t = .error e) :
    runElf ec img entry cycleMax = .error e := by
  have hsub : order.Subperm [.fetch, .decode, .execute, .memory, .wback] :=
    hnodup.subperm fun i _ => by cases i <;> decide
  -- the stages that have not been called yet can be called afterwards
  have hall : IsOrdering (order ++ List.diff [.fetch, .decode, .execute, .memory, .wback] order) :=
    List.subperm_append_diff_self_of_count_le (List.subperm_ext_iff.1 hsub)
  have hround : cycle ec t = .error e := by
    rw [← cycleIn_eq_cycle h.settled (h.apart hapart hgo) hall, cycleIn, runSteps_append, herr]
    rfl
  obtain ⟨hrun, hn⟩ := h.goes hgo
  obtain ⟨m, hm⟩ : ∃ m, max cycleMax 1 = n + (m + 1) := ⟨max cycleMax 1 - n - 1, by omega⟩
  rw [runElf, hm, run_eq_iter, h.execution.iter_add, h.last, Runs.iter, if_pos hrun, hround]
  rfl

end

/-! ## The parallel build -/

section

variable {ec : Bool} {img : Image} {entry : Word} {cycleMax : Nat}
  (hcache : ∀ c, img.cache = some c → ∃ g : Geometry, c = g.cache)
  (hapart : staysApart ec (max cycleMax 1) (.init img entry) = true)
  {k n : Nat} {c : State ProcStage Machine}
  (h : (stageThreads ec cycleMax).Schedule (.init img entry) k n c)
include hcache hapart h

theorem stage_aborts {i : ProcStage} {e : Abort}
    (hstep : (stageThreads ec cycleMax).stepWorker i c = some (.error e)) :
    runElf ec img entry cycleMax = .error e := by
  obtain ⟨s, order, hrounds, hgo, hnodup, herr⟩ := h.error hstep
  obtain ⟨σ, hσ⟩ := exists_inStep hcache hapart hrounds
  exact hσ.runElf_error hapart hgo hnodup herr

theorem schedule_length_le : k ≤ 23 * max cycleMax 1 + 33 := by
  obtain ⟨s, hrounds⟩ := h.exists_rounds
  obtain ⟨σ, hσ⟩ := exists_inStep hcache hapart hrounds
  have hn := hσ.le
  have hk : k ≤ 5 * (4 * n + 6) + 3 * n + 3 := h.length_le
  omega

/-- **The parallel build computes what the sequential build computes**, in whatever order its threads
take their steps.  As long as fetch and memory keep apart: neither disturbs the other in the round
that has begun; a stage that aborts aborts the sequential build too; until `runElf` returns some
thread can go on, and there are no more steps than `cycleMax` allows; and once `runElf` returns all
threads have exited and its state is that of the sequential build. -/
theorem parallel_build :
    (∀ s, (stageThreads ec cycleMax).Rounds (.init img entry) n s →
      (0 < n → goesOnUntil cycleMax s = true) → Undisturbed ec s) ∧
    (∀ i e, (stageThreads ec cycleMax).stepWorker i c = some (.error e) →
      runElf ec img entry cycleMax = .error e) ∧
    (c.main ≠ .done → ((stageThreads ec cycleMax).stepMain c).isSome = true ∨
      ∃ i, ((stageThreads ec cycleMax).stepWorker i c).isSome = true) ∧
    k ≤ 23 * max cycleMax 1 + 33 ∧
    (c.main = .done → (∀ i, c.worker i = .exited) ∧
      runElf ec img entry cycleMax = .ok c.shared ∧ k = 23 * c.shared.numInstr + 18) := by
  refine ⟨fun s hrounds hgo => ?_, fun i e => stage_aborts hcache hapart h, h.progress,
    schedule_length_le hcache hapart h, fun hdone => ?_⟩
  · obtain ⟨σ, hσ⟩ := exists_inStep hcache hapart hrounds
    exact undisturbed_of_apart hσ.settled (hσ.apart hapart hgo)
  · obtain ⟨hn, hrounds, hgo, hexited⟩ := h.rounds hdone
    obtain ⟨σ, hσ⟩ := exists_inStep hcache hapart hrounds
    have hk : k = 5 * (4 * n + 3) + 3 * n + 3 := h.length_eq hdone
    have hnum := hσ.numInstr
    exact ⟨hexited, hσ.runElf_eq hn hgo, by omega⟩

end

/-- Where the sequential build does not abort, no schedule is too long to return: another one at
least as long does. -/
theorem exists_returns {ec : Bool} {img : Image} {entry : Word} {cycleMax : Nat} {s : Machine}
    (hcache : ∀ c, img.cache = some c → ∃ g : Geometry, c = g.cache)
    (hapart : staysApart ec (max cycleMax 1) (.init img entry) = true)
    (hs : runElf ec img entry cycleMax = .ok s) {k n : Nat} {c : State ProcStage Machine}
    (h : (stageThreads ec cycleMax).Schedule (.init img entry) k n c) :
    ∃ k' n' c', k ≤ k' ∧ (stageThreads ec cycleMax).Schedule (.init img entry) k' n' c' ∧
      c'.main = .done := by
  refine h.exists_done (schedule_length_le hcache hapart) fun h' i e hstep => ?_
  cases hs.symm.trans (stage_aborts hcache hapart h' hstep)

/-- `LDUR X1, [SP]` and `RET` with a cache. -/
theorem parallel_build_loadAndReturn :
    let img := Image.ofWords [0xF84003E1#32, 0xD65F03C0#32] (some Geometry.oneLine.cache)
    ∃ k n c, (stageThreads false 20).Schedule (.init img 0x400000#64) k n c ∧ c.main = .done ∧
      (∀ i, c.worker i = .exited) ∧ runElf false img 0x400000#64 20 = .ok c.shared ∧
        k = 23 * c.shared.numInstr + 18 := by
  intro img
  have hcache : ∀ c, img.cache = some c → ∃ g : Geometry, c = g.cache :=
    fun c hc => ⟨Geometry.oneLine, (Option.some.inj hc).symm⟩
  have hapart : staysApart false (max 20 1) (.init img 0x400000#64) = true := by decide +kernel
  have hok : okAnd (runElf false img 0x400000#64 20) (fun _ => true) = true := by decide +kernel
  obtain ⟨s, hs, -⟩ := exists_of_okAnd hok
  obtain ⟨k, n, c, -, h, hdone⟩ := exists_returns hcache hapart hs .init
  obtain ⟨hexited, hend, hk⟩ := (parallel_build hcache hapart h).2.2.2.2 hdone
  exact ⟨k, n, c, h, hdone, hexited, hend, hk⟩

end ChArm
