import ChArm.Base.Execution
import ChArm.Base.Untouched

/-!
# Runs without a cache

The segments stay where the image put them.  Without a cache no access ever has to wait,
and the stages behind X stop for errors alone.
-/

namespace ChArm

/-! ## Segments -/

theorem fetchWires_segStart {ec : Bool} {s : Machine} {d : DInstr} {fStatus : Stat} {fPC : Word}
    {fMem : Memory} (hf : fetchWires ec s = .ok (d, fStatus, fPC, fMem)) :
    fMem.segStart = s.mem.segStart := by
  rcases fetchWires_inv hf with ⟨-, -, -, -, hm⟩ | ⟨-, insnbits, imemErr, hi, -⟩
  · rw [hm]
  · obtain ⟨-, w, hr, -⟩ := imem_inv hi
    exact memRead_segStart hr

theorem segStart_of_fetch {ec : Bool} {s : Machine} {v : Wires} (hv : wires ec s = .ok v) :
    v.fMem.segStart = s.mem.segStart :=
  fetchWires_segStart (wires_inv hv).1

theorem segStart_of_wires {ec : Bool} {s : Machine} {v : Wires} (hw : s.WellFormed ec)
    (hv : wires ec s = .ok v) : v.mem.segStart = s.mem.segStart := by
  rw [← segStart_of_fetch hv]
  rcases dmem_inv hw.m.not_both (wires_inv hv).2 with ⟨-, -, hm, -⟩ | ⟨-, -, hr, -⟩ | ⟨-, -, hr, -⟩
  · rw [hm]
  · exact memRead_segStart hr
  · exact memWrite_segStart hr

/-- Does the instruction in M report an error of its own access? -/
def accessFaults (m : Memory) (i : MInstr) : Bool :=
  (i.mSigs.dmemRead || i.mSigs.dmemWrite) && dmemErr m i.valEx

theorem memErr_eq {ec : Bool} {s : Machine} {v : Wires} (hw : s.WellFormed ec)
    (hv : wires ec s = .ok v) : v.memErr = accessFaults s.mem s.M.out := by
  have hseg := segStart_of_fetch hv
  have herr : dmemErr v.fMem s.M.out.valEx = dmemErr s.mem s.M.out.valEx := by
    simp only [dmemErr, addrInDmem, hseg]
  unfold accessFaults
  rcases dmem_inv hw.m.not_both (wires_inv hv).2 with
    ⟨hr, hwr, -, -, he⟩ | ⟨hr, hwr, -, he⟩ | ⟨hr, hwr, -, -, he⟩ <;>
    rw [hr, hwr, he] <;> first | rfl | exact herr

/-- M hands on an error if the instruction brought one along or its access fails. -/
theorem wIn_isError_iff {ec : Bool} {s : Machine} {v : Wires} (hw : s.WellFormed ec)
    (hv : wires ec s = .ok v) : (wIn s v).status.isError = true ↔
      s.M.out.status.isError = true ∨ accessFaults s.mem s.M.out = true := by
  rw [← memErr_eq hw hv, wIn]
  cases v.memErr
  · simp
  · simp [Stat.isError]

/-! ## Memory without a cache -/

/-- There is no cache and nothing to wait for. -/
structure Memory.Uncached (m : Memory) : Prop where
  cache : m.cache = none
  ready : m.dmemStatus = .ready

namespace Memory.Uncached

variable {m m' : Memory} (h : m.Uncached)
include h

theorem not_cached (c : Cache) (addr : Word) : ¬ m.Cached c addr := fun hc => by
  have := hc.1
  rw [h.cache] at this
  cases this

theorem memRead {addr v : Word} {width : Nat} (hr : ChArm.memRead m addr width = .ok (v, m')) :
    m'.Uncached := by
  rcases memRead_inv hr with ⟨-, scanned, rfl⟩ | ⟨-, c, hc, -⟩ | ⟨-, -, -, rfl⟩
  · exact ⟨h.cache, h.ready⟩
  · exact absurd hc (h.not_cached c addr)
  · exact ⟨h.cache, h.ready⟩

theorem memWrite {addr data : Word} {width : Nat}
    (hr : ChArm.memWrite m addr data width = .ok m') : m'.Uncached := by
  rcases memWrite_inv hr with ⟨-, printed, rfl⟩ | ⟨-, c, hc, -⟩ | ⟨-, -, rfl⟩
  · exact ⟨h.cache, h.ready⟩
  · exact absurd hc (h.not_cached c addr)
  · exact ⟨h.cache, h.ready⟩

end Memory.Uncached

/-- A cycle without a cache never has to wait. -/
theorem uncached_of_wires {ec : Bool} {s : Machine} {v : Wires} (hw : s.WellFormed ec)
    (h : s.mem.Uncached) (hv : wires ec s = .ok v) : v.fMem.Uncached ∧ v.mem.Uncached := by
  have hf : v.fMem.Uncached := by
    rcases fetch_inv hv with ⟨-, -, -, -, hm⟩ | ⟨-, insnbits, imemErr, hi, -⟩
    · rw [hm]
      exact h
    · obtain ⟨-, w, hr, -⟩ := imem_inv hi
      exact h.memRead hr
  refine ⟨hf, ?_⟩
  rcases dmem_inv hw.m.not_both (wires_inv hv).2 with ⟨-, -, hm, -⟩ | ⟨-, -, hr, -⟩ | ⟨-, -, hr, -⟩
  · rw [hm]
    exact hf
  · exact hf.memRead hr
  · exact hf.memWrite hr

theorem Execution.uncached {ec : Bool} {img : Image} {entry : Word} {n : Nat} {σ : Nat → Machine}
    (h : Execution ec img entry n σ) (hc : img.cache = none) {k : Nat} (hk : k ≤ n) :
    (σ k).mem.Uncached := by
  refine (h.invariant (P := fun s => s.WellFormed ec ∧ s.mem.Uncached) ?_ ?_ k hk).2
  · exact ⟨.init ec img entry, hc, rfl⟩
  · rintro s s' ⟨hw, ht⟩ hstep
    obtain ⟨v, hv, rfl⟩ := exists_wires hstep.2
    exact ⟨hw.next hv, (uncached_of_wires hw ht hv).2⟩

/-- Without a cache and without an error, M and W are latched. -/
theorem ctls_of_quiet {ec : Bool} {s : Machine} {v : Wires} (hw : s.WellFormed ec)
    (h : s.mem.Uncached) (hv : wires ec s = .ok v) (hwin : (wIn s v).status.isError = false)
    (hwout : s.W.out.status.isError = false) :
    (hazardOf ec (hazards ec s v)).ctls.m = .load ∧ (hazardOf ec (hazards ec s v)).ctls.w = .load := by
  have hg := hazardOf_guard ec (hazards ec s v)
  have hready : v.mem.dmemStatus ≠ .inFlight := by
    rw [(uncached_of_wires hw h hv).2.ready]
    exact nofun
  cases hz : hazardOf ec (hazards ec s v) <;> rw [hz] at hg
  case wbackError =>
    have herr : (wOut s).status.isError = true := hg
    rw [wOut_eq hw.w, hwout] at herr
    cases herr
  case memoryError => exact absurd (hwin.symm.trans hg.2) (by decide)
  case inFlight => exact absurd hg.2 hready
  all_goals exact ⟨rfl, rfl⟩

end ChArm
