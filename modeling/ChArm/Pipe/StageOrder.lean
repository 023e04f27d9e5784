import ChArm.Base.SettledBytes
import ChArm.Lib.Reorder

/-!
# The order of the stages

The random build calls the five stages of a cycle in an order it draws anew each
time.  Decode, execute and write-back touch nothing that another stage touches,
so only fetch and memory can get in each other's way: both put pages into the
page table and read the same memory.  Where neither reports an error, fetch reads
bytes no data access changes, and the two orders leave the same state but for the
chains of the page table (`stage_order_irrelevant`).

* `wires_same` — fetch and memory, in the two orders.
* `stage_order_irrelevant` — all five stages, in every state that some orders lead to.
-/

namespace ChArm

open Reorder

/-! ## Cycles in any order -/

/-- The call a name of `orderings` stands for. -/
def stageInstr (ec : Bool) : ProcStage → Machine → Except Abort Machine
  | .fetch, s => fetchInstr ec s
  | .decode, s => .ok (decodeInstr ec s)
  | .execute, s => .ok (executeInstr ec s)
  | .memory, s => memoryInstr s
  | .wback, s => .ok (wbackInstr s)

/-- An order of the five stages. -/
def IsOrdering (order : List ProcStage) : Prop :=
  order.Perm [.fetch, .decode, .execute, .memory, .wback]

/-- The body of the loop of `runElf` in the random build. -/
def cycleIn (ec : Bool) (order : List ProcStage) (s : Machine) : Except Abort Machine := do
  let s ← runSteps (stageInstr ec) order s
  .ok (clock ec s)

/-- The states `runElf` can reach at the start of a cycle, whatever orders it draws. -/
inductive Reachable (ec : Bool) (img : Image) (entry : Word) : Machine → Prop
  | init : Reachable ec img entry (.init img entry)
  | cycle {s s' : Machine} {order : List ProcStage} (h : Reachable ec img entry s)
      (hrun : s.running = true) (horder : IsOrdering order) (hc : cycleIn ec order s = .ok s') :
      Reachable ec img entry s'

/-- The sequential build is one of the orders. -/
theorem cycleIn_sequential (ec : Bool) (s : Machine) :
    cycleIn ec [.fetch, .decode, .execute, .memory, .wback] s = cycle ec s := by
  rw [cycleIn, cycle, stages]
  simp only [runSteps, stageInstr, pure, Except.pure, bind, Except.bind]

/-! ## Stages that touch only their own side -/

/-- What the memory stage reads. -/
def dataAccess (s : Machine) : Except Abort (Word × Bool × Memory) :=
  dmem s.mem s.M.out.valEx s.M.out.valB s.M.out.mSigs.dmemRead s.M.out.mSigs.dmemWrite
    s.W.inp.valMem

theorem memoryInstr_eq (s : Machine) :
    memoryInstr s = (dataAccess s).map fun r =>
      let status := if r.2.1 then .adr else s.M.out.status
      { s with
        W := { s.W with inp :=
          { op := s.M.out.op, wSigs := s.M.out.wSigs, dst := s.M.out.dst, valEx := s.M.out.valEx,
            valMem := r.1, status := status } }
        mPC := if status.isError then s.M.out.seqSuccPC - 4#64 else s.mPC
        mem := r.2.2 } := by
  unfold memoryInstr dataAccess
  dsimp only
  cases dmem s.mem s.M.out.valEx s.M.out.valB s.M.out.mSigs.dmemRead s.M.out.mSigs.dmemWrite
      s.W.inp.valMem <;> rfl

section Commuting

variable (ec : Bool) (s : Machine)

theorem fetchInstr_decodeInstr :
    fetchInstr ec (decodeInstr ec s) = (fetchInstr ec s).map (decodeInstr ec) := by
  rw [fetchInstr_eq, fetchInstr_eq]
  change (fetchWires ec s).map _ = _
  cases fetchWires ec s <;> rfl

theorem fetchInstr_executeInstr :
    fetchInstr ec (executeInstr ec s) = (fetchInstr ec s).map (executeInstr ec) := by
  rw [fetchInstr_eq, fetchInstr_eq]
  change (fetchWires ec s).map _ = _
  cases fetchWires ec s <;> rfl

theorem fetchInstr_wbackInstr :
    fetchInstr ec (wbackInstr s) = (fetchInstr ec s).map wbackInstr := by
  rw [fetchInstr_eq, fetchInstr_eq]
  change (fetchWires ec s).map _ = _
  cases fetchWires ec s <;> rfl

theorem memoryInstr_decodeInstr :
    memoryInstr (decodeInstr ec s) = (memoryInstr s).map (decodeInstr ec) := by
  rw [memoryInstr_eq, memoryInstr_eq]
  change (dataAccess s).map _ = _
  cases dataAccess s <;> rfl

theorem memoryInstr_executeInstr :
    memoryInstr (executeInstr ec s) = (memoryInstr s).map (executeInstr ec) := by
  rw [memoryInstr_eq, memoryInstr_eq]
  change (dataAccess s).map _ = _
  cases dataAccess s <;> rfl

theorem memoryInstr_wbackInstr :
    memoryInstr (wbackInstr s) = (memoryInstr s).map wbackInstr := by
  rw [memoryInstr_eq, memoryInstr_eq]
  change (dataAccess s).map _ = _
  cases dataAccess s <;> rfl

end Commuting

/-- Binding a call that cannot fail. -/
theorem bind_ok_eq_map {α β : Type} (x : Except Abort α) (f : α → β) :
    (x >>= fun a => .ok (f a)) = x.map f := by
  cases x <;> rfl

/-- **Decode, execute and write-back commute with every stage.** -/
theorem commutes_of_local (ec : Bool) {i : ProcStage} (hi : i ∈ [ProcStage.decode, .execute, .wback])
    (j : ProcStage) : Commutes (stageInstr ec) i j := by
  intro s
  simp only [List.mem_cons, List.not_mem_nil, or_false] at hi
  rcases hi with rfl | rfl | rfl <;> cases j
  case inl.fetch => exact (fetchInstr_decodeInstr ec s).trans (bind_ok_eq_map _ _).symm
  case inl.memory => exact (memoryInstr_decodeInstr ec s).trans (bind_ok_eq_map _ _).symm
  case inr.inl.fetch => exact (fetchInstr_executeInstr ec s).trans (bind_ok_eq_map _ _).symm
  case inr.inl.memory => exact (memoryInstr_executeInstr ec s).trans (bind_ok_eq_map _ _).symm
  case inr.inr.fetch => exact (fetchInstr_wbackInstr ec s).trans (bind_ok_eq_map _ _).symm
  case inr.inr.memory => exact (memoryInstr_wbackInstr s).trans (bind_ok_eq_map _ _).symm
  all_goals rfl

/-- Every order is one of two: fetch before memory, or memory before fetch. -/
theorem cycleIn_eq {ec : Bool} {order : List ProcStage} (h : IsOrdering order) (s : Machine) :
    cycleIn ec order s = cycle ec s ∨
      cycleIn ec order s = cycleIn ec [.memory, .fetch, .decode, .execute, .wback] s := by
  have hfree : ∀ {order : List ProcStage}, IsOrdering order → ∀ s,
      runSteps (stageInstr ec) order s = runSteps (stageInstr ec)
        ([.decode, .execute, .wback] ++ order.diff [.decode, .execute, .wback]) s := by
    intro order ho s
    refine runSteps_free_first (fun i hi j => commutes_of_local ec hi j) ?_ s
    have hsub : List.Subperm [ProcStage.decode, .execute, .wback]
        [.fetch, .decode, .execute, .memory, .wback] :=
      List.Sublist.subperm (by decide)
    exact hsub.trans ho.symm.subperm
  have hrest : (order.diff [.decode, .execute, .wback]).Perm [ProcStage.fetch, .memory] :=
    h.diff_right _
  have hdiff : order.diff [.decode, .execute, .wback] = [.fetch, .memory] ∨
      order.diff [.decode, .execute, .wback] = [ProcStage.memory, .fetch] := by
    rcases hd : order.diff [.decode, .execute, .wback] with _ | ⟨a, _ | ⟨b, _ | ⟨c, l⟩⟩⟩ <;>
      rw [hd] at hrest
    · exact absurd hrest.length_eq (by decide)
    · have hlen := hrest.length_eq
      simp at hlen
    · revert hrest
      cases a <;> cases b <;> decide
    · have hlen := hrest.length_eq
      simp at hlen
  rcases hdiff with hd | hd
  · left
    rw [← cycleIn_sequential, cycleIn, cycleIn, hfree h, hfree (List.Perm.refl _), hd]
    rfl
  · right
    rw [cycleIn, cycleIn, hfree h, hfree (show IsOrdering [.memory, .fetch, .decode, .execute, .wback]
      by unfold IsOrdering; decide), hd]
    rfl

/-! ## Memory before fetch -/

/-- The wires of a cycle whose memory stage comes before fetch. -/
def memoryFirstWires (ec : Bool) (s : Machine) : Except Abort Wires := do
  let (valMem, memErr, dMem) ← dataAccess s
  let (d, fStatus, fPC, mem) ← fetchWires ec { s with mem := dMem }
  .ok { d := d, fStatus := fStatus, fPC := fPC, fMem := mem, valMem := valMem, memErr := memErr,
        mem := mem }

theorem cycleIn_memoryFirst (ec : Bool) (s : Machine) :
    cycleIn ec [.memory, .fetch, .decode, .execute, .wback] s =
      (memoryFirstWires ec s).map (next ec s) := by
  simp only [cycleIn, runSteps, stageInstr, pure, Except.pure, bind, Except.bind, memoryFirstWires,
    memoryInstr_eq]
  cases dataAccess s with
  | error e => rfl
  | ok r =>
    obtain ⟨valMem, memErr, dMem⟩ := r
    have hsame : ∀ w mPC, fetchWires ec { s with W := w, mPC := mPC, mem := dMem } =
        fetchWires ec { s with mem := dMem } := fun _ _ => rfl
    simp only [Except.map, fetchInstr_eq, hsame]
    cases fetchWires ec { s with mem := dMem } with
    | error e => rfl
    | ok r =>
      obtain ⟨d, fStatus, fPC, mem⟩ := r
      dsimp only [executeInstr, decodeInstr, wbackInstr]
      rw [clock_eq]
      rfl

/-- The fetch stage and the data access of a cycle, in the order in which they were called. -/
theorem memoryFirstWires_inv {ec : Bool} {s : Machine} {v : Wires}
    (h : memoryFirstWires ec s = .ok v) :
    ∃ dMem, dataAccess s = .ok (v.valMem, v.memErr, dMem) ∧
      fetchWires ec { s with mem := dMem } = .ok (v.d, v.fStatus, v.fPC, v.mem) := by
  unfold memoryFirstWires at h
  cases hd : dataAccess s with
  | error e =>
    rw [hd] at h
    cases h
  | ok r =>
    obtain ⟨valMem, memErr, dMem⟩ := r
    simp only [hd, bind, Except.bind] at h
    cases hf : fetchWires ec { s with mem := dMem } with
    | error e =>
      rw [hf] at h
      cases h
    | ok r =>
      rw [hf] at h
      cases h
      exact ⟨dMem, rfl, hf⟩

/-! ## Bytes of instructions along a run -/

/-- What a cycle needs of its wires, in whatever order they were computed. -/
structure Orderly (ec : Bool) (s : Machine) (v : Wires) : Prop where
  fetched : v.d.Ok ec
  segStart : v.mem.segStart = s.mem.segStart
  memErr : v.memErr = accessFaults s.mem s.M.out
  settled : accessFaults s.mem s.M.out = false → s.mem.Settled s.mem.textByte →
    v.mem.Settled s.mem.textByte

/-- The instruction in M is about to fault, or no cached copy of an instruction byte is stale. -/
structure Machine.TextSettled (ec : Bool) (s : Machine) : Prop where
  wellFormed : s.WellFormed ec
  settled : accessFaults s.mem s.M.out = true ∨ s.mem.Settled s.mem.textByte

theorem fetchWires_settled {ec : Bool} {s : Machine} {d : DInstr} {fStatus : Stat} {fPC : Word}
    {fMem : Memory} {q : Word → Prop} (h : s.mem.Settled q)
    (hf : fetchWires ec s = .ok (d, fStatus, fPC, fMem)) : fMem.Settled q := by
  rcases fetchWires_inv hf with ⟨-, -, -, -, hm⟩ | ⟨-, insnbits, imemErr, hi, -⟩
  · rwa [hm]
  · exact (h.imem hi).1

section DataAccess

variable {ec : Bool} {s : Machine} {valMem : Word} {memErr : Bool} {mem : Memory}

/-- The data access of a cycle, on the memory `m` it finds. -/
theorem dmem_segStart {m : Memory} (hw : s.WellFormed ec)
    (hd : dmem m s.M.out.valEx s.M.out.valB s.M.out.mSigs.dmemRead s.M.out.mSigs.dmemWrite
      s.W.inp.valMem = .ok (valMem, memErr, mem)) :
    mem.segStart = m.segStart ∧ memErr = accessFaults m s.M.out := by
  unfold accessFaults
  rcases dmem_inv hw.m.not_both hd with
    ⟨hr, hwr, hm, -, he⟩ | ⟨hr, hwr, hread, he⟩ | ⟨hr, hwr, hwrite, -, he⟩
  · rw [hr, hwr, hm, he]
    exact ⟨rfl, rfl⟩
  · rw [hr, hwr, he]
    exact ⟨memRead_segStart hread, rfl⟩
  · rw [hr, hwr, he]
    exact ⟨memWrite_segStart hwrite, rfl⟩

/-- A data access without an error keeps the bytes of instructions. -/
theorem dmem_settled {m : Memory} (hw : s.WellFormed ec)
    (h : m.Settled m.textByte) (hno : accessFaults m s.M.out = false)
    (hd : dmem m s.M.out.valEx s.M.out.valB s.M.out.mSigs.dmemRead s.M.out.mSigs.dmemWrite
      s.W.inp.valMem = .ok (valMem, memErr, mem)) :
    mem.Settled m.textByte ∧ m.KeepsBytes m.textByte mem := by
  obtain rfl : memErr = false := (dmem_segStart hw hd).2.trans hno
  by_cases hacc : (s.M.out.mSigs.dmemRead || s.M.out.mSigs.dmemWrite) = true
  · have herr : dmemErr m s.M.out.valEx = false := by
      rw [accessFaults, hacc] at hno
      exact hno
    exact h.dmem hw.m.not_both (fun hs a ha => inWord_of_textByte hs herr ha) hd
  · rcases dmem_inv hw.m.not_both hd with ⟨-, -, rfl, -, -⟩ | ⟨hr, -, -, -⟩ | ⟨-, hwr, -, -, -⟩
    · exact ⟨h, fun a _ => rfl⟩
    · exact absurd (by rw [hr]; rfl) hacc
    · exact absurd (by rw [hwr, Bool.or_true]) hacc

end DataAccess

/-- The wires of a cycle that fetches first. -/
theorem orderly_of_wires {ec : Bool} {s : Machine} {v : Wires} (hw : s.WellFormed ec)
    (hv : wires ec s = .ok v) : Orderly ec s v := by
  obtain ⟨hf, hd⟩ := wires_inv hv
  have hseg := fetchWires_segStart hf
  have htext : v.fMem.textByte = s.mem.textByte := by
    funext a
    rw [Memory.textByte, Memory.textByte, hseg]
  refine ⟨(fetchWires_ok hf).1, segStart_of_wires hw hv, memErr_eq hw hv, fun hno hset => ?_⟩
  have hset' : v.fMem.Settled v.fMem.textByte := by
    rw [htext]
    exact fetchWires_settled hset hf
  have hno' : accessFaults v.fMem s.M.out = false := by
    rw [← (dmem_segStart hw hd).2, memErr_eq hw hv, hno]
  have hend := (dmem_settled hw hset' hno' hd).1
  rwa [htext] at hend

/-- The wires of a cycle that accesses data first. -/
theorem orderly_of_memoryFirstWires {ec : Bool} {s : Machine} {v : Wires} (hw : s.WellFormed ec)
    (hv : memoryFirstWires ec s = .ok v) : Orderly ec s v := by
  obtain ⟨dMem, hd, hf⟩ := memoryFirstWires_inv hv
  obtain ⟨hseg, herr⟩ := dmem_segStart hw hd
  refine ⟨(fetchWires_ok hf).1, (fetchWires_segStart hf).trans hseg, herr, fun hno hset => ?_⟩
  exact fetchWires_settled (s := { s with mem := dMem }) (dmem_settled hw hset hno hd).1 hf

/-- While the instruction in M faults it stays there. -/
theorem next_M_of_memErr {ec : Bool} {s : Machine} {v : Wires} (hw : s.WellFormed ec)
    (herr : v.memErr = true) : (next ec s v).M.out = s.M.out := by
  have hwin : (hazards ec s v).wInStatus.isError = true := by
    change (if v.memErr then Stat.adr else s.M.out.status).isError = true
    rw [herr]
    rfl
  rw [hw.next_M]
  cases hout : (hazards ec s v).wOutStatus.isError with
  | true =>
    rw [hazardOf_wbackError ec hout]
    rfl
  | false =>
    rw [hazardOf_memoryError ec hout hwin]
    rfl

/-- **A cycle in any order leaves no stale copy of an instruction byte.** -/
theorem Machine.TextSettled.next {ec : Bool} {s : Machine} {v : Wires} (h : s.TextSettled ec)
    (hv : Orderly ec s v) : (next ec s v).TextSettled ec := by
  have hmem : (ChArm.next ec s v).mem = v.mem := rfl
  refine ⟨h.wellFormed.next_of_fetched hv.fetched, ?_⟩
  by_cases hf : accessFaults s.mem s.M.out = true
  · left
    rw [next_M_of_memErr h.wellFormed (hv.memErr.trans hf), hmem, ← hf]
    simp only [accessFaults, dmemErr, addrInDmem, hv.segStart]
  · right
    have hset := hv.settled (Bool.eq_false_iff.2 hf) (h.settled.resolve_left hf)
    have htext : v.mem.textByte = s.mem.textByte := by
      funext a
      rw [Memory.textByte, Memory.textByte, hv.segStart]
    rwa [hmem, htext]

/-! ## Fetch and memory commute -/

/-- Does `imem` report an error in this cycle? -/
def fetchFaults (ec : Bool) (s : Machine) : Bool :=
  !fetchHalts ec s &&
    (!addrInImem s.mem (fetchPC ec s) || (fetchPC ec s &&& 0x3#64) != 0)

/-- A fetch without an error reads the page table. -/
theorem imem_of_not_fault {m : Memory} {addr : Word} (h0 : addr ≠ 0)
    (hin : addrInImem m addr = true) (hal : addr &&& 0x3#64 = 0) :
    imem m addr = .ok ((leValue (fun k => m.ptable.byteAt (addr + BitVec.ofNat 64 k)) 4).setWidth 32,
      false, { m with ptable := (memReadLE m.ptable addr 4).2 }) := by
  have hspecial : isSpecialAddr addr = false := by
    by_contra hs
    rw [Bool.not_eq_false] at hs
    simp only [isSpecialAddr, Bool.or_eq_true, beq_iff_eq] at hs
    rcases hs with ((hs | hs) | hs) | hs
    · exact h0 hs.symm
    · exact absurd (hs ▸ hal) (by decide)
    · exact h0 hs.symm
    · exact absurd (hs ▸ hal) (by decide)
  have hflat : ∀ c, ¬ m.Cached c addr := by
    rintro c ⟨-, hge⟩
    rw [addrInImem, Bool.and_eq_true, decide_eq_true_eq, decide_eq_true_eq] at hin
    exact absurd hge (BitVec.not_le.2 hin.2)
  have hread := memRead_flat hspecial hflat 4
  rw [memReadLE_fst] at hread
  rw [imem_of_memRead hread, hin, hal]
  rfl

/-- The bytes of an aligned word of instruction memory. -/
theorem textByte_of_fetch {m : Memory} {addr : Word} (hin : addrInImem m addr = true)
    (hal : addr &&& 0x3#64 = 0) {k : Nat} (hk : k < 4) :
    m.textByte (addr + BitVec.ofNat 64 k) := by
  rw [addrInImem, Bool.and_eq_true, decide_eq_true_eq, decide_eq_true_eq] at hin
  have hlt := hin.2
  have hmask := congrArg BitVec.toNat hal
  rw [BitVec.toNat_and] at hmask
  have halign : addr.toNat % 4 = 0 := (Nat.and_two_pow_sub_one_eq_mod addr.toNat 2).symm.trans hmask
  have haddr := addr.isLt
  rw [BitVec.lt_def] at hlt
  rw [Memory.textByte, BitVec.toNat_add, BitVec.toNat_ofNat]
  omega

/-- Wires that differ in the chains of the page table only. -/
structure SameWires (v v' : Wires) : Prop where
  d : v'.d = v.d
  fStatus : v'.fStatus = v.fStatus
  fPC : v'.fPC = v.fPC
  valMem : v'.valMem = v.valMem
  memErr : v'.memErr = v.memErr
  mem : v.mem.Same v'.mem

/-- Machines that differ in the chains of the page table only. -/
def Machine.Same (s t : Machine) : Prop := ∃ mem, s.mem.Same mem ∧ t = { s with mem := mem }

namespace Machine.Same

variable {s t u : Machine}

theorem refl (s : Machine) : s.Same s := ⟨s.mem, .refl _, rfl⟩

theorem symm (h : s.Same t) : t.Same s := by
  obtain ⟨mem, hm, rfl⟩ := h
  exact ⟨s.mem, hm.symm, rfl⟩

theorem trans (h : s.Same t) (h' : t.Same u) : s.Same u := by
  obtain ⟨mem, hm, rfl⟩ := h
  obtain ⟨mem', hm', rfl⟩ := h'
  exact ⟨mem', hm.trans hm', rfl⟩

end Machine.Same

theorem next_same (ec : Bool) (s : Machine) {v v' : Wires} (h : SameWires v v') :
    (next ec s v).Same (next ec s v') := by
  obtain ⟨h1, h2, h3, h4, h5, pt, hpt, h6⟩ := h
  obtain ⟨d, fStatus, fPC, fMem, valMem, memErr, mem⟩ := v
  obtain ⟨d', fStatus', fPC', fMem', valMem', memErr', mem'⟩ := v'
  obtain rfl : d' = d := h1
  obtain rfl : fStatus' = fStatus := h2
  obtain rfl : fPC' = fPC := h3
  obtain rfl : valMem' = valMem := h4
  obtain rfl : memErr' = memErr := h5
  obtain rfl : mem' = { mem with ptable := pt } := h6
  exact ⟨_, ⟨pt, hpt, rfl⟩, rfl⟩

/-- What fetch delivers does not depend on whether the data access came before it. -/
theorem fetchWires_same {ec : Bool} {s : Machine} (himem : fetchFaults ec s = false) :
    ∃ d fStatus fPC fMem, fetchWires ec s = .ok (d, fStatus, fPC, fMem) ∧ s.mem.Same fMem ∧
      ∀ dMem : Memory, dMem.segStart = s.mem.segStart → s.mem.KeepsBytes s.mem.textByte dMem →
        ∃ mem, fetchWires ec { s with mem := dMem } = .ok (d, fStatus, fPC, mem) ∧
          dMem.Same mem := by
  by_cases hh : fetchHalts ec s = true
  · exact ⟨_, _, _, _, if_pos hh, .refl _, fun dMem _ _ => ⟨dMem, if_pos hh, .refl _⟩⟩
  · have h0 : fetchPC ec s ≠ 0 := fun h0 => hh (by rw [fetchHalts, h0]; rfl)
    simp only [fetchFaults, Bool.eq_false_iff.2 hh, Bool.not_false, Bool.true_and,
      Bool.or_eq_false_iff, Bool.not_eq_eq_eq_not, bne_eq_false_iff_eq] at himem
    obtain ⟨hin, hal⟩ := himem
    have hread := imem_of_not_fault h0 hin hal
    obtain ⟨word, hword⟩ : ∃ w, w = (leValue (fun k =>
      s.mem.ptable.byteAt (fetchPC ec s + BitVec.ofNat 64 k)) 4).setWidth 32 := ⟨_, rfl⟩
    rw [← hword] at hread
    refine ⟨fetchedInstr ec (fetchPC ec s) word false, (fetchedInstr ec (fetchPC ec s) word false).status,
      (predictPC ec (fetchPC ec s) word (fetchedInstr ec (fetchPC ec s) word false).op).1, _, ?_,
      ⟨_, byteAt_memReadLE s.mem.ptable (fetchPC ec s) 4, rfl⟩, ?_⟩
    · rw [fetchWires, if_neg hh, hread]
      rfl
    · intro dMem hseg hkeeps
      have hin' : addrInImem dMem (fetchPC ec s) = true := by
        rw [addrInImem, hseg]
        exact hin
      have hread' := imem_of_not_fault h0 hin' hal
      have hword' : leValue (fun k => dMem.ptable.byteAt (fetchPC ec s + BitVec.ofNat 64 k)) 4 =
          leValue (fun k => s.mem.ptable.byteAt (fetchPC ec s + BitVec.ofNat 64 k)) 4 :=
        leValue_congr fun k hk => hkeeps _ (textByte_of_fetch hin hal hk)
      rw [hword', ← hword] at hread'
      refine ⟨{ dMem with ptable := (memReadLE dMem.ptable (fetchPC ec s) 4).2 }, ?_,
        ⟨_, byteAt_memReadLE dMem.ptable (fetchPC ec s) 4, rfl⟩⟩
      have hhalts : ¬ fetchHalts ec { s with mem := dMem } = true := hh
      rw [fetchWires, if_neg hhalts]
      change (imem dMem (fetchPC ec s) >>= _) = _
      rw [hread']
      rfl

/-- **Fetch and memory commute** where neither reports an error. -/
theorem wires_same {ec : Bool} {s : Machine} (h : s.TextSettled ec)
    (himem : fetchFaults ec s = false) (hdmem : accessFaults s.mem s.M.out = false) :
    SameOutcome SameWires (wires ec s) (memoryFirstWires ec s) := by
  have hset := h.settled.resolve_left (by rw [hdmem]; decide)
  obtain ⟨d, fStatus, fPC, fMem, hf, hsame, hlater⟩ := fetchWires_same himem
  have hd := dmem_same hsame s.M.out.valEx s.M.out.valB s.M.out.mSigs.dmemRead
    s.M.out.mSigs.dmemWrite s.W.inp.valMem
  generalize hA : dmem s.mem s.M.out.valEx s.M.out.valB s.M.out.mSigs.dmemRead
    s.M.out.mSigs.dmemWrite s.W.inp.valMem = x at hd
  generalize hB : dmem fMem s.M.out.valEx s.M.out.valB s.M.out.mSigs.dmemRead
    s.M.out.mSigs.dmemWrite s.W.inp.valMem = y at hd
  have hA' : dataAccess s = x := hA
  cases hd with
  | error e =>
    have h1 : wires ec s = .error e := by
      rw [wires, hf]
      simp only [bind, Except.bind, hB]
    have h2 : memoryFirstWires ec s = .error e := by
      rw [memoryFirstWires, hA']
      rfl
    rw [h1, h2]
    exact .error e
  | @ok r r' hr =>
    obtain ⟨valMem, memErr, dMem⟩ := r
    obtain ⟨valMem', memErr', mem'⟩ := r'
    obtain ⟨rfl, rfl, hmem⟩ : valMem' = valMem ∧ memErr' = memErr ∧ dMem.Same mem' := hr
    obtain ⟨mem, hf', hlast⟩ := hlater dMem (dmem_segStart h.wellFormed hA).1
      (dmem_settled h.wellFormed hset hdmem hA).2
    have h2 : memoryFirstWires ec s = .ok ⟨d, fStatus, fPC, mem, valMem', memErr', mem⟩ := by
      rw [memoryFirstWires, hA']
      simp only [bind, Except.bind, hf']
    rw [wires_eq hf hB, h2]
    exact .ok ⟨rfl, rfl, rfl, rfl, rfl, hmem.symm.trans hlast⟩

/-! ## Reachable states -/

theorem Machine.TextSettled.init {ec : Bool} {img : Image} {entry : Word}
    (hcache : ∀ c, img.cache = some c → ∃ g : Geometry, c = g.cache) :
    (Machine.init img entry).TextSettled ec := by
  refine ⟨.init ec img entry, Or.inr fun c hc => ?_⟩
  obtain ⟨g, rfl⟩ := hcache c hc
  have hempty : ∀ a, (g.cache.contents img.ptable).copy a = none := contents_fresh g img.ptable
  refine ⟨g, g.cache_wellTagged, ⟨fun a v hv => ?_, fun a _ =>
    WriteBack.Store.view_of_absent (hempty a)⟩⟩
  cases (hempty a).symm.trans hv

/-- A cycle in any order is a clock edge on orderly wires. -/
theorem exists_orderly {ec : Bool} {s s' : Machine} {order : List ProcStage} (hw : s.WellFormed ec)
    (horder : IsOrdering order) (hc : cycleIn ec order s = .ok s') :
    ∃ v, Orderly ec s v ∧ s' = next ec s v := by
  rcases cycleIn_eq horder s with he | he
  · rw [he] at hc
    obtain ⟨v, hv, hs'⟩ := exists_wires hc
    exact ⟨v, orderly_of_wires hw hv, hs'⟩
  · rw [he, cycleIn_memoryFirst] at hc
    cases hv : memoryFirstWires ec s with
    | error e =>
      rw [hv] at hc
      cases hc
    | ok v =>
      rw [hv] at hc
      exact ⟨v, orderly_of_memoryFirstWires hw hv, (Except.ok.inj hc).symm⟩

theorem Reachable.textSettled {ec : Bool} {img : Image} {entry : Word} {s : Machine}
    (hcache : ∀ c, img.cache = some c → ∃ g : Geometry, c = g.cache)
    (h : Reachable ec img entry s) : s.TextSettled ec := by
  induction h with
  | init => exact .init hcache
  | cycle h hrun horder hc ih =>
    obtain ⟨v, hv, rfl⟩ := exists_orderly ih.wellFormed horder hc
    exact ih.next hv

/-- **The order of the stages does not matter.**  From any reachable state, with or without a cache,
a cycle in which neither `imem` nor `dmem` reports an error ends alike in any two orders: it
fails in both, or it leaves states that differ in the chains of the page table only. -/
theorem stage_order_irrelevant {ec : Bool} {img : Image} {entry : Word} {s : Machine}
    (hcache : ∀ c, img.cache = some c → ∃ g : Geometry, c = g.cache)
    (h : Reachable ec img entry s) (himem : fetchFaults ec s = false)
    (hdmem : accessFaults s.mem s.M.out = false) {order₁ order₂ : List ProcStage}
    (h₁ : IsOrdering order₁) (h₂ : IsOrdering order₂) :
    SameOutcome Machine.Same (cycleIn ec order₁ s) (cycleIn ec order₂ s) := by
  have hkey : SameOutcome Machine.Same (cycle ec s)
      (cycleIn ec [.memory, .fetch, .decode, .execute, .wback] s) := by
    rw [cycle_eq, cycleIn_memoryFirst]
    exact (wires_same (h.textSettled hcache) himem hdmem).map fun v v' => next_same ec s
  have hrefl : ∀ x : Except Abort Machine, SameOutcome Machine.Same x x := by
    intro x
    cases x with
    | error e => exact .error e
    | ok t => exact .ok (.refl t)
  rcases cycleIn_eq h₁ s with he₁ | he₁ <;> rcases cycleIn_eq h₂ s with he₂ | he₂ <;>
    rw [he₁, he₂]
  · exact hrefl _
  · exact hkey
  · exact hkey.symm fun _ _ => Machine.Same.symm
  · exact hrefl _

theorem Reachable.of_execution {ec : Bool} {img : Image} {entry : Word} {n : Nat} {σ : Nat → Machine}
    (h : Execution ec img entry n σ) {k : Nat} (hk : k ≤ n) : Reachable ec img entry (σ k) := by
  induction k with
  | zero =>
    rw [h.start]
    exact .init
  | succ k ih =>
    obtain ⟨hgo, hstep⟩ := h.next k hk
    have hstep' : cycleIn ec [.fetch, .decode, .execute, .memory, .wback] (σ k) =
        .ok (σ (k + 1)) := by
      rw [cycleIn_sequential]
      exact hstep
    exact (ih (by omega)).cycle hgo (by unfold IsOrdering; decide) hstep'

/-- `ldur x1, [sp]` in M, with a cache: the load misses and its countdown starts. -/
theorem stage_order_irrelevant_load :
    let img := Image.ofWords [0xF84003E1#32] (some Geometry.oneLine.cache)
    (stateAt false img 0x400000#64 3).M.out.mSigs.dmemRead = true ∧
      SameOutcome Machine.Same
        (cycleIn false [.wback, .memory, .fetch, .execute, .decode] (stateAt false img 0x400000#64 3))
        (cycleIn false [.fetch, .decode, .execute, .memory, .wback]
          (stateAt false img 0x400000#64 3)) := by
  intro img
  have hcache : ∀ c, img.cache = some c → ∃ g : Geometry, c = g.cache :=
    fun c hc => ⟨Geometry.oneLine, (Option.some.inj hc).symm⟩
  have hrun : Execution false img 0x400000#64 3 (stateAt false img 0x400000#64) :=
    execution_stateAt (by decide +kernel)
  exact ⟨by decide +kernel, stage_order_irrelevant hcache (.of_execution hrun le_rfl)
    (by decide +kernel) (by decide +kernel) (by unfold IsOrdering; decide)
    (by unfold IsOrdering; decide)⟩

end ChArm
