import ChArm.Base.TableSteps
import ChArm.Pipe.RandomBuild

/-!
# Fetch and memory at the same time

Only the page table is touched by two stages of a cycle, fetch and memory.  Where neither reports an
error and the page of the fetched word is there, they do not get in each other's way.

* Fetch changes nothing, and reads the same bytes at any moment of the data access (`Undisturbed`,
  `undisturbed_of_apart`).
* A cycle in any order of the stages is the cycle of the sequential build (`cycleIn_eq_cycle`).
-/

namespace ChArm

open Reorder

/-- Are the pages of the word that fetch reads there? -/
def fetchMapped (ec : Bool) (s : Machine) : Bool :=
  fetchHalts ec s ||
    (List.range 4).all fun k => s.mem.ptable.mapped (fetchPC ec s + BitVec.ofNat 64 k)

/-- Do fetch and memory keep apart in this cycle? -/
def apart (ec : Bool) (s : Machine) : Bool := faultFree ec s && fetchMapped ec s

/-- Do they in the next `n` cycles of the sequential build, as far as it goes on? -/
def staysApart (ec : Bool) : Nat → Machine → Bool
  | 0, _ => true
  | n + 1, s =>
      !s.running || apart ec s && match cycle ec s with
        | .ok s' => staysApart ec n s'
        | .error _ => true

/-- The bytes that the memory stage may store in the page table. -/
def mayStore (s : Machine) : Word → Byte → Prop :=
  s.mem.mayStore s.M.out.valEx s.M.out.valB s.M.out.mSigs.dmemRead s.M.out.mSigs.dmemWrite

/-- What makes it the same whether the calls of fetch and memory come one after the other or at the
same time. -/
structure Undisturbed (ec : Bool) (s : Machine) : Prop where
  fetch : ∀ d fStatus fPC fMem, fetchWires ec s = .ok (d, fStatus, fPC, fMem) → fMem = s.mem
  memory : ∀ valMem memErr mem, dataAccess s = .ok (valMem, memErr, mem) →
    s.mem.ptable.Passes (mayStore s) mem.ptable
  during : fetchHalts ec s = false → ∀ bytes pt,
    FetchDuring (mayStore s) (fetchPC ec s) s.mem.ptable bytes pt →
      s.mem.ptable.Passes (mayStore s) pt ∧
        bytes = (s.mem.ptable.wordBytes (fetchPC ec s)).drop (4 - bytes.length)

/-! ## One cycle -/

theorem memReadLE_of_mapped {pt : PTable} {addr : Word} {width : Nat}
    (h : ∀ k < width, pt.mapped (addr + BitVec.ofNat 64 k) = true) :
    (memReadLE pt addr width).2 = pt := by
  have key : ∀ (is : List Nat) (v : Word), (∀ k ∈ is, k < width) →
      (is.foldl (memReadStep addr) (v, pt)).2 = pt := by
    intro is
    induction is with
    | nil => exact fun v _ => rfl
    | cons i is ih =>
      intro v his
      rw [List.foldl_cons, memReadStep, memReadByte_of_mapped (h i (his i List.mem_cons_self))]
      exact ih _ fun k hk => his k (List.mem_cons_of_mem i hk)
  exact key _ 0 fun k hk => List.mem_range.1 (List.mem_reverse.1 hk)

section

variable {ec : Bool} {s : Machine}

theorem mapped_of_fetchMapped (h : fetchMapped ec s = true) (hh : fetchHalts ec s = false) :
    ∀ k < 4, s.mem.ptable.mapped (fetchPC ec s + BitVec.ofNat 64 k) = true := by
  rw [fetchMapped, hh, Bool.false_or, List.all_eq_true] at h
  exact fun k hk => h k (List.mem_range.2 hk)

theorem apart_iff : apart ec s = true ↔
    fetchFaults ec s = false ∧ accessFaults s.mem s.M.out = false ∧ fetchMapped ec s = true := by
  simp only [apart, faultFree, Bool.and_eq_true, Bool.not_eq_true', and_assoc]

/-- What `imem` accepts is an aligned address in instruction memory. -/
theorem fetched_of_not_fetchFaults (h : fetchFaults ec s = false) (hh : fetchHalts ec s = false) :
    fetchPC ec s ≠ 0 ∧ addrInImem s.mem (fetchPC ec s) = true ∧ fetchPC ec s &&& 0x3#64 = 0 := by
  simp only [fetchFaults, hh, Bool.not_false, Bool.true_and, Bool.or_eq_false_iff,
    Bool.not_eq_eq_eq_not, bne_eq_false_iff_eq] at h
  refine ⟨fun h0 => ?_, h.1, h.2⟩
  rw [fetchHalts, h0] at hh
  cases hh

/-- **Fetch changes nothing** where it finds its pages. -/
theorem fetch_leaves {d : DInstr} {fStatus : Stat} {fPC : Word} {fMem : Memory}
    (hfault : fetchFaults ec s = false) (hmapped : fetchMapped ec s = true)
    (hf : fetchWires ec s = .ok (d, fStatus, fPC, fMem)) : fMem = s.mem := by
  rcases fetchWires_inv hf with ⟨-, -, -, -, hm⟩ | ⟨hh, insnbits, imemErr, hi, -⟩
  · exact hm
  · obtain ⟨h0, hin, hal⟩ := fetched_of_not_fetchFaults hfault hh
    rw [imem_of_not_fault h0 hin hal, memReadLE_of_mapped (mapped_of_fetchMapped hmapped hh)] at hi
    cases hi
    rfl

/-- The bytes of the fetched word are none that memory may change. -/
theorem eq_of_mayStore (hset : s.mem.Settled s.mem.textByte)
    (hfault : fetchFaults ec s = false) (hno : accessFaults s.mem s.M.out = false)
    (hh : fetchHalts ec s = false) {k : Nat} (hk : k < 4) {b : Byte}
    (hb : mayStore s (fetchPC ec s + BitVec.ofNat 64 k) b) :
    b = s.mem.ptable.byteAt (fetchPC ec s + BitVec.ofNat 64 k) := by
  obtain ⟨-, hin, hal⟩ := fetched_of_not_fetchFaults hfault hh
  have htext := textByte_of_fetch hin hal hk
  rcases hb with ⟨hwrite, hs, -, i, hi, ha, -⟩ | ⟨-, c, hc, hcopy⟩
  · -- the doubleword of an access without an error is no text
    have he : dmemErr s.mem s.M.out.valEx = false := by
      rw [accessFaults, hwrite, Bool.or_true] at hno
      exact hno
    have hout := inWord_of_textByte hs he htext
    rw [ha, inWord, decide_eq_false_iff_not, BitVec.add_comm, BitVec.add_sub_cancel,
      BitVec.toNat_ofNat] at hout
    omega
  · -- a dirty copy of a byte of text equals the byte
    obtain ⟨g, -, hsettled⟩ := hset c hc.1
    have hview := hsettled.view_eq _ htext
    rw [WriteBack.Store.view, hcopy] at hview
    exact hview

/-- **Fetch and memory do not disturb each other.** -/
theorem undisturbed_of_apart (h : s.TextSettled ec) (ha : apart ec s = true) :
    Undisturbed ec s := by
  obtain ⟨hfault, hno, hmapped⟩ := apart_iff.1 ha
  have hset := h.settled.resolve_left (by rw [hno]; decide)
  have ht : s.mem.Tagged := fun c hc => by
    obtain ⟨g, hw, -⟩ := hset c hc
    exact ⟨g, hw⟩
  refine ⟨fun d fStatus fPC fMem hf => fetch_leaves hfault hmapped hf, fun valMem memErr mem hd => ?_,
    fun hh bytes pt hduring => ?_⟩
  · obtain rfl : memErr = false := (dmem_segStart h.wellFormed hd).2.trans hno
    exact passes_dmem ht h.wellFormed.m.not_both hd
  · exact hduring.reads (mapped_of_fetchMapped hmapped hh) fun k hk b hb =>
      eq_of_mayStore hset hfault hno hh hk hb

/-- Another memory, with the same segments and no page less. -/
theorem fetches_of_passes {may : Word → Byte → Prop} {mem : Memory}
    (hseg : mem.segStart = s.mem.segStart) (hpasses : s.mem.ptable.Passes may mem.ptable)
    (hfault : fetchFaults ec s = false) (hmapped : fetchMapped ec s = true) :
    fetchFaults ec { s with mem := mem } = false ∧ fetchMapped ec { s with mem := mem } = true := by
  have hpc : fetchPC ec { s with mem := mem } = fetchPC ec s := rfl
  have hhalts : fetchHalts ec { s with mem := mem } = fetchHalts ec s := rfl
  constructor
  · rw [fetchFaults, hpc, hhalts, addrInImem, hseg]
    exact hfault
  · rw [fetchMapped, hpc, hhalts]
    rw [fetchMapped] at hmapped
    rw [Bool.or_eq_true, List.all_eq_true] at hmapped ⊢
    exact hmapped.imp_right fun h k hk => hpasses.mapped (h k hk)

/-- Then it makes no difference at all which of them comes first. -/
theorem memoryFirst_eq (h : s.TextSettled ec) (ha : apart ec s = true) :
    (memoryFirstWires ec s).map (next ec s) = cycle ec s := by
  obtain ⟨hfault, hno, hmapped⟩ := apart_iff.1 ha
  obtain ⟨d, fStatus, fPC, fMem, hf, -, hlater⟩ := fetchWires_same hfault
  obtain rfl : fMem = s.mem := fetch_leaves hfault hmapped hf
  rw [cycle_eq]
  cases hd : dataAccess s with
  | error e =>
    have h1 : wires ec s = .error e := by
      rw [wires, hf]
      change (dataAccess s >>= _) = _
      rw [hd]
      rfl
    rw [memoryFirstWires, hd, h1]
    rfl
  | ok r =>
    obtain ⟨valMem, memErr, dMem⟩ := r
    have hset := h.settled.resolve_left (by rw [hno]; decide)
    have hseg := (dmem_segStart h.wellFormed hd).1
    obtain rfl : memErr = false := (dmem_segStart h.wellFormed hd).2.trans hno
    have hpasses := (undisturbed_of_apart h ha).memory _ _ _ hd
    obtain ⟨mem, hf', -⟩ := hlater dMem hseg (dmem_settled h.wellFormed hset hno hd).2
    obtain ⟨hfault', hmapped'⟩ := fetches_of_passes hseg hpasses hfault hmapped
    obtain rfl : mem = dMem := fetch_leaves hfault' hmapped' hf'
    rw [wires_eq hf hd, memoryFirstWires, hd]
    simp only [bind, Except.bind, hf']
    rfl

/-- **A cycle in any order is the cycle of the sequential build.** -/
theorem cycleIn_eq_cycle (h : s.TextSettled ec) (ha : apart ec s = true) {order : List ProcStage}
    (horder : IsOrdering order) : cycleIn ec order s = cycle ec s := by
  rcases cycleIn_eq horder s with he | he
  · exact he
  · rw [he, cycleIn_memoryFirst, memoryFirst_eq h ha]

end

end ChArm
