import ChArm.Pipe.StageOrder

/-!
# Drawing the order of the stages

The random build draws one of the 120 rows of `orderings` for every cycle.  Two states that
differ in the chains of the page table only stay so over a cycle (`cycle_same`), so what a whole
run computes does not depend on the rows it draws (`random_run_same`).

* `orderings_isOrdering` — every row of the table calls each stage once.
* `cycleIn_same` — a cycle in any order ends like the cycle of the sequential build.
* `random_build_same` — whole runs, whatever is drawn.
-/

namespace ChArm

open Reorder

/-! ## The table -/

/-- `orderings` -/
def orderings : List (List ProcStage) :=
  [ [.fetch, .decode, .execute, .memory, .wback],
    [.fetch, .decode, .execute, .wback, .memory],
    [.fetch, .decode, .memory, .execute, .wback],
    [.fetch, .decode, .memory, .wback, .execute],
    [.fetch, .decode, .wback, .execute, .memory],
    [.fetch, .decode, .wback, .memory, .execute],
    [.fetch, .execute, .decode, .memory, .wback],
    [.fetch, .execute, .decode, .wback, .memory],
    [.fetch, .execute, .memory, .decode, .wback],
    [.fetch, .execute, .memory, .wback, .decode],
    [.fetch, .execute, .wback, .decode, .memory],
    [.fetch, .execute, .wback, .memory, .decode],
    [.fetch, .memory, .decode, .execute, .wback],
    [.fetch, .memory, .decode, .wback, .execute],
    [.fetch, .memory, .execute, .decode, .wback],
    [.fetch, .memory, .execute, .wback, .decode],
    [.fetch, .memory, .wback, .decode, .execute],
    [.fetch, .memory, .wback, .execute, .decode],
    [.fetch, .wback, .decode, .execute, .memory],
    [.fetch, .wback, .decode, .memory, .execute],
    [.fetch, .wback, .execute, .decode, .memory],
    [.fetch, .wback, .execute, .memory, .decode],
    [.fetch, .wback, .memory, .decode, .execute],
    [.fetch, .wback, .memory, .execute, .decode],
    [.decode, .fetch, .execute, .memory, .wback],
    [.decode, .fetch, .execute, .wback, .memory],
    [.decode, .fetch, .memory, .execute, .wback],
    [.decode, .fetch, .memory, .wback, .execute],
    [.decode, .fetch, .wback, .execute, .memory],
    [.decode, .fetch, .wback, .memory, .execute],
    [.decode, .execute, .fetch, .memory, .wback],
    [.decode, .execute, .fetch, .wback, .memory],
    [.decode, .execute, .memory, .fetch, .wback],
    [.decode, .execute, .memory, .wback, .fetch],
    [.decode, .execute, .wback, .fetch, .memory],
    [.decode, .execute, .wback, .memory, .fetch],
    [.decode, .memory, .fetch, .execute, .wback],
    [.decode, .memory, .fetch, .wback, .execute],
    [.decode, .memory, .execute, .fetch, .wback],
    [.decode, .memory, .execute, .wback, .fetch],
    [.decode, .memory, .wback, .fetch, .execute],
    [.decode, .memory, .wback, .execute, .fetch],
    [.decode, .wback, .fetch, .execute, .memory],
    [.decode, .wback, .fetch, .memory, .execute],
    [.decode, .wback, .execute, .fetch, .memory],
    [.decode, .wback, .execute, .memory, .fetch],
    [.decode, .wback, .memory, .fetch, .execute],
    [.decode, .wback, .memory, .execute, .fetch],
    [.execute, .fetch, .decode, .memory, .wback],
    [.execute, .fetch, .decode, .wback, .memory],
    [.execute, .fetch, .memory, .decode, .wback],
    [.execute, .fetch, .memory, .wback, .decode],
    [.execute, .fetch, .wback, .decode, .memory],
    [.execute, .fetch, .wback, .memory, .decode],
    [.execute, .decode, .fetch, .memory, .wback],
    [.execute, .decode, .fetch, .wback, .memory],
    [.execute, .decode, .memory, .fetch, .wback],
    [.execute, .decode, .memory, .wback, .fetch],
    [.execute, .decode, .wback, .fetch, .memory],
    [.execute, .decode, .wback, .memory, .fetch],
    [.execute, .memory, .fetch, .decode, .wback],
    [.execute, .memory, .fetch, .wback, .decode],
    [.execute, .memory, .decode, .fetch, .wback],
    [.execute, .memory, .decode, .wback, .fetch],
    [.execute, .memory, .wback, .fetch, .decode],
    [.execute, .memory, .wback, .decode, .fetch],
    [.execute, .wback, .fetch, .decode, .memory],
    [.execute, .wback, .fetch, .memory, .decode],
    [.execute, .wback, .decode, .fetch, .memory],
    [.execute, .wback, .decode, .memory, .fetch],
    [.execute, .wback, .memory, .fetch, .decode],
    [.execute, .wback, .memory, .decode, .fetch],
    [.memory, .fetch, .decode, .execute, .wback],
    [.memory, .fetch, .decode, .wback, .execute],
    [.memory, .fetch, .execute, .decode, .wback],
    [.memory, .fetch, .execute, .wback, .decode],
    [.memory, .fetch, .wback, .decode, .execute],
    [.memory, .fetch, .wback, .execute, .decode],
    [.memory, .decode, .fetch, .execute, .wback],
    [.memory, .decode, .fetch, .wback, .execute],
    [.memory, .decode, .execute, .fetch, .wback],
    [.memory, .decode, .execute, .wback, .fetch],
    [.memory, .decode, .wback, .fetch, .execute],
    [.memory, .decode, .wback, .execute, .fetch],
    [.memory, .execute, .fetch, .decode, .wback],
    [.memory, .execute, .fetch, .wback, .decode],
    [.memory, .execute, .decode, .fetch, .wback],
    [.memory, .execute, .decode, .wback, .fetch],
    [.memory, .execute, .wback, .fetch, .decode],
    [.memory, .execute, .wback, .decode, .fetch],
    [.memory, .wback, .fetch, .decode, .execute],
    [.memory, .wback, .fetch, .execute, .decode],
    [.memory, .wback, .decode, .fetch, .execute],
    [.memory, .wback, .decode, .execute, .fetch],
    [.memory, .wback, .execute, .fetch, .decode],
    [.memory, .wback, .execute, .decode, .fetch],
    [.wback, .fetch, .decode, .execute, .memory],
    [.wback, .fetch, .decode, .memory, .execute],
    [.wback, .fetch, .execute, .decode, .memory],
    [.wback, .fetch, .execute, .memory, .decode],
    [.wback, .fetch, .memory, .decode, .execute],
    [.wback, .fetch, .memory, .execute, .decode],
    [.wback, .decode, .fetch, .execute, .memory],
    [.wback, .decode, .fetch, .memory, .execute],
    [.wback, .decode, .execute, .fetch, .memory],
    [.wback, .decode, .execute, .memory, .fetch],
    [.wback, .decode, .memory, .fetch, .execute],
    [.wback, .decode, .memory, .execute, .fetch],
    [.wback, .execute, .fetch, .decode, .memory],
    [.wback, .execute, .fetch, .memory, .decode],
    [.wback, .execute, .decode, .fetch, .memory],
    [.wback, .execute, .decode, .memory, .fetch],
    [.wback, .execute, .memory, .fetch, .decode],
    [.wback, .execute, .memory, .decode, .fetch],
    [.wback, .memory, .fetch, .decode, .execute],
    [.wback, .memory, .fetch, .execute, .decode],
    [.wback, .memory, .decode, .fetch, .execute],
    [.wback, .memory, .decode, .execute, .fetch],
    [.wback, .memory, .execute, .fetch, .decode],
    [.wback, .memory, .execute, .decode, .fetch] ]

/-- Every row of the table calls each stage once. -/
theorem orderings_isOrdering : ∀ order ∈ orderings, IsOrdering order := by
  unfold IsOrdering
  decide +kernel

/-- The row for a number that `rand` returns. -/
def drawnOrder (draw : Nat) : List ProcStage :=
  orderings.get ⟨draw % 120, Nat.mod_lt draw (by decide)⟩

/-! ## The random build -/

/-- The loop of `runElf` in the random build; `rand` returns `draws k` in cycle `k`. -/
def runRandom (ec : Bool) : (Nat → Nat) → Nat → Machine → Except Abort Machine
  | _, 0, s => .ok s
  | draws, n + 1, s =>
      if s.running then do
        runRandom ec (fun k => draws (k + 1)) n (← cycleIn ec (drawnOrder (draws 0)) s)
      else .ok s

/-- `runElf` in the random build. -/
def runElfRandom (ec : Bool) (img : Image) (entry : Word) (cycleMax : Nat) (draws : Nat → Nat) :
    Except Abort Machine :=
  runRandom ec draws (max cycleMax 1) (.init img entry)

/-! ## The chains of the page table do not matter -/

/-- One fetch from both memories. -/
theorem imem_same {m m' : Memory} (h : m.Same m') (addr : Word) :
    SameOutcome (fun r r' => r'.1 = r.1 ∧ r'.2.1 = r.2.1 ∧ r.2.2.Same r'.2.2)
      (imem m addr) (imem m' addr) := by
  have haddr : addrInImem m' addr = addrInImem m addr := by
    rw [addrInImem, addrInImem, h.segStart]
  rw [imem, imem, haddr]
  refine (memRead_same h addr 4).bind fun r r' hr => ?_
  obtain ⟨hv, hm⟩ := hr
  exact .ok ⟨by rw [hv], rfl, hm⟩

variable {ec : Bool} {s t : Machine}

theorem fetchWires_congr (ec : Bool) (h : s.Same t) :
    SameOutcome (fun r r' => r'.1 = r.1 ∧ r'.2.1 = r.2.1 ∧ r'.2.2.1 = r.2.2.1 ∧
      r.2.2.2.Same r'.2.2.2) (fetchWires ec s) (fetchWires ec t) := by
  obtain ⟨mem, hm, rfl⟩ := h
  have hhalts : fetchHalts ec { s with mem := mem } = fetchHalts ec s := rfl
  unfold fetchWires
  rw [hhalts]
  split_ifs
  · exact .ok ⟨rfl, rfl, rfl, hm⟩
  · refine (imem_same hm (fetchPC ec s)).bind fun r r' hr => ?_
    obtain ⟨insnbits, imemErr, mem₁⟩ := r
    obtain ⟨insnbits', imemErr', mem₁'⟩ := r'
    obtain ⟨rfl, rfl, hmem⟩ : insnbits' = insnbits ∧ imemErr' = imemErr ∧ mem₁.Same mem₁' := hr
    exact .ok ⟨rfl, rfl, rfl, hmem⟩

theorem wires_congr (ec : Bool) (h : s.Same t) : SameOutcome SameWires (wires ec s) (wires ec t) := by
  have hf := fetchWires_congr ec h
  obtain ⟨mem, hm, rfl⟩ := h
  unfold wires
  refine hf.bind fun r r' hr => ?_
  obtain ⟨d, fStatus, fPC, fMem⟩ := r
  obtain ⟨d', fStatus', fPC', fMem'⟩ := r'
  obtain ⟨rfl, rfl, rfl, hfMem⟩ :
    d' = d ∧ fStatus' = fStatus ∧ fPC' = fPC ∧ fMem.Same fMem' := hr
  refine (dmem_same hfMem s.M.out.valEx s.M.out.valB s.M.out.mSigs.dmemRead s.M.out.mSigs.dmemWrite
    s.W.inp.valMem).bind fun r r' hr => ?_
  exact .ok ⟨rfl, rfl, rfl, hr.1, hr.2.1, hr.2.2⟩

/-- **A cycle cannot tell such states apart.** -/
theorem cycle_same (h : s.Same t) : SameOutcome Machine.Same (cycle ec s) (cycle ec t) := by
  have hw := wires_congr ec h
  obtain ⟨mem, hm, rfl⟩ := h
  rw [cycle_eq, cycle_eq]
  exact hw.map fun v v' hv => next_same ec s hv

theorem running_same (h : s.Same t) : t.running = s.running := by
  obtain ⟨mem, hm, rfl⟩ := h
  rfl

/-! ## Cycles without an error -/

/-- Does neither `imem` nor `dmem` report an error in this cycle? -/
def faultFree (ec : Bool) (s : Machine) : Bool :=
  !fetchFaults ec s && !accessFaults s.mem s.M.out

theorem faultFree_same (h : s.Same t) : faultFree ec t = faultFree ec s := by
  obtain ⟨mem, hm, rfl⟩ := h
  have hf : fetchFaults ec { s with mem := mem } = fetchFaults ec s := by
    unfold fetchFaults
    rw [show fetchHalts ec { s with mem := mem } = fetchHalts ec s from rfl,
      show fetchPC ec { s with mem := mem } = fetchPC ec s from rfl, addrInImem, addrInImem,
      hm.segStart]
  have ha : accessFaults mem s.M.out = accessFaults s.mem s.M.out := by
    unfold accessFaults
    rw [dmemErr_congr hm.segStart]
  rw [faultFree, faultFree, hf, ha]

/-- A cycle in any order ends like the cycle of the sequential build. -/
theorem cycleIn_same (ht : t.TextSettled ec) (hfree : faultFree ec t = true)
    {order : List ProcStage} (horder : IsOrdering order) :
    SameOutcome Machine.Same (cycle ec t) (cycleIn ec order t) := by
  obtain ⟨himem, hdmem⟩ : fetchFaults ec t = false ∧ accessFaults t.mem t.M.out = false := by
    simpa [faultFree] using hfree
  rcases cycleIn_eq horder t with he | he
  · rw [he]
    cases cycle ec t with
    | error e => exact .error e
    | ok t' => exact .ok (.refl t')
  · rw [he, cycle_eq, cycleIn_memoryFirst]
    exact (wires_same ht himem hdmem).map fun v v' => next_same ec t

/-- From states that differ in the chains of the page table only, a cycle in any order ends like
that of the sequential build. -/
theorem cycleIn_follows (hst : s.Same t) (ht : t.TextSettled ec) (hfree : faultFree ec s = true)
    {order : List ProcStage} (horder : IsOrdering order) :
    SameOutcome Machine.Same (cycle ec s) (cycleIn ec order t) :=
  (cycle_same hst).trans (cycleIn_same ht ((faultFree_same hst).trans hfree) horder)
    fun _ _ _ h h' => h.trans h'

theorem Machine.TextSettled.cycleIn {t' : Machine} (h : t.TextSettled ec) {order : List ProcStage}
    (horder : IsOrdering order) (hc : cycleIn ec order t = .ok t') : t'.TextSettled ec := by
  obtain ⟨v, hv, rfl⟩ := exists_orderly h.wellFormed horder hc
  exact h.next hv

/-- Are the next `n` cycles of the sequential build free of errors, as far as it goes on? -/
def staysFaultFree (ec : Bool) : Nat → Machine → Bool
  | 0, _ => true
  | n + 1, s =>
      !s.running || faultFree ec s && match cycle ec s with
        | .ok s' => staysFaultFree ec n s'
        | .error _ => true

/-- **The random build computes what the sequential build computes**, whatever it draws: without an
error of `imem` or `dmem` both abort alike, or they end in states that differ in the
chains of the page table only. -/
theorem runRandom_same (draws : Nat → Nat) {n : Nat} (hst : s.Same t) (ht : t.TextSettled ec)
    (hfree : staysFaultFree ec n s = true) :
    SameOutcome Machine.Same (run ec n s) (runRandom ec draws n t) := by
  induction n generalizing draws s t with
  | zero => exact .ok hst
  | succ n ih =>
    rw [run, runRandom, running_same hst]
    cases hrun : s.running with
    | false => exact .ok hst
    | true =>
      rw [staysFaultFree, hrun, Bool.not_true, Bool.false_or, Bool.and_eq_true] at hfree
      obtain ⟨hnow, hlater⟩ := hfree
      have horder : IsOrdering (drawnOrder (draws 0)) := orderings_isOrdering _ (List.get_mem ..)
      have hcycle := cycleIn_follows hst ht hnow horder
      rw [if_pos rfl, if_pos rfl]
      cases hs : cycle ec s with
      | error e =>
        rw [hs] at hcycle
        generalize cycleIn ec (drawnOrder (draws 0)) t = y at hcycle
        cases hcycle
        exact .error e
      | ok s' =>
        rw [hs] at hcycle hlater
        cases ht' : cycleIn ec (drawnOrder (draws 0)) t with
        | error e =>
          rw [ht'] at hcycle
          cases hcycle
        | ok t' =>
          rw [ht'] at hcycle
          cases hcycle with
          | ok hsame => exact ih _ hsame (ht.cycleIn horder ht') hlater

theorem random_build_same {img : Image} {entry : Word} {cycleMax : Nat}
    (hcache : ∀ c, img.cache = some c → ∃ g : Geometry, c = g.cache)
    (hfree : staysFaultFree ec (max cycleMax 1) (.init img entry) = true) (draws : Nat → Nat) :
    SameOutcome Machine.Same (runElf ec img entry cycleMax)
      (runElfRandom ec img entry cycleMax draws) :=
  runRandom_same draws (.refl _) (.init hcache) hfree

/-- `LDUR X1, [SP]` and `RET` with a cache. -/
theorem random_build_same_loadAndReturn :
    SameOutcome Machine.Same
      (runElf false (.ofWords [0xF84003E1#32, 0xD65F03C0#32] (some Geometry.oneLine.cache))
        0x400000#64 20)
      (runElfRandom false (.ofWords [0xF84003E1#32, 0xD65F03C0#32] (some Geometry.oneLine.cache))
        0x400000#64 20 fun k => 31 * k + 7) :=
  random_build_same (fun c hc => ⟨Geometry.oneLine, (Option.some.inj hc).symm⟩)
    (by decide +kernel) _

end ChArm
