import ChArm.Base.Untouched
import ChArm.Base.Execution

/-!
# What fetch does to the data memory

`imem` shares `_mem_read` with the data accesses, and its range check does not
suppress the read.  So a fetch from `IO_CHAR_ADDR` reads the console, a fetch from
`CHECKPOINT_ADDR` logs the machine, and with a cache a fetch from the data segment
on goes through the cache, where every byte it probes is counted.  No other fetch
touches the data memory (`fetchFrame_iff`).
-/

namespace ChArm

/-- What `_mem_read_special` can do besides returning a value. -/
inductive TrapAction where
  | readConsole | logMachine
  deriving DecidableEq, Repr

/-- The trap action of a read, by the cases of `_mem_read_special`. -/
def trapAction (addr : Word) : Option TrapAction :=
  if NULL_ADDR = addr then none
  else if IO_CHAR_ADDR = addr then some .readConsole
  else if RET_FROM_MAIN_ADDR = addr then none
  else if CHECKPOINT_ADDR = addr then some .logMachine
  else none

/-- The cache, its counters and the state of a miss are the same. -/
structure Memory.SameDataSystem (m m' : Memory) : Prop where
  cache : m'.cache = m.cache
  counts : m'.counts = m.counts
  inflight : m'.inflight = m.inflight
  inflightAddr : m'.inflightAddr = m.inflightAddr
  inflightCycles : m'.inflightCycles = m.inflightCycles
  dmemStatus : m'.dmemStatus = m.dmemStatus

/-- Fetch reads no memory, or reads it without a trap action and without touching the data memory. -/
def FetchFrame (ec : Bool) (s : Machine) : Prop :=
  fetchHalts ec s = false →
    trapAction (fetchPC ec s) = none ∧
      ∃ insnbits err m, imem s.mem (fetchPC ec s) = .ok (insnbits, err, m) ∧
        s.mem.SameDataSystem m

/-! ## Every probe is counted -/

/-- How often the cache was probed. -/
def Counters.probes (k : Counters) : Nat := k.hitCount + k.missCount

theorem probes_checkHit (c : Cache) (k : Counters) (addr : Word) (operation : Operation) :
    (checkHit c k addr operation).2.2.probes = k.probes + 1 := by
  unfold checkHit Counters.probes
  dsimp only
  split
  · simp only [Nat.add_right_comm]
  · simp only [Nat.add_assoc]

theorem probes_handleMiss (c : Cache) (k : Counters) (addr : Word) (operation : Operation)
    (incoming : Option (Nat → Byte)) :
    (handleMiss c k addr operation incoming).2.2.probes = k.probes := by
  simp only [handleMiss, Counters.probes]
  split
  · split <;> rfl
  · rfl

theorem probes_cacheByte (operation : Operation) (fillBase : Word → Word) (c : Cache) (m : Memory)
    (x : Word) :
    (cacheByte operation fillBase c m x).2.2.counts.probes = m.counts.probes + 1 := by
  have hprobe := probes_checkHit c m.counts x operation
  unfold cacheByte
  rcases hcheck : checkHit c m.counts x operation with ⟨_ | _, c', k⟩
  · rw [hcheck] at hprobe
    have hstart : ∀ (m : Memory) (b : Word), (startInflight m c' b).counts = m.counts := by
      intro m b
      unfold startInflight
      split <;> rfl
    dsimp only
    split
    · rw [← hprobe]
      exact congrArg Counters.probes (hstart _ _)
    · dsimp only [completeMiss]
      rw [probes_handleMiss, ← hprobe]
      exact congrArg Counters.probes (hstart _ _)
  · rw [hcheck] at hprobe
    exact hprobe

theorem probes_cacheLoop (operation : Operation) (fillBase : Word → Word) (n : Nat) (x : Word)
    (c : Cache) (m : Memory) :
    m.counts.probes ≤ (cacheLoop operation fillBase n x c m).2.2.counts.probes := by
  induction n generalizing x c m with
  | zero => exact le_rfl
  | succ n ih =>
    have hbyte := probes_cacheByte operation fillBase c m x
    rw [cacheLoop]
    rcases hb : cacheByte operation fillBase c m x with ⟨_ | _, c₁, m₁⟩
    · rw [hb] at hbyte
      exact le_trans (by rw [hbyte]; exact Nat.le_succ _) (ih (x + 1#64) c₁ m₁)
    · rw [hb] at hbyte
      rw [hbyte]
      exact Nat.le_succ _

/-- **A cached read is seen in the counters.** -/
theorem probes_memReadCache {c : Cache} {m m' : Memory} {addr v : Word} {n : Nat}
    (hr : memReadCache c m addr (n + 1) = .ok (v, m')) : m.counts.probes < m'.counts.probes := by
  have hbyte := probes_cacheByte .read (fun _ => blockAddress c addr) c m addr
  have hloop : m.counts.probes <
      (cacheLoop .read (fun _ => blockAddress c addr) (n + 1) addr c m).2.2.counts.probes := by
    rw [cacheLoop]
    rcases hb : cacheByte .read (fun _ => blockAddress c addr) c m addr with ⟨_ | _, c₁, m₁⟩
    · rw [hb] at hbyte
      refine lt_of_lt_of_le ?_ (probes_cacheLoop .read _ n (addr + 1#64) c₁ m₁)
      rw [hbyte]
      exact Nat.lt_succ_self _
    · rw [hb] at hbyte
      rw [hbyte]
      exact Nat.lt_succ_self _
  unfold memReadCache at hr
  rcases hends : cacheLoop .read (fun _ => blockAddress c addr) (n + 1) addr c m with
    ⟨_ | _, c₁, m₁⟩
  · rw [hends] at hr hloop
    dsimp only at hr
    cases hget : getWordCache c₁ addr with
    | error e =>
      rw [hget] at hr
      cases hr
    | ok w =>
      rw [hget] at hr
      cases hr
      exact hloop
  · rw [hends] at hr hloop
    cases hr
    exact hloop

/-! ## The frame of fetch -/

theorem isSpecialAddr_eq_false_iff (addr : Word) :
    isSpecialAddr addr = false ↔
      addr ≠ NULL_ADDR ∧ addr ≠ IO_CHAR_ADDR ∧ addr ≠ CHECKPOINT_ADDR := by
  simp only [isSpecialAddr, Bool.or_eq_false_iff, beq_eq_false_iff_ne, ne_comm (b := addr)]
  exact ⟨fun h => ⟨h.1.1.1, h.1.1.2, h.2⟩, fun h => ⟨⟨⟨h.1, h.2.1⟩, h.1⟩, h.2.2⟩⟩

theorem trapAction_eq_none_iff (addr : Word) :
    trapAction addr = none ↔ addr ≠ IO_CHAR_ADDR ∧ addr ≠ CHECKPOINT_ADDR := by
  unfold trapAction
  split_ifs with hnull hio hret hcheckpoint
  · subst hnull
    exact ⟨fun _ => by decide, fun _ => rfl⟩
  · exact ⟨nofun, fun h => absurd hio.symm h.1⟩
  · exact absurd hret hnull
  · exact ⟨nofun, fun h => absurd hcheckpoint.symm h.2⟩
  · exact ⟨fun _ => ⟨Ne.symm hio, Ne.symm hcheckpoint⟩, fun _ => rfl⟩

theorem Memory.not_cached_iff {m : Memory} {addr : Word} :
    (∀ c, ¬ m.Cached c addr) ↔ m.cache = none ∨ addr < m.segStart .data := by
  rw [← BitVec.not_le]
  cases hcache : m.cache with
  | none => exact ⟨fun _ => Or.inl rfl, fun _ c hc => by rw [hc.1] at hcache; cases hcache⟩
  | some c =>
    refine ⟨fun h => Or.inr fun hle => h c ⟨hcache, hle⟩, ?_⟩
    rintro (hnone | hlt) c' hc'
    · cases hnone
    · exact hlt hc'.2

/-- An instruction read that is no trap and goes past the cache touches the page table alone. -/
theorem imem_uncached {m : Memory} {addr : Word} (hs : isSpecialAddr addr = false)
    (hc : ∀ c, ¬ m.Cached c addr) :
    ∃ insnbits err pt, imem m addr = .ok (insnbits, err, { m with ptable := pt }) := by
  unfold imem
  rw [memRead_flat hs hc]
  exact ⟨_, _, _, rfl⟩

/-- **When fetch leaves the data memory alone.**  In every state fetch touches neither the data
memory nor the outside if and only if it reads nothing, or reads from an address that is not
special and that no cache serves. -/
theorem fetchFrame_iff (ec : Bool) (s : Machine) :
    FetchFrame ec s ↔ fetchHalts ec s = true ∨
      (fetchPC ec s ≠ IO_CHAR_ADDR ∧ fetchPC ec s ≠ CHECKPOINT_ADDR ∧
        (s.mem.cache = none ∨ fetchPC ec s < s.mem.segStart .data)) := by
  unfold FetchFrame
  cases hh : fetchHalts ec s with
  | true => simp
  | false =>
    have hne : fetchPC ec s ≠ NULL_ADDR := by
      intro h0
      rw [fetchHalts, h0] at hh
      cases hh
    rw [trapAction_eq_none_iff, ← Memory.not_cached_iff]
    constructor
    · intro h
      obtain ⟨⟨hio, hcheckpoint⟩, insnbits, err, m, hi, hsame⟩ := h rfl
      refine Or.inr ⟨hio, hcheckpoint, fun c hc => ?_⟩
      obtain ⟨-, v, hr, -⟩ := imem_inv hi
      rw [memRead_cached ((isSpecialAddr_eq_false_iff _).2 ⟨hne, hio, hcheckpoint⟩) hc] at hr
      have hlt := probes_memReadCache hr
      rw [hsame.counts] at hlt
      exact lt_irrefl _ hlt
    · rintro (hf | ⟨hio, hcheckpoint, hc⟩) -
      · cases hf
      · obtain ⟨insnbits, err, pt, hi⟩ :=
          imem_uncached ((isSpecialAddr_eq_false_iff _).2 ⟨hne, hio, hcheckpoint⟩) hc
        exact ⟨⟨hio, hcheckpoint⟩, insnbits, err, _, hi, ⟨rfl, rfl, rfl, rfl, rfl, rfl⟩⟩

/-- `movz x0, #0x80, lsl #16`, `ret x0`: a return into the data segment. -/
def returnToData : List (BitVec 32) := [0xd2a01000#32, 0xd65f0000#32]

/-- `movz x1, #0`, `mvn x0, x1`, `ret x0`: a return to `IO_CHAR_ADDR`. -/
def returnToConsole : List (BitVec 32) := [0xd2800001#32, 0xaa2103e0#32, 0xd65f0000#32]

/-- A return into the data segment makes fetch miss the cache, a return to `IO_CHAR_ADDR` makes it
read the console. -/
theorem not_fetchFrame :
    (∃ n σ, Execution false (.ofWords returnToData (some Geometry.oneLine.cache)) 0x400000#64 n σ ∧
        ¬ FetchFrame false (σ n)) ∧
      ∃ n σ, Execution false (.ofWords returnToConsole none) 0x400000#64 n σ ∧
        ¬ FetchFrame false (σ n) := by
  refine ⟨⟨3, _, execution_stateAt (by decide +kernel), fun hframe => ?_⟩,
    4, _, execution_stateAt (by decide +kernel), fun hframe => ?_⟩
  · obtain ⟨-, insnbits, err, m, hi, hsame⟩ := hframe (by decide +kernel)
    have hmiss := of_okAnd (p := fun r => r.2.2.counts.missCount == 1) (by decide +kernel) hi
    have hbefore : (stateAt false (.ofWords returnToData (some Geometry.oneLine.cache))
        0x400000#64 3).mem.counts.missCount = 0 := by
      decide +kernel
    rw [hsame.counts, hbefore] at hmiss
    cases hmiss
  · obtain ⟨htrap, -⟩ := hframe (by decide +kernel)
    have hconsole : trapAction (fetchPC false
        (stateAt false (.ofWords returnToConsole none) 0x400000#64 4)) = some .readConsole := by
      decide +kernel
    rw [hconsole] at htrap
    cases htrap

end ChArm
