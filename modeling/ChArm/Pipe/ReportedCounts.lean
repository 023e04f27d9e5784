import ChArm.Base.Statistics
import ChArm.Base.Uncached
import ChArm.Pipe.FaultingAccess

/-!
# The cache statistics of a run

What `log_machine_state` prints as hits and misses, compared with the data accesses of the run
(`accessLog`).  A cycle may try the cache twice, in fetch and in the M stage, since `_mem_read`
tests the address only; each try adds to the counters, also one that has to wait.

* A try that gets through adds more hits than the report takes off again
  (`Tallied.completed`), and every try adds something (`Tallied.called`).
* While there have been fewer tries than a miss takes cycles, none has got through
  (`StillEmpty.called`).
* So the numbers are right exactly as long as that is so (`cacheCounts_run_iff`).
-/

namespace ChArm

/-! ## Tries -/

/-- Does an access to this address try the cache?  Only the address is tested. -/
def Memory.triesCache (m : Memory) (addr : Word) : Bool :=
  m.cache.isSome && !isSpecialAddr addr && decide (m.segStart .data ≤ addr)

/-- Does fetch try the cache in this cycle? -/
def fetchTries (ec : Bool) (s : Machine) : Bool :=
  !fetchHalts ec s && s.mem.triesCache (fetchPC ec s)

/-- Does the M stage try the cache in this cycle? -/
def dataTries (s : Machine) : Bool :=
  (s.M.out.mSigs.dmemRead || s.M.out.mSigs.dmemWrite) && s.mem.triesCache s.M.out.valEx

/-- How often the first `n` cycles of a run try the cache. -/
def triesUpTo (ec : Bool) (σ : Nat → Machine) (n : Nat) : Nat :=
  ∑ k ∈ Finset.range n, ((fetchTries ec (σ k)).toNat + (dataTries (σ k)).toNat)

/-! ## The data accesses of a run -/

/-- The completed data accesses that went to the cache: `misses` found their block absent when they
were first attempted, `hits` did not.  `waiting` says, for one that has not completed yet, whether
it did. -/
structure AccessLog where
  hits : Nat
  misses : Nat
  waiting : Option Bool
  deriving DecidableEq

/-- Was the block absent when the access in M was first attempted?  An M stage that has been stalled
attempts the same access again. -/
def AccessLog.absent (l : AccessLog) (s : Machine) (v : Wires) : Bool :=
  (if s.M.ctl = .stall then l.waiting else none).getD (!v.fMem.resident s.M.out.valEx)

/-- What a cycle adds to the log. -/
def AccessLog.record (l : AccessLog) (s : Machine) (v : Wires) : AccessLog :=
  if dataTries s then
    if v.mem.dmemStatus = .inFlight then { l with waiting := some (l.absent s v) }
    else if l.absent s v then ⟨l.hits, l.misses + 1, none⟩
    else ⟨l.hits + 1, l.misses, none⟩
  else { l with waiting := none }

/-- The log after the first `n` cycles of a run. -/
def accessLog (ec : Bool) (σ : Nat → Machine) : Nat → AccessLog
  | 0 => ⟨0, 0, none⟩
  | n + 1 =>
      match wires ec (σ n) with
      | .ok v => (accessLog ec σ n).record (σ n) v
      | .error _ => accessLog ec σ n

/-- How many accesses the log holds. -/
def AccessLog.total (l : AccessLog) : Nat := l.hits + l.misses

/-- Are the printed numbers those of the log? -/
def Memory.PrintsCounts (m : Memory) (l : AccessLog) : Prop :=
  ∃ c, m.cache = some c ∧ cacheCounts c m.counts = some ((l.hits : Int), (l.misses : Int))

theorem AccessLog.total_record (l : AccessLog) (s : Machine) (v : Wires) :
    (l.record s v).total =
      l.total + if dataTries s = true ∧ v.mem.dmemStatus ≠ .inFlight then 1 else 0 := by
  unfold record total
  by_cases htries : dataTries s = true
  · rw [if_pos htries]
    by_cases hwaits : v.mem.dmemStatus = .inFlight
    · rw [if_pos hwaits, if_neg fun hand => hand.2 hwaits]
      rfl
    · have hdone : dataTries s = true ∧ v.mem.dmemStatus ≠ .inFlight := ⟨htries, hwaits⟩
      rw [if_neg hwaits, if_pos hdone]
      cases l.absent s v with
      | true => exact (Nat.add_assoc _ _ _).symm
      | false => exact Nat.add_right_comm _ _ _
  · rw [if_neg htries, if_neg fun hand => htries hand.1]
    rfl

/-! ## One call -/

/-- A call of `_mem_read_cache` or `_mem_write_cache` with `n` bytes that goes through: it waits, or
its loop ends and the word at `addr` lies in its block. -/
inductive Called (g : Geometry) (n : Nat) (addr : Word) (c : Cache) (m m' : Memory) : Prop
  | waits {operation : Operation} {fillBase : Word → Word} {c' : Cache} {m₁ : Memory}
      (hloop : cacheLoop operation fillBase n addr c m = (true, c', m₁))
      (hm' : m' = { m₁ with cache := some c' })
  | ready {operation : Operation} {fillBase : Word → Word} {c' c₂ : Cache} {m₁ : Memory}
      {stores : List (Word × Word)}
      (hloop : cacheLoop operation fillBase n addr c m = (false, c', m₁))
      (hfit : g.fitsBlock addr = true) (hw : c₂.WellTagged g)
      (hm' : m' = { m₁ with cache := some c₂, dmemStatus := .ready, stores := stores })

theorem dmemStatus_of_waits {operation : Operation} {fillBase : Word → Word} {n : Nat} {x : Word}
    {c c' : Cache} {m m' : Memory}
    (h : cacheLoop operation fillBase n x c m = (true, c', m')) : m'.dmemStatus = .inFlight := by
  induction n generalizing x c m with
  | zero => cases h
  | succ n ih =>
    rw [cacheLoop] at h
    rcases hb : cacheByte operation fillBase c m x with ⟨_ | _, c₁, m₁⟩ <;> rw [hb] at h
    · exact ih h
    · cases h
      unfold cacheByte at hb
      split at hb
      · cases hb
      · dsimp only at hb
        split at hb
        · cases hb
          rfl
        · cases hb

section

variable {g : Geometry} {a t n : Nat} {addr v data : Word} {c : Cache} {m m' : Memory}

theorem called_of_memReadCache (hw : c.WellTagged g)
    (hr : memReadCache c m addr n = .ok (v, m')) : Called g n addr c m m' := by
  rcases hloop : cacheLoop .read (fun _ => blockAddress c addr) n addr c m with ⟨_ | _, c', m₁⟩
  · obtain ⟨w, hget⟩ := (memReadCache_inv hr hloop).2.2 rfl
    have hw' := hw.tagged_of_cacheLoop hloop
    have hfit : g.fitsBlock addr = true := by
      by_contra hno
      exact hw'.getWordCache_crossing (Bool.eq_false_iff.2 hno) w hget
    rw [memReadCache_of_ready hloop hget] at hr
    cases hr
    have hm' : { m₁ with cache := some c', dmemStatus := .ready } =
        { m₁ with cache := some c', dmemStatus := .ready, stores := m₁.stores } := rfl
    exact .ready hloop hfit hw' hm'
  · rw [memReadCache_of_waits hloop] at hr
    cases hr
    exact .waits hloop rfl

theorem called_of_memWriteCache (hw : c.WellTagged g)
    (hr : memWriteCache c m addr data n = .ok m') : Called g n addr c m m' := by
  rcases hloop : cacheLoop .write id n addr c m with ⟨_ | _, c', m₁⟩
  · obtain ⟨-, ⟨hfalse, -⟩ | ⟨-, c₂, hset, -⟩⟩ := memWriteCache_inv hr hloop
    · cases hfalse
    · obtain ⟨hfit, hw₂, -⟩ := (hw.tagged_of_cacheLoop hloop).setWordCache_inv hset
      rw [memWriteCache_of_ready hloop hset] at hr
      cases hr
      exact .ready hloop hfit hw₂ rfl
  · rw [memWriteCache_of_waits hloop] at hr
    cases hr
    exact .waits hloop rfl

/-! ## What the counters hold -/

/-- After `a` tries, `t` of them data accesses that completed. -/
structure Tallied (g : Geometry) (a t : Nat) (m : Memory) : Prop where
  cache : ∃ c, m.cache = some c ∧ c.WellTagged g
  tries : a ≤ m.counts.hitCount + m.counts.missCount
  hits : 7 * t ≤ m.counts.hitCount

/-- After `a` tries, none of which has got through. -/
structure StillEmpty (g : Geometry) (a : Nat) (m : Memory) : Prop where
  cache : m.cache = some g.cache
  hitCount : m.counts.hitCount = 0
  missCount : m.counts.missCount = a
  countdown : m.inflight = true → g.d ≤ m.inflightCycles.toNat + a

/-- A call counts what its loop counts, and leaves a well-tagged cache. -/
theorem Called.loop (hw : c.WellTagged g) (hcall : Called g n addr c m m') :
    ∃ operation fillBase r c' m₁, cacheLoop operation fillBase n addr c m = (r, c', m₁) ∧
      m'.counts = m₁.counts ∧ ∃ c₂, m'.cache = some c₂ ∧ c₂.WellTagged g := by
  cases hcall with
  | waits hloop hm' =>
    subst hm'
    exact ⟨_, _, _, _, _, hloop, rfl, _, rfl, hw.tagged_of_cacheLoop hloop⟩
  | ready hloop hfit hw₂ hm' =>
    subst hm'
    exact ⟨_, _, _, _, _, hloop, rfl, _, rfl, hw₂⟩

/-- A call counts as at least one hit or miss. -/
theorem Tallied.called (h : Tallied g a t m) (hw : c.WellTagged g)
    (hcall : Called g (n + 1) addr c m m') : Tallied g (a + 1) t m' := by
  obtain ⟨operation, fillBase, r, c', m₁, hloop, hcounts, hcache⟩ := hcall.loop hw
  obtain ⟨hle, hsum⟩ := hw.counts_cacheLoop operation fillBase n addr m
  rw [hloop] at hle hsum
  dsimp only at hle hsum
  have htries := h.tries
  have hhits := h.hits
  refine ⟨hcache, ?_, ?_⟩ <;> rw [hcounts] <;> omega

/-- A doubleword that completes counts seven hits at least. -/
theorem Tallied.completed (h : Tallied g a t m) (hw : c.WellTagged g)
    (hcall : Called g 8 addr c m m') (hready : m'.dmemStatus ≠ .inFlight) :
    Tallied g (a + 1) (t + 1) m' := by
  have h' := h.called hw hcall
  refine ⟨h'.cache, h'.tries, ?_⟩
  have hhits := h.hits
  cases hcall with
  | @waits operation fillBase c' m₁ hloop hm' =>
    subst hm'
    exact absurd (dmemStatus_of_waits hloop) hready
  | @ready operation fillBase c' c₂ m₁ stores hloop hfit hw₂ hm' =>
    have hcounts := hw.hits_of_completes hfit hloop
    subst hm'
    dsimp only
    omega

theorem getLine_cache (g : Geometry) (addr : Word) : getLine g.cache addr = none :=
  copy_eq_none_iff.1 (contents_fresh g PTable.empty addr)

/-- **A try that comes before the delay is over waits.** -/
theorem StillEmpty.called (h : StillEmpty g a m) (ha : a + 1 < g.d)
    (hcall : Called g (n + 1) addr g.cache m m') :
    StillEmpty g (a + 1) m' ∧ m'.dmemStatus = .inFlight := by
  have hd := g.d_lt
  have hcycles : g.d ≤ (m.countdown g.cache (g.blockStart (g.blockNum addr))).toNat + (a + 1) := by
    rw [Memory.countdown, BitVec.toNat_sub]
    have hone : (1#64 : Word).toNat = 1 := rfl
    by_cases hstart : m.inflightAddr ≠ g.blockStart (g.blockNum addr) ∨ m.inflight = false
    · rw [if_pos hstart, BitVec.toNat_setWidth, g.cache_fits.d_toNat, hone]
      omega
    · rw [if_neg hstart, hone]
      rw [not_or, Bool.not_eq_false] at hstart
      have hrest := h.countdown hstart.2
      have hlt := m.inflightCycles.isLt
      omega
  have hwait : m.countdown g.cache (g.blockStart (g.blockNum addr)) ≠ 0 := by
    intro hzero
    rw [hzero, show (0 : Word).toNat = 0 from rfl] at hcycles
    omega
  have hmissed := fun (operation : Operation) (fillBase : Word → Word) =>
    g.cache_wellTagged.cacheLoop_missed operation fillBase n (getLine_cache g addr) hwait
  cases hcall with
  | @waits operation fillBase c' m₁ hloop hm' =>
    rw [hmissed] at hloop
    cases hloop
    subst hm'
    exact ⟨⟨rfl, h.hitCount, congrArg Nat.succ h.missCount, fun _ => hcycles⟩, rfl⟩
  | @ready operation fillBase c' c₂ m₁ stores hloop hfit hw₂ hm' =>
    rw [hmissed] at hloop
    cases hloop

/-- What is printed is right exactly while there have been fewer tries than the delay has cycles. -/
theorem prints_iff (h : Tallied g a t m) (he : a < g.d → StillEmpty g a m) {l : AccessLog}
    (hl : l.total = t) : m.PrintsCounts l ↔ a < g.d := by
  have hhits := h.hits
  have htries := h.tries
  rw [← hl, AccessLog.total] at hhits
  constructor
  · rintro ⟨c, hc, hprinted⟩
    obtain ⟨c₁, hc₁, hw⟩ := h.cache
    obtain rfl : c₁ = c := Option.some.inj (hc₁.symm.trans hc)
    rw [cacheCounts] at hprinted
    split at hprinted
    · cases hprinted
    · next hdef =>
      have hpos : 0 < g.d := by
        rw [← hw.fits.d_toNat]
        by_contra h0
        exact hdef (Or.inl (BitVec.eq_of_toNat_eq (by simpa using h0)))
      obtain ⟨hhit, hmiss⟩ := Prod.mk.inj (Option.some.inj hprinted)
      rw [hw.fits.d_toNat] at hhit hmiss
      -- a try that got through would have left more hits than are taken off again
      have hdiv : m.counts.missCount / g.d = 0 := by omega
      have hlt := (Nat.div_eq_zero_iff_lt hpos).1 hdiv
      omega
  · intro ha
    have hs := he ha
    rw [hs.hitCount] at hhits
    have hdef : ¬ (g.cache.d = 0 ∨ INT_MAX < m.counts.hitCount ∨
        INT_MAX < m.counts.missCount) := by
      rintro (h0 | h0 | h0)
      · have hd0 := g.cache_fits.d_toNat
        rw [h0, show (0 : BitVec 32).toNat = 0 from rfl] at hd0
        omega
      · rw [hs.hitCount] at h0
        exact absurd h0 (Nat.not_lt_zero _)
      · rw [hs.missCount] at h0
        have hd := g.d_lt
        unfold INT_MAX at h0
        omega
    refine ⟨g.cache, hs.cache, ?_⟩
    rw [cacheCounts, if_neg hdef, hs.hitCount, hs.missCount, g.cache_fits.d_toNat,
      Nat.div_eq_of_lt ha, show l.hits = 0 by omega, show l.misses = 0 by omega]
    rfl

end

/-! ## One cycle -/

section

variable {ec : Bool} {g : Geometry} {a t n : Nat} {addr v : Word} {c : Cache} {m m' : Memory}
  {s : Machine} {w : Wires}

/-- What an access that does not try the cache leaves as it was. -/
structure SameCounts (m m' : Memory) : Prop where
  cache : m'.cache = m.cache
  counts : m'.counts = m.counts
  inflight : m'.inflight = m.inflight
  inflightCycles : m'.inflightCycles = m.inflightCycles

theorem Tallied.same (h : Tallied g a t m) (hs : SameCounts m m') : Tallied g a t m' :=
  ⟨hs.cache ▸ h.cache, hs.counts ▸ h.tries, hs.counts ▸ h.hits⟩

theorem StillEmpty.same (h : StillEmpty g a m) (hs : SameCounts m m') : StillEmpty g a m' :=
  ⟨hs.cache.trans h.cache, hs.counts ▸ h.hitCount, hs.counts ▸ h.missCount, fun hi => by
    rw [hs.inflightCycles]
    exact h.countdown (hs.inflight.symm.trans hi)⟩

theorem triesCache_iff : m.triesCache addr = true ↔
    isSpecialAddr addr = false ∧ ∃ c, m.Cached c addr := by
  rw [Memory.triesCache, Bool.and_eq_true, Bool.and_eq_true, Bool.not_eq_true', decide_eq_true_eq,
    Option.isSome_iff_exists]
  exact ⟨fun ⟨⟨⟨c, hc⟩, hs⟩, ha⟩ => ⟨hs, c, hc, ha⟩, fun ⟨hs, c, hc, ha⟩ => ⟨⟨⟨c, hc⟩, hs⟩, ha⟩⟩

/-- A read of `_mem_read` tries the cache or counts nothing. -/
theorem memRead_tries (hm : m.cache = some c) (hw : c.WellTagged g)
    (hr : memRead m addr n = .ok (v, m')) :
    m.triesCache addr = false ∧ SameCounts m m' ∨
      m.triesCache addr = true ∧ Called g n addr c m m' := by
  rcases memRead_inv hr with ⟨hs, scanned, rfl⟩ | ⟨hs, c', hc, hr⟩ | ⟨-, hno, -, rfl⟩
  · refine Or.inl ⟨Bool.eq_false_iff.2 fun ht => ?_, rfl, rfl, rfl, rfl⟩
    rw [(triesCache_iff.1 ht).1] at hs
    cases hs
  · obtain rfl : c' = c := Option.some.inj (hc.1.symm.trans hm)
    exact Or.inr ⟨triesCache_iff.2 ⟨hs, c', hc⟩, called_of_memReadCache hw hr⟩
  · refine Or.inl ⟨Bool.eq_false_iff.2 fun ht => ?_, rfl, rfl, rfl, rfl⟩
    obtain ⟨c', hc⟩ := (triesCache_iff.1 ht).2
    exact hno c' hc

theorem memWrite_tries {data : Word} (hm : m.cache = some c) (hw : c.WellTagged g)
    (hr : memWrite m addr data n = .ok m') :
    m.triesCache addr = false ∧ SameCounts m m' ∨
      m.triesCache addr = true ∧ Called g n addr c m m' := by
  rcases memWrite_inv hr with ⟨hs, printed, rfl⟩ | ⟨hs, c', hc, hr⟩ | ⟨-, hno, rfl⟩
  · refine Or.inl ⟨Bool.eq_false_iff.2 fun ht => ?_, rfl, rfl, rfl, rfl⟩
    rw [(triesCache_iff.1 ht).1] at hs
    cases hs
  · obtain rfl : c' = c := Option.some.inj (hc.1.symm.trans hm)
    exact Or.inr ⟨triesCache_iff.2 ⟨hs, c', hc⟩, called_of_memWriteCache hw hr⟩
  · refine Or.inl ⟨Bool.eq_false_iff.2 fun ht => ?_, rfl, rfl, rfl, rfl⟩
    obtain ⟨c', hc⟩ := (triesCache_iff.1 ht).2
    exact hno c' hc

/-- What fetch does to the cache. -/
theorem fetch_tries (hm : s.mem.cache = some c) (hw : c.WellTagged g)
    {r : DInstr × Stat × Word × Memory} (hf : fetchWires ec s = .ok r) :
    fetchTries ec s = false ∧ SameCounts s.mem r.2.2.2 ∨
      fetchTries ec s = true ∧ Called g 4 (fetchPC ec s) c s.mem r.2.2.2 := by
  unfold fetchTries
  unfold fetchWires at hf
  by_cases hh : fetchHalts ec s = true
  · rw [if_pos hh] at hf
    cases hf
    rw [hh]
    exact Or.inl ⟨rfl, rfl, rfl, rfl, rfl⟩
  · rw [if_neg hh] at hf
    rw [Bool.not_eq_true] at hh
    rw [hh, Bool.not_false, Bool.true_and]
    cases hi : imem s.mem (fetchPC ec s) with
    | error e =>
      rw [hi] at hf
      cases hf
    | ok i =>
      rw [hi] at hf
      obtain ⟨insnbits, imemErr, mem⟩ := i
      cases hf
      obtain ⟨-, v, hr, -⟩ := imem_inv hi
      exact memRead_tries hm hw hr

/-- What the M stage does to the cache. -/
theorem data_tries (hok : s.M.out.Ok ec) (hseg : w.fMem.segStart = s.mem.segStart)
    (hsome : s.mem.cache.isSome = true) (hm : w.fMem.cache = some c) (hw : c.WellTagged g)
    (hd : dmem w.fMem s.M.out.valEx s.M.out.valB s.M.out.mSigs.dmemRead s.M.out.mSigs.dmemWrite
      s.W.inp.valMem = .ok (w.valMem, w.memErr, w.mem)) :
    dataTries s = false ∧ SameCounts w.fMem w.mem ∨
      dataTries s = true ∧ Called g 8 s.M.out.valEx c w.fMem w.mem := by
  have htries : s.mem.triesCache s.M.out.valEx = w.fMem.triesCache s.M.out.valEx := by
    rw [Memory.triesCache, Memory.triesCache, hseg, hm, hsome]
    rfl
  unfold dataTries
  rw [htries]
  rcases dmem_inv hok.not_both hd with ⟨hr, hwr, hmem, -⟩ | ⟨hr, -, hmem, -⟩ | ⟨-, hwr, hmem, -⟩
  · rw [hr, hwr, hmem]
    exact Or.inl ⟨rfl, rfl, rfl, rfl, rfl⟩
  · rw [hr, Bool.true_or, Bool.true_and]
    exact memRead_tries hm hw hmem
  · rw [hwr, Bool.or_true, Bool.true_and]
    exact memWrite_tries hm hw hmem

/-- What holds before a cycle. -/
structure Accounted (g : Geometry) (a t : Nat) (m : Memory) : Prop where
  tallied : Tallied g a t m
  empty : a < g.d → StillEmpty g a m

theorem Accounted.same (h : Accounted g a t m) (hs : SameCounts m m') : Accounted g a t m' :=
  ⟨h.tallied.same hs, fun ha => (h.empty ha).same hs⟩

/-- A fetch. -/
theorem Accounted.fetch (h : Accounted g a t s.mem) {r : DInstr × Stat × Word × Memory}
    (hf : fetchWires ec s = .ok r) : Accounted g (a + (fetchTries ec s).toNat) t r.2.2.2 := by
  obtain ⟨c, hm, hw⟩ := h.tallied.cache
  rcases fetch_tries hm hw hf with ⟨hno, hs⟩ | ⟨htries, hcall⟩
  · rw [hno]
    exact h.same hs
  · rw [htries]
    refine ⟨h.tallied.called hw hcall, fun ha => ?_⟩
    have ha : a + 1 < g.d := ha
    have he := h.empty (by omega)
    obtain rfl : c = g.cache := Option.some.inj (hm.symm.trans he.cache)
    exact (he.called ha hcall).1

/-- The M stage. -/
theorem Accounted.data (h : Accounted g a t w.fMem) (hok : s.M.out.Ok ec)
    (hseg : w.fMem.segStart = s.mem.segStart) (hsome : s.mem.cache.isSome = true)
    (hd : dmem w.fMem s.M.out.valEx s.M.out.valB s.M.out.mSigs.dmemRead s.M.out.mSigs.dmemWrite
      s.W.inp.valMem = .ok (w.valMem, w.memErr, w.mem)) :
    Accounted g (a + (dataTries s).toNat)
      (t + if dataTries s = true ∧ w.mem.dmemStatus ≠ .inFlight then 1 else 0) w.mem := by
  obtain ⟨c, hm, hw⟩ := h.tallied.cache
  rcases data_tries hok hseg hsome hm hw hd with ⟨hno, hs⟩ | ⟨htries, hcall⟩
  · rw [hno, if_neg fun hand => Bool.false_ne_true hand.1]
    exact h.same hs
  · rw [htries]
    refine ⟨?_, fun ha => ?_⟩
    · by_cases hready : w.mem.dmemStatus = .inFlight
      · rw [if_neg fun hand => hand.2 hready]
        exact h.tallied.called hw hcall
      · rw [if_pos ⟨rfl, hready⟩]
        exact h.tallied.completed hw hcall hready
    · have ha : a + 1 < g.d := ha
      have he := h.empty (by omega)
      obtain rfl : c = g.cache := Option.some.inj (hm.symm.trans he.cache)
      exact (he.called ha hcall).1

end

/-! ## Whole runs -/

section

variable {ec : Bool} {img : Image} {entry : Word} {n k : Nat} {σ : Nat → Machine} {g : Geometry}

/-- In every state of a run the counters go with the tries and the accesses so far. -/
theorem Execution.accounted (hc : img.cache = some g.cache) (h : Execution ec img entry n σ)
    (hk : k ≤ n) : Accounted g (triesUpTo ec σ k) (accessLog ec σ k).total (σ k).mem := by
  induction k with
  | zero =>
    rw [h.start]
    have hcounts : (Machine.init img entry).mem.counts = .zero := rfl
    refine ⟨⟨⟨g.cache, hc, g.cache_wellTagged⟩, Nat.zero_le _, Nat.zero_le _⟩, fun _ => ?_⟩
    exact ⟨hc, rfl, rfl, nofun⟩
  | succ k ih =>
    have h₀ := ih (by omega)
    have hw := h.wellFormed (show k ≤ n by omega)
    obtain ⟨v, hv, hnext⟩ := exists_wires (h.next k hk).2
    obtain ⟨hf, hd⟩ := wires_inv hv
    obtain ⟨c, hm, -⟩ := h₀.tallied.cache
    have hseg : v.fMem.segStart = (σ k).mem.segStart := fetchWires_segStart hf
    have h₂ := (h₀.fetch hf).data hw.m hseg (by rw [hm]; rfl) hd
    have htries : triesUpTo ec σ (k + 1) = triesUpTo ec σ k + (fetchTries ec (σ k)).toNat +
        (dataTries (σ k)).toNat := by
      rw [triesUpTo, Finset.sum_range_succ, Nat.add_assoc]
      rfl
    have hlog : (accessLog ec σ (k + 1)).total = (accessLog ec σ k).total +
        if dataTries (σ k) = true ∧ v.mem.dmemStatus ≠ .inFlight then 1 else 0 := by
      rw [accessLog, hv]
      exact AccessLog.total_record _ _ _
    rw [htries, hlog, hnext]
    exact h₂

/-- **The reported cache statistics are right exactly while no access can have got through.**  In
every run with a cache, whenever the machine is logged, be it between two cycles or after fetch by a
load of `CHECKPOINT_ADDR`, the numbers printed are defined and are those of the data accesses that
have completed if and only if fetch and the M stage have tried the cache fewer times than a miss
takes cycles. -/
theorem cacheCounts_run_iff (hc : img.cache = some g.cache) (h : Execution ec img entry n σ)
    (hk : k ≤ n) :
    ((σ k).mem.PrintsCounts (accessLog ec σ k) ↔ triesUpTo ec σ k < g.d) ∧
      ∀ s₁, fetchInstr ec (σ k) = .ok s₁ → (s₁.mem.PrintsCounts (accessLog ec σ k) ↔
        triesUpTo ec σ k + (fetchTries ec (σ k)).toNat < g.d) := by
  have h₀ := h.accounted hc hk
  refine ⟨prints_iff h₀.tallied h₀.empty rfl, fun s₁ hf => ?_⟩
  obtain ⟨-, r, hr, hmem⟩ := fetchInstr_inv hf
  have h₁ := h₀.fetch hr
  rw [hmem]
  exact prints_iff h₁.tallied h₁.empty rfl

/-- `ldur x1, [sp]; ret`. -/
def loadOnce : List (BitVec 32) := [0xf84003e1#32, 0xd65f03c0#32]

/-- After one cycle of waiting nothing has been counted as a hit or a miss yet. -/
theorem cacheCounts_run_loadOnce :
    triesUpTo false (stateAt false (.ofWords loadOnce (some Geometry.oneLine.cache)) 0x400000#64) 4 =
        1 ∧
      (stateAt false (.ofWords loadOnce (some Geometry.oneLine.cache)) 0x400000#64 4).mem.PrintsCounts
        (accessLog false (stateAt false (.ofWords loadOnce (some Geometry.oneLine.cache))
          0x400000#64) 4) := by
  have hrun : Execution false (.ofWords loadOnce (some Geometry.oneLine.cache)) 0x400000#64 4
      (stateAt false (.ofWords loadOnce (some Geometry.oneLine.cache)) 0x400000#64) :=
    execution_stateAt (by decide +kernel)
  have htries : triesUpTo false (stateAt false (.ofWords loadOnce (some Geometry.oneLine.cache))
      0x400000#64) 4 = 1 := by decide +kernel
  refine ⟨htries, (cacheCounts_run_iff (g := .oneLine) rfl hrun le_rfl).1.2 ?_⟩
  rw [htries]
  decide

/-- The load misses and completes, and six hits are printed at the end of the run. -/
theorem not_cacheCounts_run_loadOnce :
    ∃ n σ, Execution false (.ofWords loadOnce (some Geometry.oneLine.cache)) 0x400000#64 n σ ∧
      (σ n).running = false ∧ accessLog false σ n = ⟨0, 1, none⟩ ∧
      ((σ n).mem.cache.bind fun c => cacheCounts c (σ n).mem.counts) = some (6, 1) ∧
      ¬ (σ n).mem.PrintsCounts (accessLog false σ n) := by
  have hrun : Execution false (.ofWords loadOnce (some Geometry.oneLine.cache)) 0x400000#64 10
      (stateAt false (.ofWords loadOnce (some Geometry.oneLine.cache)) 0x400000#64) :=
    execution_stateAt (by decide +kernel)
  have hlog : accessLog false (stateAt false (.ofWords loadOnce (some Geometry.oneLine.cache))
      0x400000#64) 10 = ⟨0, 1, none⟩ := by decide +kernel
  have hprinted : ((stateAt false (.ofWords loadOnce (some Geometry.oneLine.cache))
      0x400000#64 10).mem.cache.bind fun c => cacheCounts c (stateAt false
        (.ofWords loadOnce (some Geometry.oneLine.cache)) 0x400000#64 10).mem.counts) =
      some (6, 1) := by decide +kernel
  refine ⟨10, _, hrun, by decide +kernel, hlog, hprinted, ?_⟩
  rintro ⟨c, hc, hcounts⟩
  rw [hc, Option.bind_some, hcounts, hlog] at hprinted
  exact absurd hprinted (by decide)

end

end ChArm
