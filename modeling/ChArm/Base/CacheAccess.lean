import ChArm.Base.Untouched

/-!
# One cached access, with its counters

What one call of `_mem_read_cache` or `_mem_write_cache` on an aligned doubleword
does to everything but the data: it hits eight times (`DataAccess.call_resident`),
waits a cycle (`DataAccess.call_wait`), or ends a miss and hits seven times
(`DataAccess.call_fill`).  In the first and the last case the cache is then, up to
the data of its lines, the one a single `access_data` leaves.

* `call_resident`, `call_wait`, `call_fill` — the three ways in which a call ends.
* `retry_spec` — an access repeated until it is ready: one `access_data`, seven more hits and a miss
  for every wait.
* `Driven.tagged` — every memory system that calls lead to has a well-tagged cache.
-/

namespace ChArm

/-- The counters after `n` probes that hit. -/
def Counters.hits (k : Counters) (n : Nat) : Counters := { k with hitCount := k.hitCount + n }

theorem Counters.hits_hits (k : Counters) (n p : Nat) :
    (k.hits n).hits p = k.hits (n + p) := by
  rw [Counters.hits, Counters.hits, Counters.hits, Nat.add_assoc]

/-! ## `access_data` -/

theorem accessData_of_some {c : Cache} {addr : Word} {j : Nat} (hj : getLine c addr = some j)
    (k : Counters) (operation : Operation) :
    accessData c k addr operation = (c.hit addr operation j, k.hits 1) := by
  rw [accessData, checkHit_of_some hj]
  rfl

theorem accessData_of_none {c : Cache} {addr : Word} (hg : getLine c addr = none) (k : Counters)
    (operation : Operation) :
    accessData c k addr operation = (handleMiss c k.miss addr operation none).2 := by
  rw [accessData, checkHit_of_none hg]
  rfl

theorem handleMiss_congr {c : Cache} {a a' : Word} (hi : setIndex c a = setIndex c a')
    (ht : tagOf c a = tagOf c a') (k : Counters) (operation : Operation)
    (incoming : Option (Nat → Byte)) :
    handleMiss c k a operation incoming = handleMiss c k a' operation incoming := by
  have hset : getSet c a = getSet c a' := by rw [getSet, getSet, hi]
  have hput : c.putSet a = c.putSet a' := by
    funext s
    rw [Cache.putSet, Cache.putSet, hi]
  unfold handleMiss
  rw [hset, hput, hi, ht]

/-- What comes in matters to the data only. -/
theorem handleMiss_incoming (c : Cache) (k : Counters) (addr : Word) (operation : Operation)
    (incoming incoming' : Option (Nat → Byte)) :
    (handleMiss c k addr operation incoming).2.1.bare =
        (handleMiss c k addr operation incoming').2.1.bare ∧
      (handleMiss c k addr operation incoming).2.2 =
        (handleMiss c k addr operation incoming').2.2 := by
  obtain ⟨h1, h2⟩ := handleMiss_bare c k addr operation incoming none
  obtain ⟨h1', h2'⟩ := handleMiss_bare c k addr operation incoming' none
  exact ⟨h1.symm.trans h1', h2.symm.trans h2'⟩

/-! ## The byte loop -/

/-- The bytes of an aligned doubleword lie in one block. -/
theorem Geometry.word_in_block (g : Geometry) {addr : Word} (hal : addr.toNat % 8 = 0) :
    ∀ k < 7 + 1, g.blockNum (addr + BitVec.ofNat 64 k) = g.blockNum addr := by
  intro k hk
  have hfit := of_decide_eq_true (g.fitsBlock_of_aligned hal)
  exact (g.blockNum_add (by omega)).1

/-- Addresses of one block share the line that was just used. -/
theorem Cache.JustUsed.congr {c : Cache} {g : Geometry} (h : c.Fits g) {x addr : Word}
    (hx : g.blockNum x = g.blockNum addr) {operation : Operation} {j : Nat}
    (hu : c.JustUsed addr operation j) : c.JustUsed x operation j := by
  obtain ⟨hi, ht⟩ := (h.same_block_iff x addr).2 hx
  have hset : getSet c x = getSet c addr := by rw [getSet, getSet, hi]
  refine ⟨?_, ?_, ?_⟩
  · rw [getLine, hset, ht]
    exact hu.found
  · rw [hset]
    exact hu.marked
  · rw [hset]
    exact hu.touched

/-- Over bytes of a block that was just used the loop only counts hits. -/
theorem cacheLoop_justUsed {c : Cache} {g : Geometry} (h : c.Fits g) {operation : Operation}
    (fillBase : Word → Word) {n : Nat} {x addr : Word}
    (hblock : ∀ k < n, g.blockNum (x + BitVec.ofNat 64 k) = g.blockNum addr) {j : Nat}
    (hu : c.JustUsed addr operation j) (m : Memory) :
    cacheLoop operation fillBase n x c m = (false, c, { m with counts := m.counts.hits n }) := by
  induction n generalizing x m with
  | zero => rfl
  | succ n ih =>
    have hx : g.blockNum x = g.blockNum addr := by simpa using hblock 0 (Nat.succ_pos n)
    rw [cacheLoop, cacheByte, (hu.congr h hx).checkHit]
    dsimp only
    rw [ih (g.blockNum_tail hblock)]
    have hcount := m.counts.hits_hits 1 n
    rw [Nat.add_comm] at hcount
    rw [← hcount]
    rfl

namespace Cache.WellTagged

variable {c : Cache} {g : Geometry} (h : c.WellTagged g)
include h

theorem ways : 1 ≤ c.A.toNat ∧ c.A.toNat ≤ 8 := by
  rw [h.fits.A_toNat]
  exact ⟨g.one_le_A, g.A_le⟩

/-- Over bytes of a resident block the loop hits every time and uses the block once. -/
theorem cacheLoop_resident (operation : Operation) (fillBase : Word → Word) {n : Nat} {x : Word}
    (hblock : ∀ k < n + 1, g.blockNum (x + BitVec.ofNat 64 k) = g.blockNum x) {j : Nat}
    (hj : getLine c x = some j) (m : Memory) :
    cacheLoop operation fillBase (n + 1) x c m =
      (false, c.hit x operation j, { m with counts := m.counts.hits (n + 1) }) := by
  have hu := Cache.justUsed_hit h.ways.2 hj operation
  have hfits : (c.hit x operation j).Fits g := ⟨h.fits.A, h.fits.B, h.fits.C, h.fits.d⟩
  rw [cacheLoop, cacheByte, checkHit_of_some hj]
  dsimp only
  rw [cacheLoop_justUsed hfits fillBase (g.blockNum_tail hblock) hu]
  have hcount := m.counts.hits_hits 1 n
  rw [Nat.add_comm] at hcount
  rw [← hcount]
  rfl

/-- While a miss counts down, a call counts one more miss. -/
theorem cacheLoop_missed (operation : Operation) (fillBase : Word → Word) (n : Nat) {x : Word}
    (hg : getLine c x = none) {m : Memory}
    (hwait : m.countdown c (g.blockStart (g.blockNum x)) ≠ 0) :
    cacheLoop operation fillBase (n + 1) x c m =
      (true, c, { m.missed c (g.blockStart (g.blockNum x)) with dmemStatus := .inFlight }) := by
  have hpos : 0 < m.countdown c (g.blockStart (g.blockNum x)) :=
    (BitVec.pos_iff_ne_zero _).2 hwait
  rw [cacheLoop, h.cacheByte_absent operation fillBase hg, if_pos hpos]

/-- The end of a miss leaves the cache and the counters that `access_data` leaves. -/
theorem completeMiss_accessData (operation : Operation) (fillBase : Word) {x : Word}
    (hg : getLine c x = none) (m : Memory) :
    (completeMiss operation fillBase (g.blockStart (g.blockNum x)) c
          (m.missed c (g.blockStart (g.blockNum x)))).1.bare =
        (accessData c m.counts x operation).1.bare ∧
      (completeMiss operation fillBase (g.blockStart (g.blockNum x)) c
          (m.missed c (g.blockStart (g.blockNum x)))).2.counts =
        (accessData c m.counts x operation).2 ∧
      ∃ j, (completeMiss operation fillBase (g.blockStart (g.blockNum x)) c
          (m.missed c (g.blockStart (g.blockNum x)))).1.JustUsed x operation j := by
  obtain ⟨hi, ht⟩ := (h.fits.same_block_iff _ x).2 (g.blockNum_blockStart x)
  rw [accessData_of_none hg]
  simp only [completeMiss]
  rw [handleMiss_congr hi ht]
  obtain ⟨hbare, hcounts⟩ := handleMiss_incoming c m.counts.miss x operation
    (some (readBlock m.ptable fillBase c.B.toNat).1) none
  exact ⟨hbare, hcounts, Cache.justUsed_handleMiss h.ways.1 h.ways.2 hg _ operation _⟩

/-- At the end of a miss the line is filled in and the other bytes hit. -/
theorem cacheLoop_completes (operation : Operation) (fillBase : Word → Word) {n : Nat} {x : Word}
    (hblock : ∀ k < n + 1, g.blockNum (x + BitVec.ofNat 64 k) = g.blockNum x)
    (hg : getLine c x = none) {m : Memory}
    (hdone : m.countdown c (g.blockStart (g.blockNum x)) = 0) {r : Cache × Memory}
    (hr : completeMiss operation (fillBase (g.blockStart (g.blockNum x)))
      (g.blockStart (g.blockNum x)) c (m.missed c (g.blockStart (g.blockNum x))) = r) :
    cacheLoop operation fillBase (n + 1) x c m =
        (false, r.1, { r.2 with counts := r.2.counts.hits n }) ∧
      r.1.WellTagged g := by
  have hpos : ¬ 0 < m.countdown c (g.blockStart (g.blockNum x)) :=
    fun hpos => (BitVec.pos_iff_ne_zero _).1 hpos hdone
  obtain ⟨-, -, j, hu⟩ := h.completeMiss_accessData operation
    (fillBase (g.blockStart (g.blockNum x))) hg m
  have hbyte := h.cacheByte_absent operation fillBase hg m
  rw [if_neg hpos, hr] at hbyte
  rw [hr] at hu
  have hw : r.1.WellTagged g := by
    have := h.cacheByte_tagged operation fillBase m x
    rwa [hbyte] at this
  refine ⟨?_, hw⟩
  rw [cacheLoop, hbyte]
  exact cacheLoop_justUsed hw.fits fillBase (g.blockNum_tail hblock) hu r.2

/-- At the end of a miss the block is used once and the other bytes hit. -/
theorem cacheLoop_filled (operation : Operation) (fillBase : Word → Word) {n : Nat} {x : Word}
    (hblock : ∀ k < n + 1, g.blockNum (x + BitVec.ofNat 64 k) = g.blockNum x)
    (hg : getLine c x = none) {m : Memory}
    (hdone : m.countdown c (g.blockStart (g.blockNum x)) = 0) :
    ∃ c' m', cacheLoop operation fillBase (n + 1) x c m = (false, c', m') ∧
      c'.bare = (accessData c m.counts x operation).1.bare ∧
      m'.counts = (accessData c m.counts x operation).2.hits n ∧ m'.inflight = false ∧
      m'.inflightCycles = 0 ∧ ∃ j, c'.JustUsed x operation j := by
  obtain ⟨hloop, -⟩ := h.cacheLoop_completes operation fillBase hblock hg hdone rfl
  obtain ⟨hbare, hcounts, hu⟩ := h.completeMiss_accessData operation
    (fillBase (g.blockStart (g.blockNum x))) hg m
  refine ⟨_, _, hloop, hbare, ?_, rfl, hdone, hu⟩
  rw [← hcounts]

end Cache.WellTagged

/-! ## One call -/

/-- Does the access load or store? -/
def DataAccess.operation : DataAccess → Operation
  | .read _ => .read
  | .write _ _ => .write

/-- Where the temporary block is filled from. -/
def DataAccess.fillBase (c : Cache) : DataAccess → Word → Word
  | .read addr => fun _ => blockAddress c addr
  | .write _ _ => id

/-- Storing a word in a line that is dirty changes its data only. -/
theorem bare_setWordCache {c c' : Cache} {addr val : Word} {j : Nat} (hj : getLine c addr = some j)
    (hd : ((getSet c addr).lines j).dirty = true) (hset : setWordCache c addr val = .ok c') :
    c'.bare = c.bare := by
  rw [setWordCache, hj] at hset
  dsimp only at hset
  split at hset
  · obtain rfl := Except.ok.inj hset
    have hline : CacheLine.bare { (getSet c addr).lines j with
        data := putWord64 ((getSet c addr).lines j).data (blockOffset c addr) val
        dirty := true } = (getSet c addr).bare.lines j := by
      rw [← hd]
      rfl
    have hput : (getSet c addr).bare.putLine j ((getSet c addr).bare.lines j) =
        getSet c.bare addr := CacheSet.putLine_lines _ _
    rw [Cache.bare_putSet, CacheSet.bare_putLine, hline, hput, Cache.putSet_getSet]
  · cases hset

namespace Cache.WellTagged

variable {c : Cache} {g : Geometry} (h : c.WellTagged g)
include h

/-- A call whose loop gets through all eight bytes completes. -/
theorem call_of_cacheLoop {m m₁ : Memory} (hcache : m.cache = some c) {a : DataAccess}
    (hal : a.addr.toNat % 8 = 0) {c₁ : Cache}
    (hloop : cacheLoop a.operation (a.fillBase c) 8 a.addr c m = (false, c₁, m₁)) {j : Nat}
    (hu : c₁.JustUsed a.addr a.operation j) :
    ∃ v c' m', a.call m = .ok (v, m') ∧ m'.cache = some c' ∧ c'.WellTagged g ∧
      c'.bare = c₁.bare ∧ getLine c' a.addr ≠ none ∧ m'.counts = m₁.counts ∧
      m'.inflight = m₁.inflight ∧ m'.inflightCycles = m₁.inflightCycles ∧
      m'.dmemStatus = .ready := by
  have hw := h.tagged_of_cacheLoop hloop
  have hfit := of_decide_eq_true (g.fitsBlock_of_aligned hal)
  have hne : getLine c₁ a.addr ≠ none := by
    rw [hu.found]
    exact nofun
  cases a with
  | read addr =>
    obtain ⟨v, hget⟩ : ∃ v, getWordCache c₁ addr = .ok v :=
      ⟨_, hw.getWordCache_spec hne hfit m₁.ptable⟩
    refine ⟨v, c₁, { m₁ with cache := some c₁, dmemStatus := .ready }, ?_, rfl, hw, rfl, hne,
      rfl, rfl, rfl, rfl⟩
    rw [DataAccess.call, hcache]
    dsimp only
    rw [memReadCache, show cacheLoop .read (fun _ => blockAddress c addr) 8 addr c m = _ from hloop]
    dsimp only
    rw [hget]
    rfl
  | write addr data =>
    obtain ⟨c₂, hset, hw₂, hl₂, -⟩ := hw.setWordCache_spec hne hfit data
    have hdirty : ((getSet c₁ addr).lines j).dirty = true := by
      rw [show (getSet c₁ addr).lines j = _ from hu.marked.symm]
      rfl
    refine ⟨0, c₂, { m₁ with
      cache := some c₂, dmemStatus := .ready, stores := m₁.stores ++ [(addr, data)] }, ?_, rfl, hw₂,
      bare_setWordCache hu.found hdirty hset, by rwa [hl₂], rfl, rfl, rfl, rfl⟩
    rw [DataAccess.call, hcache]
    dsimp only
    rw [memWriteCache, show cacheLoop .write id 8 addr c m = _ from hloop]
    dsimp only
    rw [show setWordCache c₁ addr data = .ok c₂ from hset]
    rfl

/-- **An access to a resident block** completes; its eight probes hit. -/
theorem call_resident {m : Memory} (hcache : m.cache = some c) {a : DataAccess}
    (hal : a.addr.toNat % 8 = 0) (hg : getLine c a.addr ≠ none) :
    ∃ v c' m', a.call m = .ok (v, m') ∧ m'.cache = some c' ∧ c'.WellTagged g ∧
      c'.bare = (accessData c m.counts a.addr a.operation).1.bare ∧ getLine c' a.addr ≠ none ∧
      m'.counts = (accessData c m.counts a.addr a.operation).2.hits 7 ∧
      m'.inflight = m.inflight ∧ m'.dmemStatus = .ready := by
  obtain ⟨j, hj⟩ := Option.ne_none_iff_exists'.1 hg
  have hloop := h.cacheLoop_resident a.operation (a.fillBase c)
    (n := 7) (g.word_in_block hal) hj m
  obtain ⟨v, c', m', hcall, hc', hw', hbare, hl, hcounts, hinflight, -, hst⟩ :=
    h.call_of_cacheLoop hcache hal hloop (Cache.justUsed_hit h.ways.2 hj a.operation)
  rw [accessData_of_some hj]
  refine ⟨v, c', m', hcall, hc', hw', hbare, hl, ?_, hinflight, hst⟩
  rw [hcounts, Counters.hits_hits]

/-- **An access to an absent block waits** while the miss counts down. -/
theorem call_wait {m : Memory} (hcache : m.cache = some c) {a : DataAccess}
    (hg : getLine c a.addr = none)
    (hwait : m.countdown c (g.blockStart (g.blockNum a.addr)) ≠ 0) :
    a.call m = .ok (0,
      { m.missed c (g.blockStart (g.blockNum a.addr)) with dmemStatus := .inFlight }) := by
  have hloop := h.cacheLoop_missed a.operation (a.fillBase c) 7 hg hwait
  have hself : { m.missed c (g.blockStart (g.blockNum a.addr)) with
      cache := some c, dmemStatus := .inFlight } =
      { m.missed c (g.blockStart (g.blockNum a.addr)) with dmemStatus := .inFlight } := by
    rw [← hcache]
    rfl
  cases a with
  | read addr =>
    rw [DataAccess.call, hcache]
    dsimp only
    rw [memReadCache, show cacheLoop .read (fun _ => blockAddress c addr) 8 addr c m = _ from hloop]
    exact congrArg (fun m' => Except.ok (0, m')) hself
  | write addr data =>
    rw [DataAccess.call, hcache]
    dsimp only
    rw [memWriteCache, show cacheLoop .write id 8 addr c m = _ from hloop]
    exact congrArg (fun m' => Except.ok (0, m')) hself

/-- **The call that ends a miss** completes; one probe missed and seven hit. -/
theorem call_fill {m : Memory} (hcache : m.cache = some c) {a : DataAccess}
    (hal : a.addr.toNat % 8 = 0) (hg : getLine c a.addr = none)
    (hdone : m.countdown c (g.blockStart (g.blockNum a.addr)) = 0) :
    ∃ v c' m', a.call m = .ok (v, m') ∧ m'.cache = some c' ∧ c'.WellTagged g ∧
      c'.bare = (accessData c m.counts a.addr a.operation).1.bare ∧ getLine c' a.addr ≠ none ∧
      m'.counts = (accessData c m.counts a.addr a.operation).2.hits 7 ∧
      m'.inflight = false ∧ m'.inflightCycles = 0 ∧ m'.dmemStatus = .ready := by
  obtain ⟨c₁, m₁, hloop, hbare₁, hcounts₁, hinflight₁, hcycles₁, j, hu⟩ :=
    h.cacheLoop_filled a.operation (a.fillBase c) (g.word_in_block hal) hg hdone
  obtain ⟨v, c', m', hcall, hc', hw', hbare, hl, hcounts, hinflight, hcycles, hst⟩ :=
    h.call_of_cacheLoop hcache hal hloop hu
  exact ⟨v, c', m', hcall, hc', hw', hbare.trans hbare₁, hl, hcounts.trans hcounts₁,
    hinflight.trans hinflight₁, hcycles.trans hcycles₁, hst⟩

end Cache.WellTagged

/-! ## Retrying -/

/-- The counters after `n` calls that had to wait. -/
def Counters.stalls (k : Counters) (n : Nat) : Counters := { k with missCount := k.missCount + n }

/-- An access counts the same whatever was counted before. -/
theorem accessData_stalls (c : Cache) (k : Counters) (n : Nat) (addr : Word)
    (operation : Operation) :
    accessData c (k.stalls n) addr operation =
      ((accessData c k addr operation).1, (accessData c k addr operation).2.stalls n) := by
  cases hj : getLine c addr with
  | some j =>
    rw [accessData_of_some hj, accessData_of_some hj]
    rfl
  | none =>
    have hmiss : (k.stalls n).miss = k.miss.stalls n := by
      simp only [Counters.stalls, Counters.miss, Nat.add_right_comm]
    rw [accessData_of_none hj, accessData_of_none hj, hmiss]
    simp only [handleMiss]
    refine Prod.ext rfl ?_
    dsimp only
    split
    · split <;> rfl
    · rfl

/-- A call that waits leaves one call less to wait for. -/
theorem Memory.waits_missed {m : Memory} {g : Geometry} {c : Cache} {addr : Word}
    (hw : 0 < m.waits g c addr) :
    ({ m.missed c (g.blockStart (g.blockNum addr)) with dmemStatus := .inFlight } : Memory).waits
        g c addr + 1 = m.waits g c addr := by
  have hg : getLine c addr = none := by
    by_contra hg
    rw [waits, if_neg hg] at hw
    exact absurd hw (lt_irrefl 0)
  rw [waits, if_pos hg] at hw ⊢
  rw [waits, if_pos hg, countdown, if_neg (by simp [missed]), BitVec.toNat_sub, BitVec.toNat_ofNat]
  have := (m.countdown c (g.blockStart (g.blockNum addr))).isLt
  dsimp only [missed]
  omega

/-- No call has to be waited for exactly when the block is resident or its miss is over. -/
theorem Memory.waits_eq_zero_iff {m : Memory} {g : Geometry} {c : Cache} {addr : Word} :
    m.waits g c addr = 0 ↔
      (getLine c addr = none → m.countdown c (g.blockStart (g.blockNum addr)) = 0) := by
  unfold waits
  by_cases hg : getLine c addr = none
  · rw [if_pos hg]
    exact ⟨fun h0 _ => BitVec.eq_of_toNat_eq h0, fun h0 => congrArg BitVec.toNat (h0 hg)⟩
  · rw [if_neg hg]
    exact ⟨fun _ h => absurd h hg, fun _ => rfl⟩

/-- An access with no miss in flight waits for less than the miss delay. -/
theorem Cache.WellTagged.waits_idle {c : Cache} {g : Geometry} (h : c.WellTagged g) (hd : 1 ≤ g.d)
    {m : Memory} (hidle : m.inflight = false) (addr : Word) :
    m.waits g c addr = if getLine c addr = none then g.d - 1 else 0 := by
  have hdlt := g.d_lt
  have hdelay : (c.d.setWidth 64).toNat = g.d := by
    rw [BitVec.toNat_setWidth, h.fits.d_toNat, Nat.mod_eq_of_lt (by omega)]
  unfold Memory.waits
  refine if_congr Iff.rfl ?_ rfl
  rw [Memory.countdown, if_pos (Or.inr hidle), BitVec.toNat_sub, hdelay, BitVec.toNat_ofNat]
  omega

namespace Cache.WellTagged

variable {c : Cache} {g : Geometry} (h : c.WellTagged g)
include h

/-- A call that need not wait completes, as one `access_data` and seven more hits. -/
theorem call_ready {m : Memory} (hcache : m.cache = some c) {a : DataAccess}
    (hal : a.addr.toNat % 8 = 0) (hw : m.waits g c a.addr = 0) :
    ∃ v c' m', a.call m = .ok (v, m') ∧ m'.cache = some c' ∧ c'.WellTagged g ∧
      c'.bare = (accessData c m.counts a.addr a.operation).1.bare ∧ getLine c' a.addr ≠ none ∧
      m'.counts = (accessData c m.counts a.addr a.operation).2.hits 7 ∧
      m'.inflight = (if getLine c a.addr = none then false else m.inflight) ∧
      m'.dmemStatus = .ready := by
  by_cases hg : getLine c a.addr = none
  · obtain ⟨v, c', m', hcall, hc', hw', hbare, hl, hcounts, hinflight, -, hst⟩ :=
      h.call_fill hcache hal hg (Memory.waits_eq_zero_iff.1 hw hg)
    rw [if_pos hg]
    exact ⟨v, c', m', hcall, hc', hw', hbare, hl, hcounts, hinflight, hst⟩
  · rw [if_neg hg]
    exact h.call_resident hcache hal hg

/-- A call that has to wait. -/
theorem call_waits {m : Memory} (hcache : m.cache = some c) {a : DataAccess}
    (hw : 0 < m.waits g c a.addr) :
    getLine c a.addr = none ∧ a.call m = .ok (0,
      { m.missed c (g.blockStart (g.blockNum a.addr)) with dmemStatus := .inFlight }) := by
  have hne : ¬ m.waits g c a.addr = 0 := hw.ne'
  rw [Memory.waits_eq_zero_iff, Classical.not_imp] at hne
  exact ⟨hne.1, h.call_wait hcache hne.1 hne.2⟩

/-- **A retried access** is one `access_data`, seven more hits and a miss for every wait. -/
theorem retry_spec {a : DataAccess} (hal : a.addr.toNat % 8 = 0) {n : Nat} {m : Memory}
    (hcache : m.cache = some c) (hn : m.waits g c a.addr < n) :
    ∃ v c' m', a.retry n m = some (v, m') ∧ m'.cache = some c' ∧ c'.WellTagged g ∧
      c'.bare = (accessData c m.counts a.addr a.operation).1.bare ∧
      m'.counts = ((accessData c m.counts a.addr a.operation).2.hits 7).stalls
        (m.waits g c a.addr) ∧
      m'.inflight = (if getLine c a.addr = none then false else m.inflight) := by
  induction n generalizing m with
  | zero => exact absurd hn (Nat.not_lt_zero _)
  | succ n ih =>
    rcases Nat.eq_zero_or_pos (m.waits g c a.addr) with hw | hw
    · obtain ⟨v, c', m', hcall, hc', hw', hbare, -, hcounts, hinflight, hst⟩ :=
        h.call_ready hcache hal hw
      refine ⟨v, c', m', ?_, hc', hw', hbare, ?_, hinflight⟩
      · rw [DataAccess.retry, hcall]
        exact if_pos hst
      · rw [hcounts, hw]
        rfl
    · obtain ⟨hg, hcall⟩ := h.call_waits hcache hw
      have hwaits := m.waits_missed hw
      obtain ⟨v, c', m', hretry, hc', hw', hbare, hcounts, hinflight⟩ :=
        ih (m := { m.missed c (g.blockStart (g.blockNum a.addr)) with dmemStatus := .inFlight })
          hcache (by omega)
      have hmiss : m.counts.miss = m.counts.stalls 1 := rfl
      have haccess := accessData_stalls c m.counts 1 a.addr a.operation
      refine ⟨v, c', m', ?_, hc', hw', hbare.trans ?_, hcounts.trans ?_, ?_⟩
      · rw [DataAccess.retry, hcall]
        exact hretry
      · dsimp only [Memory.missed]
        rw [hmiss, haccess]
      · dsimp only [Memory.missed]
        rw [hmiss, haccess, ← hwaits]
        simp only [Counters.stalls, Counters.hits, Memory.missed, hmiss, Counters.mk.injEq, and_true]
        omega
      · rw [hinflight, if_pos hg, if_pos hg]

end Cache.WellTagged

/-! ## Reachable memory systems -/

/-- The memory systems a run can reach from one whose cache is empty: by data accesses, by reads of
any width at any address, and by steps that leave the cache alone. -/
inductive Driven (g : Geometry) : Memory → Prop where
  | fresh {m : Memory} (hcache : m.cache = some g.cache) : Driven g m
  | call {m m' : Memory} {v : Word} (h : Driven g m) (a : DataAccess)
      (hcall : a.call m = .ok (v, m')) : Driven g m'
  | read {m m' : Memory} {c : Cache} {addr v : Word} {width : Nat} (h : Driven g m)
      (hcache : m.cache = some c) (hread : memReadCache c m addr width = .ok (v, m')) : Driven g m'
  | other {m m' : Memory} (h : Driven g m) (hcache : m'.cache = m.cache) : Driven g m'

/-- **Every reachable cache is well tagged.** -/
theorem Driven.tagged {g : Geometry} {m : Memory} (h : Driven g m) :
    ∃ c, m.cache = some c ∧ c.WellTagged g := by
  induction h with
  | fresh hcache => exact ⟨g.cache, hcache, g.cache_wellTagged⟩
  | call h a hcall ih =>
    obtain ⟨c, hc, hw⟩ := ih
    rw [DataAccess.call.eq_def, hc] at hcall
    cases a with
    | read addr => exact hw.of_memReadCache hcall
    | write addr data =>
      dsimp only at hcall
      rename_i m m' v
      cases hwrite : memWriteCache c m addr data 8 with
      | error e =>
        rw [hwrite] at hcall
        cases hcall
      | ok m₁ =>
        rw [hwrite] at hcall
        obtain ⟨-, rfl⟩ := Prod.mk.inj (Except.ok.inj hcall)
        exact hw.of_memWriteCache hwrite
  | read h hcache hread ih =>
    obtain ⟨c, hc, hw⟩ := ih
    obtain rfl := Option.some.inj (hc.symm.trans hcache)
    exact hw.of_memReadCache hread
  | other h hcache ih =>
    obtain ⟨c, hc, hw⟩ := ih
    exact ⟨c, hcache.trans hc, hw⟩

theorem resident_iff {m : Memory} {c : Cache} (hcache : m.cache = some c) (addr : Word) :
    m.resident addr = true ↔ getLine c addr ≠ none := by
  rw [Memory.resident, hcache, Option.isSome_iff_ne_none]

end ChArm
