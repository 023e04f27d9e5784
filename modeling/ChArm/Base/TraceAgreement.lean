import ChArm.Base.CacheAccess
import ChArm.Cache.Inclusion

/-!
# The emulator's cache path and the trace simulator

The emulator drives the cache byte by byte, retries while a miss counts down and
fills the lines with data; the trace simulator calls `access_data` once for an
access.  Both leave the same cache up to the data of its lines
(`cachePath_accessData`).

* `accessData_congr` — an access depends on the bare cache only.
* `cachePath_accessData` — tags, dirty marks, victims and evictions after any sequence of accesses.
-/

namespace ChArm

/-- The call of `access_data` a data access stands for. -/
def DataAccess.traced (a : DataAccess) : Word × Operation := (a.addr, a.operation)

/-- The counters agree on the evictions. -/
def Counters.SameEvictions (k k' : Counters) : Prop :=
  k.dirtyEvictionCount = k'.dirtyEvictionCount ∧ k.cleanEvictionCount = k'.cleanEvictionCount

theorem Cache.bare_hit (c : Cache) (addr : Word) (operation : Operation) (j : Nat) :
    (c.hit addr operation j).bare = c.bare.hit addr operation j := by
  rw [Cache.hit, Cache.bare_putSet, CacheSet.bare_touch, CacheSet.bare_putLine]
  cases operation <;> rfl

/-- The evictions `handle_miss` counts. -/
theorem sameEvictions_handleMiss (c : Cache) {k k' : Counters} (hk : k.SameEvictions k')
    (addr : Word) (operation : Operation) (incoming : Option (Nat → Byte)) :
    (handleMiss c k addr operation incoming).2.2.SameEvictions
      (handleMiss c k' addr operation incoming).2.2 := by
  obtain ⟨hdirty, hclean⟩ := hk
  simp only [handleMiss]
  split
  · split
    · exact ⟨congrArg (· + 1) hdirty, hclean⟩
    · exact ⟨hdirty, congrArg (· + 1) hclean⟩
  · exact ⟨hdirty, hclean⟩

theorem accessData_bare (c : Cache) (k : Counters) (addr : Word) (operation : Operation) :
    (accessData c.bare k addr operation).1.bare = (accessData c k addr operation).1.bare ∧
      (accessData c.bare k addr operation).2 = (accessData c k addr operation).2 := by
  cases hj : getLine c addr with
  | some j =>
    have hjb : getLine c.bare addr = some j := hj
    rw [accessData_of_some hj, accessData_of_some hjb, Cache.bare_hit, Cache.bare_hit,
      Cache.bare_bare]
    exact ⟨rfl, rfl⟩
  | none =>
    have hjb : getLine c.bare addr = none := hj
    rw [accessData_of_none hj, accessData_of_none hjb]
    exact handleMiss_bare c k.miss addr operation none none

/-- **An access depends on the bare cache only**, and its evictions not on earlier counts. -/
theorem accessData_congr {c c' : Cache} (hc : c.bare = c'.bare) {k k' : Counters}
    (hk : k.SameEvictions k') (addr : Word) (operation : Operation) :
    (accessData c k addr operation).1.bare = (accessData c' k' addr operation).1.bare ∧
      (accessData c k addr operation).2.SameEvictions (accessData c' k' addr operation).2 := by
  obtain ⟨h1, h2⟩ := accessData_bare c k addr operation
  obtain ⟨h1', h2'⟩ := accessData_bare c' k' addr operation
  rw [← h1, ← h2, ← h1', ← h2', hc]
  cases hj : getLine c'.bare addr with
  | some j =>
    rw [accessData_of_some hj, accessData_of_some hj]
    exact ⟨rfl, hk⟩
  | none =>
    rw [accessData_of_none hj, accessData_of_none hj]
    have hmiss : k.miss.SameEvictions k'.miss := hk
    exact ⟨rfl, sameEvictions_handleMiss c'.bare hmiss addr operation none⟩

/-- The cache of the memory system is, up to the data, the cache of the simulator. -/
structure SameTrace (g : Geometry) (m : Memory) (t : Cache × Counters) : Prop where
  cache : ∃ c, m.cache = some c ∧ c.WellTagged g ∧ c.bare = t.1.bare
  evictions : m.counts.SameEvictions t.2
  idle : m.inflight = false

namespace SameTrace

variable {g : Geometry} {m : Memory} {t : Cache × Counters}

/-- One access, retried until it is ready, and one call of `access_data`. -/
theorem retry (h : SameTrace g m t) (hd : 1 ≤ g.d) {n : Nat} (hn : g.d ≤ n) {a : DataAccess}
    (hal : a.addr.toNat % 8 = 0) :
    ∃ v m', a.retry n m = some (v, m') ∧
      SameTrace g m' (accessData t.1 t.2 a.traced.1 a.traced.2) := by
  obtain ⟨c, hcache, hw, hbare⟩ := h.cache
  have hwaits : m.waits g c a.addr < n := by
    rw [hw.waits_idle hd h.idle]
    split <;> omega
  obtain ⟨v, c', m', hretry, hc', hw', hbare', hcounts, hinflight⟩ := hw.retry_spec hal hcache hwaits
  obtain ⟨hsame, hevict⟩ := accessData_congr hbare h.evictions a.addr a.operation
  refine ⟨v, m', hretry, ⟨c', hc', hw', hbare'.trans hsame⟩, ?_, ?_⟩
  · rw [hcounts]
    exact hevict
  · rw [hinflight, h.idle, ite_self]

/-- Any sequence of accesses. -/
theorem retryAll (hd : 1 ≤ g.d) {n : Nat} (hn : g.d ≤ n) {as : List DataAccess}
    (hal : ∀ a ∈ as, a.addr.toNat % 8 = 0) (h : SameTrace g m t) :
    ∃ vs m', retryAll n m as = some (vs, m') ∧
      SameTrace g m' (replayAccesses t.1 t.2 (as.map DataAccess.traced)) := by
  induction as generalizing m t with
  | nil => exact ⟨[], m, rfl, h⟩
  | cons a as ih =>
    obtain ⟨v, m₁, hretry, h₁⟩ := h.retry hd hn (hal a List.mem_cons_self)
    obtain ⟨vs, m₂, hrest, h₂⟩ := ih (fun b hb => hal b (List.mem_cons_of_mem a hb)) h₁
    refine ⟨v :: vs, m₂, ?_, h₂⟩
    rw [ChArm.retryAll, hretry]
    simp only [Option.bind_eq_bind, Option.bind_some, hrest]

end SameTrace

/-- The line `select_line` would replace in a set. -/
def CacheSet.victim (s : CacheSet) (A : Nat) : Nat := (selectLine s A).1

/-- **The emulator's cache path agrees with the trace simulator.**  From a fresh cache, after any
sequence of aligned accesses, each retried until it is ready, the eviction counters, the
resident tags with their dirty bits and the next victims are those of one `access_data` for each
access. -/
theorem cachePath_accessData (g : Geometry) (hd : 1 ≤ g.d) (m : Memory)
    (hcache : m.cache = some g.cache) (hidle : m.inflight = false) (n : Nat) (hn : g.d ≤ n)
    (as : List DataAccess) (hal : ∀ a ∈ as, a.addr.toNat % 8 = 0) :
    ∃ vs m' c', retryAll n m as = some (vs, m') ∧ m'.cache = some c' ∧
      let t := replayAccesses g.cache m.counts (as.map DataAccess.traced)
      m'.counts.dirtyEvictionCount = t.2.dirtyEvictionCount ∧
      m'.counts.cleanEvictionCount = t.2.cleanEvictionCount ∧
      (∀ i j, ((c'.sets i).lines j).valid = ((t.1.sets i).lines j).valid ∧
        ((c'.sets i).lines j).tag = ((t.1.sets i).lines j).tag ∧
        ((c'.sets i).lines j).dirty = ((t.1.sets i).lines j).dirty) ∧
      ∀ i, (c'.sets i).victim g.A = (t.1.sets i).victim g.A := by
  have h : SameTrace g m (g.cache, m.counts) :=
    ⟨⟨g.cache, hcache, g.cache_wellTagged, rfl⟩, ⟨rfl, rfl⟩, hidle⟩
  obtain ⟨vs, m', hrun, h'⟩ := h.retryAll hd hn hal
  obtain ⟨c', hc', -, hbare⟩ := h'.cache
  have hset : ∀ i, (c'.sets i).bare =
      ((replayAccesses g.cache m.counts (as.map DataAccess.traced)).1.sets i).bare :=
    fun i => congrFun (congrArg Cache.sets hbare) i
  refine ⟨vs, m', c', hrun, hc', h'.evictions.1, h'.evictions.2, fun i j => ?_, fun i => ?_⟩
  · have hline := congrFun (congrArg CacheSet.lines (hset i)) j
    exact ⟨(congrArg CacheLine.valid hline :), (congrArg CacheLine.tag hline :),
      (congrArg CacheLine.dirty hline :)⟩
  · have hvictim := congrArg (fun s => (selectLine s g.A).1) (hset i)
    simp only [selectLine_bare] at hvictim
    exact hvictim

/-- A write and two conflicting accesses in a cache of one line. -/
theorem cachePath_accessData_conflict :
    ∃ vs m' c', retryAll 3 (Image.ofWords [] (some Geometry.oneLine.cache)).memory
        [.write 0x800000#64 5#64, .read 0x800008#64, .read 0x800000#64] = some (vs, m') ∧
      m'.cache = some c' ∧ m'.counts.dirtyEvictionCount = 1 ∧ m'.counts.cleanEvictionCount = 1 := by
  obtain ⟨vs, m', c', hrun, hc', hdirty, hclean, -⟩ := cachePath_accessData .oneLine (by decide)
    (Image.ofWords [] (some Geometry.oneLine.cache)).memory rfl rfl 3 (by decide)
    [.write 0x800000#64 5#64, .read 0x800008#64, .read 0x800000#64] (by decide)
  have hcounts : (replayAccesses Geometry.oneLine.cache Counters.zero
      [(0x800000#64, .write), (0x800008#64, .read), (0x800000#64, .read)]).2 = ⟨3, 0, 1, 1⟩ := by
    decide +kernel
  exact ⟨vs, m', c', hrun, hc', hdirty.trans (congrArg Counters.dirtyEvictionCount hcounts),
    hclean.trans (congrArg Counters.cleanEvictionCount hcounts)⟩

end ChArm
