import ChArm.Base.CacheAccess
import ChArm.Base.Log

/-!
# The reported hits and misses

Every access probes the cache for each of its eight bytes and again for every cycle
it waits.  With a miss delay of `d` a miss counts `d` misses and seven hits, a hit eight
hits (`Counted`).  `log_machine_state` divides the misses by `d`, which undoes the
waiting, but takes only one hit off for a miss, so it prints eight hits for an access that
hits and six for one that misses (`cacheCounts_retryAll`).

Whatever else goes to the cache is counted as well: a loop counts a hit or a miss for each of its
rounds (`Cache.WellTagged.counts_cacheByte`), and an access that completes has at least seven hits
(`Cache.WellTagged.hits_of_completes`).

* `Counted.retryAll` — the counters after a sequence of accesses.
* `cacheCounts_retryAll` — what is printed of them.
* `Cache.WellTagged.counts_cacheLoop` — no loop goes uncounted.
-/

namespace ChArm

/-- How many accesses of a sequence, each retried at most `n` times, find their block absent
when they are first attempted. -/
def firstMisses (n : Nat) : Memory → List DataAccess → Nat
  | _, [] => 0
  | m, a :: as =>
      (if m.resident a.addr then 0 else 1) +
        match a.retry n m with
        | some (_, m) => firstMisses n m as
        | none => 0

/-- What one `access_data` adds to the hits and to the misses. -/
theorem hits_misses_accessData (c : Cache) (k : Counters) (addr : Word) (operation : Operation) :
    (accessData c k addr operation).2.hitCount =
        k.hitCount + (if getLine c addr = none then 0 else 1) ∧
      (accessData c k addr operation).2.missCount =
        k.missCount + (if getLine c addr = none then 1 else 0) := by
  cases hj : getLine c addr with
  | some j =>
    rw [accessData_of_some hj]
    exact ⟨rfl, rfl⟩
  | none =>
    rw [accessData_of_none hj]
    simp only [handleMiss, if_true]
    split
    · split <;> exact ⟨rfl, rfl⟩
    · exact ⟨rfl, rfl⟩

/-- An access that still has to wait for `n` calls is not ready after `n` of them. -/
theorem Cache.WellTagged.retry_none {c : Cache} {g : Geometry} (h : c.WellTagged g) {a : DataAccess}
    {n : Nat} {m : Memory} (hcache : m.cache = some c) (hn : n ≤ m.waits g c a.addr) :
    a.retry n m = none := by
  induction n generalizing m with
  | zero => rfl
  | succ n ih =>
    obtain ⟨-, hcall⟩ := h.call_waits hcache (a := a) (by omega)
    have hpos : 0 < m.waits g c a.addr := by omega
    have hwaits := m.waits_missed hpos
    rw [DataAccess.retry, hcall]
    refine ih (m := { m.missed c (g.blockStart (g.blockNum a.addr)) with dmemStatus := .inFlight })
      hcache ?_
    omega

/-- The counters of a memory system in which `hits` accesses hit and `misses` missed. -/
structure Counted (g : Geometry) (k : Counters) (hits misses : Nat) (m : Memory) : Prop where
  cache : ∃ c, m.cache = some c ∧ c.WellTagged g
  idle : m.inflight = false
  hitCount : 1 ≤ g.d → m.counts.hitCount = k.hitCount + 8 * hits + 7 * misses
  missCount : 1 ≤ g.d → m.counts.missCount = k.missCount + g.d * misses

namespace Counted

variable {g : Geometry} {k : Counters} {hits misses : Nat} {m : Memory}

/-- One access that has completed. -/
theorem retry (h : Counted g k hits misses m) {n : Nat} {a : DataAccess}
    (hal : a.addr.toNat % 8 = 0) {v : Word} {m' : Memory} (hr : a.retry n m = some (v, m')) :
    Counted g k (hits + if m.resident a.addr then 1 else 0)
      (misses + if m.resident a.addr then 0 else 1) m' := by
  obtain ⟨c, hcache, hw⟩ := h.cache
  have hwaits : m.waits g c a.addr < n := by
    by_contra hn
    rw [hw.retry_none hcache (Nat.not_lt.1 hn)] at hr
    cases hr
  obtain ⟨v₁, c', m₁, hretry, hc', hw', -, hcounts, hinflight⟩ := hw.retry_spec hal hcache hwaits
  obtain ⟨rfl, rfl⟩ := Prod.mk.inj (Option.some.inj (hretry.symm.trans hr))
  obtain ⟨hhit, hmiss⟩ := hits_misses_accessData c m.counts a.addr a.operation
  refine ⟨⟨c', hc', hw'⟩, by rw [hinflight, h.idle, ite_self], fun hd => ?_, fun hd => ?_⟩
  · rw [hcounts]
    simp only [Counters.stalls, Counters.hits]
    rw [hhit, h.hitCount hd]
    by_cases hg : getLine c a.addr = none
    · have hb : ¬ m.resident a.addr = true := fun hb => (resident_iff hcache _).1 hb hg
      rw [if_pos hg, if_neg hb, if_neg hb]
      omega
    · have hb : m.resident a.addr = true := (resident_iff hcache _).2 hg
      rw [if_neg hg, if_pos hb, if_pos hb]
      omega
  · rw [hcounts]
    simp only [Counters.stalls, Counters.hits]
    rw [hmiss, h.missCount hd, hw.waits_idle hd h.idle]
    by_cases hg : getLine c a.addr = none
    · have hb : ¬ m.resident a.addr = true := fun hb => (resident_iff hcache _).1 hb hg
      rw [if_pos hg, if_pos hg, if_neg hb, Nat.mul_add_one]
      omega
    · have hb : m.resident a.addr = true := (resident_iff hcache _).2 hg
      rw [if_neg hg, if_neg hg, if_pos hb]
      rfl

/-- A sequence of accesses that have completed. -/
theorem retryAll {n : Nat} {as : List DataAccess} (hal : ∀ a ∈ as, a.addr.toNat % 8 = 0)
    (h : Counted g k hits misses m) {vs : List Word} {m' : Memory}
    (hr : retryAll n m as = some (vs, m')) :
    firstMisses n m as ≤ as.length ∧
      Counted g k (hits + (as.length - firstMisses n m as)) (misses + firstMisses n m as) m' := by
  induction as generalizing m hits misses vs with
  | nil =>
    obtain ⟨rfl, rfl⟩ := Prod.mk.inj (Option.some.inj hr)
    exact ⟨le_rfl, h⟩
  | cons a as ih =>
    rw [ChArm.retryAll] at hr
    cases hretry : a.retry n m with
    | none => simp [hretry] at hr
    | some r =>
      obtain ⟨v, m₁⟩ := r
      simp only [hretry, Option.bind_eq_bind, Option.bind_some] at hr
      cases hrest : ChArm.retryAll n m₁ as with
      | none => simp [hrest] at hr
      | some r =>
        obtain ⟨vs', m₂⟩ := r
        simp only [hrest, Option.bind_some, Option.some_inj, Prod.mk.injEq] at hr
        obtain ⟨-, rfl⟩ := hr
        obtain ⟨hle, h'⟩ := ih (fun b hb => hal b (List.mem_cons_of_mem a hb))
          (h.retry (hal a List.mem_cons_self) hretry) hrest
        have hfirst : firstMisses n m (a :: as) =
            (if m.resident a.addr then 0 else 1) + firstMisses n m₁ as := by
          rw [firstMisses, hretry]
        rw [hfirst, List.length_cons]
        by_cases hb : m.resident a.addr = true
        · simp only [hb, if_true] at h' ⊢
          refine ⟨by omega, ?_⟩
          convert h' using 1 <;> omega
        · simp only [hb, if_false, Bool.false_eq_true] at h' ⊢
          refine ⟨by omega, ?_⟩
          convert h' using 1 <;> omega

/-- What is printed. -/
theorem cacheCounts_eq (h : Counted g .zero hits misses m) {c : Cache} (hcache : m.cache = some c)
    {r : Int × Int} (hr : cacheCounts c m.counts = some r) :
    1 ≤ g.d ∧ r = (8 * (hits : Int) + 6 * misses, (misses : Int)) := by
  obtain ⟨c₁, hc₁, hw⟩ := h.cache
  obtain rfl : c₁ = c := Option.some.inj (hc₁.symm.trans hcache)
  rw [cacheCounts] at hr
  split at hr
  · cases hr
  · rename_i hdef
    have hd : 1 ≤ g.d := by
      rw [← hw.fits.d_toNat]
      by_contra h0
      exact hdef (Or.inl (BitVec.eq_of_toNat_eq (by simpa using h0)))
    refine ⟨hd, ?_⟩
    have hhit := h.hitCount hd
    have hmiss := h.missCount hd
    simp only [Counters.zero, Nat.zero_add] at hhit hmiss
    rw [hmiss, hw.fits.d_toNat, Nat.mul_div_cancel_left _ hd, hhit] at hr
    rw [← Option.some.inj hr, Prod.mk.injEq]
    refine ⟨?_, rfl⟩
    push_cast
    ring

end Counted

/-- **What is printed after a sequence of accesses.**  From a fresh cache every access that found its
block adds eight to the number of hits, and every other one six. -/
theorem cacheCounts_retryAll (g : Geometry) (m : Memory) (hcache : m.cache = some g.cache)
    (hcounts : m.counts = .zero) (hidle : m.inflight = false) (n : Nat) (as : List DataAccess)
    (hal : ∀ a ∈ as, a.addr.toNat % 8 = 0) (vs : List Word) (m' : Memory)
    (hrun : retryAll n m as = some (vs, m')) {c' : Cache} (hc' : m'.cache = some c')
    {r : Int × Int} (hr : cacheCounts c' m'.counts = some r) :
    r = (8 * ((as.length - firstMisses n m as : Nat) : Int) + 6 * (firstMisses n m as : Nat),
      ((firstMisses n m as : Nat) : Int)) := by
  have h : Counted g .zero 0 0 m :=
    ⟨⟨g.cache, hcache, g.cache_wellTagged⟩, hidle, fun _ => by rw [hcounts]; rfl,
      fun _ => by rw [hcounts]; rfl⟩
  obtain ⟨-, h'⟩ := h.retryAll hal hrun
  rw [Nat.zero_add, Nat.zero_add] at h'
  exact (h'.cacheCounts_eq hc' hr).2

/-! ## What one call counts -/

namespace Cache.WellTagged

variable {c : Cache} {g : Geometry} (h : c.WellTagged g)
include h

/-- One round of the byte loop counts a hit or a miss. -/
theorem counts_cacheByte (operation : Operation) (fillBase : Word → Word) (m : Memory) (x : Word) :
    m.counts.hitCount ≤ (cacheByte operation fillBase c m x).2.2.counts.hitCount ∧
      (cacheByte operation fillBase c m x).2.2.counts.hitCount +
          (cacheByte operation fillBase c m x).2.2.counts.missCount =
        m.counts.hitCount + m.counts.missCount + 1 := by
  cases hj : getLine c x with
  | some j =>
    rw [cacheByte, checkHit_of_some hj]
    exact ⟨Nat.le_succ _, by dsimp only; omega⟩
  | none =>
    rw [h.cacheByte_absent operation fillBase hj]
    split
    · exact ⟨le_rfl, by simp only [Memory.missed, Counters.miss]; omega⟩
    · obtain ⟨-, hcounts, -⟩ := h.completeMiss_accessData operation
        (fillBase (g.blockStart (g.blockNum x))) hj m
      obtain ⟨hhit, hmiss⟩ := hits_misses_accessData c m.counts x operation
      rw [if_pos hj] at hhit hmiss
      dsimp only
      rw [hcounts, hhit, hmiss]
      exact ⟨le_rfl, by omega⟩

/-- A loop counts at least one hit or miss, and never takes one back. -/
theorem counts_cacheLoop (operation : Operation) (fillBase : Word → Word) (n : Nat) (x : Word)
    (m : Memory) :
    m.counts.hitCount ≤ (cacheLoop operation fillBase (n + 1) x c m).2.2.counts.hitCount ∧
      m.counts.hitCount + m.counts.missCount + 1 ≤
        (cacheLoop operation fillBase (n + 1) x c m).2.2.counts.hitCount +
          (cacheLoop operation fillBase (n + 1) x c m).2.2.counts.missCount := by
  induction n generalizing x c m with
  | zero =>
    obtain ⟨hle, hsum⟩ := h.counts_cacheByte operation fillBase m x
    rw [cacheLoop]
    rcases hb : cacheByte operation fillBase c m x with ⟨_ | _, c₁, m₁⟩ <;> rw [hb] at hle hsum
    · exact ⟨hle, hsum.ge⟩
    · exact ⟨hle, hsum.ge⟩
  | succ n ih =>
    obtain ⟨hle, hsum⟩ := h.counts_cacheByte operation fillBase m x
    have htagged := h.cacheByte_tagged operation fillBase m x
    rw [cacheLoop]
    rcases hb : cacheByte operation fillBase c m x with ⟨_ | _, c₁, m₁⟩ <;> rw [hb] at hle hsum htagged
    · dsimp only at hle hsum htagged ⊢
      obtain ⟨hle₁, hsum₁⟩ := ih htagged (x + 1#64) m₁
      exact ⟨hle.trans hle₁, by omega⟩
    · exact ⟨hle, hsum.ge⟩

/-- An access that completes hits with all bytes but at most one. -/
theorem hits_of_completes {c' : Cache} {operation : Operation} {fillBase : Word → Word}
    {addr : Word} (hfit : g.fitsBlock addr = true) {m m' : Memory}
    (hloop : cacheLoop operation fillBase 8 addr c m = (false, c', m')) :
    m.counts.hitCount + 7 ≤ m'.counts.hitCount := by
  have hblock := (g.bytesInBlock_spec addr).2.2
  rw [(g.bytesInBlock_eq_iff addr).2 hfit] at hblock
  cases hg : getLine c addr with
  | some j =>
    rw [h.cacheLoop_resident operation fillBase hblock hg] at hloop
    cases hloop
    simp only [Counters.hits]
    omega
  | none =>
    by_cases hdone : m.countdown c (g.blockStart (g.blockNum addr)) = 0
    · obtain ⟨-, hcounts, -⟩ := h.completeMiss_accessData operation
        (fillBase (g.blockStart (g.blockNum addr))) hg m
      rw [(h.cacheLoop_completes operation fillBase hblock hg hdone rfl).1] at hloop
      have hhits := (hits_misses_accessData c m.counts addr operation).1
      rw [if_pos hg] at hhits
      cases hloop
      simp only [Counters.hits, hcounts, hhits]
      omega
    · rw [h.cacheLoop_missed operation fillBase 7 hg hdone] at hloop
      cases hloop

end Cache.WellTagged

end ChArm
