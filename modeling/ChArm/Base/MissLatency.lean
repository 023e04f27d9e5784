import ChArm.Base.CacheAccess

/-!
# How long a miss takes

The countdown of a miss starts at the delay `d`, or goes on where another requester
left it if one is already running for the block; every call decrements it before
it tests it.  So a repeated access waits for `max (d - 1) 0` calls exactly when it
starts from `max d 1` (`latency_iff`): never for a miss that starts with `d = 0`,
whose counter wraps to 2^64 - 1.

* `latency_of_waits`, `waits_of_latency` — the latency of an absent block, from the countdown.
* `latency_iff` — for every memory system that calls lead to.
-/

namespace ChArm

/-- What the countdown of a miss on a block is at before the next call decrements it. -/
def Memory.delay (m : Memory) (c : Cache) (block : Word) : Word :=
  if m.inflightAddr ≠ block ∨ m.inflight = false then c.d.setWidth 64 else m.inflightCycles

/-- The memory system after the access was attempted `k` times. -/
def DataAccess.after (a : DataAccess) : Nat → Memory → Option Memory
  | 0, m => some m
  | k + 1, m => (a.after k m).bind fun m =>
      match a.call m with
      | .ok (_, m) => some m
      | .error _ => none

/-- A resident block is ready at once.  An absent one is in flight for `max (d - 1) 0` calls, in which
the countdown falls from below `d` without wrapping, and then ready, resident and no longer in
flight.  The subtraction is the one of natural numbers. -/
structure Latency (g : Geometry) (a : DataAccess) (m : Memory) : Prop where
  hit : m.resident a.addr = true → ∃ m', a.after 1 m = some m' ∧ m'.dmemStatus = .ready
  pending : m.resident a.addr = false → ∀ k, 1 ≤ k → k ≤ g.d - 1 →
    ∃ m', a.after k m = some m' ∧ m'.dmemStatus = .inFlight
  ready : m.resident a.addr = false → ∃ m', a.after (g.d - 1 + 1) m = some m' ∧
    m'.dmemStatus = .ready ∧ m'.resident a.addr = true ∧ m'.inflight = false
  decreases : m.resident a.addr = false → ∀ k, 1 ≤ k → k ≤ g.d - 1 → ∀ m₁ m₂,
    a.after k m = some m₁ → a.after (k + 1) m = some m₂ → m₂.inflightCycles < m₁.inflightCycles
  bounded : m.resident a.addr = false → ∀ k, 1 ≤ k → k ≤ g.d - 1 + 1 → ∀ m',
    a.after k m = some m' → m'.inflightCycles.toNat ≤ g.d

theorem DataAccess.after_succ {a : DataAccess} {k : Nat} {m m₁ m₂ : Memory} {v : Word}
    (h : a.after k m = some m₁) (hcall : a.call m₁ = .ok (v, m₂)) : a.after (k + 1) m = some m₂ := by
  rw [DataAccess.after, h, Option.bind_some, hcall]

theorem Memory.waits_eq_delay {m : Memory} {g : Geometry} {c : Cache} {addr : Word}
    (hg : getLine c addr = none) :
    m.waits g c addr = (m.delay c (g.blockStart (g.blockNum addr)) - 1#64).toNat := by
  rw [Memory.waits, if_pos hg]
  rfl

namespace Cache.WellTagged

variable {c : Cache} {g : Geometry} (h : c.WellTagged g) {m : Memory} (hcache : m.cache = some c)
  {a : DataAccess}
include h hcache

/-- The calls that wait, one after the other. -/
theorem after_waits {k : Nat} (hk : k ≤ m.waits g c a.addr) :
    ∃ m', a.after k m = some m' ∧ m'.cache = some c ∧
      m'.waits g c a.addr + k = m.waits g c a.addr ∧
      (1 ≤ k → m'.dmemStatus = .inFlight ∧
        m'.inflightCycles.toNat + k = m.waits g c a.addr + 1) := by
  induction k with
  | zero => exact ⟨m, rfl, hcache, rfl, fun h0 => absurd h0 (by decide)⟩
  | succ k ih =>
    obtain ⟨m₁, hafter, hc₁, hwaits, -⟩ := ih (by omega)
    have hpos : 0 < m₁.waits g c a.addr := by omega
    obtain ⟨hg, hcall⟩ := h.call_waits hc₁ hpos
    have hnext := m₁.waits_missed hpos
    refine ⟨_, DataAccess.after_succ hafter hcall, hc₁, by omega, fun _ => ⟨rfl, ?_⟩⟩
    have hcycles : (m₁.countdown c (g.blockStart (g.blockNum a.addr))).toNat =
        m₁.waits g c a.addr := by
      rw [Memory.waits, if_pos hg]
    dsimp only [Memory.missed]
    omega

/-- The call after them completes. -/
theorem after_ready (hal : a.addr.toNat % 8 = 0) :
    ∃ m', a.after (m.waits g c a.addr + 1) m = some m' ∧ m'.dmemStatus = .ready ∧
      m'.resident a.addr = true ∧
      (getLine c a.addr = none → m'.inflight = false ∧ m'.inflightCycles = 0) := by
  obtain ⟨m₁, hafter, hc₁, hwaits, -⟩ := h.after_waits hcache (a := a) le_rfl
  have hw : m₁.waits g c a.addr = 0 := by omega
  by_cases hg : getLine c a.addr = none
  · obtain ⟨v, c', m', hcall, hc', -, -, hl, -, hinflight, hcycles, hst⟩ :=
      h.call_fill hc₁ hal hg (Memory.waits_eq_zero_iff.1 hw hg)
    exact ⟨m', DataAccess.after_succ hafter hcall, hst, (resident_iff hc' _).2 hl,
      fun _ => ⟨hinflight, hcycles⟩⟩
  · obtain ⟨v, c', m', hcall, hc', -, -, hl, -, -, hst⟩ := h.call_resident hc₁ hal hg
    exact ⟨m', DataAccess.after_succ hafter hcall, hst, (resident_iff hc' _).2 hl,
      fun hn => absurd hn hg⟩

/-- An absent block has the latency the delay promises when as many calls have to wait. -/
theorem latency_of_waits (hal : a.addr.toNat % 8 = 0) (hg : getLine c a.addr = none)
    (hwaits : m.waits g c a.addr = g.d - 1) : Latency g a m := by
  have habsent : ¬ m.resident a.addr = true := fun hr => (resident_iff hcache _).1 hr hg
  obtain ⟨m₀, hafter₀, hst₀, hres₀, hend⟩ := h.after_ready hcache hal
  obtain ⟨hinflight₀, hcycles₀⟩ := hend hg
  rw [hwaits] at hafter₀
  have hcycles : ∀ k, 1 ≤ k → k ≤ g.d - 1 → ∀ m', a.after k m = some m' →
      m'.inflightCycles.toNat + k = g.d - 1 + 1 := by
    intro k h1 hk m' hm'
    obtain ⟨m₁, hafter, -, -, hst⟩ := h.after_waits hcache (a := a) (k := k) (by omega)
    obtain rfl := Option.some.inj (hafter.symm.trans hm')
    rw [← hwaits]
    exact (hst h1).2
  refine ⟨fun hr => absurd hr habsent, fun _ k h1 hk => ?_, fun _ => ?_, fun _ k h1 hk m₁ m₂ h₁ h₂ => ?_,
    fun _ k h1 hk m' hm' => ?_⟩
  · obtain ⟨m', hafter, -, -, hst⟩ := h.after_waits hcache (a := a) (k := k) (by omega)
    exact ⟨m', hafter, (hst h1).1⟩
  · exact ⟨m₀, hafter₀, hst₀, hres₀, hinflight₀⟩
  · have hc₁ := hcycles k h1 hk m₁ h₁
    rw [BitVec.lt_def]
    rcases Nat.lt_or_ge k (g.d - 1) with hlt | hge
    · have hc₂ := hcycles (k + 1) (by omega) (by omega) m₂ h₂
      omega
    · -- the last of the calls that wait: the next one ends the miss
      obtain rfl : k = g.d - 1 := by omega
      obtain rfl := Option.some.inj (hafter₀.symm.trans h₂)
      rw [hcycles₀]
      exact (by omega : 0 < m₁.inflightCycles.toNat)
  · rcases Nat.lt_or_ge (g.d - 1) k with hlt | hge
    · obtain rfl : k = g.d - 1 + 1 := by omega
      obtain rfl := Option.some.inj (hafter₀.symm.trans hm')
      rw [hcycles₀]
      exact Nat.zero_le _
    · have := hcycles k h1 hge m' hm'
      omega

/-- An absent block that has the latency the delay promises makes as many calls wait. -/
theorem waits_of_latency (hal : a.addr.toNat % 8 = 0) (hg : getLine c a.addr = none)
    (hlat : Latency g a m) : m.waits g c a.addr = g.d - 1 := by
  have habsent : m.resident a.addr = false :=
    Bool.eq_false_iff.2 fun hr => (resident_iff hcache _).1 hr hg
  obtain ⟨m₀, hafter₀, hst₀, -⟩ := h.after_ready hcache hal
  rcases Nat.lt_trichotomy (m.waits g c a.addr) (g.d - 1) with hlt | heq | hgt
  · obtain ⟨m', hafter, hst⟩ := hlat.pending habsent (m.waits g c a.addr + 1) (by omega) hlt
    obtain rfl := Option.some.inj (hafter₀.symm.trans hafter)
    rw [hst₀] at hst
    cases hst
  · exact heq
  · obtain ⟨m', hafter, hst, -⟩ := hlat.ready habsent
    obtain ⟨m₁, hafter₁, -, -, hst₁⟩ := h.after_waits hcache (a := a) (k := g.d - 1 + 1) hgt
    obtain rfl := Option.some.inj (hafter₁.symm.trans hafter)
    rw [(hst₁ (by omega)).1] at hst
    cases hst

end Cache.WellTagged

/-- **Miss latency.**  In every reachable memory system an aligned access has the latency its
delay promises if and only if its block is resident or the countdown starts at `max d 1`. -/
theorem latency_iff {g : Geometry} {m : Memory} (h : Driven g m) (a : DataAccess)
    (hal : a.addr.toNat % 8 = 0) :
    Latency g a m ↔ ∀ c, m.cache = some c → getLine c a.addr = none →
      (m.delay c (blockAddress c a.addr)).toNat = max g.d 1 := by
  obtain ⟨c, hcache, hw⟩ := h.tagged
  have hdlt := g.d_lt
  constructor
  · intro hlat c' hc' hg
    obtain rfl := Option.some.inj (hcache.symm.trans hc')
    have hwaits := hw.waits_of_latency hcache hal hg hlat
    rw [Memory.waits_eq_delay hg, ← hw.fits.blockAddress_eq, BitVec.toNat_sub,
      BitVec.toNat_ofNat] at hwaits
    have hlt := (m.delay c (blockAddress c a.addr)).isLt
    omega
  · intro hdelay
    by_cases hg : getLine c a.addr = none
    · refine hw.latency_of_waits hcache hal hg ?_
      have hstart := hdelay c hcache hg
      rw [hw.fits.blockAddress_eq] at hstart
      rw [Memory.waits_eq_delay hg, BitVec.toNat_sub, BitVec.toNat_ofNat]
      omega
    · have hres := (resident_iff hcache a.addr).2 hg
      have habsent : ¬ m.resident a.addr = false := by rw [hres]; decide
      obtain ⟨m', hafter, hst, -⟩ := hw.after_ready hcache hal
      have hw0 : m.waits g c a.addr = 0 := if_neg hg
      rw [hw0] at hafter
      exact ⟨fun _ => ⟨m', hafter, hst⟩, fun hr => absurd hr habsent, fun hr => absurd hr habsent,
        fun hr => absurd hr habsent, fun hr => absurd hr habsent⟩

/-- The first read of a fresh cache with a delay of three. -/
theorem latency_firstRead :
    Latency .oneLine (.read 0x800000#64) (Image.ofWords [] (some Geometry.oneLine.cache)).memory := by
  refine (latency_iff (.fresh rfl) (.read 0x800000#64) (by decide)).2 fun c hc _ => ?_
  obtain rfl := Option.some.inj hc
  decide

/-- Without a delay the first read is in flight where it should be ready. -/
theorem not_latency_noDelay :
    ¬ Latency .noDelay (.read 0x800000#64)
      (Image.ofWords [] (some Geometry.noDelay.cache)).memory := by
  intro hlat
  obtain ⟨m', hafter, hst, -⟩ := hlat.ready (by decide +kernel)
  have hfirst : ((DataAccess.read 0x800000#64).after 1
      (Image.ofWords [] (some Geometry.noDelay.cache)).memory).map Memory.dmemStatus =
        some .inFlight := by
    decide +kernel
  rw [show Geometry.noDelay.d - 1 + 1 = 1 from rfl] at hafter
  rw [hafter, Option.map_some, hst] at hfirst
  cases hfirst

end ChArm
