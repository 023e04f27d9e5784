import ChArm.Base.CacheStore
import ChArm.Base.Machine

/-!
# Cached memory means the same as flat memory

What the byte loops of `_mem_read_cache` and `_mem_write_cache` do to the store
of `ChArm.Base.CacheStore`, for accesses that stay inside one block: they hit
(`cacheLoop_hit`), wait (`cacheLoop_wait`) or fill (`cacheLoop_fill`).  From
these, one call keeps `Coherent` and, once the data is ready, reads and writes
the bytes that a flat memory would.

* `memReadCache_ready`, `memWriteCache_ready` — a call that need not wait.
* `memReadCache_waits`, `memWriteCache_waits` — a call that has to.
* `retryAll_flat` — a sequence of accesses, each repeated until it is ready.
* `cached_flat` — any sequence of calls at all.
-/

namespace ChArm

open WriteBack

/-! ## Countdowns -/

/-- The cycles left after this one for a miss on a block. -/
def Memory.countdown (m : Memory) (c : Cache) (block : Word) : Word :=
  (if m.inflightAddr ≠ block ∨ m.inflight = false then c.d.setWidth 64 else m.inflightCycles) - 1#64

theorem startInflight_eq (m : Memory) (c : Cache) (block : Word) :
    { startInflight m c block with
      inflightCycles := (startInflight m c block).inflightCycles - 1#64 } =
    { m with
      inflight := true
      inflightAddr := block
      inflightCycles := m.countdown c block } := by
  unfold startInflight Memory.countdown
  by_cases h : m.inflightAddr ≠ block ∨ m.inflight = false
  · simp only [if_pos h]
  · simp only [if_neg h]
    rw [not_or, not_not, Bool.not_eq_false] at h
    rw [← h.1, ← h.2]

/-- The counters after a probe that misses. -/
def Counters.miss (k : Counters) : Counters := { k with missCount := k.missCount + 1 }

/-- The memory system after one more probe for a block that is absent: the miss is counted
and one of its cycles is over. -/
def Memory.missed (m : Memory) (c : Cache) (block : Word) : Memory :=
  { m with
    counts := m.counts.miss
    inflight := true
    inflightAddr := block
    inflightCycles := m.countdown c block }

theorem dirtied_congr {g : Geometry} {a a' : Word} (haa : g.blockNum a = g.blockNum a')
    (operation : Operation) (s : Store Word Byte) :
    dirtied g operation a s = dirtied g operation a' s := by
  cases operation
  · rfl
  · rw [dirtied, dirtied, haa]

/-! ## The byte loop -/

/-- Is `a` one of the eight bytes from `addr` on? -/
def inWord (addr a : Word) : Bool := decide ((a - addr).toNat < 8)

/-- The byte a doubleword at `addr` puts at `a`. -/
def wordByte (addr val a : Word) : Byte := byteOf val (a - addr).toNat

namespace Cache.WellTagged

variable {c : Cache} {g : Geometry} (h : c.WellTagged g)
include h

/-- One round of the loop on a byte that is absent. -/
theorem cacheByte_absent (operation : Operation) (fillBase : Word → Word) {x : Word}
    (hg : getLine c x = none) (m : Memory) :
    cacheByte operation fillBase c m x =
      if 0 < m.countdown c (g.blockStart (g.blockNum x)) then
        (true, c,
          { m.missed c (g.blockStart (g.blockNum x)) with dmemStatus := .inFlight })
      else
        (false, completeMiss operation (fillBase (g.blockStart (g.blockNum x)))
          (g.blockStart (g.blockNum x)) c (m.missed c (g.blockStart (g.blockNum x)))) := by
  let block := blockAddress c x
  rw [← h.fits.blockAddress_eq]
  have hcode : cacheByte operation fillBase c m x = (fun m₁ : Memory =>
      if 0 < m₁.inflightCycles then (true, c, { m₁ with dmemStatus := .inFlight })
      else (false, completeMiss operation (fillBase block) block c m₁))
        { startInflight { m with counts := m.counts.miss } c block with
          inflightCycles :=
            (startInflight { m with counts := m.counts.miss } c block).inflightCycles - 1#64 } := by
    rw [cacheByte, h.checkHit_miss hg]
    rfl
  rwa [startInflight_eq] at hcode

theorem cacheByte_miss (operation : Operation) (fillBase : Word → Word) {x : Word}
    (hg : getLine c x = none) (m : Memory) :
    ∃ k, cacheByte operation fillBase c m x =
      if 0 < m.countdown c (g.blockStart (g.blockNum x)) then
        (true, c,
          { m with
            counts := k
            inflight := true
            inflightAddr := g.blockStart (g.blockNum x)
            inflightCycles := m.countdown c (g.blockStart (g.blockNum x))
            dmemStatus := .inFlight })
      else
        (false, completeMiss operation (fillBase (g.blockStart (g.blockNum x)))
          (g.blockStart (g.blockNum x)) c
            { m with
              counts := k
              inflight := true
              inflightAddr := g.blockStart (g.blockNum x)
              inflightCycles := m.countdown c (g.blockStart (g.blockNum x)) }) :=
  ⟨m.counts.miss, h.cacheByte_absent operation fillBase hg m⟩

/-- Over bytes of a block that is present the loop only hits. -/
theorem cacheLoop_hit (operation : Operation) (fillBase : Word → Word) {n : Nat} {x addr : Word}
    (hblock : ∀ k < n, g.blockNum (x + BitVec.ofNat 64 k) = g.blockNum addr)
    (hg : getLine c addr ≠ none) (m : Memory) :
    ∃ c' k, cacheLoop operation fillBase n x c m = (false, c', { m with counts := k }) ∧
      c'.WellTagged g ∧ (∀ a, getLine c' a = getLine c a) ∧
      ∀ pt, c'.contents pt =
        if n = 0 then c.contents pt else dirtied g operation addr (c.contents pt) := by
  induction n generalizing c x m with
  | zero => exact ⟨c, m.counts, rfl, h, fun _ => rfl, fun _ => rfl⟩
  | succ n ih =>
    have hx : g.blockNum x = g.blockNum addr := by simpa using hblock 0 (Nat.succ_pos n)
    have hgx : getLine c x ≠ none := by rwa [h.getLine_congr hx]
    obtain ⟨c₁, hhit, hw₁, hl₁, hs₁⟩ := h.checkHit_hit hgx m.counts operation
    obtain ⟨c₂, k₂, hloop, hw₂, hl₂, hs₂⟩ := ih hw₁ (g.blockNum_tail hblock) (by rwa [hl₁])
      { m with counts := { m.counts with hitCount := m.counts.hitCount + 1 } }
    refine ⟨c₂, k₂, ?_, hw₂, fun a => (hl₂ a).trans (hl₁ a), fun pt => ?_⟩
    · rw [cacheLoop, cacheByte, hhit]
      exact hloop
    · rw [hs₂, hs₁, dirtied_congr hx, if_neg (Nat.succ_ne_zero n)]
      by_cases hn : n = 0
      · rw [if_pos hn]
      · rw [if_neg hn, dirtied_dirtied]

/-- While a miss counts down the access waits. -/
theorem cacheLoop_wait (operation : Operation) (fillBase : Word → Word) (n : Nat) {x : Word}
    (hg : getLine c x = none) {m : Memory}
    (hwait : m.countdown c (g.blockStart (g.blockNum x)) ≠ 0) :
    ∃ k, cacheLoop operation fillBase (n + 1) x c m =
      (true, c,
        { m with
          counts := k
          inflight := true
          inflightAddr := g.blockStart (g.blockNum x)
          inflightCycles := m.countdown c (g.blockStart (g.blockNum x))
          dmemStatus := .inFlight }) := by
  obtain ⟨k, hbyte⟩ := h.cacheByte_miss operation fillBase hg m
  have hpos : 0 < m.countdown c (g.blockStart (g.blockNum x)) :=
    (BitVec.pos_iff_ne_zero _).2 hwait
  rw [if_pos hpos] at hbyte
  exact ⟨k, by rw [cacheLoop, hbyte]⟩

/-- At the end of the countdown the block comes in and the rest of the loop hits. -/
theorem cacheLoop_fill (operation : Operation) {fillBase : Word → Word} {n : Nat} {x : Word}
    (hbase : fillBase (g.blockStart (g.blockNum x)) = g.blockStart (g.blockNum x))
    (hblock : ∀ k < n + 1, g.blockNum (x + BitVec.ofNat 64 k) = g.blockNum x)
    (hg : getLine c x = none) {m : Memory}
    (hdone : m.countdown c (g.blockStart (g.blockNum x)) = 0) :
    ∃ c' k pt p, cacheLoop operation fillBase (n + 1) x c m =
        (false, c',
          { m with
            counts := k
            ptable := pt
            inflight := false
            inflightAddr := g.blockStart (g.blockNum x)
            inflightCycles := 0 }) ∧
      c'.WellTagged g ∧ getLine c' x ≠ none ∧
      c'.contents pt = dirtied g operation x (((c.contents m.ptable).evict p).fill
        (g.inBlock (g.blockNum x)) (operation = .write)) := by
  -- the first byte misses and ends the countdown
  obtain ⟨k, hbyte⟩ := h.cacheByte_miss operation fillBase hg m
  have hpos : ¬ 0 < m.countdown c (g.blockStart (g.blockNum x)) :=
    fun hpos => (BitVec.pos_iff_ne_zero _).1 hpos hdone
  rw [if_neg hpos, hbase, hdone] at hbyte
  have hstart := g.blockNum_blockStart x
  obtain ⟨c₁, pt, k₁, p, hmiss, hw₁, hs₁⟩ := h.completeMiss_spec
    (g.blockStart (g.blockNum x)) (by rw [hstart]) (by rwa [h.getLine_congr hstart])
    operation
    { m with
      counts := k
      inflight := true
      inflightAddr := g.blockStart (g.blockNum x)
      inflightCycles := 0 }
  rw [hstart] at hs₁
  have hl₁ : getLine c₁ x ≠ none := by
    rw [Ne, ← copy_eq_none_iff (p := pt), hs₁]
    simp [Store.fill, Geometry.inBlock]
  -- the bytes after it find the block
  obtain ⟨c₂, k₂, hloop, hw₂, hl₂, hs₂⟩ := hw₁.cacheLoop_hit operation fillBase
    (g.blockNum_tail hblock) hl₁
    { m with
      counts := k₁
      ptable := pt
      inflight := false
      inflightAddr := g.blockStart (g.blockNum x)
      inflightCycles := 0 }
  refine ⟨c₂, k₂, pt, p, ?_, hw₂, by rwa [hl₂], ?_⟩
  · rw [cacheLoop, hbyte, hmiss]
    exact hloop
  · rw [hs₂, hs₁]
    by_cases hn : n = 0
    · rw [if_pos hn]
      cases operation
      · rfl
      · exact (Store.markDirty_fill _ _).symm
    · rw [if_neg hn]

/-! ## The words of a block -/

/-- `get_word_cache` reads the bytes the cache holds. -/
theorem getWordCache_spec {addr : Word} (hg : getLine c addr ≠ none)
    (hfit : addr.toNat % 2 ^ g.b + 8 ≤ 2 ^ g.b) (pt : PTable) :
    getWordCache c addr =
      .ok (leValue (fun k => (c.contents pt).view (addr + BitVec.ofNat 64 k)) 8) := by
  obtain ⟨j, hj⟩ := Option.ne_none_iff_exists'.1 hg
  rw [getWordCache, hj]
  dsimp only
  rw [h.fits.B_toNat, h.fits.blockOffset_eq, if_pos hfit]
  refine congrArg Except.ok (leValue_congr fun k hk => ?_)
  obtain ⟨hb, ho⟩ := g.blockNum_add (a := addr) (k := k) (by omega)
  rw [Store.view_of_copy (h.copy_of_present hj (by rw [Geometry.inBlock, hb, beq_self_eq_true]) pt),
    h.fits.blockOffset_eq, ho]

/-- `set_word_cache` writes eight bytes of a block and marks the block dirty. -/
theorem setWordCache_spec {addr : Word} (hg : getLine c addr ≠ none)
    (hfit : addr.toNat % 2 ^ g.b + 8 ≤ 2 ^ g.b) (val : Word) :
    ∃ c', setWordCache c addr val = .ok c' ∧ c'.WellTagged g ∧
      (∀ a, getLine c' a = getLine c a) ∧
      ∀ pt, c'.contents pt =
        (dirtied g .write addr (c.contents pt)).write (inWord addr) (wordByte addr val) := by
  obtain ⟨j, hj⟩ := Option.ne_none_iff_exists'.1 hg
  have hline := hj
  rw [h.getLine_eq] at hline
  obtain ⟨-, hjv, hjt⟩ := CacheSet.find_sound hline
  let l : CacheLine :=
    { (getSet c addr).lines j with
      data := putWord64 ((getSet c addr).lines j).data (blockOffset c addr) val
      dirty := true }
  obtain ⟨hw, hl, hcopy⟩ := h.contents_putLine_present hj (l := l) hjv hjt
    ((getSet c addr).putLine j l) rfl
  refine ⟨_, ?_, hw, hl, fun pt => congrArg₂ Store.mk (funext fun a => (hcopy pt a).trans ?_) rfl⟩
  · rw [setWordCache, hj]
    dsimp only
    rw [h.fits.B_toNat, if_pos (by rwa [h.fits.blockOffset_eq])]
  · by_cases ha : g.inBlock (g.blockNum addr) a = true
    · have hmark : (dirtied g .write addr (c.contents pt)).copy a =
          some (true, ((getSet c addr).lines j).data (blockOffset c a)) := by
        simp [dirtied, Store.markDirty, ha, h.copy_of_present hj ha pt]
      rw [if_pos ha]
      by_cases hlt : (a - addr).toNat < 8
      · obtain ⟨-, hoff⟩ := g.of_sub_toNat_lt hfit hlt
        have hval : l.data (blockOffset c a) = wordByte addr val a := by
          simp only [l, putWord64, h.fits.blockOffset_eq, hoff]
          rw [if_pos (by omega), Nat.add_sub_cancel_left, wordByte]
        have hin : inWord addr a = true := decide_eq_true hlt
        rw [hval]
        exact (Store.copy_write_present hin hmark).symm
      · have hval : l.data (blockOffset c a) =
            ((getSet c addr).lines j).data (blockOffset c a) := by
          simp only [l, putWord64, h.fits.blockOffset_eq]
          rw [if_neg]
          rintro ⟨h1, h2⟩
          exact hlt (by rw [g.sub_toNat_of_block (beq_iff_eq.1 ha) h1]; omega)
        have hout : inWord addr a = false := decide_eq_false hlt
        rw [hval]
        exact ((Store.copy_write_other hout).trans hmark).symm
    · have hlt : ¬ (a - addr).toNat < 8 := fun hlt =>
        ha (by rw [Geometry.inBlock, (g.of_sub_toNat_lt hfit hlt).1, beq_self_eq_true])
      have hmark : (dirtied g .write addr (c.contents pt)).copy a = (c.contents pt).copy a := by
        simp [dirtied, Store.markDirty, ha]
      have hout : inWord addr a = false := decide_eq_false hlt
      rw [if_neg ha]
      exact ((Store.copy_write_other hout).trans hmark).symm

/-- What is read after `set_word_cache`. -/
theorem view_setWordCache {addr : Word} (hg : getLine c addr ≠ none)
    (hfit : addr.toNat % 2 ^ g.b + 8 ≤ 2 ^ g.b) {val : Word} {c' : Cache}
    (hset : setWordCache c addr val = .ok c') (pt : PTable) :
    (c'.contents pt).view = writeBytes (c.contents pt).view addr val 8 := by
  obtain ⟨c₂, hset₂, -, -, hs₂⟩ := h.setWordCache_spec hg hfit val
  obtain rfl : c₂ = c' := Except.ok.inj (hset₂.symm.trans hset)
  have hpresent : ∀ a, inWord addr a = true →
      (dirtied g .write addr (c.contents pt)).copy a ≠ none := by
    intro a ha
    have hb := (g.of_sub_toNat_lt hfit (of_decide_eq_true ha)).1
    have hin : g.inBlock (g.blockNum addr) a = true := by
      rw [Geometry.inBlock, hb, beq_self_eq_true]
    have hcopy : (c.contents pt).copy a ≠ none := by
      rw [Ne, copy_eq_none_iff, h.getLine_congr hb]
      exact hg
    simpa [dirtied, Store.markDirty, hin] using hcopy
  rw [hs₂, Store.view_write hpresent, view_dirtied]
  funext a
  simp only [writeBytes, inWord, wordByte, decide_eq_true_eq]

end Cache.WellTagged

/-! ## Coherent memory systems -/

/-- What loads see of a memory system: the line byte of a block that is
resident, else the page byte. -/
def Memory.view (m : Memory) : Word → Byte :=
  match m.cache with
  | some c => (c.contents m.ptable).view
  | none => m.ptable.byteAt

/-- The cache of the memory system is well tagged, its clean lines equal the page
bytes and a running countdown has not run out. -/
structure Coherent (g : Geometry) (c : Cache) (m : Memory) : Prop where
  cache : m.cache = some c
  tags : c.WellTagged g
  clean : (c.contents m.ptable).Clean
  countdown : m.inflight = true → 0 < m.inflightCycles.toNat ∧ m.inflightCycles.toNat ≤ g.d

/-- Does an eight-byte access stay inside one block? -/
def Geometry.fitsBlock (g : Geometry) (addr : Word) : Bool :=
  decide (addr.toNat % 2 ^ g.b + 8 ≤ 2 ^ g.b)

/-- The calls an access still has to wait for. -/
def Memory.waits (m : Memory) (g : Geometry) (c : Cache) (addr : Word) : Nat :=
  if getLine c addr = none then (m.countdown c (g.blockStart (g.blockNum addr))).toNat else 0

/-- The parts of a memory system that no data access touches, and what it printed. -/
def Memory.SameIo (m m' : Memory) : Prop :=
  m'.segStart = m.segStart ∧ m'.stdin = m.stdin ∧ m'.scanned = m.scanned ∧ m'.printed = m.printed

namespace Coherent

variable {g : Geometry} {c : Cache} {m : Memory}

theorem view_eq (h : Coherent g c m) : m.view = (c.contents m.ptable).view := by
  rw [Memory.view, h.cache]

/-- An access never waits longer than the miss delay. -/
theorem waits_lt (h : Coherent g c m) (hd : 1 ≤ g.d) (addr : Word) : m.waits g c addr < g.d := by
  unfold Memory.waits
  by_cases hg : getLine c addr = none
  · rw [if_pos hg, Memory.countdown]
    have hdlt := g.d_lt
    have hdelay : (c.d.setWidth 64).toNat = g.d := by
      rw [BitVec.toNat_setWidth, h.tags.fits.d_toNat, Nat.mod_eq_of_lt (by omega)]
    by_cases hstart : m.inflightAddr ≠ g.blockStart (g.blockNum addr) ∨ m.inflight = false
    · rw [if_pos hstart, BitVec.toNat_sub, hdelay, BitVec.toNat_ofNat]
      omega
    · rw [if_neg hstart, BitVec.toNat_sub, BitVec.toNat_ofNat]
      rw [not_or, Bool.not_eq_false] at hstart
      have := h.countdown hstart.2
      omega
  · rw [if_neg hg]
    omega

/-- A call that has to wait changes the countdown and nothing that a load sees. -/
theorem cacheLoop_waits (h : Coherent g c m) (hd : 1 ≤ g.d) {addr : Word} (hw : 0 < m.waits g c addr)
    (operation : Operation) (fillBase : Word → Word) :
    ∃ m', cacheLoop operation fillBase 8 addr c m = (true, c, m') ∧ Coherent g c m' ∧
      m'.view = m.view ∧ m.SameIo m' ∧ m'.stores = m.stores ∧ m'.dmemStatus = .inFlight ∧
      m'.waits g c addr + 1 = m.waits g c addr := by
  have hg : getLine c addr = none := by
    by_contra hg
    simp [Memory.waits, hg] at hw
  have hdlt := g.d_lt
  have hdelay : (c.d.setWidth 64).toNat = g.d := by
    rw [BitVec.toNat_setWidth, h.tags.fits.d_toNat, Nat.mod_eq_of_lt (by omega)]
  rw [Memory.waits, if_pos hg] at hw ⊢
  have hne : m.countdown c (g.blockStart (g.blockNum addr)) ≠ 0 := by
    intro h0
    rw [h0] at hw
    exact absurd hw (lt_irrefl 0)
  obtain ⟨k, hloop⟩ := h.tags.cacheLoop_wait operation fillBase 7 hg hne
  refine ⟨_, hloop, ⟨h.cache, h.tags, h.clean, fun _ => ⟨hw, ?_⟩⟩, ?_, ⟨rfl, rfl, rfl, rfl⟩, rfl, rfl,
    ?_⟩
  · dsimp only
    rw [Memory.countdown] at hw ⊢
    by_cases hstart : m.inflightAddr ≠ g.blockStart (g.blockNum addr) ∨ m.inflight = false
    · rw [if_pos hstart] at hw ⊢
      rw [BitVec.toNat_sub, hdelay, BitVec.toNat_ofNat] at hw ⊢
      omega
    · rw [if_neg hstart] at hw ⊢
      rw [not_or, Bool.not_eq_false] at hstart
      have := h.countdown hstart.2
      rw [BitVec.toNat_sub, BitVec.toNat_ofNat] at hw ⊢
      omega
  · rw [Memory.view, Memory.view, h.cache]
  · rw [Memory.waits, if_pos hg, Memory.countdown, if_neg (by simp), BitVec.toNat_sub,
      BitVec.toNat_ofNat]
    have := (m.countdown c (g.blockStart (g.blockNum addr))).isLt
    dsimp only
    omega

/-- A call that need not wait ends with the block of the address in the cache. -/
theorem cacheLoop_done (h : Coherent g c m) {addr : Word} (hw : m.waits g c addr = 0)
    (hfit : g.fitsBlock addr = true) (operation : Operation) (fillBase : Word → Word)
    (hbase : fillBase (g.blockStart (g.blockNum addr)) = g.blockStart (g.blockNum addr)) :
    ∃ c' m', cacheLoop operation fillBase 8 addr c m = (false, c', m') ∧ c'.WellTagged g ∧
      (c'.contents m'.ptable).Clean ∧ (c'.contents m'.ptable).view = m.view ∧
      getLine c' addr ≠ none ∧ m.SameIo m' ∧ m'.stores = m.stores ∧
      (m'.inflight = true → 0 < m'.inflightCycles.toNat ∧ m'.inflightCycles.toNat ≤ g.d) := by
  have hfit : addr.toNat % 2 ^ g.b + 8 ≤ 2 ^ g.b := of_decide_eq_true hfit
  have hblock : ∀ k < 8, g.blockNum (addr + BitVec.ofNat 64 k) = g.blockNum addr :=
    fun k hk => (g.blockNum_add (by omega)).1
  rw [h.view_eq]
  by_cases hg : getLine c addr = none
  · rw [Memory.waits, if_pos hg] at hw
    obtain ⟨c', k, pt, p, hloop, hw', hl', hs'⟩ :=
      h.tags.cacheLoop_fill operation hbase hblock hg (BitVec.eq_of_toNat_eq hw)
    have habsent : ∀ a, g.inBlock (g.blockNum addr) a = true →
        ((c.contents m.ptable).evict p).copy a = none := by
      intro a ha
      have : (c.contents m.ptable).copy a = none := by
        rw [copy_eq_none_iff, h.tags.getLine_congr (beq_iff_eq.1 ha), hg]
      simp [Store.evict, this]
    refine ⟨c', _, hloop, hw', ?_, ?_, hl', ⟨rfl, rfl, rfl, rfl⟩, rfl, fun hi => ?_⟩
    · rw [hs']
      exact clean_dirtied ((h.clean.evict p).fill _ _) operation addr
    · rw [hs', view_dirtied, Store.view_fill habsent, h.clean.view_evict]
    · cases hi
  · obtain ⟨c', k, hloop, hw', hl', hs'⟩ := h.tags.cacheLoop_hit operation fillBase hblock hg m
    simp only [Nat.reduceEqDiff, if_false] at hs'
    refine ⟨c', _, hloop, hw', ?_, ?_, by rwa [hl'], ⟨rfl, rfl, rfl, rfl⟩, rfl, h.countdown⟩
    · rw [hs']
      exact clean_dirtied h.clean operation addr
    · rw [hs', view_dirtied]

/-! ## One call -/

/-- A read whose data is not there yet. -/
theorem memReadCache_waits (h : Coherent g c m) (hd : 1 ≤ g.d) {addr : Word} (hw : 0 < m.waits g c addr) :
    ∃ m', memReadCache c m addr 8 = .ok (0, m') ∧ Coherent g c m' ∧ m'.view = m.view ∧
      m.SameIo m' ∧ m'.stores = m.stores ∧ m'.dmemStatus = .inFlight ∧
      m'.waits g c addr + 1 = m.waits g c addr := by
  obtain ⟨m', hloop, h', hview, hio, hstores, hst, hwaits⟩ :=
    h.cacheLoop_waits hd hw .read fun _ => blockAddress c addr
  have hm' : { m' with cache := some c } = m' := by rw [← h'.cache]
  exact ⟨m', by rw [memReadCache, hloop, ← hm'], h', hview, hio, hstores, hst, hwaits⟩

/-- **A read whose data is there** returns the bytes loads see. -/
theorem memReadCache_ready (h : Coherent g c m) {addr : Word} (hw : m.waits g c addr = 0)
    (hfit : g.fitsBlock addr = true) :
    ∃ c' m', memReadCache c m addr 8 =
        .ok (leValue (fun k => m.view (addr + BitVec.ofNat 64 k)) 8, m') ∧ Coherent g c' m' ∧
      m'.view = m.view ∧ m.SameIo m' ∧ m'.stores = m.stores ∧ m'.dmemStatus = .ready := by
  obtain ⟨c', m', hloop, hw', hclean, hview, hl, hio, hstores, hcount⟩ :=
    h.cacheLoop_done hw hfit .read (fun _ => blockAddress c addr)
      (h.tags.fits.blockAddress_eq addr)
  have hget := hw'.getWordCache_spec hl (of_decide_eq_true hfit) m'.ptable
  rw [hview] at hget
  refine ⟨c', { m' with cache := some c', dmemStatus := .ready }, ?_, ⟨rfl, hw', hclean, hcount⟩, ?_,
    hio, hstores, rfl⟩
  · rw [memReadCache, hloop]
    dsimp only
    rw [hget]
    rfl
  · rw [← hview]
    rfl

/-- A write that has to wait. -/
theorem memWriteCache_waits (h : Coherent g c m) (hd : 1 ≤ g.d) {addr : Word}
    (hw : 0 < m.waits g c addr) (data : Word) :
    ∃ m', memWriteCache c m addr data 8 = .ok m' ∧ Coherent g c m' ∧ m'.view = m.view ∧
      m.SameIo m' ∧ m'.stores = m.stores ∧ m'.dmemStatus = .inFlight ∧
      m'.waits g c addr + 1 = m.waits g c addr := by
  obtain ⟨m', hloop, h', hview, hio, hstores, hst, hwaits⟩ := h.cacheLoop_waits hd hw .write id
  have hm' : { m' with cache := some c } = m' := by rw [← h'.cache]
  exact ⟨m', by rw [memWriteCache, hloop, ← hm'], h', hview, hio, hstores, hst, hwaits⟩

/-- **A write that need not wait** changes the bytes a flat memory would change. -/
theorem memWriteCache_ready (h : Coherent g c m) {addr : Word} (hw : m.waits g c addr = 0)
    (hfit : g.fitsBlock addr = true) (data : Word) :
    ∃ c' m', memWriteCache c m addr data 8 = .ok m' ∧ Coherent g c' m' ∧
      m'.view = writeBytes m.view addr data 8 ∧ m.SameIo m' ∧
      m'.stores = m.stores ++ [(addr, data)] ∧ m'.dmemStatus = .ready := by
  obtain ⟨c₁, m', hloop, hw₁, hclean, hview, hl, hio, hstores, hcount⟩ :=
    h.cacheLoop_done hw hfit .write id rfl
  obtain ⟨c₂, hset, hw₂, -, hs₂⟩ := hw₁.setWordCache_spec hl (of_decide_eq_true hfit) data
  refine ⟨c₂, { m' with
    cache := some c₂, dmemStatus := .ready, stores := m'.stores ++ [(addr, data)] }, ?_,
    ⟨rfl, hw₂, ?_, hcount⟩, ?_, hio, by rw [← hstores], rfl⟩
  · rw [memWriteCache, hloop]
    dsimp only
    rw [hset]
    rfl
  · rw [hs₂]
    exact (clean_dirtied hclean .write addr).write _ _
  · have : (c₂.contents m'.ptable).view = writeBytes m.view addr data 8 := by
      rw [hw₁.view_setWordCache hl (of_decide_eq_true hfit) hset, hview]
    exact this

end Coherent

/-! ## Sequences of accesses -/

/-- A data access of eight bytes. -/
inductive DataAccess where
  | read (addr : Word)
  | write (addr data : Word)

/-- The address of an access. -/
def DataAccess.addr : DataAccess → Word
  | .read addr => addr
  | .write addr _ => addr

/-- One call of `_mem_read_cache` or `_mem_write_cache`. -/
def DataAccess.call (m : Memory) : DataAccess → Except Abort (Word × Memory)
  | .read addr =>
      match m.cache with
      | some c => memReadCache c m addr 8
      | none => .error .nullDeref
  | .write addr data =>
      match m.cache with
      | some c => (memWriteCache c m addr data 8).map fun m => (0, m)
      | none => .error .nullDeref

/-- Repeat the call until `dmem_status` is `READY`, at most `n` times. -/
def DataAccess.retry : Nat → Memory → DataAccess → Option (Word × Memory)
  | 0, _, _ => none
  | n + 1, m, a =>
      match a.call m with
      | .ok r => if r.2.dmemStatus = .ready then some r else retry n r.2 a
      | .error _ => none

/-- What an access reads from a flat memory, and that memory after it. -/
def DataAccess.flat (pt : PTable) : DataAccess → Word × PTable
  | .read addr => memReadLE pt addr 8
  | .write addr data => (0, memWriteLE pt addr data 8)

/-- What an access reads where loads see the bytes `f`, and what they see after it. -/
def DataAccess.result (f : Word → Byte) : DataAccess → Word × (Word → Byte)
  | .read addr => (leValue (fun k => f (addr + BitVec.ofNat 64 k)) 8, f)
  | .write addr data => (0, writeBytes f addr data 8)

theorem DataAccess.flat_eq (a : DataAccess) (pt : PTable) :
    (a.flat pt).1 = (a.result pt.byteAt).1 ∧ (a.flat pt).2.byteAt = (a.result pt.byteAt).2 := by
  cases a with
  | read addr => exact ⟨memReadLE_fst pt addr 8, byteAt_memReadLE pt addr 8⟩
  | write addr data => exact ⟨rfl, byteAt_memWriteLE pt addr data (by decide)⟩

/-- A sequence of accesses, each retried at most `n` times: the value of every
access and the memory system at the end. -/
def retryAll (n : Nat) : Memory → List DataAccess → Option (List Word × Memory)
  | m, [] => some ([], m)
  | m, a :: as => do
      let (v, m) ← a.retry n m
      let (vs, m) ← retryAll n m as
      some (v :: vs, m)

/-- The same sequence on a flat memory. -/
def flatAll : PTable → List DataAccess → List Word × PTable
  | pt, [] => ([], pt)
  | pt, a :: as =>
      let (v, pt) := a.flat pt
      let (vs, pt) := flatAll pt as
      (v :: vs, pt)

/-- Aligned doublewords do not cross blocks. -/
theorem Geometry.fitsBlock_of_aligned (g : Geometry) {addr : Word} (h : addr.toNat % 8 = 0) :
    g.fitsBlock addr = true := by
  have hb := g.three_le_b
  have hpow : 2 ^ g.b = 8 * 2 ^ (g.b - 3) := by
    rw [show (8 : Nat) = 2 ^ 3 from rfl, ← pow_add]
    congr 1
    omega
  have hmod : addr.toNat % 2 ^ g.b % 8 = 0 := by
    rw [Nat.mod_mod_of_dvd _ (hpow ▸ Nat.dvd_mul_right 8 _), h]
  have hlt := Nat.mod_lt addr.toNat (Nat.two_pow_pos g.b)
  rw [Geometry.fitsBlock, decide_eq_true_eq]
  omega

namespace Coherent

variable {g : Geometry} {c : Cache} {m : Memory}

/-- A call that has to wait keeps the invariant and the bytes. -/
theorem call_waits (h : Coherent g c m) (hd : 1 ≤ g.d) {a : DataAccess}
    (hw : 0 < m.waits g c a.addr) :
    ∃ m', a.call m = .ok (0, m') ∧ Coherent g c m' ∧ m'.view = m.view ∧ m'.dmemStatus = .inFlight ∧
      m'.waits g c a.addr + 1 = m.waits g c a.addr := by
  cases a with
  | read addr =>
    obtain ⟨m', hcall, h', hview, -, -, hst, hwaits⟩ := h.memReadCache_waits hd hw
    exact ⟨m', by rw [DataAccess.call, h.cache]; exact hcall, h', hview, hst, hwaits⟩
  | write addr data =>
    obtain ⟨m', hcall, h', hview, -, -, hst, hwaits⟩ := h.memWriteCache_waits hd hw data
    refine ⟨m', ?_, h', hview, hst, hwaits⟩
    rw [DataAccess.call, h.cache]
    dsimp only
    rw [show memWriteCache c m addr data 8 = .ok m' from hcall]
    rfl

/-- A call that need not wait reads and writes the bytes loads see. -/
theorem call_ready (h : Coherent g c m) {a : DataAccess} (hw : m.waits g c a.addr = 0)
    (hal : a.addr.toNat % 8 = 0) :
    ∃ c' m', a.call m = .ok ((a.result m.view).1, m') ∧ Coherent g c' m' ∧
      m'.view = (a.result m.view).2 ∧ m'.dmemStatus = .ready := by
  cases a with
  | read addr =>
    obtain ⟨c', m', hcall, h', hview, -, -, hst⟩ :=
      h.memReadCache_ready hw (g.fitsBlock_of_aligned hal)
    exact ⟨c', m', by rw [DataAccess.call, h.cache]; exact hcall, h', hview, hst⟩
  | write addr data =>
    obtain ⟨c', m', hcall, h', hview, -, -, hst⟩ :=
      h.memWriteCache_ready hw (g.fitsBlock_of_aligned hal) data
    refine ⟨c', m', ?_, h', hview, hst⟩
    rw [DataAccess.call, h.cache]
    dsimp only
    rw [show memWriteCache c m addr data 8 = .ok m' from hcall]
    rfl

/-- Retried often enough, an access completes as on a flat memory. -/
theorem retry_flat (hd : 1 ≤ g.d) {a : DataAccess} (hal : a.addr.toNat % 8 = 0) {pt : PTable} {n : Nat}
    (h : Coherent g c m) (hpt : m.view = pt.byteAt) (hn : m.waits g c a.addr < n) :
    ∃ c' m', a.retry n m = some ((a.flat pt).1, m') ∧ Coherent g c' m' ∧
      m'.view = (a.flat pt).2.byteAt := by
  induction n generalizing m with
  | zero => exact absurd hn (Nat.not_lt_zero _)
  | succ n ih =>
    rcases Nat.eq_zero_or_pos (m.waits g c a.addr) with hw | hw
    · obtain ⟨c', m', hcall, h', hview, hst⟩ := h.call_ready hw hal
      obtain ⟨hval, hbytes⟩ := a.flat_eq pt
      rw [hpt] at hcall hview
      refine ⟨c', m', ?_, h', hview.trans hbytes.symm⟩
      rw [DataAccess.retry, hcall, hval]
      dsimp only
      rw [if_pos hst]
    · obtain ⟨m', hcall, h', hview, hst, hwaits⟩ := h.call_waits hd hw
      obtain ⟨c'', m'', hretry, h'', hview''⟩ := ih h' (hview.trans hpt) (by omega)
      refine ⟨c'', m'', ?_, h'', hview''⟩
      rw [DataAccess.retry, hcall]
      dsimp only
      rw [hst, if_neg (by decide)]
      exact hretry

/-- A whole sequence of accesses does what it does on a flat memory. -/
theorem retryAll_flat (hd : 1 ≤ g.d) {as : List DataAccess}
    (hal : ∀ a ∈ as, a.addr.toNat % 8 = 0) {pt : PTable} (h : Coherent g c m)
    (hpt : m.view = pt.byteAt) :
    ∃ c' m', retryAll g.d m as = some ((flatAll pt as).1, m') ∧ Coherent g c' m' ∧
      m'.view = (flatAll pt as).2.byteAt := by
  induction as generalizing c m pt with
  | nil => exact ⟨c, m, rfl, h, hpt⟩
  | cons a as ih =>
    obtain ⟨c₁, m₁, hretry, h₁, hview₁⟩ :=
      retry_flat hd (hal a List.mem_cons_self) h hpt (h.waits_lt hd a.addr)
    obtain ⟨c₂, m₂, hrest, h₂, hview₂⟩ :=
      ih (fun b hb => hal b (List.mem_cons_of_mem a hb)) h₁ hview₁
    refine ⟨c₂, m₂, ?_, h₂, hview₂⟩
    rw [retryAll, hretry]
    simp only [Option.bind_eq_bind, Option.bind_some, hrest]
    rfl

end Coherent

/-- An empty cache over any memory is coherent. -/
theorem coherent_fresh {g : Geometry} {m : Memory} (hcache : m.cache = some g.cache)
    (hidle : m.inflight = false) : Coherent g g.cache m ∧ m.view = m.ptable.byteAt := by
  refine ⟨⟨hcache, g.cache_wellTagged, fun a v hv => ?_, fun hi => ?_⟩, ?_⟩
  · rw [contents_fresh] at hv
    cases hv
  · rw [hidle] at hi
    cases hi
  · funext a
    rw [Memory.view, hcache]
    exact Store.view_of_absent (contents_fresh g m.ptable a)

/-- **Cached memory is coherent with flat memory.**  Every call keeps the invariant; while
it has to wait it changes no byte, and once ready it reads and writes the bytes that loads
see.  From an empty cache over any memory, every sequence of aligned accesses, each
retried until it is ready, reads what it reads on the flat memory and leaves its bytes. -/
theorem cached_flat (g : Geometry) (hd : 1 ≤ g.d) :
    (∀ c m, Coherent g c m → ∀ a : DataAccess, a.addr.toNat % 8 = 0 →
      ∃ c' v m', a.call m = .ok (v, m') ∧ Coherent g c' m' ∧
        (m'.dmemStatus = .inFlight → m'.view = m.view) ∧
        (m'.dmemStatus = .ready → v = (a.result m.view).1 ∧ m'.view = (a.result m.view).2)) ∧
    ∀ m : Memory, m.cache = some g.cache → m.inflight = false →
      ∀ as : List DataAccess, (∀ a ∈ as, a.addr.toNat % 8 = 0) →
        ∃ c' m', retryAll g.d m as = some ((flatAll m.ptable as).1, m') ∧ Coherent g c' m' ∧
          m'.view = (flatAll m.ptable as).2.byteAt := by
  refine ⟨fun c m h a hal => ?_, fun m hcache hidle as hal => ?_⟩
  · rcases Nat.eq_zero_or_pos (m.waits g c a.addr) with hw | hw
    · obtain ⟨c', m', hcall, h', hview, hst⟩ := h.call_ready hw hal
      exact ⟨c', _, m', hcall, h', fun hst' => absurd (hst'.symm.trans hst) (by decide),
        fun _ => ⟨rfl, hview⟩⟩
    · obtain ⟨m', hcall, h', hview, hst, -⟩ := h.call_waits hd hw
      exact ⟨c, 0, m', hcall, h', fun _ => hview,
        fun hst' => absurd (hst'.symm.trans hst) (by decide)⟩
  · obtain ⟨h, hview⟩ := coherent_fresh hcache hidle
    exact Coherent.retryAll_flat hd hal h hview

theorem cached_flat_conflict :
    ∃ c' m', retryAll 3 (Image.ofWords [] (some Geometry.oneLine.cache)).memory
        [.write 0x800000#64 5#64, .read 0x800008#64, .read 0x800000#64] = some ([0, 0, 5#64], m') ∧
      Coherent .oneLine c' m' := by
  obtain ⟨c', m', hrun, h', -⟩ := (cached_flat .oneLine (by decide)).2
    (Image.ofWords [] (some Geometry.oneLine.cache)).memory rfl rfl
    [.write 0x800000#64 5#64, .read 0x800008#64, .read 0x800000#64] (by decide)
  have hvals : (flatAll (Image.ofWords [] (some Geometry.oneLine.cache)).memory.ptable
      [.write 0x800000#64 5#64, .read 0x800008#64, .read 0x800000#64]).1 = [0, 0, 5#64] := by
    decide +kernel
  rw [hvals] at hrun
  exact ⟨c', m', hrun, h'⟩

end ChArm
