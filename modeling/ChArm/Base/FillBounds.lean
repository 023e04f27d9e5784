import ChArm.Base.CacheAccess

/-!
# Buffer bounds of a cached access

A cached access works on three buffers of `B` bytes: the temporary block, the copy of
the evicted line and the data of a line.  `DataAccess.touches` lists the bytes of
them that one call reads or writes, in the order of the source.

All of them lie inside the buffers but for one load: the read path adds the block
offset to a pointer to doublewords, `*((uint64_t *) block + (addr & (B - 1)))`, and so
reads eight bytes at eight times the offset (`touches_inBounds_iff`).

* `inBounds_missTouches` — the end of a miss.
* `loopTouches_inBounds_iff` — the byte loop.
* `touches_inBounds_iff` — a whole call, in every memory system that calls lead to.
-/

namespace ChArm

/-- The buffers of `B` bytes. -/
inductive Buffer where
  | block | evicted | line
  deriving DecidableEq, Repr

/-- `n` bytes of a buffer, from an offset on. -/
def Buffer.bytes (b : Buffer) (off n : Nat) : List (Buffer × Nat) :=
  (List.range n).map fun k => (b, off + k)

/-- The bytes of the load through the pointer into the temporary block, which only
`_mem_read_cache` makes. -/
def DataAccess.loadTouches (c : Cache) : DataAccess → List (Buffer × Nat)
  | .read addr => Buffer.block.bytes (8 * (addr &&& (c.B.setWidth 64 - 1#64)).toNat) 8
  | .write _ _ => []

/-- The bytes touched at the end of a miss that evicts `evicted`. -/
def DataAccess.missTouches (a : DataAccess) (c : Cache) (evicted : EvictedLine) :
    List (Buffer × Nat) :=
  let B := c.B.toNat
  -- the loop that fills the temporary block
  Buffer.block.bytes 0 B ++
    -- the two copies of `handle_miss`
    (Buffer.line.bytes 0 B ++ Buffer.evicted.bytes 0 B ++
      (Buffer.block.bytes 0 B ++ Buffer.line.bytes 0 B)) ++
    a.loadTouches c ++
    -- the loop that writes the evicted copy back
    if evicted.valid && evicted.dirty then Buffer.evicted.bytes 0 B else []

/-- The bytes touched in one round of the byte loop. -/
def DataAccess.byteTouches (a : DataAccess) (fillBase : Word → Word) (c : Cache) (m : Memory)
    (currentAddress : Word) : List (Buffer × Nat) :=
  match checkHit c m.counts currentAddress a.operation with
  | (true, _, _) => []
  | (false, c, k) =>
      let block := blockAddress c currentAddress
      let m := startInflight { m with counts := k } c block
      if m.inflightCycles - 1#64 > 0 then []
      else
        let (data, _) := readBlock m.ptable (fillBase block) c.B.toNat
        let (evicted, _, _) := handleMiss c m.counts block a.operation (some data)
        a.missTouches c evicted

/-- The bytes touched in the byte loop, over `n` bytes from `currentAddress` on. -/
def DataAccess.loopTouches (a : DataAccess) (fillBase : Word → Word) :
    Nat → Word → Cache → Memory → List (Buffer × Nat)
  | 0, _, _, _ => []
  | n + 1, currentAddress, c, m =>
      a.byteTouches fillBase c m currentAddress ++
        match cacheByte a.operation fillBase c m currentAddress with
        | (true, _, _) => []
        | (false, c, m) => a.loopTouches fillBase n (currentAddress + 1#64) c m

/-- The buffer bytes one call of `_mem_read_cache` or `_mem_write_cache` touches. -/
def DataAccess.touches (a : DataAccess) (c : Cache) (m : Memory) : List (Buffer × Nat) :=
  a.loopTouches (a.fillBase c) 8 a.addr c m ++
    match cacheLoop a.operation (a.fillBase c) 8 a.addr c m with
    | (true, _, _) => []
    | (false, c, _) =>
        match getLine c a.addr with
        | some _ => Buffer.line.bytes (blockOffset c a.addr) 8
        | none => []

/-- Every touched byte lies inside its buffer. -/
def InBounds (c : Cache) (touched : List (Buffer × Nat)) : Prop :=
  ∀ t ∈ touched, t.2 < c.B.toNat

/-! ## Bounds -/

@[simp] theorem inBounds_nil (c : Cache) : InBounds c [] := by
  simp [InBounds]

theorem inBounds_append {c : Cache} {ts us : List (Buffer × Nat)} :
    InBounds c (ts ++ us) ↔ InBounds c ts ∧ InBounds c us := by
  simp only [InBounds, List.mem_append, or_imp, forall_and]

theorem inBounds_bytes {c : Cache} {b : Buffer} {off n : Nat} (hn : 0 < n) :
    InBounds c (b.bytes off n) ↔ off + n ≤ c.B.toNat := by
  constructor
  · intro h
    have hlast := h (b, off + (n - 1))
      (List.mem_map.2 ⟨n - 1, List.mem_range.2 (by omega), rfl⟩)
    dsimp only at hlast
    omega
  · intro hle t ht
    obtain ⟨k, hk, rfl⟩ := List.mem_map.1 ht
    have := List.mem_range.1 hk
    dsimp only
    omega

theorem inBounds_whole (c : Cache) (b : Buffer) : InBounds c (b.bytes 0 c.B.toNat) := by
  rcases Nat.eq_zero_or_pos c.B.toNat with h0 | hpos
  · rw [h0]
    exact inBounds_nil c
  · rw [inBounds_bytes hpos, Nat.zero_add]

/-- The end of a miss stays in bounds when the load through the pointer does. -/
theorem inBounds_missTouches (a : DataAccess) (c : Cache) (evicted : EvictedLine) :
    InBounds c (a.missTouches c evicted) ↔ InBounds c (a.loadTouches c) := by
  have hback : InBounds c (if evicted.valid && evicted.dirty then Buffer.evicted.bytes 0 c.B.toNat
      else []) := by
    split
    · exact inBounds_whole c _
    · exact inBounds_nil c
  simp only [DataAccess.missTouches, inBounds_append, inBounds_whole, hback, true_and, and_true]

/-! ## The byte loop -/

theorem DataAccess.byteTouches_hit {a : DataAccess} {c : Cache} {x : Word} {j : Nat}
    (hj : getLine c x = some j) (fillBase : Word → Word) (m : Memory) :
    a.byteTouches fillBase c m x = [] := by
  rw [byteTouches, checkHit_of_some hj]

/-- Over bytes of a block that was just used nothing is touched. -/
theorem DataAccess.loopTouches_justUsed {a : DataAccess} {c : Cache} {g : Geometry} (h : c.Fits g)
    (fillBase : Word → Word) {n : Nat} {x addr : Word}
    (hblock : ∀ k < n, g.blockNum (x + BitVec.ofNat 64 k) = g.blockNum addr) {j : Nat}
    (hu : c.JustUsed addr a.operation j) (m : Memory) : a.loopTouches fillBase n x c m = [] := by
  induction n generalizing x m with
  | zero => rfl
  | succ n ih =>
    have hx : g.blockNum x = g.blockNum addr := by simpa using hblock 0 (Nat.succ_pos n)
    have hux := hu.congr h hx
    rw [loopTouches, byteTouches_hit hux.found, cacheByte, hux.checkHit]
    exact ih (g.blockNum_tail hblock) _

/-- One round on a byte that is absent. -/
theorem DataAccess.byteTouches_absent {a : DataAccess} {c : Cache} {x : Word}
    (hg : getLine c x = none) (fillBase : Word → Word) (m : Memory) :
    ∃ evicted, a.byteTouches fillBase c m x =
      if 0 < m.countdown c (blockAddress c x) then [] else a.missTouches c evicted := by
  let m₁ := startInflight { m with counts := m.counts.miss } c (blockAddress c x)
  have hcycles : m₁.inflightCycles - 1#64 = m.countdown c (blockAddress c x) :=
    congrArg Memory.inflightCycles (startInflight_eq { m with counts := m.counts.miss } c _)
  refine ⟨(handleMiss c m₁.counts (blockAddress c x) a.operation
    (some (readBlock m₁.ptable (fillBase (blockAddress c x)) c.B.toNat).1)).1, ?_⟩
  rw [byteTouches, checkHit_of_none hg, ← hcycles]
  rfl

namespace Cache.WellTagged

variable {c : Cache} {g : Geometry} (h : c.WellTagged g)
include h

/-- The mask of the block offset. -/
theorem blockMask_toNat (addr : Word) :
    (addr &&& (c.B.setWidth 64 - 1#64)).toNat = addr.toNat % 2 ^ g.b := by
  have hb := g.b_add_s_lt
  have hpos := Nat.two_pow_pos g.b
  have hlt : 2 ^ g.b < 2 ^ 31 := Nat.pow_lt_pow_right (by omega) (by omega)
  have hmask : (c.B.setWidth 64 - 1#64).toNat = 2 ^ g.b - 1 := by
    rw [BitVec.toNat_sub, BitVec.toNat_setWidth, h.fits.B_toNat, BitVec.toNat_ofNat]
    omega
  rw [BitVec.toNat_and, hmask, Nat.and_two_pow_sub_one_eq_mod]

/-- The load through the pointer stays in the temporary block. -/
theorem inBounds_loadTouches (a : DataAccess) :
    InBounds c (a.loadTouches c) ↔
      (a.operation = .read → 8 * (a.addr.toNat % 2 ^ g.b) + 8 ≤ 2 ^ g.b) := by
  cases a with
  | read addr =>
    rw [DataAccess.loadTouches, inBounds_bytes (by decide), h.blockMask_toNat, h.fits.B_toNat]
    exact ⟨fun hle _ => hle, fun hle => hle rfl⟩
  | write addr data => exact ⟨fun _ => nofun, fun _ => inBounds_nil c⟩

/-- What the byte loop touches. -/
theorem loopTouches_inBounds_iff {a : DataAccess} (hal : a.addr.toNat % 8 = 0) (m : Memory) :
    InBounds c (a.loopTouches (a.fillBase c) 8 a.addr c m) ↔
      (a.operation = .read → getLine c a.addr = none →
        m.countdown c (blockAddress c a.addr) = 0 →
          8 * (a.addr.toNat % 2 ^ g.b) + 8 ≤ 2 ^ g.b) := by
  have hblock := g.word_in_block hal
  cases hj : getLine c a.addr with
  | some j =>
    have hloop : a.loopTouches (a.fillBase c) 8 a.addr c m = [] := by
      have hfits : (c.hit a.addr a.operation j).Fits g := ⟨h.fits.A, h.fits.B, h.fits.C, h.fits.d⟩
      rw [DataAccess.loopTouches, DataAccess.byteTouches_hit hj, cacheByte, checkHit_of_some hj]
      exact DataAccess.loopTouches_justUsed hfits _ (g.blockNum_tail hblock)
        (Cache.justUsed_hit h.ways.2 hj a.operation) _
    rw [hloop]
    exact ⟨fun _ _ hnone => absurd hnone (Option.some_ne_none j), fun _ => inBounds_nil c⟩
  | none =>
    obtain ⟨evicted, hbyte⟩ := DataAccess.byteTouches_absent (a := a) hj (a.fillBase c) m
    have hcode := h.cacheByte_absent a.operation (a.fillBase c) hj m
    rw [← h.fits.blockAddress_eq] at hcode
    by_cases h0 : m.countdown c (blockAddress c a.addr) = 0
    · have hpos : ¬ 0 < m.countdown c (blockAddress c a.addr) :=
        fun hpos => (BitVec.pos_iff_ne_zero _).1 hpos h0
      obtain ⟨-, -, j, hu⟩ := h.completeMiss_accessData a.operation
        (a.fillBase c (blockAddress c a.addr)) hj m
      rw [← h.fits.blockAddress_eq] at hu
      have hfits : (completeMiss a.operation (a.fillBase c (blockAddress c a.addr))
          (blockAddress c a.addr) c (m.missed c (blockAddress c a.addr))).1.Fits g := by
        have htag := h.cacheByte_tagged a.operation (a.fillBase c) m a.addr
        rw [hcode, if_neg hpos] at htag
        exact htag.fits
      rw [if_neg hpos] at hcode hbyte
      rw [DataAccess.loopTouches, hcode, hbyte, inBounds_append, inBounds_missTouches,
        h.inBounds_loadTouches]
      dsimp only
      rw [DataAccess.loopTouches_justUsed hfits _ (g.blockNum_tail hblock) hu]
      exact ⟨fun hle hr _ _ => hle.1 hr, fun hle => ⟨fun hr => hle hr rfl h0, inBounds_nil c⟩⟩
    · have hpos : 0 < m.countdown c (blockAddress c a.addr) := (BitVec.pos_iff_ne_zero _).2 h0
      rw [if_pos hpos] at hcode hbyte
      rw [DataAccess.loopTouches, hcode, hbyte]
      exact ⟨fun _ _ _ hn => absurd hn h0, fun _ => inBounds_nil c⟩

end Cache.WellTagged

/-- **Buffer bounds.**  In every reachable memory system an aligned access touches only bytes inside
its buffers if and only if it is not a read whose miss ends in this call and whose block offset,
counted in doublewords, leaves the temporary block. -/
theorem touches_inBounds_iff {g : Geometry} {m : Memory} (h : Driven g m) {c : Cache}
    (hcache : m.cache = some c) (a : DataAccess) (hal : a.addr.toNat % 8 = 0) :
    InBounds c (a.touches c m) ↔
      ¬ (a.operation = .read ∧ getLine c a.addr = none ∧
        m.countdown c (blockAddress c a.addr) = 0 ∧ g.B < 8 * (a.addr.toNat % g.B) + 8) := by
  obtain ⟨c', hc', hw⟩ := h.tagged
  obtain rfl := Option.some.inj (hc'.symm.trans hcache)
  have hword : InBounds c'
      (match cacheLoop a.operation (a.fillBase c') 8 a.addr c' m with
        | (true, _, _) => []
        | (false, c, _) =>
            match getLine c a.addr with
            | some _ => Buffer.line.bytes (blockOffset c a.addr) 8
            | none => []) := by
    have hfit := of_decide_eq_true (g.fitsBlock_of_aligned hal)
    have htag := hw.cacheLoop_tagged a.operation (a.fillBase c') 8 a.addr m
    rcases hloop : cacheLoop a.operation (a.fillBase c') 8 a.addr c' m with ⟨_ | _, c₁, m₁⟩ <;>
      rw [hloop] at htag
    · dsimp only at htag ⊢
      cases getLine c₁ a.addr with
      | none => exact inBounds_nil c'
      | some j =>
        dsimp only
        rw [inBounds_bytes (by decide), htag.fits.blockOffset_eq, hw.fits.B_toNat]
        exact hfit
    · exact inBounds_nil c'
  rw [DataAccess.touches, inBounds_append, hw.loopTouches_inBounds_iff hal, g.B_eq]
  constructor
  · rintro ⟨hle, -⟩ ⟨hr, hg, h0, hlt⟩
    exact absurd (hle hr hg h0) (Nat.not_le.2 hlt)
  · intro hno
    refine ⟨fun hr hg h0 => ?_, hword⟩
    by_contra hle
    exact hno ⟨hr, hg, h0, Nat.not_le.1 hle⟩

/-- A read of the first doubleword of a block. -/
theorem touches_inBounds_blockStart :
    InBounds Geometry.wideLine.cache ((DataAccess.read 0x800000#64).touches Geometry.wideLine.cache
      (Image.ofWords [] (some Geometry.wideLine.cache)).memory) :=
  (touches_inBounds_iff (g := .wideLine) (.fresh rfl) rfl (.read 0x800000#64) (by decide)).2
    fun h => absurd h.2.2.2 (by decide)

/-- A read of the second doubleword loads the bytes 64 to 71 of a block of sixteen. -/
theorem not_inBounds_secondWord :
    ¬ InBounds Geometry.wideLine.cache ((DataAccess.read 0x800008#64).touches
      Geometry.wideLine.cache (Image.ofWords [] (some Geometry.wideLine.cache)).memory) := by
  intro h
  have hmem : (Buffer.block, 64) ∈ (DataAccess.read 0x800008#64).touches Geometry.wideLine.cache
      (Image.ofWords [] (some Geometry.wideLine.cache)).memory := by
    decide +kernel
  exact absurd (h _ hmem) (by decide)

end ChArm
