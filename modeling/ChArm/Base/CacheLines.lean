import ChArm.Base.Coherence

/-!
# What the byte loop does to the cache lines

The loop of `_mem_read_cache` and `_mem_write_cache` over any eight bytes, also over
bytes of two blocks: what it leaves in the cache and when it changes no line.

* `cacheLoop_present` — an access whose block is there.
* `cacheLoop_comesIn` — an access whose block comes in.
* `lines_cacheLoop` — when the loop changes no line.
* `getWordCache_crossing` — eight bytes that lie in two blocks leave the line.
-/

namespace ChArm

open WriteBack

/-- The lines of a cache, by set and way. -/
def Cache.lines (c : Cache) : Nat → Nat → CacheLine := fun i => (c.sets i).lines

/-- Do the eight bytes from `addr` on leave the block of `addr`? -/
def crossesBlock (c : Cache) (addr : Word) : Bool := c.B.toNat < blockOffset c addr + 8

/-- Does an access to an absent block still wait after this call? -/
def Memory.missWaits (m : Memory) (c : Cache) (addr : Word) : Bool :=
  m.countdown c (blockAddress c addr) != 0

namespace Cache.Fits

variable {c c' : Cache} {g : Geometry}

/-- Caches of one geometry differ in their sets only. -/
theorem eq_of_sets (h : c.Fits g) (h' : c'.Fits g) : c' = { c with sets := c'.sets } := by
  obtain ⟨sets, A, B, C, d⟩ := c
  obtain ⟨sets', A', B', C', d'⟩ := c'
  obtain ⟨rfl, rfl, rfl, rfl⟩ := h
  obtain ⟨rfl, rfl, rfl, rfl⟩ := h'
  rfl

end Cache.Fits

/-- The loop over `n + k` bytes is the loop over the first `n`, then over the rest. -/
theorem cacheLoop_add (operation : Operation) (fillBase : Word → Word) (n k : Nat) (x : Word)
    (c : Cache) (m : Memory) :
    cacheLoop operation fillBase (n + k) x c m =
      match cacheLoop operation fillBase n x c m with
      | (true, c, m) => (true, c, m)
      | (false, c, m) => cacheLoop operation fillBase k (x + BitVec.ofNat 64 n) c m := by
  induction n generalizing x c m with
  | zero => simp [cacheLoop]
  | succ n ih =>
    rw [Nat.succ_add, cacheLoop, cacheLoop]
    rcases cacheByte operation fillBase c m x with ⟨_ | _, c₁, m₁⟩
    · dsimp only
      rw [ih, BitVec.add_assoc, BitVec.add_comm 1#64, BitVec.ofNat_add n 1]
    · rfl

namespace Geometry

variable (g : Geometry)

/-- How many of the eight bytes from `addr` on lie in its block. -/
def bytesInBlock (addr : Word) : Nat := min 8 (2 ^ g.b - addr.toNat % 2 ^ g.b)

theorem bytesInBlock_spec (addr : Word) :
    0 < g.bytesInBlock addr ∧ g.bytesInBlock addr ≤ 8 ∧
      ∀ k < g.bytesInBlock addr, g.blockNum (addr + BitVec.ofNat 64 k) = g.blockNum addr := by
  have hlt := Nat.mod_lt addr.toNat (Nat.two_pow_pos g.b)
  unfold bytesInBlock
  refine ⟨by omega, by omega, fun k hk => (g.blockNum_add ?_).1⟩
  omega

/-- The bytes that are left over lie in the next block. -/
theorem rest_block (addr : Word) :
    ∀ k < 8 - g.bytesInBlock addr,
      g.blockNum (addr + BitVec.ofNat 64 (g.bytesInBlock addr) + BitVec.ofNat 64 k) =
        g.blockNum (addr + BitVec.ofNat 64 (g.bytesInBlock addr)) := by
  intro k hk
  have hlt := Nat.mod_lt addr.toNat (Nat.two_pow_pos g.b)
  have hb := g.three_le_b
  have hpow : 8 ≤ 2 ^ g.b := le_trans (by decide) (Nat.pow_le_pow_right (by decide) hb)
  have hcross : g.bytesInBlock addr = 2 ^ g.b - addr.toNat % 2 ^ g.b := by
    unfold bytesInBlock at hk ⊢
    omega
  have hzero : (addr + BitVec.ofNat 64 (g.bytesInBlock addr)).toNat % 2 ^ g.b = 0 := by
    have hdvd : 2 ^ g.b ∣ 2 ^ 64 := pow_dvd_pow 2 (by have := g.b_add_s_lt; omega)
    rw [BitVec.toNat_add, BitVec.toNat_ofNat, Nat.add_mod_mod, Nat.mod_mod_of_dvd _ hdvd, hcross,
      ← Nat.mod_add_mod, Nat.add_sub_cancel' hlt.le, Nat.mod_self]
  refine (g.blockNum_add ?_).1
  omega

theorem bytesInBlock_eq_iff (addr : Word) : g.bytesInBlock addr = 8 ↔ g.fitsBlock addr = true := by
  have hlt := Nat.mod_lt addr.toNat (Nat.two_pow_pos g.b)
  simp only [bytesInBlock, fitsBlock, decide_eq_true_eq]
  omega

end Geometry

/-- The bytes an access leaves its block with lie in the block of its last byte, another one. -/
theorem Geometry.last_block {g : Geometry} {addr : Word} (hcross : g.fitsBlock addr = false) :
    g.blockNum (addr + BitVec.ofNat 64 (g.bytesInBlock addr)) = g.blockNum (addr + 7#64) ∧
      g.blockNum (addr + 7#64) ≠ g.blockNum addr := by
  have hle := (g.bytesInBlock_spec addr).2.1
  have hlt : g.bytesInBlock addr < 8 := by
    refine lt_of_le_of_ne hle fun heq => ?_
    rw [(g.bytesInBlock_eq_iff addr).1 heq] at hcross
    cases hcross
  have hlast := g.rest_block addr (7 - g.bytesInBlock addr) (by omega)
  rw [BitVec.add_assoc, ← BitVec.ofNat_add, Nat.add_sub_cancel' (by omega)] at hlast
  refine ⟨hlast.symm, fun hsame => ?_⟩
  rw [fitsBlock, decide_eq_false_iff_not] at hcross
  have hb := g.b_add_s_lt
  have hpow : 2 ^ g.b < 2 ^ 31 := Nat.pow_lt_pow_right (by decide) (by omega)
  have hpos := Nat.two_pow_pos g.b
  have hoff := Nat.mod_lt addr.toNat hpos
  rcases le_total (addr.toNat % 2 ^ g.b) ((addr + 7#64).toNat % 2 ^ g.b) with hge | hge
  · have hsub := g.sub_toNat_of_block hsame hge
    have hoff' := Nat.mod_lt (addr + 7#64).toNat hpos
    rw [BitVec.add_comm, BitVec.add_sub_cancel, BitVec.toNat_ofNat] at hsub
    omega
  · have hsub := g.sub_toNat_of_block hsame.symm hge
    rw [BitVec.toNat_sub, BitVec.toNat_add, BitVec.toNat_ofNat] at hsub
    have haddr := addr.isLt
    omega

/-! ## The loop keeps the cache well tagged -/

namespace Cache.WellTagged

variable {c : Cache} {g : Geometry} (h : c.WellTagged g)
include h

/-- The end of a miss, from wherever the block is filled. -/
theorem completeMiss_tagged (block : Word) (hg : getLine c block = none) (operation : Operation)
    (fillBase : Word) (m : Memory) :
    ∃ c' m', completeMiss operation fillBase block c m = (c', m') ∧ c'.WellTagged g ∧
      getLine c' block ≠ none := by
  have hA : 0 < c.A.toNat := by rw [h.fits.A_toNat]; exact g.one_le_A
  obtain ⟨j, set, k, hj, hset, hmiss⟩ := handleMiss_eq c hA m.counts block operation
    (readBlock m.ptable fillBase c.B.toNat).1
  rw [h.fits.A_toNat] at hj
  obtain ⟨hwt, hcopy⟩ := h.contents_putLine_absent hg hj rfl rfl hset
  have hfill : (completeMiss operation fillBase block c m).1 = c.putSet block set := by
    simp only [completeMiss, hmiss]
  refine ⟨c.putSet block set, _, Prod.ext hfill rfl, hwt, ?_⟩
  rw [Ne, ← copy_eq_none_iff (p := m.ptable), hcopy, if_pos (by simp [Geometry.inBlock])]
  exact Option.some_ne_none _

/-- A fill brings the block of the byte in. -/
theorem cacheByte_fill (operation : Operation) (fillBase : Word → Word) {x : Word}
    (hg : getLine c x = none) {m : Memory}
    (hdone : m.countdown c (g.blockStart (g.blockNum x)) = 0) :
    ∃ c' m', cacheByte operation fillBase c m x = (false, c', m') ∧ c'.WellTagged g ∧
      getLine c' x ≠ none := by
  obtain ⟨k, hbyte⟩ := h.cacheByte_miss operation fillBase hg m
  have hpos : ¬ 0 < m.countdown c (g.blockStart (g.blockNum x)) :=
    fun hpos => (BitVec.pos_iff_ne_zero _).1 hpos hdone
  rw [if_neg hpos] at hbyte
  have hstart := g.blockNum_blockStart x
  obtain ⟨c', m', hmiss, hwt, hl⟩ := h.completeMiss_tagged (g.blockStart (g.blockNum x))
    (by rwa [h.getLine_congr hstart]) operation (fillBase (g.blockStart (g.blockNum x)))
    { m with
      counts := k
      inflight := true
      inflightAddr := g.blockStart (g.blockNum x)
      inflightCycles := m.countdown c (g.blockStart (g.blockNum x)) }
  rw [hmiss] at hbyte
  exact ⟨c', m', hbyte, hwt, by rwa [← hwt.getLine_congr hstart]⟩

theorem cacheByte_tagged (operation : Operation) (fillBase : Word → Word) (m : Memory) (x : Word) :
    (cacheByte operation fillBase c m x).2.1.WellTagged g := by
  by_cases hg : getLine c x = none
  · by_cases hdone : m.countdown c (g.blockStart (g.blockNum x)) = 0
    · obtain ⟨c', m', hbyte, hwt, -⟩ := h.cacheByte_fill operation fillBase hg hdone
      rw [hbyte]
      exact hwt
    · obtain ⟨k, hbyte⟩ := h.cacheByte_miss operation fillBase hg m
      have hpos : 0 < m.countdown c (g.blockStart (g.blockNum x)) :=
        (BitVec.pos_iff_ne_zero _).2 hdone
      rw [hbyte, if_pos hpos]
      exact h
  · obtain ⟨c', hhit, hwt, -⟩ := h.checkHit_hit hg m.counts operation
    rw [cacheByte, hhit]
    exact hwt

theorem cacheLoop_tagged (operation : Operation) (fillBase : Word → Word) (n : Nat) (x : Word)
    (m : Memory) : (cacheLoop operation fillBase n x c m).2.1.WellTagged g := by
  induction n generalizing c x m with
  | zero => exact h
  | succ n ih =>
    have hbyte := h.cacheByte_tagged operation fillBase m x
    rw [cacheLoop]
    rcases hb : cacheByte operation fillBase c m x with ⟨_ | _, c₁, m₁⟩ <;> rw [hb] at hbyte
    · exact ih hbyte _ _
    · exact hbyte

theorem tagged_of_cacheLoop {operation : Operation} {fillBase : Word → Word} {n : Nat} {x : Word}
    {m m' : Memory} {r : Bool} {c' : Cache}
    (hloop : cacheLoop operation fillBase n x c m = (r, c', m')) : c'.WellTagged g := by
  have := h.cacheLoop_tagged operation fillBase n x m
  rwa [hloop] at this

/-- Over a block that comes in the loop does not have to wait. -/
theorem cacheLoop_bringIn (operation : Operation) (fillBase : Word → Word) {n : Nat} {x : Word}
    (hblock : ∀ k < n + 1, g.blockNum (x + BitVec.ofNat 64 k) = g.blockNum x)
    (hg : getLine c x = none) {m : Memory}
    (hdone : m.countdown c (g.blockStart (g.blockNum x)) = 0) :
    ∃ c' m', cacheLoop operation fillBase (n + 1) x c m = (false, c', m') ∧ c'.WellTagged g ∧
      getLine c' x ≠ none := by
  obtain ⟨c₁, m₁, hbyte, hw₁, hl₁⟩ := h.cacheByte_fill operation fillBase hg hdone
  obtain ⟨c₂, k₂, hloop, hw₂, hl₂, -⟩ := hw₁.cacheLoop_hit operation fillBase
    (g.blockNum_tail hblock) hl₁ m₁
  exact ⟨c₂, _, by rw [cacheLoop, hbyte]; exact hloop, hw₂, by rwa [hl₂]⟩

theorem crossesBlock_iff (addr : Word) : crossesBlock c addr = true ↔ g.fitsBlock addr = false := by
  rw [crossesBlock, decide_eq_true_iff, h.fits.B_toNat, h.fits.blockOffset_eq, Geometry.fitsBlock,
    decide_eq_false_iff_not, Nat.not_le]

/-- Well-tagged caches of one geometry have the same miss delay. -/
theorem countdown_congr {c' : Cache} (h' : c'.WellTagged g) (m : Memory) (block : Word) :
    m.countdown c' block = m.countdown c block := by
  rw [Memory.countdown, Memory.countdown, h.fits.d, h'.fits.d]

/-- Eight bytes that do not fit in a block leave its buffer. -/
theorem getWordCache_crossing {addr : Word} (hfit : g.fitsBlock addr = false) (v : Word) :
    getWordCache c addr ≠ .ok v := by
  unfold getWordCache
  rw [h.fits.B_toNat, h.fits.blockOffset_eq]
  cases getLine c addr with
  | none => exact nofun
  | some j => simp [of_decide_eq_false hfit]

theorem setWordCache_crossing {addr : Word} (hfit : g.fitsBlock addr = false) (v : Word)
    (c' : Cache) : setWordCache c addr v ≠ .ok c' := by
  unfold setWordCache
  rw [h.fits.B_toNat, h.fits.blockOffset_eq]
  cases getLine c addr with
  | none => exact nofun
  | some j => simp [of_decide_eq_false hfit]

end Cache.WellTagged

end ChArm
