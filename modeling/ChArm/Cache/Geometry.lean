import ChArm.Cache.Basic

/-!
# Cache geometry

A `Geometry` is a configuration the emulator's usage text calls valid: at most
eight ways, a block size that is a power of two and at least 8, a power-of-two
number of sets.  For a cache of such a geometry the bit fiddling of `cache.c`
is the usual arithmetic on block numbers: the set index is the block number
modulo the number of sets, the tag is the quotient, and an address is rebuilt
from tag, index and offset.
-/

namespace ChArm

/-- A valid cache configuration: `b` and `s` are the exponents of the block size
and of the number of sets.  The sizes are the `int`s of the command line. -/
structure Geometry where
  A : Nat
  B : Nat
  C : Nat
  d : Nat
  b : Nat
  s : Nat
  one_le_A : 1 ≤ A
  A_le : A ≤ 8
  B_eq : B = 2 ^ b
  B_ge : 8 ≤ B
  S_eq : C / (A * B) = 2 ^ s
  C_lt : C < 2 ^ 31
  d_lt : d < 2 ^ 31

namespace Geometry

variable (g : Geometry)

/-- The cache `create_cache` builds. -/
def cache : Cache :=
  createCache (BitVec.ofNat 32 g.A) (BitVec.ofNat 32 g.B) (BitVec.ofNat 32 g.C)
    (BitVec.ofNat 32 g.d)

theorem three_le_b : 3 ≤ g.b := by
  have h := g.B_ge
  rw [g.B_eq] at h
  by_contra hcon
  have : g.b ≤ 2 := by omega
  have := Nat.pow_le_pow_right (n := 2) (by omega) this
  omega

theorem A_mul_B_mul_S_le : g.A * g.B * 2 ^ g.s ≤ g.C := by
  rw [← g.S_eq]
  exact Nat.mul_div_le g.C (g.A * g.B)

theorem A_mul_B_le : g.A * g.B ≤ g.C :=
  le_trans (Nat.le_mul_of_pos_right _ (Nat.two_pow_pos g.s)) g.A_mul_B_mul_S_le

theorem B_le : g.B ≤ g.C :=
  le_trans (Nat.le_mul_of_pos_left _ g.one_le_A) g.A_mul_B_le

theorem b_add_s_lt : g.b + g.s < 31 := by
  have h : 2 ^ (g.b + g.s) ≤ g.C := by
    calc 2 ^ (g.b + g.s) = g.B * 2 ^ g.s := by rw [pow_add, ← g.B_eq]
      _ ≤ g.A * g.B * 2 ^ g.s :=
          Nat.mul_le_mul_right _ (Nat.le_mul_of_pos_left _ g.one_le_A)
      _ ≤ g.C := g.A_mul_B_mul_S_le
  exact (Nat.pow_lt_pow_iff_right (by omega)).1 (lt_of_le_of_lt h g.C_lt)

/-- The number of the block an address lies in. -/
def blockNum (addr : Word) : Nat := addr.toNat / 2 ^ g.b

/-- The address of the first byte of a block. -/
def blockStart (n : Nat) : Word := BitVec.ofNat 64 (n * 2 ^ g.b)

end Geometry

/-- The sizes stored in a cache are those of a geometry. -/
structure Cache.Fits (c : Cache) (g : Geometry) : Prop where
  A : c.A = BitVec.ofNat 32 g.A
  B : c.B = BitVec.ofNat 32 g.B
  C : c.C = BitVec.ofNat 32 g.C
  d : c.d = BitVec.ofNat 32 g.d

theorem Geometry.cache_fits (g : Geometry) : g.cache.Fits g := ⟨rfl, rfl, rfl, rfl⟩

/-! ## Logarithms -/

theorem logLoop_two_pow {k n : Nat} (hk : k < 64) (hkn : k ≤ n) :
    logLoop n (BitVec.ofNat 64 (2 ^ k)) = k := by
  induction k generalizing n with
  | zero => cases n <;> simp [logLoop]
  | succ k ih =>
    obtain ⟨n, rfl⟩ : ∃ m, n = m + 1 := ⟨n - 1, by omega⟩
    have hlt : ∀ j < 64, 2 ^ j < 2 ^ 64 := fun j hj => Nat.pow_lt_pow_right (by omega) hj
    have hshift : BitVec.ofNat 64 (2 ^ (k + 1)) >>> 1 = BitVec.ofNat 64 (2 ^ k) := by
      apply BitVec.eq_of_toNat_eq
      rw [BitVec.toNat_ushiftRight, BitVec.toNat_ofNat, BitVec.toNat_ofNat,
        Nat.mod_eq_of_lt (hlt _ hk), Nat.mod_eq_of_lt (hlt _ (by omega)), Nat.shiftRight_eq_div_pow,
        pow_succ, pow_one, Nat.mul_div_cancel _ (by omega)]
    have hne : BitVec.ofNat 64 (2 ^ k) ≠ (0 : Word) := by
      intro h
      have h0 : 2 ^ k = 0 := by
        have := congrArg BitVec.toNat h
        rwa [BitVec.toNat_ofNat, Nat.mod_eq_of_lt (hlt _ (by omega))] at this
      exact absurd h0 (Nat.two_pow_pos k).ne'
    rw [logLoop, hshift, if_neg hne, ih (by omega) (by omega)]

theorem log_of_toNat_eq {x : Word} {k : Nat} (hk : k < 64) (h : x.toNat = 2 ^ k) : log x = k := by
  have hx : x = BitVec.ofNat 64 (2 ^ k) := by
    rw [← h, BitVec.ofNat_toNat, BitVec.setWidth_eq]
  rw [log, hx, logLoop_two_pow hk (by omega)]

/-! ## The sizes of a cache -/

namespace Cache.Fits

variable {c : Cache} {g : Geometry} (h : c.Fits g)
include h

theorem A_toNat : c.A.toNat = g.A := by
  rw [h.A, BitVec.toNat_ofNat, Nat.mod_eq_of_lt]
  have := g.A_le
  omega

theorem B_toNat : c.B.toNat = 2 ^ g.b := by
  rw [h.B, BitVec.toNat_ofNat, Nat.mod_eq_of_lt, g.B_eq]
  have := g.B_le
  have := g.C_lt
  omega

theorem C_toNat : c.C.toNat = g.C := by
  rw [h.C, BitVec.toNat_ofNat, Nat.mod_eq_of_lt]
  have := g.C_lt
  omega

theorem d_toNat : c.d.toNat = g.d := by
  rw [h.d, BitVec.toNat_ofNat, Nat.mod_eq_of_lt]
  have := g.d_lt
  omega

theorem S_toNat : c.S.toNat = 2 ^ g.s := by
  have hAB : (c.A * c.B).toNat = g.A * g.B := by
    rw [BitVec.toNat_mul, h.A_toNat, h.B_toNat, ← g.B_eq, Nat.mod_eq_of_lt]
    have := g.A_mul_B_le
    have := g.C_lt
    omega
  rw [Cache.S, BitVec.toNat_udiv, hAB, h.C_toNat, g.S_eq]

theorem b_eq : c.b = g.b := by
  have := g.b_add_s_lt
  refine log_of_toNat_eq (by omega) ?_
  rw [BitVec.toNat_setWidth, h.B_toNat, Nat.mod_eq_of_lt]
  exact Nat.pow_lt_pow_right (by omega) (by omega)

theorem s_eq : c.s = g.s := by
  have := g.b_add_s_lt
  refine log_of_toNat_eq (by omega) ?_
  rw [BitVec.toNat_setWidth, h.S_toNat, Nat.mod_eq_of_lt]
  exact Nat.pow_lt_pow_right (by omega) (by omega)

/-! ## Tag, index and offset -/

/-- The mask `(1 << s) - 1`. -/
theorem setMask_toNat : (((1#32 <<< c.s) - 1#32).signExtend 64).toNat = 2 ^ g.s - 1 := by
  have hs := g.b_add_s_lt
  have hpos := Nat.two_pow_pos g.s
  have hlt : 2 ^ g.s < 2 ^ 31 := Nat.pow_lt_pow_right (by omega) (by omega)
  have hsub : ((1#32 <<< c.s) - 1#32).toNat = 2 ^ g.s - 1 := by
    have h1 : (1#32 <<< c.s).toNat = 2 ^ g.s := by
      rw [h.s_eq, BitVec.toNat_shiftLeft, BitVec.toNat_ofNat, Nat.shiftLeft_eq, Nat.one_mod_two_pow
        (by omega), Nat.one_mul, Nat.mod_eq_of_lt (by omega)]
    rw [BitVec.toNat_sub, h1, BitVec.toNat_ofNat]
    omega
  rw [BitVec.signExtend_eq_setWidth_of_msb_false, BitVec.toNat_setWidth, hsub,
    Nat.mod_eq_of_lt (by omega)]
  rw [BitVec.msb_eq_false_iff_two_mul_lt, hsub]
  omega

theorem setIndex_toNat (addr : Word) : (setIndex c addr).toNat = g.blockNum addr % 2 ^ g.s := by
  rw [setIndex, BitVec.toNat_and, h.setMask_toNat, BitVec.toNat_ushiftRight, h.b_eq,
    Nat.shiftRight_eq_div_pow, Nat.and_two_pow_sub_one_eq_mod, Geometry.blockNum]

theorem setIndex_lt (addr : Word) : (setIndex c addr).toNat < 2 ^ g.s := by
  rw [h.setIndex_toNat]
  exact Nat.mod_lt _ (Nat.two_pow_pos _)

theorem tagOf_toNat (addr : Word) : (tagOf c addr).toNat = g.blockNum addr / 2 ^ g.s := by
  rw [tagOf, BitVec.toNat_ushiftRight, h.b_eq, h.s_eq, Nat.shiftRight_eq_div_pow, pow_add,
    ← Nat.div_div_eq_div_mul, Geometry.blockNum]

theorem blockOffset_eq (addr : Word) : blockOffset c addr = addr.toNat % 2 ^ g.b := by
  have hpos := Nat.two_pow_pos g.b
  have hb := g.b_add_s_lt
  have hlt : 2 ^ g.b < 2 ^ 31 := Nat.pow_lt_pow_right (by omega) (by omega)
  have hsub : (c.B - 1#32).toNat = 2 ^ g.b - 1 := by
    rw [BitVec.toNat_sub, h.B_toNat, BitVec.toNat_ofNat]
    omega
  rw [blockOffset, BitVec.toNat_and, BitVec.toNat_setWidth, hsub, Nat.mod_eq_of_lt (by omega),
    Nat.and_two_pow_sub_one_eq_mod]

/-- Two addresses share set and tag exactly when they share their block. -/
theorem same_block_iff (x y : Word) :
    (setIndex c x = setIndex c y ∧ tagOf c x = tagOf c y) ↔ g.blockNum x = g.blockNum y := by
  constructor
  · rintro ⟨hi, ht⟩
    have hi' := congrArg BitVec.toNat hi
    have ht' := congrArg BitVec.toNat ht
    rw [h.setIndex_toNat, h.setIndex_toNat] at hi'
    rw [h.tagOf_toNat, h.tagOf_toNat] at ht'
    rw [← Nat.div_add_mod (g.blockNum x) (2 ^ g.s), ← Nat.div_add_mod (g.blockNum y) (2 ^ g.s),
      hi', ht']
  · intro hxy
    constructor <;> apply BitVec.eq_of_toNat_eq
    · rw [h.setIndex_toNat, h.setIndex_toNat, hxy]
    · rw [h.tagOf_toNat, h.tagOf_toNat, hxy]

end Cache.Fits

/-! ## Blocks and addresses -/

namespace Geometry

variable (g : Geometry)

/-- Does an address lie in block `n`? -/
def inBlock (n : Nat) (a : Word) : Bool := g.blockNum a == n

theorem blockNum_lt (a : Word) : g.blockNum a < 2 ^ (64 - g.b) := by
  have hb := g.b_add_s_lt
  rw [blockNum, Nat.div_lt_iff_lt_mul (Nat.two_pow_pos _), ← pow_add]
  exact lt_of_lt_of_eq a.isLt (by congr 1; omega)

theorem blockStart_toNat {n : Nat} (hn : n < 2 ^ (64 - g.b)) :
    (g.blockStart n).toNat = n * 2 ^ g.b := by
  have hb := g.b_add_s_lt
  rw [blockStart, BitVec.toNat_ofNat, Nat.mod_eq_of_lt]
  calc n * 2 ^ g.b < 2 ^ (64 - g.b) * 2 ^ g.b := Nat.mul_lt_mul_of_pos_right hn (Nat.two_pow_pos _)
    _ = 2 ^ 64 := by rw [← pow_add]; congr 1; omega

theorem blockNum_blockStart (a : Word) : g.blockNum (g.blockStart (g.blockNum a)) = g.blockNum a := by
  rw [blockNum, g.blockStart_toNat (g.blockNum_lt a), Nat.mul_div_cancel _ (Nat.two_pow_pos _)]

/-- The bytes after the first of a run of bytes in one block. -/
theorem blockNum_tail {n b : Nat} {x : Word}
    (h : ∀ k < n + 1, g.blockNum (x + BitVec.ofNat 64 k) = b) :
    ∀ k < n, g.blockNum (x + 1#64 + BitVec.ofNat 64 k) = b := by
  intro k hk
  rw [← h (k + 1) (by omega), BitVec.add_assoc]
  congr 2
  rw [BitVec.add_comm, BitVec.ofNat_add]

/-- An address is the start of its block plus its offset. -/
theorem blockStart_add_offset (a : Word) :
    g.blockStart (g.blockNum a) + BitVec.ofNat 64 (a.toNat % 2 ^ g.b) = a := by
  rw [blockStart, ← BitVec.ofNat_add, blockNum, Nat.div_add_mod', BitVec.ofNat_toNat,
    BitVec.setWidth_eq]

/-- The bytes from the start of a block on are the addresses of the block. -/
theorem sub_blockStart_lt_iff {n : Nat} (hn : n < 2 ^ (64 - g.b)) (a : Word) :
    (a - g.blockStart n).toNat < 2 ^ g.b ↔ g.blockNum a = n := by
  have hb := g.b_add_s_lt
  have hpos := Nat.two_pow_pos g.b
  have hstart := g.blockStart_toNat hn
  have hend : n * 2 ^ g.b + 2 ^ g.b ≤ 2 ^ 64 := by
    calc n * 2 ^ g.b + 2 ^ g.b = (n + 1) * 2 ^ g.b := by ring
      _ ≤ 2 ^ (64 - g.b) * 2 ^ g.b := Nat.mul_le_mul_right _ hn
      _ = 2 ^ 64 := by rw [← pow_add]; congr 1; omega
  have ha := a.isLt
  rw [BitVec.toNat_sub, hstart, blockNum, Nat.div_eq_iff hpos]
  omega

theorem sub_blockStart_toNat (a : Word) :
    (a - g.blockStart (g.blockNum a)).toNat = a.toNat % 2 ^ g.b := by
  have h := Nat.div_add_mod' a.toNat (2 ^ g.b)
  have ha := a.isLt
  rw [BitVec.toNat_sub, g.blockStart_toNat (g.blockNum_lt a), blockNum]
  omega

/-- Inside a block, a displacement that does not leave it adds to the offset. -/
theorem blockNum_add {a : Word} {k : Nat} (hk : a.toNat % 2 ^ g.b + k < 2 ^ g.b) :
    g.blockNum (a + BitVec.ofNat 64 k) = g.blockNum a ∧
      (a + BitVec.ofNat 64 k).toNat % 2 ^ g.b = a.toNat % 2 ^ g.b + k := by
  have hb := g.b_add_s_lt
  have hblock := g.blockNum_lt a
  have hend : g.blockNum a * 2 ^ g.b + 2 ^ g.b ≤ 2 ^ 64 := by
    calc g.blockNum a * 2 ^ g.b + 2 ^ g.b = (g.blockNum a + 1) * 2 ^ g.b := by ring
      _ ≤ 2 ^ (64 - g.b) * 2 ^ g.b := Nat.mul_le_mul_right _ hblock
      _ = 2 ^ 64 := by rw [← pow_add]; congr 1; omega
  have hdiv := Nat.div_add_mod' a.toNat (2 ^ g.b)
  have hsum : (a + BitVec.ofNat 64 k).toNat = a.toNat + k := by
    rw [BitVec.toNat_add, BitVec.toNat_ofNat]
    rw [blockNum] at hend
    omega
  have heq : a.toNat + k = g.blockNum a * 2 ^ g.b + (a.toNat % 2 ^ g.b + k) := by
    rw [blockNum]
    omega
  constructor
  · rw [blockNum, hsum, heq, Nat.mul_comm, Nat.mul_add_div (Nat.two_pow_pos _),
      Nat.div_eq_of_lt hk, Nat.add_zero]
  · rw [hsum, heq, Nat.mul_add_mod', Nat.mod_eq_of_lt hk]

/-- Addresses right above one that are still in its block. -/
theorem of_sub_toNat_lt {a addr : Word} {n : Nat} (hfit : addr.toNat % 2 ^ g.b + n ≤ 2 ^ g.b)
    (hlt : (a - addr).toNat < n) :
    g.blockNum a = g.blockNum addr ∧
      a.toNat % 2 ^ g.b = addr.toNat % 2 ^ g.b + (a - addr).toNat := by
  have ha : addr + BitVec.ofNat 64 (a - addr).toNat = a := by
    rw [BitVec.ofNat_toNat, BitVec.setWidth_eq, BitVec.add_comm, BitVec.sub_add_cancel]
  have := g.blockNum_add (a := addr) (k := (a - addr).toNat) (by omega)
  rwa [ha] at this

theorem sub_toNat_of_block {a addr : Word} (hblock : g.blockNum a = g.blockNum addr)
    (hle : addr.toNat % 2 ^ g.b ≤ a.toNat % 2 ^ g.b) :
    (a - addr).toNat = a.toNat % 2 ^ g.b - addr.toNat % 2 ^ g.b := by
  have h1 := Nat.div_add_mod' a.toNat (2 ^ g.b)
  have h2 := Nat.div_add_mod' addr.toNat (2 ^ g.b)
  rw [blockNum, blockNum] at hblock
  rw [hblock] at h1
  have ha := a.isLt
  rw [BitVec.toNat_sub]
  omega

end Geometry

namespace Cache.Fits

variable {c : Cache} {g : Geometry} (h : c.Fits g)
include h

/-- Every set index completes a tag of an address to a block number. -/
theorem tag_block_lt {t : Word} (ht : t.toNat < 2 ^ (64 - g.b - g.s)) (addr : Word) :
    t.toNat * 2 ^ g.s + (setIndex c addr).toNat < 2 ^ (64 - g.b) := by
  have hb := g.b_add_s_lt
  have hidx := h.setIndex_lt addr
  calc t.toNat * 2 ^ g.s + (setIndex c addr).toNat < (t.toNat + 1) * 2 ^ g.s := by
        rw [Nat.add_one_mul]; omega
    _ ≤ 2 ^ (64 - g.b - g.s) * 2 ^ g.s := Nat.mul_le_mul_right _ ht
    _ = 2 ^ (64 - g.b) := by rw [← pow_add]; congr 1; omega

/-- The address `handle_miss` rebuilds from a tag and the set index. -/
theorem evicted_blockAddr {t : Word} (ht : t.toNat < 2 ^ (64 - g.b - g.s)) (addr : Word) :
    ((t <<< c.s) ||| setIndex c addr) <<< c.b =
      g.blockStart (t.toNat * 2 ^ g.s + (setIndex c addr).toNat) := by
  have ht64 : t.toNat * 2 ^ g.s < 2 ^ 64 := by
    calc t.toNat * 2 ^ g.s ≤ t.toNat * 2 ^ g.s + (setIndex c addr).toNat := Nat.le_add_right _ _
      _ < 2 ^ (64 - g.b) := h.tag_block_lt ht addr
      _ ≤ 2 ^ 64 := Nat.pow_le_pow_right (by omega) (by omega)
  have hor : ((t <<< c.s) ||| setIndex c addr).toNat =
      t.toNat * 2 ^ g.s + (setIndex c addr).toNat := by
    rw [BitVec.toNat_or, BitVec.toNat_shiftLeft, h.s_eq, Nat.shiftLeft_eq, Nat.mod_eq_of_lt ht64,
      ← Nat.shiftLeft_eq, Nat.shiftLeft_add_eq_or_of_lt (h.setIndex_lt addr)]
  apply BitVec.eq_of_toNat_eq
  rw [BitVec.toNat_shiftLeft, hor, h.b_eq, Nat.shiftLeft_eq, Geometry.blockStart,
    BitVec.toNat_ofNat]

theorem inBlock_iff (addr a : Word) :
    g.inBlock (g.blockNum addr) a = true ↔
      setIndex c a = setIndex c addr ∧ tagOf c a = tagOf c addr := by
  rw [h.same_block_iff, Geometry.inBlock, beq_iff_eq]

end Cache.Fits

/-! ## Small caches -/

/-- One line of eight bytes and a miss delay of three cycles. -/
def Geometry.oneLine : Geometry where
  A := 1
  B := 8
  C := 8
  d := 3
  b := 3
  s := 0
  one_le_A := by decide
  A_le := by decide
  B_eq := by decide
  B_ge := by decide
  S_eq := by decide
  C_lt := by decide
  d_lt := by decide

/-- One line of eight bytes and no miss delay. -/
def Geometry.noDelay : Geometry := { Geometry.oneLine with d := 0, d_lt := by decide }

/-- One line of sixteen bytes and a delay of one cycle. -/
def Geometry.wideLine : Geometry where
  A := 1
  B := 16
  C := 16
  d := 1
  b := 4
  s := 0
  one_le_A := by decide
  A_le := by decide
  B_eq := by decide
  B_ge := by decide
  S_eq := by decide
  C_lt := by decide
  d_lt := by decide

/-- Two ways of eight bytes, one set. -/
def Geometry.twoWays : Geometry where
  A := 2
  B := 8
  C := 16
  d := 0
  b := 3
  s := 0
  one_le_A := by decide
  A_le := by decide
  B_eq := by decide
  B_ge := by decide
  S_eq := by decide
  C_lt := by decide
  d_lt := by decide

end ChArm
