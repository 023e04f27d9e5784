import ChArm.Base.CacheStore

/-!
# The cache options

`handle_args` looks at the four integers of `-A`, `-B`, `-C` and `-d`, and
`init_machine` builds the cache.  The first ends the process on a block size it
rejects and otherwise only logs what it finds; the second builds a cache
whenever none of the four is missing.  So the caches in use are valid, and every
other configuration runs without one, exactly for the quadruples of
`onlyValidCaches_iff`.

* `blockSize_iff` — the block sizes that `handle_args` accepts.
* `startCache_exit`, `startCache_missing`, `startCache_given` — what becomes of the four integers.
* `onlyValidCaches_iff` — when the cache in use is valid.
-/

namespace ChArm

/-- How the process can end before the guest starts. -/
inductive StartFailure where
  /-- `exit(1)` -/
  | exit
  /-- a division by zero, or one whose quotient does not fit -/
  | division
  deriving DecidableEq, Repr

/-- What `handle_args` logs about the cache. -/
inductive CacheNote where
  /-- "Missing arguments for cache creation, running without cache." -/
  | missing
  /-- "Invalid cache configuration; the number of sets must be a power of 2." -/
  | invalid
  /-- "Running with cache." -/
  | running
  deriving DecidableEq, Repr

/-- `__builtin_popcountll` of an `int`. -/
def popcountll (x : BitVec 32) : Nat :=
  ((List.range 64).filter fun i => (x.signExtend 64).getLsbD i).length

/-- `A == -1 || B == -1 || C == -1 || d == -1`. -/
def missingOption (A B C d : BitVec 32) : Bool :=
  A == -1#32 || B == -1#32 || C == -1#32 || d == -1#32

/-- What `handle_args` makes of the four options; `A * B` wraps. -/
def handleArgs (A B C d : BitVec 32) : Except StartFailure CacheNote :=
  if B ≠ -1#32 ∧ (B.slt 8#32 ∨ popcountll B ≠ 1) then .error .exit
  else if missingOption A B C d then .ok .missing
  else if A * B = 0#32 ∨ (C = BitVec.intMin 32 ∧ A * B = -1#32) then .error .division
  else if popcountll (C.sdiv (A * B)) ≠ 1 then .ok .invalid
  else .ok .running

/-- The cache `init_machine` sets up. -/
def initCache (A B C d : BitVec 32) : Except StartFailure (Option Cache) :=
  if missingOption A B C d then .ok none
  else if A * B = 0#32 then .error .division
  else .ok (some (createCache A B C d))

/-- The cache of the guest after `handle_args` and `init_machine`. -/
def startCache (A B C d : BitVec 32) : Except StartFailure (Option Cache) := do
  let _ ← handleArgs A B C d
  initCache A B C d

/-! ## Valid configurations -/

/-- A configuration the cache is made for. -/
structure ValidConfig (A B C : BitVec 32) : Prop where
  one_le_A : 1 ≤ A.toInt
  A_le : A.toInt ≤ 8
  B_eq : ∃ b : Nat, B.toInt = 2 ^ b
  B_ge : 8 ≤ B.toInt
  sets : ∃ s : Nat, C.toInt.tdiv (A.toInt * B.toInt) = 2 ^ s

/-- The assertions of `lru`. -/
def LruAsserts (A access : Nat) : Prop := 1 ≤ A ∧ A ≤ 8 ∧ access < A

/-- Only valid configurations get a cache, all others run without one, and nothing goes wrong in
the sizes, the set indices or the calls of `lru`. -/
structure OnlyValidCaches (A B C d : BitVec 32) : Prop where
  valid : ∀ c, startCache A B C d = .ok (some c) → ValidConfig A B C
  without : (ValidConfig A B C → missingOption A B C d = true) → startCache A B C d = .ok none
  sized : startCache A B C d ≠ .error .division
  indexed : ∀ c, startCache A B C d = .ok (some c) → ∀ addr, (setIndex c addr).toNat < c.S.toNat
  hits : ∀ c, startCache A B C d = .ok (some c) → ∀ (set : CacheSet) (tag : Word) (j : Nat),
    set.find c.A.toNat tag = some j → LruAsserts c.A.toNat j
  misses : ∀ c, startCache A B C d = .ok (some c) → ∀ set : CacheSet,
    LruAsserts c.A.toNat (selectLine set c.A.toNat).1

/-! ## Powers of two -/

theorem toInt_of_nonneg {x : BitVec 32} (h : 0 ≤ x.toInt) :
    x.toInt = x.toNat ∧ x.toNat < 2 ^ 31 := by
  rw [BitVec.toInt_eq_toNat_cond] at h ⊢
  have hlt := x.isLt
  split at h
  · next hsmall => exact ⟨if_pos hsmall, by omega⟩
  · omega

theorem toNat_signExtend_of_nonneg {x : BitVec 32} (h : 0 ≤ x.toInt) :
    (x.signExtend 64).toNat = x.toNat := by
  have hsign : (x.signExtend 64).toInt = x.toInt := BitVec.toInt_signExtend_of_le (by decide)
  obtain ⟨hx, hlt⟩ := toInt_of_nonneg h
  rw [hx, BitVec.toInt_eq_toNat_cond] at hsign
  have := (x.signExtend 64).isLt
  split at hsign <;> omega

/-- A word has one bit set exactly when it is a power of two. -/
theorem length_filter_getLsbD_iff (x : Word) :
    ((List.range 64).filter fun i => x.getLsbD i).length = 1 ↔ ∃ b, x.toNat = 2 ^ b := by
  constructor
  · intro h
    obtain ⟨b, hb⟩ := List.length_eq_one_iff.1 h
    have hmem : ∀ i, i ∈ (List.range 64).filter (fun i => x.getLsbD i) ↔ i = b := by
      intro i
      rw [hb, List.mem_singleton]
    have hbit := List.mem_filter.1 ((hmem b).2 rfl)
    refine ⟨b, Nat.eq_of_testBit_eq fun i => ?_⟩
    rw [BitVec.testBit_toNat, Nat.testBit_two_pow]
    by_cases hib : b = i
    · rw [← hib, decide_eq_true rfl]
      exact hbit.2
    · rw [decide_eq_false hib, ← Bool.not_eq_true]
      intro hi
      have hlt : i < 64 := by
        by_contra hge
        rw [BitVec.getLsbD_of_ge x i (by omega)] at hi
        cases hi
      exact hib ((hmem i).1 (List.mem_filter.2 ⟨List.mem_range.2 hlt, hi⟩)).symm
  · rintro ⟨b, hb⟩
    have hlt : b < 64 := by
      by_contra hge
      have := Nat.pow_le_pow_right (n := 2) (by decide) (Nat.le_of_not_lt hge)
      have := x.isLt
      omega
    have hbits : (fun i => x.getLsbD i) = fun i => i == b := by
      funext i
      rw [← BitVec.testBit_toNat, hb, Nat.testBit_two_pow, Bool.beq_eq_decide_eq]
      exact decide_eq_decide.2 eq_comm
    rw [hbits, List.filter_beq, List.length_replicate]
    exact List.count_eq_one_of_mem List.nodup_range (List.mem_range.2 hlt)

/-- What `handle_args` accepts as a block size. -/
theorem blockSize_iff (B : BitVec 32) :
    ¬ (B ≠ -1#32 ∧ (B.slt 8#32 ∨ popcountll B ≠ 1)) ↔
      B = -1#32 ∨ 8 ≤ B.toInt ∧ ∃ b : Nat, B.toInt = 2 ^ b := by
  have hslt : B.slt 8#32 = true ↔ B.toInt < 8 := decide_eq_true_iff
  rw [not_and, not_or, not_not, hslt, Int.not_lt]
  by_cases hm : B = -1#32
  · exact ⟨fun _ => Or.inl hm, fun _ h => absurd hm h⟩
  · rw [or_iff_right hm]
    refine (imp_iff_right hm).trans (and_congr_right fun hge => ?_)
    have hnonneg : 0 ≤ B.toInt := by omega
    rw [popcountll, length_filter_getLsbD_iff, toNat_signExtend_of_nonneg hnonneg,
      (toInt_of_nonneg hnonneg).1]
    exact exists_congr fun b => by exact_mod_cast Iff.rfl

/-! ## Valid configurations have a geometry -/

theorem ValidConfig.C_nonneg {A B C : BitVec 32} (h : ValidConfig A B C) : 0 ≤ C.toInt := by
  obtain ⟨s, hs⟩ := h.sets
  have hA := h.one_le_A
  have hB := h.B_ge
  have hAB : 0 ≤ A.toInt * B.toInt := mul_nonneg (by omega) (by omega)
  by_contra hC
  have hneg : C.toInt.tdiv (A.toInt * B.toInt) ≤ 0 := by
    rw [← Int.neg_neg C.toInt, Int.neg_tdiv]
    have := Int.tdiv_nonneg (a := -C.toInt) (by omega) hAB
    omega
  have hpos : (0 : Int) < 2 ^ s := by positivity
  omega

theorem ValidConfig.geometry {A B C : BitVec 32} (h : ValidConfig A B C) :
    ∃ g : Geometry, g.cache = createCache A B C 0 := by
  obtain ⟨hA, -⟩ := toInt_of_nonneg (x := A) (by have := h.one_le_A; omega)
  obtain ⟨hB, -⟩ := toInt_of_nonneg (x := B) (by have := h.B_ge; omega)
  obtain ⟨hC, hClt⟩ := toInt_of_nonneg h.C_nonneg
  obtain ⟨b, hb⟩ := h.B_eq
  obtain ⟨s, hs⟩ := h.sets
  have hge := h.B_ge
  have hone := h.one_le_A
  have hle := h.A_le
  rw [hA] at hone hle
  rw [hB] at hb hge
  rw [hA, hB, hC, Int.natCast_tdiv_eq_ediv] at hs
  exact ⟨{
    A := A.toNat
    B := B.toNat
    C := C.toNat
    d := 0
    b := b
    s := s
    one_le_A := by omega
    A_le := by omega
    B_eq := by exact_mod_cast hb
    B_ge := by omega
    S_eq := by exact_mod_cast hs
    C_lt := hClt
    d_lt := by decide }, by simp [Geometry.cache]⟩

/-- The sizes of a cache with a geometry, whatever its delay. -/
theorem createCache_sized {g : Geometry} {A B C : BitVec 32} (hg : g.cache = createCache A B C 0)
    (d : BitVec 32) :
    1 ≤ A.toNat ∧ A.toNat ≤ 8 ∧
      ∀ addr, (setIndex (createCache A B C d) addr).toNat < (createCache A B C d).S.toNat := by
  have hfits := g.cache_fits
  have hA : A.toNat = g.A := by
    rw [← hfits.A_toNat, hg]
    rfl
  refine ⟨hA ▸ g.one_le_A, hA ▸ g.A_le, fun addr => ?_⟩
  have hindex := hfits.setIndex_lt addr
  rw [← hfits.S_toNat, hg] at hindex
  exact hindex

theorem mul_ne_zero_of_geometry {g : Geometry} {A B C : BitVec 32}
    (hg : g.cache = createCache A B C 0) : A * B ≠ 0#32 := by
  have hfits := g.cache_fits
  have hlt : 0 < (A * B).toNat := by
    have hS := hfits.S_toNat
    rw [hg, Cache.S, BitVec.toNat_udiv] at hS
    refine Nat.pos_of_ne_zero fun h0 => ?_
    have hpos := Nat.two_pow_pos g.s
    rw [show (createCache A B C 0).A * (createCache A B C 0).B = A * B from rfl, h0, Nat.div_zero]
      at hS
    omega
  intro h0
  rw [h0] at hlt
  exact absurd hlt (by decide)

/-! ## What becomes of four integers -/

/-- A block size that is not accepted ends the process. -/
theorem startCache_exit {A B C d : BitVec 32}
    (hB : B ≠ -1#32 ∧ (B.slt 8#32 ∨ popcountll B ≠ 1)) :
    startCache A B C d = .error .exit := by
  rw [startCache, handleArgs, if_pos hB]
  rfl

/-- With an option missing there is no cache. -/
theorem startCache_missing {A B C d : BitVec 32}
    (hB : ¬ (B ≠ -1#32 ∧ (B.slt 8#32 ∨ popcountll B ≠ 1)))
    (hmissing : missingOption A B C d = true) : startCache A B C d = .ok none := by
  rw [startCache, handleArgs, if_neg hB, if_pos hmissing, initCache, if_pos hmissing]
  rfl

/-- With all options given there is one, valid or not, unless a division fails. -/
theorem startCache_given {A B C d : BitVec 32}
    (hB : ¬ (B ≠ -1#32 ∧ (B.slt 8#32 ∨ popcountll B ≠ 1)))
    (hgiven : missingOption A B C d = false) :
    startCache A B C d =
      if A * B = 0#32 ∨ (C = BitVec.intMin 32 ∧ A * B = -1#32) then .error .division
      else .ok (some (createCache A B C d)) := by
  have hsome : ¬ missingOption A B C d = true := by rw [hgiven]; exact Bool.false_ne_true
  rw [startCache, handleArgs, if_neg hB, if_neg hsome, initCache, if_neg hsome]
  by_cases hdiv : A * B = 0#32 ∨ (C = BitVec.intMin 32 ∧ A * B = -1#32)
  · rw [if_pos hdiv, if_pos hdiv]
    rfl
  · rw [if_neg hdiv, if_neg hdiv, if_neg fun h0 => hdiv (Or.inl h0)]
    split <;> rfl

/-- **When only valid caches are in use.**  For all four integers the cache of the guest is valid or
absent, and absent where the configuration is not valid, if and only if the block size is one
that `handle_args` accepts and the configuration is valid or not complete. -/
theorem onlyValidCaches_iff (A B C d : BitVec 32) :
    OnlyValidCaches A B C d ↔
      (B = -1#32 ∨ 8 ≤ B.toInt ∧ ∃ b : Nat, B.toInt = 2 ^ b) ∧
        (missingOption A B C d = true ∨ ValidConfig A B C) := by
  rw [← blockSize_iff]
  by_cases hB : B ≠ -1#32 ∧ (B.slt 8#32 ∨ popcountll B ≠ 1)
  · -- the process has ended, where a cacheless run is asked for
    refine ⟨fun h => ?_, fun h => absurd hB h.1⟩
    have hexit := startCache_exit (A := A) (C := C) (d := d) hB
    have hnone := h.without fun hvalid => absurd ((blockSize_iff B).2
      (Or.inr ⟨hvalid.B_ge, hvalid.B_eq⟩)) (not_not.2 hB)
    rw [hexit] at hnone
    cases hnone
  · cases hmissing : missingOption A B C d with
    | true =>
      -- an option is missing: there is no cache, valid or not
      refine ⟨fun _ => ⟨hB, Or.inl rfl⟩, fun _ => ?_⟩
      have hnone := startCache_missing hB hmissing
      have hnever : ∀ c, startCache A B C d ≠ .ok (some c) := by
        intro c hc
        rw [hnone] at hc
        cases hc
      refine ⟨fun c hc => absurd hc (hnever c), fun _ => hnone, ?_, fun c hc => absurd hc (hnever c),
        fun c hc => absurd hc (hnever c), fun c hc => absurd hc (hnever c)⟩
      rw [hnone]
      exact nofun
    | false =>
      -- all options are given: a cache is built whatever they are
      have hstart := startCache_given hB hmissing
      constructor
      · intro h
        refine ⟨hB, Or.inr ?_⟩
        by_contra hvalid
        have hnone := h.without fun hv => absurd hv hvalid
        rw [hstart] at hnone
        split at hnone <;> cases hnone
      · rintro ⟨-, hf | hvalid⟩
        · cases hf
        obtain ⟨g, hg⟩ := hvalid.geometry
        have hdiv : ¬ (A * B = 0#32 ∨ (C = BitVec.intMin 32 ∧ A * B = -1#32)) := by
          rintro (h0 | ⟨rfl, -⟩)
          · exact mul_ne_zero_of_geometry hg h0
          · exact absurd hvalid.C_nonneg (by decide)
        rw [if_neg hdiv] at hstart
        obtain ⟨hA, hA8, hindex⟩ := createCache_sized hg d
        have honly : ∀ c, startCache A B C d = .ok (some c) → c = createCache A B C d := by
          intro c hc
          rw [hstart] at hc
          exact (Option.some.inj (Except.ok.inj hc)).symm
        refine ⟨fun _ _ => hvalid, fun hm => absurd ((hm hvalid).symm.trans hmissing) nofun,
          ?_, ?_, ?_, ?_⟩
        · rw [hstart]
          exact nofun
        · intro c hc
          rw [honly c hc]
          exact hindex
        · intro c hc set tag j hj
          rw [honly c hc] at hj ⊢
          exact ⟨hA, hA8, (CacheSet.find_sound hj).1⟩
        · intro c hc set
          rw [honly c hc]
          exact ⟨hA, hA8, (selectLine_spec set hA).1⟩

/-- Does the emulator run without a cache? -/
def runsWithoutCache (A B C d : BitVec 32) : Bool :=
  match startCache A B C d with
  | .ok none => true
  | _ => false

theorem not_onlyValidCaches_of {A B C d : BitVec 32} (hinvalid : ¬ ValidConfig A B C)
    (hruns : runsWithoutCache A B C d = false) : ¬ OnlyValidCaches A B C d := by
  intro h
  rw [runsWithoutCache, h.without fun hvalid => absurd hvalid hinvalid] at hruns
  cases hruns

/-- Three sets, nine ways, no way and blocks of seven bytes: the first two run with a cache, the
third divides by zero and the last ends the process. -/
theorem not_onlyValidCaches :
    ¬ OnlyValidCaches 1 8 24 1 ∧ ¬ OnlyValidCaches 9 8 72 1 ∧ ¬ OnlyValidCaches 0 8 64 1 ∧
      ¬ OnlyValidCaches 1 7 56 1 := by
  refine ⟨not_onlyValidCaches_of (fun hvalid => ?_) (by decide +kernel),
    not_onlyValidCaches_of (fun hvalid => absurd hvalid.A_le (by decide)) (by decide +kernel),
    not_onlyValidCaches_of (fun hvalid => absurd hvalid.one_le_A (by decide)) (by decide +kernel),
    not_onlyValidCaches_of (fun hvalid => absurd hvalid.B_ge (by decide)) (by decide +kernel)⟩
  obtain ⟨s, hs⟩ := hvalid.sets
  have hthree : (3 : Int) = 2 ^ s := hs
  cases s with
  | zero => cases hthree
  | succ s =>
    rw [pow_succ] at hthree
    omega

end ChArm
