import ChArm.Base.Mem
import ChArm.Cache.Bare
import ChArm.Lib.WriteBack

/-!
# The cache as a write-back store

`Cache.contents` is the write-back store of bytes that a cache over the page
table is.  Every step of a cached access is an operation of that store: a hit
marks a block dirty or nothing at all (`Cache.WellTagged.checkHit_hit`), the end
of a miss evicts a block and brings one in (`Cache.WellTagged.completeMiss_spec`).
What a set needs for this is `Cache.WellTagged`: the tags of its valid lines are
distinct and come from addresses.

* `checkHit_hit` — a hit finds the line and marks it at most.
* `copy_of_present`, `copy_victim` — what the cache holds of a block.
* `completeMiss_spec` — the victim is written back and the block comes in.
-/

namespace ChArm

open WriteBack

/-- `addr & ~(B - 1)` is the start of the block. -/
theorem Cache.Fits.blockAddress_eq {c : Cache} {g : Geometry} (h : c.Fits g) (addr : Word) :
    blockAddress c addr = g.blockStart (g.blockNum addr) := by
  have hb := g.b_add_s_lt
  have hlt : 2 ^ g.b < 2 ^ 31 := Nat.pow_lt_pow_right (by omega) (by omega)
  have hpos := Nat.two_pow_pos g.b
  have hmask : (c.B.setWidth 64 - 1#64).toNat = 2 ^ g.b - 1 := by
    rw [BitVec.toNat_sub, BitVec.toNat_setWidth, h.B_toNat, BitVec.toNat_ofNat]
    omega
  apply BitVec.eq_of_getLsbD_eq
  intro i hi
  rw [blockAddress, BitVec.getLsbD_and, BitVec.getLsbD_not, ← BitVec.testBit_toNat,
    ← BitVec.testBit_toNat, ← BitVec.testBit_toNat, hmask,
    g.blockStart_toNat (g.blockNum_lt addr), Geometry.blockNum, Nat.testBit_two_pow_sub_one,
    Nat.testBit_mul_two_pow, Nat.testBit_div_two_pow]
  by_cases hib : i < g.b
  · simp [hib, Nat.not_le.2 hib]
  · simp [hi, hib, Nat.le_of_not_lt hib]

/-! ## The lines of a set -/

namespace CacheSet

variable {A : Nat} {set : CacheSet}

/-- No two valid lines of the set carry the same tag. -/
def Distinct (A : Nat) (set : CacheSet) : Prop :=
  ∀ j < A, ∀ k < A, (set.lines j).valid = true → (set.lines k).valid = true →
    (set.lines j).tag = (set.lines k).tag → j = k

theorem find_sound {t : Word} {j : Nat} (h : set.find A t = some j) :
    j < A ∧ (set.lines j).valid = true ∧ (set.lines j).tag = t := by
  have hp := List.find?_some h
  simp only [Bool.and_eq_true, beq_iff_eq] at hp
  exact ⟨List.mem_range.1 (List.mem_of_find?_eq_some h), hp⟩

theorem Distinct.find_eq_some_iff (h : Distinct A set) {t : Word} {j : Nat} :
    set.find A t = some j ↔ j < A ∧ (set.lines j).valid = true ∧ (set.lines j).tag = t := by
  refine ⟨find_sound, fun ⟨hj, hv, ht⟩ => ?_⟩
  cases hf : set.find A t with
  | none =>
    have := List.find?_eq_none.1 hf j (List.mem_range.2 hj)
    simp [hv, ht] at this
  | some k =>
    obtain ⟨hk, hkv, hkt⟩ := find_sound hf
    rw [h j hj k hk hv hkv (ht.trans hkt.symm)]

@[simp] theorem lines_touch (set : CacheSet) (A j : Nat) : (set.touch A j).lines = set.lines := rfl

/-- Replacing a line by one whose tag no other line has. -/
theorem Distinct.putLine (h : Distinct A set) {j : Nat} {l : CacheLine}
    (hnew : ∀ k < A, k ≠ j → (set.lines k).valid = true → (set.lines k).tag ≠ l.tag) :
    Distinct A (set.putLine j l) := by
  intro x hx y hy hxv hyv hxy
  simp only [CacheSet.lines_putLine] at hxv hyv hxy
  by_cases hxj : x = j <;> by_cases hyj : y = j
  · rw [hxj, hyj]
  · subst hxj
    rw [if_neg hyj] at hyv hxy
    rw [if_pos rfl] at hxy
    exact absurd hxy.symm (hnew y hy hyj hyv)
  · subst hyj
    rw [if_neg hxj] at hxv hxy
    rw [if_pos rfl] at hxy
    exact absurd hxy (hnew x hx hxj hxv)
  · rw [if_neg hxj] at hxv hxy
    rw [if_neg hyj] at hyv hxy
    exact h x hx y hy hxv hyv hxy

/-- What is found after a line was replaced. -/
theorem Distinct.find_putLine (h : Distinct A set) {j : Nat} (hj : j < A) {l : CacheLine}
    (hl : l.valid = true)
    (hnew : ∀ k < A, k ≠ j → (set.lines k).valid = true → (set.lines k).tag ≠ l.tag) (t : Word) :
    (set.putLine j l).find A t =
      if t = l.tag then some j else if set.find A t = some j then none else set.find A t := by
  refine Option.ext fun k => ?_
  rw [(h.putLine hnew).find_eq_some_iff]
  by_cases hkj : k = j
  · subst hkj
    by_cases ht : t = l.tag
    · simp [CacheSet.putLine, ht, hj, hl]
    · by_cases hf : set.find A t = some k
      · simp [CacheSet.putLine, ht, hf, Ne.symm ht]
      · simp [CacheSet.putLine, ht, hf, Ne.symm ht]
  · simp only [CacheSet.putLine, if_neg hkj]
    by_cases ht : t = l.tag
    · rw [if_pos ht, Option.some_inj]
      refine ⟨?_, fun hk => absurd hk.symm hkj⟩
      rintro ⟨hk, hkv, hkt⟩
      exact absurd (hkt.trans ht) (hnew k hk hkj hkv)
    · rw [if_neg ht]
      by_cases hf : set.find A t = some j
      · rw [if_pos hf, ← h.find_eq_some_iff, hf]
        simp [Ne.symm hkj]
      · rw [if_neg hf, ← h.find_eq_some_iff]

end CacheSet

/-! ## The contents of a cache -/

/-- The sizes fit, and in every set the tags of the valid lines are distinct and
are tags of addresses. -/
structure Cache.WellTagged (g : Geometry) (c : Cache) : Prop where
  fits : c.Fits g
  distinct : ∀ i, (c.sets i).Distinct g.A
  canonical : ∀ i, ∀ j < g.A, ((c.sets i).lines j).valid = true →
    ((c.sets i).lines j).tag.toNat < 2 ^ (64 - g.b - g.s)

/-- The byte store that a cache over a page table is. -/
def Cache.contents (c : Cache) (pt : PTable) : Store Word Byte where
  copy := fun a => (getLine c a).map fun j =>
    (((getSet c a).lines j).dirty, ((getSet c a).lines j).data (blockOffset c a))
  backing := pt.byteAt

/-- The contents depend on what the table means, not on its chains. -/
theorem contents_congr (c : Cache) {pt pt' : PTable} (h : pt.byteAt = pt'.byteAt) :
    c.contents pt = c.contents pt' := by
  simp only [Cache.contents, h]

theorem copy_eq_none_iff {c : Cache} {p : PTable} {a : Word} :
    (c.contents p).copy a = none ↔ getLine c a = none := by
  rw [Cache.contents, Option.map_eq_none_iff]

theorem Geometry.cache_wellTagged (g : Geometry) : g.cache.WellTagged g where
  fits := g.cache_fits
  distinct := fun i j hj k hk hv => by simp [cache, createCache, CacheSet.fresh, CacheLine.fresh] at hv
  canonical := fun i j hj hv => by simp [cache, createCache, CacheSet.fresh, CacheLine.fresh] at hv

theorem contents_fresh (g : Geometry) (pt : PTable) (a : Word) :
    (g.cache.contents pt).copy a = none := by
  have h : (CacheSet.fresh).find (BitVec.ofNat 32 g.A).toNat (tagOf g.cache a) = none := by
    simp [CacheSet.find, CacheSet.fresh, CacheLine.fresh]
  simp only [Cache.contents, Option.map_eq_none_iff]
  exact h

namespace Cache

variable {c : Cache} {g : Geometry}

theorem getSet_putSet (c : Cache) (addr : Word) (set : CacheSet) (a : Word) :
    getSet (c.putSet addr set) a =
      if setIndex c a = setIndex c addr then set else getSet c a := by
  change (c.putSet addr set).sets (setIndex c a).toNat = _
  rw [sets_putSet]
  by_cases h : setIndex c a = setIndex c addr
  · rw [if_pos h, h, if_pos rfl]
  · rw [if_neg h, if_neg (fun hn => h (BitVec.eq_of_toNat_eq hn)), getSet]

/-- A line that was not replaced is where it was. -/
theorem lines_ite_putLine {addr a : Word} {set : CacheSet} {j k : Nat} {l : CacheLine}
    (hset : set.lines = ((getSet c addr).putLine j l).lines)
    (hk : setIndex c a = setIndex c addr → k ≠ j) :
    (if setIndex c a = setIndex c addr then set else getSet c a).lines k =
      (getSet c a).lines k := by
  by_cases hi : setIndex c a = setIndex c addr
  · have hsame : getSet c a = getSet c addr := by rw [getSet, getSet, hi]
    rw [if_pos hi, hset, hsame]
    simp only [CacheSet.putLine, if_neg (hk hi)]
  · rw [if_neg hi]

namespace WellTagged

variable (h : c.WellTagged g)
include h

theorem getLine_eq (a : Word) : getLine c a = (getSet c a).find g.A (tagOf c a) := by
  rw [getLine, h.fits.A_toNat]

theorem distinct_getSet (a : Word) : (getSet c a).Distinct g.A := h.distinct _

/-- Putting a line with the tag of `addr` at index `j` of its set, where no other
line has that tag. -/
theorem putLine {addr : Word} {j : Nat} {l : CacheLine} (ht : l.tag = tagOf c addr)
    (hnew : ∀ k < g.A, k ≠ j → ((getSet c addr).lines k).valid = true →
      ((getSet c addr).lines k).tag ≠ l.tag)
    {set : CacheSet} (hset : set.lines = ((getSet c addr).putLine j l).lines) :
    (c.putSet addr set).WellTagged g where
  fits := ⟨h.fits.A, h.fits.B, h.fits.C, h.fits.d⟩
  distinct := by
    intro i
    by_cases hi : i = (setIndex c addr).toNat
    · subst hi
      have := (h.distinct_getSet addr).putLine hnew
      simpa [Cache.putSet, CacheSet.Distinct, hset] using this
    · simpa [Cache.putSet, hi] using h.distinct i
  canonical := by
    intro i k hk hv
    by_cases hi : i = (setIndex c addr).toNat
    · subst hi
      simp only [Cache.putSet, if_true, hset] at hv ⊢
      by_cases hkj : k = j
      · subst hkj
        simp only [CacheSet.putLine, if_true, ht]
        have hb := g.b_add_s_lt
        rw [h.fits.tagOf_toNat, Nat.div_lt_iff_lt_mul (Nat.two_pow_pos _), ← pow_add]
        exact lt_of_lt_of_eq (g.blockNum_lt addr) (by congr 1; omega)
      · simp only [CacheSet.putLine, if_neg hkj] at hv ⊢
        exact h.canonical _ k hk hv
    · simp only [Cache.putSet, if_neg hi] at hv ⊢
      exact h.canonical i k hk hv

/-- What `get_line` finds after that. -/
theorem getLine_putLine {addr : Word} {j : Nat} (hj : j < g.A) {l : CacheLine}
    (ht : l.tag = tagOf c addr) (hl : l.valid = true)
    (hnew : ∀ k < g.A, k ≠ j → ((getSet c addr).lines k).valid = true →
      ((getSet c addr).lines k).tag ≠ l.tag)
    {set : CacheSet} (hset : set.lines = ((getSet c addr).putLine j l).lines) (a : Word) :
    getLine (c.putSet addr set) a =
      if g.inBlock (g.blockNum addr) a then some j
      else if setIndex c a = setIndex c addr ∧ getLine c a = some j then none
      else getLine c a := by
  have hfind : set.find g.A = ((getSet c addr).putLine j l).find g.A := by
    funext t
    rw [CacheSet.find, CacheSet.find, hset]
  rw [(h.putLine ht hnew hset).getLine_eq, getSet_putSet,
    show tagOf (c.putSet addr set) a = tagOf c a from rfl]
  by_cases hi : setIndex c a = setIndex c addr
  · have hsame : getSet c a = getSet c addr := by rw [getSet, getSet, hi]
    rw [if_pos hi, hfind, (h.distinct_getSet addr).find_putLine hj hl hnew, ht,
      h.getLine_eq, hsame]
    by_cases hta : tagOf c a = tagOf c addr
    · rw [if_pos hta, if_pos ((h.fits.inBlock_iff addr a).2 ⟨hi, hta⟩)]
    · rw [if_neg hta, if_neg (fun hb => hta ((h.fits.inBlock_iff addr a).1 hb).2)]
      simp [hi]
  · rw [if_neg hi, if_neg (fun hb => hi ((h.fits.inBlock_iff addr a).1 hb).1),
      if_neg (fun hb => hi hb.1), h.getLine_eq]

/-- A block is in the cache with all its addresses or with none. -/
theorem getLine_congr {a a' : Word} (haa : g.blockNum a = g.blockNum a') :
    getLine c a = getLine c a' := by
  obtain ⟨hi, ht⟩ := (h.fits.same_block_iff a a').2 haa
  rw [h.getLine_eq, h.getLine_eq, ht, getSet, getSet, hi]

/-- The addresses a valid line holds are those of the block its tag and set name. -/
theorem line_holds_iff {addr : Word} {j : Nat} (hj : j < g.A)
    (hv : ((getSet c addr).lines j).valid = true) (a : Word) :
    (setIndex c a = setIndex c addr ∧ getLine c a = some j) ↔
      g.blockNum a =
        ((getSet c addr).lines j).tag.toNat * 2 ^ g.s + (setIndex c addr).toNat := by
  have hlt := h.fits.setIndex_lt addr
  have hpos := Nat.two_pow_pos g.s
  constructor
  · rintro ⟨hi, hl⟩
    have hsame : getSet c a = getSet c addr := by rw [getSet, getSet, hi]
    rw [h.getLine_eq, hsame] at hl
    rw [(CacheSet.find_sound hl).2.2, ← hi, h.fits.tagOf_toNat, h.fits.setIndex_toNat,
      Nat.div_add_mod']
  · intro hn
    have hi : setIndex c a = setIndex c addr := by
      apply BitVec.eq_of_toNat_eq
      rw [h.fits.setIndex_toNat, hn, Nat.mul_add_mod', Nat.mod_eq_of_lt hlt]
    have hsame : getSet c a = getSet c addr := by rw [getSet, getSet, hi]
    refine ⟨hi, ?_⟩
    rw [h.getLine_eq, hsame, (h.distinct_getSet addr).find_eq_some_iff]
    refine ⟨hj, hv, BitVec.eq_of_toNat_eq ?_⟩
    rw [h.fits.tagOf_toNat, hn, Nat.mul_comm, Nat.mul_add_div hpos, Nat.div_eq_of_lt hlt,
      Nat.add_zero]

end WellTagged

end Cache

/-! ## Filling and writing back -/

theorem leValue_one (f : Nat → Byte) : leValue f 1 = (f 0).setWidth 64 := by
  simp [leValue]

theorem readBlock_succ (pt : PTable) (base : Word) (n : Nat) :
    readBlock pt base (n + 1) =
      (Function.update (readBlock pt base n).1 n
          ((memReadLE (readBlock pt base n).2 (base + BitVec.ofNat 64 n) 1).1.setWidth 8),
        (memReadLE (readBlock pt base n).2 (base + BitVec.ofNat 64 n) 1).2) := by
  rw [readBlock, List.range_succ, List.foldl_append]
  rfl

/-- The temporary block is the bytes of memory, and reading them changes nothing. -/
theorem readBlock_spec (pt : PTable) (base : Word) (n : Nat) :
    (∀ k < n, (readBlock pt base n).1 k = pt.byteAt (base + BitVec.ofNat 64 k)) ∧
      (readBlock pt base n).2.byteAt = pt.byteAt := by
  induction n with
  | zero => exact ⟨fun k hk => absurd hk (Nat.not_lt_zero k), rfl⟩
  | succ n ih =>
    obtain ⟨ih1, ih2⟩ := ih
    rw [readBlock_succ]
    refine ⟨fun k hk => ?_, by rw [byteAt_memReadLE, ih2]⟩
    by_cases hkn : k = n
    · subst hkn
      dsimp only
      rw [Function.update_self, memReadLE_fst, leValue_one, ih2]
      simp
    · dsimp only
      rw [Function.update_of_ne hkn, ih1 k (by omega)]

theorem writeBytes_one (f : Word → Byte) (addr v : Word) :
    writeBytes f addr v 1 = Function.update f addr (byteOf v 0) := by
  have h := writeBytes_succ f addr v (n := 0) (by decide)
  rw [← h]
  funext a
  simp [writeBytes, Function.update_apply]

/-- Writing a dirty line back changes exactly the bytes of its block. -/
theorem byteAt_writeBack (pt : PTable) (e : EvictedLine) {n : Nat} (hn : n ≤ 2 ^ 64) (a : Word) :
    (writeBack pt e n).byteAt a =
      if e.valid = true ∧ e.dirty = true ∧ (a - e.blockAddr).toNat < n
      then e.data (a - e.blockAddr).toNat else pt.byteAt a := by
  unfold writeBack
  by_cases hv : (e.valid && e.dirty) = true
  · rw [if_pos hv]
    rw [Bool.and_eq_true] at hv
    simp only [hv, true_and]
    induction n generalizing a with
    | zero => simp
    | succ n ih =>
      rw [List.range_succ, List.foldl_append, List.foldl_cons, List.foldl_nil,
        byteAt_memWriteLE _ _ _ (by decide), writeBytes_one]
      by_cases ha : a = e.blockAddr + BitVec.ofNat 64 n
      · subst ha
        have hs : (e.blockAddr + BitVec.ofNat 64 n - e.blockAddr).toNat = n := by
          rw [BitVec.add_comm, BitVec.add_sub_cancel, BitVec.toNat_ofNat,
            Nat.mod_eq_of_lt (by omega)]
        rw [Function.update_self, hs, if_pos (Nat.lt_succ_self n), byteOf]
        simp
      · have hs : (a - e.blockAddr).toNat ≠ n := by
          intro hs
          apply ha
          rw [← hs, BitVec.ofNat_toNat, BitVec.setWidth_eq, BitVec.add_comm,
            BitVec.sub_add_cancel]
        rw [Function.update_of_ne ha, ih (by omega)]
        by_cases hlt : (a - e.blockAddr).toNat < n
        · rw [if_pos hlt, if_pos (by omega)]
        · rw [if_neg hlt, if_neg (by omega)]
  · rw [if_neg hv]
    rw [Bool.and_eq_true] at hv
    rw [if_neg (fun hc => hv ⟨hc.1, hc.2.1⟩)]

/-! ## The steps of an access -/

/-- A write marks the block of its address dirty; a read does not. -/
def dirtied (g : Geometry) (operation : Operation) (addr : Word) (s : Store Word Byte) :
    Store Word Byte :=
  match operation with
  | .read => s
  | .write => s.markDirty (g.inBlock (g.blockNum addr))

@[simp] theorem view_dirtied (g : Geometry) (operation : Operation) (addr : Word)
    (s : Store Word Byte) : (dirtied g operation addr s).view = s.view := by
  cases operation
  · rfl
  · exact Store.view_markDirty s _

theorem clean_dirtied {g : Geometry} {s : Store Word Byte} (h : s.Clean) (operation : Operation)
    (addr : Word) : (dirtied g operation addr s).Clean := by
  cases operation
  · exact h
  · exact h.markDirty _

theorem dirtied_dirtied (g : Geometry) (operation : Operation) (addr : Word)
    (s : Store Word Byte) :
    dirtied g operation addr (dirtied g operation addr s) = dirtied g operation addr s := by
  cases operation
  · rfl
  · exact Store.markDirty_markDirty s _

/-- Is this an address the line at index `j` of the set of `addr` holds? -/
def Cache.victim (c : Cache) (addr : Word) (j : Nat) (a : Word) : Bool :=
  decide (setIndex c a = setIndex c addr ∧ getLine c a = some j)

namespace Cache.WellTagged

variable {c : Cache} {g : Geometry} (h : c.WellTagged g)
include h

/-- What the cache holds of a block that is present. -/
theorem copy_of_present {addr : Word} {j : Nat} (hj : getLine c addr = some j) {a : Word}
    (ha : g.inBlock (g.blockNum addr) a = true) (pt : PTable) :
    (c.contents pt).copy a = some (((getSet c addr).lines j).dirty,
      ((getSet c addr).lines j).data (blockOffset c a)) := by
  have hsame : getSet c a = getSet c addr := by
    rw [getSet, getSet, ((h.fits.inBlock_iff addr a).1 ha).1]
  simp only [Cache.contents, h.getLine_congr (beq_iff_eq.1 ha), hj, Option.map_some, hsame]

/-- Replacing a line that is present by one with the same tag. -/
theorem contents_putLine_present {addr : Word} {j : Nat} (hj : getLine c addr = some j)
    {l : CacheLine} (hv : l.valid = true) (ht : l.tag = tagOf c addr) (set : CacheSet)
    (hset : set.lines = ((getSet c addr).putLine j l).lines) :
    (c.putSet addr set).WellTagged g ∧
      (∀ a, getLine (c.putSet addr set) a = getLine c a) ∧
      ∀ pt a, ((c.putSet addr set).contents pt).copy a =
        if g.inBlock (g.blockNum addr) a then some (l.dirty, l.data (blockOffset c a))
        else (c.contents pt).copy a := by
  have hline := hj
  rw [h.getLine_eq] at hline
  obtain ⟨hjA, hjv, hjt⟩ := CacheSet.find_sound hline
  have hnew : ∀ k < g.A, k ≠ j → ((getSet c addr).lines k).valid = true →
      ((getSet c addr).lines k).tag ≠ l.tag := by
    intro k hk hkj hkv hkt
    exact hkj (h.distinct_getSet addr k hk j hjA hkv hjv (by rw [hkt, ht, hjt]))
  have hget : ∀ a, getLine (c.putSet addr set) a = getLine c a := by
    intro a
    rw [h.getLine_putLine hjA ht hv hnew hset]
    have hholds := h.line_holds_iff hjA hjv a
    have hblock : g.blockNum addr =
        ((getSet c addr).lines j).tag.toNat * 2 ^ g.s + (setIndex c addr).toNat :=
      (h.line_holds_iff hjA hjv addr).1 ⟨rfl, hj⟩
    rw [← hblock] at hholds
    by_cases ha : g.blockNum a = g.blockNum addr
    · rw [if_pos (by rw [Geometry.inBlock, ha, beq_self_eq_true]), (hholds.2 ha).2]
    · rw [if_neg (by rw [Geometry.inBlock]; simpa using ha), if_neg (fun hc => ha (hholds.1 hc))]
  refine ⟨h.putLine ht hnew hset, hget, fun pt a => ?_⟩
  simp only [Cache.contents, hget, getSet_putSet]
  by_cases ha : g.inBlock (g.blockNum addr) a = true
  · have haa : g.blockNum a = g.blockNum addr := by simpa [Geometry.inBlock] using ha
    rw [if_pos ha, h.getLine_congr haa, hj, Option.map_some,
      if_pos ((h.fits.inBlock_iff addr a).1 ha).1, hset]
    simp only [CacheSet.putLine, if_true]
    rfl
  · rw [if_neg ha]
    cases hl : getLine c a with
    | none => rfl
    | some k =>
      have hkj : setIndex c a = setIndex c addr → k ≠ j := by
        intro hi hkj
        rw [hkj] at hl
        refine ha ((h.fits.inBlock_iff addr a).2 ⟨hi, ?_⟩)
        rw [h.getLine_eq, getSet, hi] at hl
        rw [← (CacheSet.find_sound hl).2.2, ← hjt]
        rfl
      rw [Option.map_some, Option.map_some, lines_ite_putLine hset hkj]
      rfl

/-- A hit finds the line and changes at most its dirty mark. -/
theorem checkHit_hit {addr : Word} (hg : getLine c addr ≠ none) (k : Counters)
    (operation : Operation) :
    ∃ c', checkHit c k addr operation = (true, c', { k with hitCount := k.hitCount + 1 }) ∧
      c'.WellTagged g ∧ (∀ a, getLine c' a = getLine c a) ∧
      ∀ pt, c'.contents pt = dirtied g operation addr (c.contents pt) := by
  obtain ⟨j, hj⟩ := Option.ne_none_iff_exists'.1 hg
  have hline := hj
  rw [h.getLine_eq] at hline
  obtain ⟨hjA, hjv, hjt⟩ := CacheSet.find_sound hline
  let l : CacheLine := if operation = .write then
    { (getSet c addr).lines j with dirty := true } else (getSet c addr).lines j
  have hlv : l.valid = true := by cases operation <;> exact hjv
  have hlt : l.tag = tagOf c addr := by cases operation <;> exact hjt
  obtain ⟨hwt, hget, hcopy⟩ := h.contents_putLine_present hj hlv hlt
    (((getSet c addr).putLine j l).touch g.A j) rfl
  refine ⟨_, ?_, hwt, hget, fun pt => ?_⟩
  · simp only [checkHit, h.fits.A_toNat, hline, l]
  · have hpresent := fun a ha => h.copy_of_present hj (a := a) ha pt
    cases operation
    · refine congrArg₂ Store.mk (funext fun a => (hcopy pt a).trans ?_) rfl
      by_cases ha : g.inBlock (g.blockNum addr) a = true
      · rw [if_pos ha]
        exact (hpresent a ha).symm
      · rw [if_neg ha]
        rfl
    · refine congrArg₂ Store.mk (funext fun a => (hcopy pt a).trans ?_) rfl
      by_cases ha : g.inBlock (g.blockNum addr) a = true
      · rw [if_pos ha, if_pos ha, hpresent a ha]
        rfl
      · rw [if_neg ha, if_neg ha]

theorem checkHit_miss {addr : Word} (hg : getLine c addr = none) (k : Counters)
    (operation : Operation) :
    checkHit c k addr operation = (false, c, { k with missCount := k.missCount + 1 }) := by
  rw [h.getLine_eq] at hg
  simp only [checkHit, h.fits.A_toNat, hg]

/-- No line has the tag of an address that is absent. -/
theorem tag_ne_of_absent {addr : Word} (hg : getLine c addr = none) {t : Word}
    (ht : t = tagOf c addr) {k : Nat} (hk : k < g.A)
    (hkv : ((getSet c addr).lines k).valid = true) : ((getSet c addr).lines k).tag ≠ t := by
  intro hkt
  rw [h.getLine_eq] at hg
  have := (h.distinct_getSet addr).find_eq_some_iff.2 ⟨hk, hkv, hkt.trans ht⟩
  rw [hg] at this
  cases this

/-- Putting a line for a block that is absent: it comes in, the block of the line
that was there goes. -/
theorem contents_putLine_absent {addr : Word} (hg : getLine c addr = none) {j : Nat} (hj : j < g.A)
    {l : CacheLine} (hv : l.valid = true) (ht : l.tag = tagOf c addr) {set : CacheSet}
    (hset : set.lines = ((getSet c addr).putLine j l).lines) :
    (c.putSet addr set).WellTagged g ∧
      ∀ pt a, ((c.putSet addr set).contents pt).copy a =
        if g.inBlock (g.blockNum addr) a then some (l.dirty, l.data (blockOffset c a))
        else if c.victim addr j a then none else (c.contents pt).copy a := by
  have hnew : ∀ k < g.A, k ≠ j → ((getSet c addr).lines k).valid = true →
      ((getSet c addr).lines k).tag ≠ l.tag := fun k hk _ hkv => h.tag_ne_of_absent hg ht hk hkv
  refine ⟨h.putLine ht hnew hset, fun pt a => ?_⟩
  have hline := h.getLine_putLine hj ht hv hnew hset a
  simp only [Cache.contents, getSet_putSet]
  by_cases ha : g.inBlock (g.blockNum addr) a = true
  · rw [hline, if_pos ha, if_pos ha, Option.map_some, if_pos ((h.fits.inBlock_iff addr a).1 ha).1,
      hset]
    simp only [CacheSet.putLine, if_true]
    rfl
  · rw [if_neg ha] at hline ⊢
    by_cases hvic : setIndex c a = setIndex c addr ∧ getLine c a = some j
    · have hvt : c.victim addr j a = true := decide_eq_true hvic
      rw [if_pos hvic] at hline
      rw [hline, if_pos hvt, Option.map_none]
    · have hvf : ¬ c.victim addr j a = true := fun hc => hvic (of_decide_eq_true hc)
      rw [if_neg hvic] at hline
      rw [hline, if_neg hvf]
      cases hl : getLine c a with
      | none => rfl
      | some k =>
        have hkj : setIndex c a = setIndex c addr → k ≠ j :=
          fun hi hkj => hvic ⟨hi, by rw [hl, hkj]⟩
        rw [Option.map_some, Option.map_some, lines_ite_putLine hset hkj]
        rfl

end Cache.WellTagged

/-- What `handle_miss` hands back of the line at index `j` of the set of `addr`. -/
def Cache.evictedLine (c : Cache) (addr : Word) (j : Nat) : EvictedLine where
  valid := ((getSet c addr).lines j).valid
  dirty := ((getSet c addr).lines j).dirty
  blockAddr := ((((getSet c addr).lines j).tag <<< c.s) ||| setIndex c addr) <<< c.b
  data := memcpy (fun _ => 0) ((getSet c addr).lines j).data c.B.toNat

/-- The line `handle_miss` leaves there. -/
def Cache.filledLine (c : Cache) (addr : Word) (operation : Operation) (j : Nat)
    (data : Nat → Byte) : CacheLine where
  valid := true
  tag := tagOf c addr
  dirty := operation = .write
  data := memcpy ((getSet c addr).lines j).data data c.B.toNat

/-- `handle_miss` fills the line `select_line` picks. -/
theorem handleMiss_selectLine (c : Cache) (hA : 0 < c.A.toNat) (k : Counters) (addr : Word)
    (operation : Operation) (data : Nat → Byte) :
    ∃ set k', set.lines = ((getSet c addr).putLine (selectLine (getSet c addr) c.A.toNat).1
        (c.filledLine addr operation (selectLine (getSet c addr) c.A.toNat).1 data)).lines ∧
      handleMiss c k addr operation (some data) =
        (c.evictedLine addr (selectLine (getSet c addr) c.A.toNat).1, c.putSet addr set, k') := by
  obtain ⟨-, hlines⟩ := selectLine_spec (getSet c addr) hA
  unfold handleMiss
  generalize selectLine (getSet c addr) c.A.toNat = r at hlines
  obtain ⟨j, set⟩ := r
  dsimp only at hlines
  simp only [hlines]
  refine ⟨_, _, ?_, rfl⟩
  simp only [CacheSet.lines_touch, CacheSet.putLine, hlines]
  rfl

theorem handleMiss_eq (c : Cache) (hA : 0 < c.A.toNat) (k : Counters) (addr : Word)
    (operation : Operation) (data : Nat → Byte) :
    ∃ j set k', j < c.A.toNat ∧
      set.lines = ((getSet c addr).putLine j (c.filledLine addr operation j data)).lines ∧
      handleMiss c k addr operation (some data) =
        (c.evictedLine addr j, c.putSet addr set, k') := by
  obtain ⟨set, k', hset, hmiss⟩ := handleMiss_selectLine c hA k addr operation data
  exact ⟨_, set, k', (selectLine_spec (getSet c addr) hA).1, hset, hmiss⟩

/-- The copy of a byte of the victim. -/
theorem copy_victim {c : Cache} {addr a : Word} {j : Nat} (hvic : c.victim addr j a = true) (pt : PTable) :
    (c.contents pt).copy a =
      some (((getSet c addr).lines j).dirty, ((getSet c addr).lines j).data (blockOffset c a)) := by
  obtain ⟨hi, hl⟩ := of_decide_eq_true hvic
  simp only [Cache.contents, hl, Option.map_some, getSet, hi]

namespace Cache.WellTagged

variable {c : Cache} {g : Geometry} (h : c.WellTagged g)
include h

/-- The address of the line at index `j` of the set of `addr`. -/
theorem evictedLine_blockAddr {addr : Word} {j : Nat} (hj : j < g.A)
    (hv : ((getSet c addr).lines j).valid = true) (a : Word) :
    ((a - (c.evictedLine addr j).blockAddr).toNat < 2 ^ g.b ↔ c.victim addr j a = true) ∧
      (c.victim addr j a = true →
        (a - (c.evictedLine addr j).blockAddr).toNat = a.toNat % 2 ^ g.b) := by
  have hcan := h.canonical _ j hj hv
  have haddr : (c.evictedLine addr j).blockAddr = g.blockStart _ :=
    h.fits.evicted_blockAddr hcan addr
  have hholds := h.line_holds_iff hj hv a
  rw [haddr, g.sub_blockStart_lt_iff (h.fits.tag_block_lt hcan addr), Cache.victim,
    decide_eq_true_iff, hholds]
  refine ⟨Iff.rfl, fun hn => ?_⟩
  rw [getSet] at hn
  rw [← hn, g.sub_blockStart_toNat]

/-- A dirty line that is evicted holds the dirty copies of its bytes. -/
theorem copy_evictedLine {addr : Word} {j i : Nat} (hj : j < g.A) (hi : i < c.B.toNat)
    (hv : (c.evictedLine addr j).valid = true) (hd : (c.evictedLine addr j).dirty = true)
    (pt : PTable) :
    (c.contents pt).copy ((c.evictedLine addr j).blockAddr + BitVec.ofNat 64 i) =
      some (true, (c.evictedLine addr j).data i) := by
  obtain ⟨a, ha⟩ : ∃ a, a = (c.evictedLine addr j).blockAddr + BitVec.ofNat 64 i := ⟨_, rfl⟩
  have hsub : (a - (c.evictedLine addr j).blockAddr).toNat = i := by
    rw [ha, BitVec.add_comm, BitVec.add_sub_cancel, BitVec.toNat_ofNat, Nat.mod_eq_of_lt (by omega)]
  obtain ⟨hlt, hoff⟩ := h.evictedLine_blockAddr hj hv a
  rw [hsub] at hlt hoff
  have hvic := hlt.1 (h.fits.B_toNat ▸ hi)
  rw [← ha, copy_victim hvic pt, h.fits.blockOffset_eq, ← hoff hvic]
  dsimp only [Cache.evictedLine] at hd ⊢
  rw [hd, memcpy_of_lt hi]

/-- The bytes that writing a victim back leaves in memory. -/
theorem byteAt_writeBack_evictedLine (addr : Word) {j : Nat} (hj : j < g.A) (pt : PTable) :
    (writeBack pt (c.evictedLine addr j) c.B.toNat).byteAt =
      ((c.contents pt).evict (c.victim addr j)).backing := by
  have hb := g.b_add_s_lt
  have hB : c.B.toNat ≤ 2 ^ 64 := by
    rw [h.fits.B_toNat]
    exact Nat.pow_le_pow_right (by omega) (by omega)
  funext a
  rw [byteAt_writeBack pt _ hB, h.fits.B_toNat]
  by_cases hwb : ((getSet c addr).lines j).valid = true ∧ ((getSet c addr).lines j).dirty = true ∧
      c.victim addr j a = true
  · obtain ⟨hv, hd, hvic⟩ := hwb
    obtain ⟨hlt, hoff⟩ := h.evictedLine_blockAddr hj hv a
    rw [if_pos ⟨hv, hd, hlt.2 hvic⟩, hoff hvic]
    have hmod := Nat.mod_lt a.toNat (Nat.two_pow_pos g.b)
    have := copy_victim hvic pt
    rw [hd] at this
    rw [Store.backing_evict_dirty this hvic, h.fits.blockOffset_eq]
    dsimp only [Cache.evictedLine]
    rw [memcpy_of_lt (by rw [h.fits.B_toNat]; exact hmod)]
  · rw [if_neg, Store.backing_evict_other]
    · rfl
    · intro v hv
      by_contra hvic
      rw [Bool.not_eq_false] at hvic
      have hd := copy_victim hvic pt
      rw [hv, Option.some_inj, Prod.mk.injEq] at hd
      obtain ⟨hi, hl⟩ := of_decide_eq_true hvic
      rw [h.getLine_eq, getSet, hi] at hl
      exact hwb ⟨(CacheSet.find_sound hl).2.1, hd.1.symm, hvic⟩
    · rintro ⟨hv, hd, hlt⟩
      exact hwb ⟨hv, hd, (h.evictedLine_blockAddr hj hv a).1.1 hlt⟩

/-- **The end of a miss**: the victim is written back and the block comes in. -/
theorem completeMiss_spec (block : Word) (hblock : block = g.blockStart (g.blockNum block))
    (hg : getLine c block = none) (operation : Operation) (m : Memory) :
    ∃ c' pt k p, completeMiss operation block block c m =
        (c', { m with inflight := false, ptable := pt, counts := k }) ∧ c'.WellTagged g ∧
      c'.contents pt = (((c.contents m.ptable).evict p).fill
        (g.inBlock (g.blockNum block)) (operation = .write)) := by
  obtain ⟨hread, hpt⟩ := readBlock_spec m.ptable block c.B.toNat
  have hA : 0 < c.A.toNat := by rw [h.fits.A_toNat]; exact g.one_le_A
  obtain ⟨j, set, k, hj, hset, hmiss⟩ := handleMiss_eq c hA m.counts block operation
    (readBlock m.ptable block c.B.toNat).1
  rw [h.fits.A_toNat] at hj
  obtain ⟨hwt, hcopy⟩ := h.contents_putLine_absent hg hj rfl rfl hset
  obtain ⟨pt, hback⟩ : ∃ pt, pt = writeBack (readBlock m.ptable block c.B.toNat).2
      (c.evictedLine block j) c.B.toNat := ⟨_, rfl⟩
  refine ⟨c.putSet block set, pt, k, c.victim block j, ?_, hwt,
    congrArg₂ Store.mk (funext fun a => (hcopy pt a).trans ?_) ?_⟩
  · simp only [completeMiss, hmiss, hback]
  · have hmod := Nat.mod_lt a.toNat (Nat.two_pow_pos g.b)
    by_cases ha : g.inBlock (g.blockNum block) a = true
    · have hbn : g.blockNum a = g.blockNum block := beq_iff_eq.1 ha
      have hnone : (c.contents m.ptable).copy a = none := by
        rw [copy_eq_none_iff, h.getLine_congr hbn, hg]
      have hdata : (c.filledLine block operation j (readBlock m.ptable block c.B.toNat).1).data
          (blockOffset c a) = m.ptable.byteAt a := by
        dsimp only [Cache.filledLine]
        rw [h.fits.blockOffset_eq, memcpy_of_lt (by rw [h.fits.B_toNat]; exact hmod),
          hread _ (by rw [h.fits.B_toNat]; exact hmod), hblock, ← hbn, g.blockStart_add_offset]
      rw [if_pos ha, if_pos ha, hdata, Store.backing_evict_other (by simp [hnone])]
      rfl
    · rw [if_neg ha, if_neg ha]
      rfl
  · have := h.byteAt_writeBack_evictedLine block hj (readBlock m.ptable block c.B.toNat).2
    rw [contents_congr c hpt, ← hback] at this
    exact this

end Cache.WellTagged

end ChArm
