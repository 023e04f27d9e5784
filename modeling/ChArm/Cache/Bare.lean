import ChArm.Cache.LruRefinement

/-!
# What replacement looks at

`check_hit` and `handle_miss` decide by the valid bits, tags, dirty bits, the
matrix and `next_lru`; the data of the lines only passes through.  `Cache.bare` is
a cache without that data, and both functions commute with it.

Recording a use twice is recording it once (`CacheSet.touch_touch`), so probing
a resident block again changes nothing but the hit counter
(`Cache.JustUsed.checkHit`), whether the first probe hit or the block was just filled in.
-/

namespace ChArm

/-- The line without its data. -/
def CacheLine.bare (l : CacheLine) : CacheLine := { l with data := fun _ => 0 }

/-- The set without the data of its lines. -/
def CacheSet.bare (s : CacheSet) : CacheSet := { s with lines := fun j => (s.lines j).bare }

/-- The cache without the data of its lines. -/
def Cache.bare (c : Cache) : Cache := { c with sets := fun i => (c.sets i).bare }

@[simp] theorem CacheLine.bare_bare (l : CacheLine) : l.bare.bare = l.bare := rfl

@[simp] theorem CacheSet.bare_bare (s : CacheSet) : s.bare.bare = s.bare := rfl

@[simp] theorem Cache.bare_bare (c : Cache) : c.bare.bare = c.bare := rfl

/-! ## The operations without the data -/

theorem CacheSet.bare_putLine (s : CacheSet) (j : Nat) (l : CacheLine) :
    (s.putLine j l).bare = s.bare.putLine j l.bare := by
  refine congrArg (fun f => CacheSet.mk f s.lruMatrix s.nextLru) (funext fun k => ?_)
  simp only [CacheSet.putLine, CacheSet.bare]
  split <;> rfl

theorem CacheSet.bare_touch (s : CacheSet) (A j : Nat) : (s.touch A j).bare = s.bare.touch A j :=
  rfl

theorem Cache.bare_putSet (c : Cache) (addr : Word) (s : CacheSet) :
    (c.putSet addr s).bare = c.bare.putSet addr s.bare := by
  refine congrArg (fun f => Cache.mk f c.A c.B c.C c.d) (funext fun i => ?_)
  rw [sets_putSet, apply_ite CacheSet.bare]
  rfl

theorem selectLine_bare (s : CacheSet) (A : Nat) :
    selectLine s.bare A = ((selectLine s A).1, (selectLine s A).2.bare) := by
  unfold selectLine
  rw [show (fun j => !(s.bare.lines j).valid) = fun j => !(s.lines j).valid from rfl]
  cases (List.range A).find? fun j => !(s.lines j).valid with
  | some j => rfl
  | none =>
    change (if s.nextLru ≥ A then _ else _) = _
    by_cases hn : s.nextLru ≥ A
    · simp only [if_pos hn]
      rfl
    · simp only [if_neg hn]
      rfl

/-- What `handle_miss` does to everything but the data of the lines and of the evicted copy. -/
theorem handleMiss_bare (c : Cache) (k : Counters) (addr : Word) (operation : Operation)
    (incoming incoming' : Option (Nat → Byte)) :
    (handleMiss c.bare k addr operation incoming').2.1.bare =
        (handleMiss c k addr operation incoming).2.1.bare ∧
      (handleMiss c.bare k addr operation incoming').2.2 =
        (handleMiss c k addr operation incoming).2.2 := by
  have hset : getSet c.bare addr = (getSet c addr).bare := rfl
  have hA : c.bare.A = c.A := rfl
  have hsel := selectLine_bare (getSet c addr) c.A.toNat
  simp only [handleMiss, hset, hA]
  rw [hsel]
  constructor
  · simp only [Cache.bare_putSet, CacheSet.bare_touch, CacheSet.bare_putLine]
    rfl
  · rfl

/-- `select_line` stays inside the set and leaves the lines alone. -/
theorem selectLine_spec (set : CacheSet) {A : Nat} (hA : 0 < A) :
    (selectLine set A).1 < A ∧ (selectLine set A).2.lines = set.lines := by
  unfold selectLine
  cases hf : (List.range A).find? fun j => !(set.lines j).valid with
  | some j => exact ⟨List.mem_range.1 (List.mem_of_find?_eq_some hf), rfl⟩
  | none =>
    by_cases hn : set.nextLru ≥ A
    · rw [if_pos hn]
      exact ⟨hA, rfl⟩
    · rw [if_neg hn]
      exact ⟨Nat.lt_of_not_le hn, rfl⟩

/-! ## Recording a use twice -/

/-- Every bit of a matrix word is an entry of the matrix. -/
theorem eq_of_entries {m m' : Word}
    (h : ∀ i < 8, ∀ j < 8, m.getLsbD (i * 8 + j) = m'.getLsbD (i * 8 + j)) : m = m' := by
  apply BitVec.eq_of_getLsbD_eq
  intro k hk
  have hkij := h (k / 8) (by omega) (k % 8) (Nat.mod_lt k (by decide))
  rwa [Nat.div_add_mod'] at hkij

/-- **Recording a use twice is recording it once.** -/
theorem lru_lru {A a : Nat} (hA : A ≤ 8) (ha : a < A) (m : Word) :
    lru A a (lru A a m).2 = lru A a m := by
  have hm : lruClearColumn A a (lruSetRow A a (lruClearColumn A a (lruSetRow A a m))) =
      lruClearColumn A a (lruSetRow A a m) := by
    refine eq_of_entries fun i hi j hj => ?_
    have ha8 : a < 8 := by omega
    simp only [getLsbD_lruClearColumn hA ha8 hi hj, getLsbD_lruSetRow hA ha8 hi hj]
    by_cases hcol : i < A ∧ j = a
    · simp [hcol]
    · by_cases hrow : i = a ∧ j < A
      · simp [hrow]
      · simp [hcol, hrow]
  unfold lru
  rw [hm]

theorem CacheSet.touch_touch (s : CacheSet) {A j : Nat} (hA : A ≤ 8) (hj : j < A) :
    (s.touch A j).touch A j = s.touch A j := by
  have h := lru_lru hA hj s.lruMatrix
  simp only [CacheSet.touch, h]

/-! ## Probing a resident block -/

/-- What a hit on line `j` of the set of `addr` leaves. -/
def Cache.hit (c : Cache) (addr : Word) (operation : Operation) (j : Nat) : Cache :=
  c.putSet addr
    (((getSet c addr).putLine j (((getSet c addr).lines j).hitLine operation)).touch c.A.toNat j)

theorem checkHit_of_some {c : Cache} {addr : Word} {j : Nat} (hj : getLine c addr = some j)
    (k : Counters) (operation : Operation) :
    checkHit c k addr operation =
      (true, c.hit addr operation j, { k with hitCount := k.hitCount + 1 }) := by
  have hfind : (getSet c addr).find c.A.toNat (tagOf c addr) = some j := hj
  simp only [checkHit, hfind]
  rfl

theorem checkHit_of_none {c : Cache} {addr : Word} (hj : getLine c addr = none) (k : Counters)
    (operation : Operation) :
    checkHit c k addr operation = (false, c, { k with missCount := k.missCount + 1 }) := by
  have hfind : (getSet c addr).find c.A.toNat (tagOf c addr) = none := hj
  simp only [checkHit, hfind]

/-- Putting a line with the tag looked for where no earlier line has it. -/
theorem CacheSet.find_putLine_self {s : CacheSet} {A j : Nat} {t : Word} {l : CacheLine}
    (hj : j < A) (hf : s.find A t = some j ∨ s.find A t = none) (hv : l.valid = true)
    (ht : l.tag = t) : (s.putLine j l).find A t = some j := by
  have hbefore : ∀ i < j, (!((s.lines i).valid && (s.lines i).tag == t)) = true := by
    intro i hi
    rcases hf with hf | hf
    · exact (List.find?_range_eq_some.1 hf).2.2 i hi
    · rw [Bool.not_eq_true']
      exact Bool.eq_false_iff.2 (List.find?_eq_none.1 hf i (List.mem_range.2 (hi.trans hj)))
  refine List.find?_range_eq_some.2 ⟨?_, List.mem_range.2 hj, fun i hi => ?_⟩
  · simp [CacheSet.putLine, hv, ht]
  · simpa [CacheSet.putLine, hi.ne] using hbefore i hi

/-- Line `j` of the set of `addr` holds its block, marked as the operation leaves it, and was the
last line used there. -/
structure Cache.JustUsed (c : Cache) (addr : Word) (operation : Operation) (j : Nat) : Prop where
  found : getLine c addr = some j
  marked : ((getSet c addr).lines j).hitLine operation = (getSet c addr).lines j
  touched : (getSet c addr).touch c.A.toNat j = getSet c addr

/-- A hit on a line just used changes nothing. -/
theorem Cache.JustUsed.hit {c : Cache} {addr : Word} {operation : Operation} {j : Nat}
    (h : c.JustUsed addr operation j) : c.hit addr operation j = c := by
  rw [Cache.hit, h.marked, CacheSet.putLine_lines, h.touched, Cache.putSet_getSet]

/-- Storing a valid line with the tag of `addr` and recording its use. -/
theorem Cache.justUsed_putSet {c : Cache} {addr : Word} {operation : Operation} {j : Nat}
    {s : CacheSet} {l : CacheLine} (hA : c.A.toNat ≤ 8) (hj : j < c.A.toNat)
    (hf : s.find c.A.toNat (tagOf c addr) = some j ∨ s.find c.A.toNat (tagOf c addr) = none)
    (hv : l.valid = true) (ht : l.tag = tagOf c addr) (hm : l.hitLine operation = l) :
    (c.putSet addr ((s.putLine j l).touch c.A.toNat j)).JustUsed addr operation j := by
  have hset : getSet (c.putSet addr ((s.putLine j l).touch c.A.toNat j)) addr =
      (s.putLine j l).touch c.A.toNat j := getSet_putSet_self _ _ _
  have hline : ((s.putLine j l).touch c.A.toNat j).lines j = l := if_pos rfl
  refine ⟨?_, ?_, ?_⟩
  · rw [getLine, hset]
    exact CacheSet.find_putLine_self hj hf hv ht
  · rw [hset, hline, hm]
  · rw [hset]
    exact CacheSet.touch_touch _ hA hj

theorem CacheLine.hitLine_hitLine (l : CacheLine) (operation : Operation) :
    (l.hitLine operation).hitLine operation = l.hitLine operation := by
  cases operation <;> rfl

/-- After a hit the line was just used. -/
theorem Cache.justUsed_hit {c : Cache} {addr : Word} {j : Nat} (hA : c.A.toNat ≤ 8)
    (hj : getLine c addr = some j) (operation : Operation) :
    (c.hit addr operation j).JustUsed addr operation j := by
  obtain ⟨hp, hjA, -⟩ := List.find?_range_eq_some.1 hj
  rw [Bool.and_eq_true, beq_iff_eq] at hp
  refine Cache.justUsed_putSet hA (List.mem_range.1 hjA) (Or.inl hj) ?_ ?_
    (CacheLine.hitLine_hitLine _ _)
  · cases operation <;> exact hp.1
  · cases operation <;> exact hp.2

/-- After a miss was handled, whatever came in, the line was just used. -/
theorem Cache.justUsed_handleMiss {c : Cache} {addr : Word} (h1 : 1 ≤ c.A.toNat)
    (hA : c.A.toNat ≤ 8) (hg : getLine c addr = none) (k : Counters) (operation : Operation)
    (incoming : Option (Nat → Byte)) :
    ∃ j, (handleMiss c k addr operation incoming).2.1.JustUsed addr operation j := by
  obtain ⟨hj, hlines⟩ := selectLine_spec (getSet c addr) h1
  have hfind : (selectLine (getSet c addr) c.A.toNat).2.find c.A.toNat (tagOf c addr) = none := by
    rw [CacheSet.find, hlines]
    exact hg
  refine ⟨(selectLine (getSet c addr) c.A.toNat).1, ?_⟩
  exact Cache.justUsed_putSet hA hj (Or.inr hfind) rfl rfl (by cases operation <;> rfl)

/-- **Probing a line just used again** only counts a hit. -/
theorem Cache.JustUsed.checkHit {c : Cache} {addr : Word} {operation : Operation} {j : Nat}
    (h : c.JustUsed addr operation j) (k : Counters) :
    checkHit c k addr operation = (true, c, { k with hitCount := k.hitCount + 1 }) := by
  rw [checkHit_of_some h.found, h.hit]

end ChArm
