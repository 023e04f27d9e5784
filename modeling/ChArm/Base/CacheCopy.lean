import ChArm.Base.CacheCalls

/-!
# Checkpoints of a cache

`create_checkpoint` of `src/cache/cache.c`.  The copy has the lines of the original, but
neither its matrices nor its `next_lru`: to the copy, no line has been used yet,
and it gives up the lines by index.  So no caller can tell it from the original
exactly when that is the order in which the original would give them up
(`Cache.Sound.createCheckpoint_indistinguishable_iff`).
-/

namespace ChArm

open Recency Sessions

/-- `create_checkpoint`: the structure is copied, the arrays and buffers are new. Of a set only the
lines are copied; `calloc` leaves the rest of it zero. -/
def createCheckpoint (c : Cache) : Cache :=
  { c with
    sets := fun i =>
      if i < c.S.toNat then
        { lines := fun j =>
            if j < c.A.toNat then
              { (c.sets i).lines j with
                data := memcpy (fun _ => 0) ((c.sets i).lines j).data c.B.toNat }
            else .fresh
          lruMatrix := 0
          nextLru := 0 }
      else .fresh }

/-- In every set, of two valid lines the one with the larger index was used last: the bit of the
matrix that says otherwise is not set. -/
def Cache.UsedByIndex (c : Cache) : Prop :=
  ∀ i < c.S.toNat, ∀ b < c.A.toNat, ∀ a < b,
    ((c.sets i).lines a).valid = true → ((c.sets i).lines b).valid = true →
      (c.sets i).lruMatrix &&& lruBit a b = 0

/-- Nothing is stored outside the arrays and buffers of a cache. -/
structure Cache.InArrays (c : Cache) : Prop where
  sets : ∀ i, c.S.toNat ≤ i → c.sets i = .fresh
  lines : ∀ i j, c.A.toNat ≤ j → (c.sets i).lines j = .fresh
  data : ∀ i j k, c.B.toNat ≤ k → ((c.sets i).lines j).data k = 0

/-- Arrays of `S` sets and `A` lines, buffers of `B` bytes. -/
theorem Cache.InArrays.of_ite {c : Cache} {l : Nat → Nat → CacheLine} {m : Nat → Word}
    {n : Nat → Nat}
    (hc : c.sets = fun i =>
      if i < c.S.toNat then ⟨fun j => if j < c.A.toNat then l i j else .fresh, m i, n i⟩
      else .fresh)
    (hdata : ∀ i j k, c.B.toNat ≤ k → (l i j).data k = 0) : c.InArrays where
  sets := by
    intro i hi
    rw [hc]
    exact if_neg (Nat.not_lt.2 hi)
  lines := by
    intro i j hj
    rw [hc]
    by_cases hi : i < c.S.toNat
    · simp only [if_pos hi]
      exact if_neg (Nat.not_lt.2 hj)
    · simp only [if_neg hi]
      rfl
  data := by
    intro i j k hk
    rw [hc]
    by_cases hi : i < c.S.toNat
    · simp only [if_pos hi]
      by_cases hj : j < c.A.toNat
      · rw [if_pos hj, hdata i j k hk]
      · rw [if_neg hj]
        rfl
    · simp only [if_neg hi]
      rfl

theorem inArrays_createCheckpoint (c : Cache) : (createCheckpoint c).InArrays :=
  .of_ite rfl fun _ _ _ hk => if_neg (Nat.not_lt.2 hk)

theorem lines_createCheckpoint {c : Cache} (h : c.InArrays) {i : Nat} (hi : i < c.S.toNat) :
    (createCheckpoint c).sets i = ⟨(c.sets i).lines, 0, 0⟩ := by
  simp only [createCheckpoint, if_pos hi]
  refine congrArg (fun f => CacheSet.mk f 0 0) (funext fun j => ?_)
  by_cases hj : j < c.A.toNat
  · rw [if_pos hj]
    refine congrArg (fun f => { (c.sets i).lines j with data := f }) (funext fun k => ?_)
    by_cases hk : k < c.B.toNat
    · rw [memcpy_of_lt hk]
    · rw [memcpy, if_neg hk, h.data i j k (by omega)]
  · rw [if_neg hj, h.lines i j (by omega)]

/-! ## Every cache that calls lead to -/

/-- What holds of a cache after any calls: the matrix of a set knows the uses of all its valid
lines, and their tags are those of addresses of the set. -/
structure Cache.Sound (g : Geometry) (c : Cache) : Prop where
  fits : c.Fits g
  orders : ∀ i < 2 ^ g.s, ∃ order, LineOrder g.A (c.sets i) order []
  tags : ∀ i < 2 ^ g.s, ∀ j < g.A, ((c.sets i).lines j).valid = true →
    ∃ addr, (setIndex c addr).toNat = i ∧ tagOf c addr = ((c.sets i).lines j).tag

theorem Geometry.cache_sound (g : Geometry) : g.cache.Sound g where
  fits := g.cache_fits
  orders := fun _ _ => ⟨[], lineOrder_fresh g.one_le_A⟩
  tags := fun i _ j _ hv => by cases hv

namespace Cache.Sound

variable {g : Geometry} {c : Cache}

/-- Replacing the set of an address by one that differs in a line with the tag of the address. -/
theorem putSet (h : c.Sound g) {addr : Word} {set : CacheSet} {order : List Nat}
    (horder : LineOrder g.A set order []) {j : Nat} {l : CacheLine}
    (hlines : set.lines = ((getSet c addr).putLine j l).lines) (hl : l.tag = tagOf c addr) :
    (c.putSet addr set).Sound g := by
  refine ⟨h.fits.putSet _ _, fun i hi => ?_, fun i hi n hn hv => ?_⟩
  · rw [sets_putSet]
    by_cases hii : i = (setIndex c addr).toNat
    · rw [if_pos hii]
      exact ⟨order, horder⟩
    · rw [if_neg hii]
      exact h.orders i hi
  · rw [sets_putSet] at hv ⊢
    by_cases hii : i = (setIndex c addr).toNat
    · rw [if_pos hii, hlines, CacheSet.lines_putLine] at hv ⊢
      by_cases hnj : n = j
      · rw [if_pos hnj, hl]
        exact ⟨addr, hii.symm, rfl⟩
      · rw [if_neg hnj] at hv ⊢
        rw [getSet, ← hii] at hv ⊢
        exact h.tags i hi n hn hv
    · rw [if_neg hii] at hv ⊢
      exact h.tags i hi n hn hv

/-- The line a lookup finds has the tag of the address. -/
theorem of_getLine (h : c.Sound g) {addr : Word} {j : Nat} (hj : getLine c addr = some j) :
    j < g.A ∧ ((getSet c addr).lines j).valid = true ∧
      ((getSet c addr).lines j).tag = tagOf c addr := by
  obtain ⟨hp, hjA, -⟩ := List.find?_range_eq_some.1 hj
  rw [Bool.and_eq_true, beq_iff_eq] at hp
  rw [h.fits.A_toNat, List.mem_range] at hjA
  exact ⟨hjA, hp⟩

/-- **One call** that is answered leaves such a cache. -/
theorem call {s s' : Cache × Counters} (h : s.1.Sound g) {call : Call} {reply : Reply}
    (hcall : Cache.call s call = .ok (reply, s')) : s'.1.Sound g := by
  have hset : ∀ addr, ∃ order, LineOrder g.A (getSet s.1 addr) order [] :=
    fun addr => h.orders _ (h.fits.setIndex_lt addr)
  have hA := h.fits.A_toNat
  cases call with
  | checkHit addr operation =>
    obtain ⟨order, horder⟩ := hset addr
    simp only [Cache.call, Except.ok.injEq, Prod.mk.injEq] at hcall
    rw [← hcall.2]
    cases hj : getLine s.1 addr with
    | none =>
      rw [checkHit_of_none hj]
      exact h
    | some j =>
      obtain ⟨hjA, hv, htag⟩ := h.of_getLine hj
      rw [checkHit_of_some hj, Cache.hit, hA]
      refine h.putSet (horder.touch g.A_le hjA ?_) rfl ?_
      · cases operation <;> exact hv
      · cases operation <;> exact htag
  | handleMiss addr operation incoming =>
    obtain ⟨order, horder⟩ := hset addr
    simp only [Cache.call, Except.ok.injEq, Prod.mk.injEq] at hcall
    rw [← hcall.2]
    obtain ⟨j, hj, -, hsel, -⟩ :=
      (Twins.mk rfl horder.ordered horder.ordered).selectLine fun _ => rfl
    obtain ⟨_, hmiss⟩ := handleMiss_of_selectLine (hA ▸ hsel) s.2 operation incoming
    rw [hmiss, hA]
    exact h.putSet (horder.touch g.A_le hj rfl) rfl rfl
  | getWord addr =>
    cases hword : getWordCache s.1 addr with
    | error e =>
      simp [Cache.call, hword, Except.map] at hcall
    | ok val =>
      simp only [Cache.call, hword, Except.map, Except.ok.injEq, Prod.mk.injEq] at hcall
      rw [← hcall.2]
      exact h
  | setWord addr val =>
    obtain ⟨order, horder⟩ := hset addr
    cases hj : getLine s.1 addr with
    | none => simp [Cache.call, setWordCache, hj, Except.map] at hcall
    | some j =>
      obtain ⟨hjA, hv, htag⟩ := h.of_getLine hj
      by_cases hfit : blockOffset s.1 addr + 8 ≤ s.1.B.toNat
      · rw [show s = (s.1, s.2) from rfl, call_setWord hj hfit] at hcall
        simp only [Except.ok.injEq, Prod.mk.injEq] at hcall
        rw [← hcall.2]
        exact h.putSet (horder.putLine hv hv) rfl htag
      · simp [Cache.call, setWordCache, hj, hfit, Except.map] at hcall

/-- Sessions leave such caches. -/
theorem of_session {s : Cache × Counters} (h : s.1.Sound g) (calls : List Call) :
    (session Cache.call s calls).2.1.Sound g :=
  session_preserves (P := fun s : Cache × Counters => s.1.Sound g)
    (fun _ _ _ _ hs hcall => hs.call hcall) h calls

end Cache.Sound

/-! ## Addresses to call with -/

namespace Cache.Fits

variable {g : Geometry} {c : Cache} (h : c.Fits g)
include h

/-- The first address of a block. -/
theorem exists_blockStart (addr : Word) :
    ∃ y, setIndex c y = setIndex c addr ∧ tagOf c y = tagOf c addr ∧ blockOffset c y = 0 := by
  have hsame := (h.same_block_iff _ _).2 (g.blockNum_blockStart addr)
  refine ⟨g.blockStart (g.blockNum addr), hsame.1, hsame.2, ?_⟩
  rw [h.blockOffset_eq, g.blockStart_toNat (g.blockNum_lt addr), Nat.mul_mod_left]

/-- An address of the same set with another tag. -/
theorem exists_other_tag (addr : Word) :
    ∃ x, setIndex c x = setIndex c addr ∧ tagOf c x ≠ tagOf c addr := by
  have hlt := h.setIndex_lt addr
  have hs := g.b_add_s_lt
  have htwo : 2 * 2 ^ g.s ≤ 2 ^ (64 - g.b) := by
    rw [← pow_succ']
    exact Nat.pow_le_pow_right (by decide) (by omega)
  have hnum : ∀ t < 2, ∃ x, setIndex c x = setIndex c addr ∧ (tagOf c x).toNat = t := by
    intro t ht
    have hn : t * 2 ^ g.s + (setIndex c addr).toNat < 2 ^ (64 - g.b) := by
      have : t * 2 ^ g.s ≤ 1 * 2 ^ g.s := Nat.mul_le_mul_right _ (by omega)
      omega
    have hblock : g.blockNum (g.blockStart (t * 2 ^ g.s + (setIndex c addr).toNat)) =
        t * 2 ^ g.s + (setIndex c addr).toNat := by
      rw [Geometry.blockNum, g.blockStart_toNat hn, Nat.mul_div_cancel _ (Nat.two_pow_pos _)]
    refine ⟨g.blockStart (t * 2 ^ g.s + (setIndex c addr).toNat), ?_, ?_⟩
    · apply BitVec.eq_of_toNat_eq
      rw [h.setIndex_toNat, hblock, Nat.mul_add_mod', Nat.mod_eq_of_lt hlt]
    · rw [h.tagOf_toNat, hblock, Nat.mul_comm, Nat.mul_add_div (Nat.two_pow_pos _),
        Nat.div_eq_of_lt hlt, Nat.add_zero]
  obtain ⟨x₀, hi₀, ht₀⟩ := hnum 0 (by decide)
  obtain ⟨x₁, hi₁, ht₁⟩ := hnum 1 (by decide)
  by_cases htag : tagOf c x₀ = tagOf c addr
  · refine ⟨x₁, hi₁, fun heq => ?_⟩
    rw [← heq] at htag
    rw [htag] at ht₀
    omega
  · exact ⟨x₀, hi₀, htag⟩

end Cache.Fits

/-! ## What tells a checkpoint from its original -/

namespace Cache.Sound

variable {g : Geometry} {c : Cache}

theorem S_toNat (h : c.Sound g) : c.S.toNat = 2 ^ g.s := h.fits.S_toNat

/-- A set and its copy. -/
theorem twins (h : c.Sound g) (harr : c.InArrays) {i : Nat} (hi : i < 2 ^ g.s) {order : List Nat}
    (horder : LineOrder g.A (c.sets i) order []) :
    Twins g.A (c.sets i) ((createCheckpoint c).sets i) order
      ((c.sets i).byIndex g.A) := by
  rw [lines_createCheckpoint harr (h.S_toNat.symm ▸ hi)]
  exact ⟨rfl, horder.ordered, ⟨[], _, rfl, .unused g.one_le_A _⟩⟩

theorem fits_createCheckpoint (h : c.Sound g) : (createCheckpoint c).Fits g :=
  ⟨h.fits.A, h.fits.B, h.fits.C, h.fits.d⟩

/-- Lines used by index go in the order of the copy. -/
theorem sameOrders_createCheckpoint (h : c.Sound g) (harr : c.InArrays) (hused : c.UsedByIndex) :
    SameOrders g c (createCheckpoint c) where
  fits := h.fits
  fits' := h.fits_createCheckpoint
  sets := by
    intro i hi
    obtain ⟨order, horder⟩ := h.orders i hi
    have htwins := h.twins harr hi horder
    have hdec : order.Pairwise (· > ·) := by
      rw [horder.decreasing_iff g.A_le, ← h.fits.A_toNat]
      exact hused i (h.S_toNat.symm ▸ hi)
    have hsame : (c.sets i).byIndex g.A = order :=
      (CacheSet.pairwise_byIndex _ _).eq_of_mem_iff hdec htwins.mem_iff
    exact ⟨order, hsame ▸ htwins⟩

/-- In a set whose lines were not used by index the orders part. -/
theorem exists_parting (h : c.Sound g) (harr : c.InArrays) {i : Nat} (hi : i < 2 ^ g.s)
    {order : List Nat} (horder : LineOrder g.A (c.sets i) order [])
    (hne : order ≠ (c.sets i).byIndex g.A) :
    ∃ x y u u' p q t, Parting g x y c (createCheckpoint c) u u' p q t := by
  have htwins := h.twins harr hi horder
  obtain ⟨u, u', t, p, q, hu, hu', hpq⟩ := exists_last_difference htwins.length_eq.symm hne
  have hq : q ∈ (c.sets i).byIndex g.A := by
    rw [hu']
    simp
  obtain ⟨hqA, hqv⟩ := (htwins.ordered'.mem_iff q).1 hq
  rw [lines_createCheckpoint harr (h.S_toNat.symm ▸ hi)] at hqv
  obtain ⟨addr, haddr, htag⟩ := h.tags i hi q hqA hqv
  obtain ⟨y, hyi, hyt, hoff⟩ := h.fits.exists_blockStart addr
  obtain ⟨x, hxi, hxt⟩ := h.fits.exists_other_tag y
  have hset : getSet c x = c.sets i := by rw [getSet, hxi, hyi, haddr]
  have hset' : getSet (createCheckpoint c) x = (createCheckpoint c).sets i := by
    change (createCheckpoint c).sets (setIndex c x).toNat = _
    rw [hxi, hyi, haddr]
  refine ⟨x, y, u, u', p, q, t, h.fits, h.fits_createCheckpoint, ?_, hpq, hxi.symm, hxt.symm, hoff,
    ?_, fun j hj hv => ?_⟩
  · rw [hset, hset', ← hu, ← hu']
    exact htwins
  · rw [hset, hyt, htag]
  · -- a smaller valid line stands behind `q` in the copy
    rw [hset] at hv
    have hmem : j ∈ (c.sets i).byIndex g.A :=
      (CacheSet.mem_byIndex _ _ _).2 ⟨by omega, hv⟩
    have hdec := CacheSet.pairwise_byIndex (c.sets i) g.A
    rw [hu'] at hmem hdec
    rcases List.mem_append.1 hmem with hm | hm
    · have := (List.pairwise_append.1 hdec).2.2 j hm q List.mem_cons_self
      omega
    · rcases List.mem_cons.1 hm with rfl | hm
      · omega
      · exact Or.inl hm

/-- **A checkpoint and its original** are indistinguishable exactly when the valid lines of every
set were used by index. -/
theorem createCheckpoint_indistinguishable_iff (h : c.Sound g) (harr : c.InArrays)
    (k k' : Counters) :
    Indistinguishable Cache.call (c, k) (createCheckpoint c, k') ↔ c.UsedByIndex := by
  constructor
  · intro hind i hi
    have his : i < 2 ^ g.s := h.S_toNat ▸ hi
    obtain ⟨order, horder⟩ := h.orders i his
    rw [h.fits.A_toNat, ← horder.decreasing_iff g.A_le]
    by_cases hne : order = (c.sets i).byIndex g.A
    · rw [hne]
      exact CacheSet.pairwise_byIndex _ _
    · obtain ⟨x, y, u, u', p, q, t, hpart⟩ := h.exists_parting harr his horder hne
      exact absurd hind (hpart.not_indistinguishable k k')
  · intro hused
    exact (h.sameOrders_createCheckpoint harr hused).indistinguishable

end Cache.Sound

end ChArm
