import ChArm.Cache.Bare

/-!
# The order in which a set gives up its lines

The bit matrix of a set may know the uses of only some of its lines: of those
`recent` lists.  The other valid lines, `older`, then count as never used, and
`lru` returns the one with the smallest index first.  `LineOrder` is a set in
such a state; `Ordered` forgets where the two parts meet and keeps the order in
which the lines will go, which is all that `select_line` looks at.
-/

namespace ChArm

open Recency

/-- With every line listed, the first zero row of a matrix that knows `recent` belongs to the last
line of the order in which the others stand by index. -/
theorem MatrixOrder.find?_isLru_append {A : Nat} (hA : A ≤ 8) {m : Word} {recent older : List Nat}
    (h : MatrixOrder A m recent) (hn : (recent ++ older).Nodup)
    (hlt : ∀ j ∈ recent ++ older, j < A) (hlen : (recent ++ older).length = A)
    (hgt : older.Pairwise (· > ·)) :
    (List.range A).find? (isLru A m) = (recent ++ older).getLast? := by
  cases older using List.reverseRecOn with
  | nil =>
    rw [List.append_nil] at hn hlt hlen ⊢
    exact h.find?_isLru hA hn hlt hlen
  | append_singleton older a _ =>
    rw [← List.append_assoc] at hn hlt hlen ⊢
    have haA : a < A := hlt a (by simp)
    have hmem := mem_order_iff hn hlt hlen
    have hlast : a ∉ recent ++ older := fun hm =>
      (List.nodup_append.1 hn).2.2 a hm a (List.mem_singleton_self a) rfl
    have hidx : recent.idxOf a = recent.length :=
      List.idxOf_eq_length fun hm => hlast (List.mem_append_left _ hm)
    -- the row of the last line is zero: no line is older
    have hzero : isLru A m a = true := by
      rw [isLru_iff hA haA]
      intro j hj hja
      rw [h a haA j hj, hidx]
      have := List.idxOf_le_length (l := recent) (a := j)
      simpa using this
    -- a smaller line is recent, so it is more recent than the last one
    have hbefore : ∀ i < a, isLru A m i = false := by
      intro i hi
      have hir : i ∈ recent := by
        have := (hmem i).2 (by omega)
        simp only [List.mem_append, List.mem_singleton] at this
        rcases this with (hr | ho) | rfl
        · exact hr
        · have := (List.pairwise_append.1 hgt).2.2 i ho a (List.mem_singleton_self a)
          omega
        · omega
      have hrow : m.getLsbD (i * 8 + a) = true := by
        rw [h i (by omega) a haA, hidx]
        simpa using List.idxOf_lt_length_of_mem hir
      rw [Bool.eq_false_iff]
      intro hlru
      rw [(isLru_iff hA (by omega)).1 hlru a haA (by omega)] at hrow
      cases hrow
    rw [List.getLast?_append, List.getLast?_singleton, Option.some_or, List.find?_range_eq_some]
    refine ⟨hzero, List.mem_range.2 haA, fun i hi => ?_⟩
    rw [hbefore i hi]
    rfl

/-- The valid lines of a set by index, the largest first. -/
def CacheSet.byIndex (s : CacheSet) (A : Nat) : List Nat :=
  ((List.range A).filter fun j => (s.lines j).valid).reverse

namespace CacheSet

variable (s : CacheSet) (A : Nat)

theorem nodup_byIndex : (s.byIndex A).Nodup := by
  rw [byIndex, List.nodup_reverse]
  exact List.nodup_range.filter _

theorem mem_byIndex (j : Nat) : j ∈ s.byIndex A ↔ j < A ∧ (s.lines j).valid = true := by
  simp [byIndex]

theorem pairwise_byIndex : (s.byIndex A).Pairwise (· > ·) := by
  rw [byIndex, List.pairwise_reverse]
  exact List.pairwise_lt_range.filter _

end CacheSet

/-- The valid lines of a set: the matrix knows the uses of `recent`, the others stand by index. -/
structure LineOrder (A : Nat) (set : CacheSet) (recent older : List Nat) : Prop where
  nodup : (recent ++ older).Nodup
  mem_iff : ∀ j, j ∈ recent ++ older ↔ j < A ∧ (set.lines j).valid = true
  decreasing : older.Pairwise (· > ·)
  matrix : MatrixOrder A set.lruMatrix recent
  next : (recent ++ older).length = A → (recent ++ older).getLast? = some set.nextLru

/-- A fresh set has no valid line. -/
theorem lineOrder_fresh {A : Nat} (hA : 0 < A) : LineOrder A .fresh [] [] where
  nodup := List.nodup_nil
  mem_iff := by simp [CacheSet.fresh, CacheLine.fresh]
  decreasing := List.Pairwise.nil
  matrix := matrixOrder_nil A
  next := fun h => absurd h hA.ne

namespace LineOrder

variable {A : Nat} {set : CacheSet} {recent older : List Nat}

theorem lt (h : LineOrder A set recent older) {j : Nat} (hj : j ∈ recent ++ older) : j < A :=
  ((h.mem_iff j).1 hj).1

/-- Updating a line to a valid one and recording its use moves it to the front. -/
theorem touch (h : LineOrder A set recent older) (hA : A ≤ 8) {j : Nat} (hj : j < A)
    {l : CacheLine} (hl : l.valid = true) :
    LineOrder A ((set.putLine j l).touch A j) (moveToFront j recent) (older.erase j) := by
  have happ := moveToFront_append h.nodup j
  have hnodup : (moveToFront j recent ++ older.erase j).Nodup :=
    happ ▸ nodup_moveToFront h.nodup
  have hmem : ∀ k, k ∈ moveToFront j recent ++ older.erase j ↔ k = j ∨ k ∈ recent ++ older := by
    intro k
    rw [← happ, mem_moveToFront]
  have hlt : ∀ k ∈ moveToFront j recent ++ older.erase j, k < A := by
    intro k hk
    rcases (hmem k).1 hk with rfl | hk
    · exact hj
    · exact h.lt hk
  have hdec : (older.erase j).Pairwise (· > ·) := h.decreasing.sublist List.erase_sublist
  refine ⟨hnodup, fun k => ?_, hdec, h.matrix.lru hA hj, fun hlen => ?_⟩
  · rw [hmem, h.mem_iff]
    by_cases hk : k = j
    · subst hk
      simp [CacheSet.touch, CacheSet.putLine, hj, hl]
    · simp [CacheSet.touch, CacheSet.putLine, hk]
  · have hfind := (h.matrix.lru hA hj).find?_isLru_append hA hnodup hlt hlen hdec
    have hne : (moveToFront j recent ++ older.erase j).getLast? ≠ none := by
      simp [moveToFront]
    obtain ⟨i, hi⟩ := Option.ne_none_iff_exists'.1 hne
    rw [hi] at hfind ⊢
    simp only [CacheSet.touch, CacheSet.putLine, lru] at hfind ⊢
    rw [hfind, Option.getD_some]

/-- With every line valid the order lists all of them. -/
theorem full (h : LineOrder A set recent older) (hv : ∀ j < A, (set.lines j).valid = true) :
    (recent ++ older).length = A := by
  have hperm : (recent ++ older).Perm (List.range A) := by
    refine (List.perm_ext_iff_of_nodup h.nodup List.nodup_range).2 fun j => ?_
    rw [h.mem_iff, List.mem_range]
    exact ⟨fun hj => hj.1, fun hj => ⟨hj, hv j hj⟩⟩
  rw [hperm.length_eq, List.length_range]

/-- Storing a valid line in place of one records nothing. -/
theorem putLine (h : LineOrder A set recent older) {j : Nat} (hj : (set.lines j).valid = true)
    {l : CacheLine} (hl : l.valid = true) : LineOrder A (set.putLine j l) recent older := by
  refine ⟨h.nodup, fun k => ?_, h.decreasing, h.matrix, h.next⟩
  rw [h.mem_iff]
  by_cases hk : k = j
  · subst hk
    simp [CacheSet.putLine, hj, hl]
  · simp [CacheSet.putLine, hk]

/-- A set whose lines were never used. -/
theorem unused (hA : 0 < A) (lines : Nat → CacheLine) :
    LineOrder A ⟨lines, 0, 0⟩ [] (CacheSet.byIndex ⟨lines, 0, 0⟩ A) where
  nodup := CacheSet.nodup_byIndex _ _
  mem_iff := CacheSet.mem_byIndex _ _
  decreasing := CacheSet.pairwise_byIndex _ _
  matrix := matrixOrder_nil A
  next := by
    intro hlen
    rw [List.nil_append, CacheSet.byIndex, List.length_reverse] at hlen
    have hall : (List.range A).filter (fun j => (lines j).valid) = List.range A :=
      List.filter_sublist.eq_of_length (by rw [hlen, List.length_range])
    obtain ⟨n, rfl⟩ : ∃ n, A = n + 1 := ⟨A - 1, by omega⟩
    rw [List.nil_append, CacheSet.byIndex, List.getLast?_reverse, hall, List.range_succ_eq_map]
    rfl

/-- The matrix says whether the lines were used by index. -/
theorem decreasing_iff (h : LineOrder A set recent []) (hA : A ≤ 8) :
    recent.Pairwise (· > ·) ↔ ∀ b < A, ∀ a < b, (set.lines a).valid = true →
      (set.lines b).valid = true → set.lruMatrix &&& lruBit a b = 0 := by
  have hnodup := h.nodup
  have hmem := h.mem_iff
  rw [List.append_nil] at hnodup hmem
  rw [pairwise_gt_iff hnodup]
  constructor
  · intro hl b hb a hab hva hvb
    rw [and_lruBit_eq_zero (by omega) (by omega), h.matrix a (by omega) b hb]
    exact decide_eq_false (hl a ((hmem a).2 ⟨by omega, hva⟩) b ((hmem b).2 ⟨hb, hvb⟩) hab)
  · intro hl a ha b hb hab
    obtain ⟨haA, hva⟩ := (hmem a).1 ha
    obtain ⟨hbA, hvb⟩ := (hmem b).1 hb
    have hbit := hl b hbA a hab hva hvb
    rw [and_lruBit_eq_zero (by omega) (by omega), h.matrix a haA b hbA] at hbit
    exact of_decide_eq_false hbit

end LineOrder

/-- In a set with an invalid line the first of them goes. -/
theorem selectLine_room {set : CacheSet} {A j : Nat}
    (hinv : (List.range A).find? (fun j => !(set.lines j).valid) = some j) :
    selectLine set A = (j, set) := by
  simp only [selectLine, hinv]

/-- The valid lines of a set, in the reverse of the order in which they will go. -/
def Ordered (A : Nat) (set : CacheSet) (order : List Nat) : Prop :=
  ∃ recent older, recent ++ older = order ∧ LineOrder A set recent older

theorem LineOrder.ordered {A : Nat} {set : CacheSet} {order : List Nat}
    (h : LineOrder A set order []) : Ordered A set order :=
  ⟨order, [], List.append_nil order, h⟩

namespace Ordered

variable {A : Nat} {set : CacheSet} {order : List Nat}

theorem nodup (h : Ordered A set order) : order.Nodup := by
  obtain ⟨recent, older, rfl, h⟩ := h
  exact h.nodup

theorem mem_iff (h : Ordered A set order) (j : Nat) :
    j ∈ order ↔ j < A ∧ (set.lines j).valid = true := by
  obtain ⟨recent, older, rfl, h⟩ := h
  exact h.mem_iff j

/-- Storing a valid line and recording its use moves it to the front. -/
theorem touch (h : Ordered A set order) (hA : A ≤ 8) {j : Nat} (hj : j < A) {l : CacheLine}
    (hl : l.valid = true) : Ordered A ((set.putLine j l).touch A j) (moveToFront j order) := by
  obtain ⟨recent, older, rfl, h⟩ := h
  exact ⟨_, _, (moveToFront_append h.nodup j).symm, h.touch hA hj hl⟩

/-- Storing a valid line in place of one records nothing. -/
theorem putLine (h : Ordered A set order) {j : Nat} (hj : (set.lines j).valid = true)
    {l : CacheLine} (hl : l.valid = true) : Ordered A (set.putLine j l) order := by
  obtain ⟨recent, older, rfl, h⟩ := h
  exact ⟨recent, older, rfl, h.putLine hj hl⟩

theorem length_le (h : Ordered A set order) : order.length ≤ A := by
  have hsub : order ⊆ List.range A := fun j hj => List.mem_range.2 ((h.mem_iff j).1 hj).1
  have := (List.subperm_of_subset h.nodup hsub).length_le
  rwa [List.length_range] at this

/-- In a full set the last line of the order goes. -/
theorem selectLine_full (h : Ordered A set order)
    (hinv : (List.range A).find? (fun j => !(set.lines j).valid) = none) :
    ∃ j < A, order.length = A ∧ order.getLast? = some j ∧ selectLine set A = (j, set) := by
  obtain ⟨recent, older, rfl, h⟩ := h
  have hvalid : ∀ j < A, (set.lines j).valid = true := by
    intro j hj
    simpa using List.find?_eq_none.1 hinv j (List.mem_range.2 hj)
  have hlast := h.next (h.full hvalid)
  have hlt : set.nextLru < A := h.lt (List.mem_of_getLast? hlast)
  refine ⟨set.nextLru, hlt, h.full hvalid, hlast, ?_⟩
  simp only [selectLine, hinv]
  rw [if_neg (by omega)]

/-- An order as long as the set lists every line. -/
theorem valid_of_full (h : Ordered A set order) (hlen : order.length = A) {j : Nat} (hj : j < A) :
    (set.lines j).valid = true := by
  have hmem := mem_order_iff h.nodup (fun k hk => ((h.mem_iff k).1 hk).1) hlen
  exact ((h.mem_iff j).1 ((hmem j).2 hj)).2

theorem selectLine_last {a : Nat} (h : Ordered A set (order ++ [a]))
    (hlen : (order ++ [a]).length = A) : selectLine set A = (a, set) := by
  have hinv : (List.range A).find? (fun j => !(set.lines j).valid) = none := by
    rw [List.find?_eq_none]
    intro j hj
    simpa using h.valid_of_full hlen (List.mem_range.1 hj)
  obtain ⟨j, -, -, hlast, hsel⟩ := h.selectLine_full hinv
  rw [List.getLast?_append, List.getLast?_singleton, Option.some_or, Option.some_inj] at hlast
  rw [hsel, hlast]

end Ordered

end ChArm
