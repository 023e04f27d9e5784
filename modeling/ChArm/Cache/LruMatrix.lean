import ChArm.Cache.Basic
import ChArm.Lib.Recency

/-!
# The replacement bit matrix

`lru` keeps an 8 × 8 bit matrix in one word.  `lru_getLsbD` says which bits one
call leaves set; `MatrixOrder` says what they mean: the bit in row `i` and
column `j` is set exactly when line `i` is more recent than line `j` on a
recency list of the lines used so far.  Using a line moves it to the front of
that list (`MatrixOrder.lru`), and once every line has been used the index
`lru` returns is the last of the list (`MatrixOrder.lru_fst`).
-/

namespace ChArm

open Recency

/-! ## One bit at a time -/

theorem getLsbD_lruBit {i j k : Nat} (hi : i < 8) (hj : j < 8) :
    (lruBit i j).getLsbD k = decide (k = i * 8 + j) := by
  unfold lruBit
  rw [BitVec.getLsbD_shiftLeft]
  by_cases hk : k = i * 8 + j
  · subst hk
    simpa using by omega
  · by_cases hlt : k < i * 8 + j
    · simp [hlt, hk]
    · have h1 : k - (i * 8 + j) ≠ 0 := by omega
      simp [BitVec.getLsbD_one, h1, hk]

/-- Testing a matrix entry against its mask. -/
theorem and_lruBit_eq_zero {m : Word} {i j : Nat} (hi : i < 8) (hj : j < 8) :
    m &&& lruBit i j = 0 ↔ m.getLsbD (i * 8 + j) = false := by
  constructor
  · intro h
    have hb := congrArg (fun x : Word => x.getLsbD (i * 8 + j)) h
    simpa [getLsbD_lruBit hi hj] using hb
  · intro h
    apply BitVec.eq_of_getLsbD_eq
    intro k hk
    rw [BitVec.getLsbD_and, getLsbD_lruBit hi hj]
    by_cases hkij : k = i * 8 + j
    · rw [hkij, h]
      simp
    · simp [hkij]

/-- Clearing a mask clears that entry and no other. -/
theorem getLsbD_and_not_lruBit {r c i j : Nat} (hr : r < 8) (hc : c < 8) (hi : i < 8) (hj : j < 8)
    (m : Word) :
    (m &&& ~~~(lruBit r c)).getLsbD (i * 8 + j) =
      if i = r ∧ j = c then false else m.getLsbD (i * 8 + j) := by
  have hlt : i * 8 + j < 64 := by omega
  have hdec : (i * 8 + j = r * 8 + c) ↔ (i = r ∧ j = c) := by omega
  rw [BitVec.getLsbD_and, BitVec.getLsbD_not, getLsbD_lruBit hr hc]
  by_cases h : i = r ∧ j = c <;> simp [hlt, hdec, h]

/-- Setting a mask sets that entry and no other. -/
theorem getLsbD_or_lruBit {r c i j : Nat} (hr : r < 8) (hc : c < 8) (hj : j < 8) (m : Word) :
    (m ||| lruBit r c).getLsbD (i * 8 + j) =
      if i = r ∧ j = c then true else m.getLsbD (i * 8 + j) := by
  have hdec : (i * 8 + j = r * 8 + c) ↔ (i = r ∧ j = c) := by omega
  rw [BitVec.getLsbD_or, getLsbD_lruBit hr hc]
  by_cases h : i = r ∧ j = c <;> simp [hdec, h]

theorem getLsbD_lruSetRow {A a : Nat} (hA : A ≤ 8) (ha : a < 8) {i j : Nat} (hi : i < 8)
    (hj : j < 8) (m : Word) :
    (lruSetRow A a m).getLsbD (i * 8 + j) =
      if i = a ∧ j < A then decide (j ≠ a) else m.getLsbD (i * 8 + j) := by
  unfold lruSetRow
  induction A with
  | zero => simp
  | succ n ih =>
    rw [List.range_succ, List.foldl_append, List.foldl_cons, List.foldl_nil]
    have hstep : (i = a ∧ j < n + 1) ↔ ((i = a ∧ j = n) ∨ (i = a ∧ j < n)) := by omega
    by_cases hna : n = a
    · rw [if_pos hna, getLsbD_and_not_lruBit ha (by omega) hi hj, ih (by omega)]
      by_cases hij : i = a ∧ j = n
      · simp [hij, hna]
      · simp only [hstep, hij, false_or, if_false]
    · rw [if_neg hna, getLsbD_or_lruBit ha (by omega) hj, ih (by omega)]
      by_cases hij : i = a ∧ j = n
      · simp [hij, hna]
      · simp only [hstep, hij, false_or, if_false]

theorem getLsbD_lruClearColumn {A a : Nat} (hA : A ≤ 8) (ha : a < 8) {i j : Nat} (hi : i < 8)
    (hj : j < 8) (m : Word) :
    (lruClearColumn A a m).getLsbD (i * 8 + j) =
      if i < A ∧ j = a then false else m.getLsbD (i * 8 + j) := by
  unfold lruClearColumn
  induction A with
  | zero => simp
  | succ n ih =>
    rw [List.range_succ, List.foldl_append, List.foldl_cons, List.foldl_nil,
      getLsbD_and_not_lruBit (by omega) ha hi hj, ih (by omega)]
    have hstep : (i < n + 1 ∧ j = a) ↔ ((i = n ∧ j = a) ∨ (i < n ∧ j = a)) := by omega
    by_cases hij : i = n ∧ j = a
    · simp [hij]
    · simp only [hstep, hij, false_or, if_false]

/-- The bits one call of `lru` leaves set: row `a` but for its diagonal, column `a` clear,
the others as they were. -/
theorem lru_getLsbD {A a : Nat} (hA : A ≤ 8) (ha : a < A) {i j : Nat} (hi : i < A) (hj : j < A)
    (m : Word) :
    (lru A a m).2.getLsbD (i * 8 + j) =
      if i = a then decide (j ≠ a) else if j = a then false else m.getLsbD (i * 8 + j) := by
  unfold lru
  rw [getLsbD_lruClearColumn hA (by omega) (by omega) (by omega),
    getLsbD_lruSetRow hA (by omega) (by omega) (by omega)]
  by_cases hia : i = a <;> by_cases hja : j = a <;> simp [hia, hja, hi, hj, ha]

theorem isLru_iff {A : Nat} (hA : A ≤ 8) {m : Word} {i : Nat} (hi : i < A) :
    isLru A m i = true ↔ ∀ j < A, j ≠ i → m.getLsbD (i * 8 + j) = false := by
  simp only [isLru, List.all_eq_true, List.mem_range, Bool.or_eq_true, beq_iff_eq]
  constructor
  · intro h j hj hji
    rcases h j hj with h' | h'
    · exact absurd h'.symm hji
    · exact (and_lruBit_eq_zero (by omega) (by omega)).1 h'
  · intro h j hj
    by_cases hji : i = j
    · exact Or.inl hji
    · exact Or.inr ((and_lruBit_eq_zero (by omega) (by omega)).2 (h j hj (Ne.symm hji)))

/-! ## The order the matrix encodes -/

/-- The matrix restricted to `A` lines encodes the recency list `order`. -/
def MatrixOrder (A : Nat) (m : Word) (order : List Nat) : Prop :=
  ∀ i < A, ∀ j < A, m.getLsbD (i * 8 + j) = decide (order.idxOf i < order.idxOf j)

/-- The zero matrix encodes that no line has been used. -/
theorem matrixOrder_nil (A : Nat) : MatrixOrder A 0 [] := by
  intro i _ j _
  simp

/-- Using a line moves it to the front of the order. -/
theorem MatrixOrder.lru {A a : Nat} (hA : A ≤ 8) (ha : a < A) {m : Word} {order : List Nat}
    (h : MatrixOrder A m order) : MatrixOrder A (ChArm.lru A a m).2 (moveToFront a order) := by
  intro i hi j hj
  rw [lru_getLsbD hA ha hi hj]
  by_cases hia : i = a
  · rw [if_pos hia, hia, idxOf_moveToFront_self]
    by_cases hja : j = a
    · simp [hja]
    · rw [idxOf_moveToFront_of_ne hja]
      simp [hja]
  · rw [if_neg hia]
    by_cases hja : j = a
    · rw [if_pos hja, hja, idxOf_moveToFront_self]
      simp
    · rw [if_neg hja, h i hi j hj]
      exact decide_eq_decide.2 (idxOf_moveToFront_lt_iff hia hja order).symm

/-- A list without repetitions that holds exactly the numbers below `A`. -/
theorem mem_order_iff {A : Nat} {order : List Nat} (hn : order.Nodup)
    (hlt : ∀ j ∈ order, j < A) (hlen : order.length = A) (j : Nat) : j ∈ order ↔ j < A := by
  refine ⟨hlt j, fun hj => ?_⟩
  have hsub : order ⊆ List.range A := fun k hk => List.mem_range.2 (hlt k hk)
  have hperm : order.Perm (List.range A) :=
    (List.subperm_of_subset hn hsub).perm_of_length_le (by rw [List.length_range, hlen])
  exact hperm.mem_iff.2 (List.mem_range.2 hj)

/-- When the order lists every line, the first zero row of the matrix belongs to
its last line. -/
theorem MatrixOrder.find?_isLru {A : Nat} (hA : A ≤ 8) {m : Word} {order : List Nat}
    (h : MatrixOrder A m order) (hn : order.Nodup) (hlt : ∀ j ∈ order, j < A)
    (hlen : order.length = A) : (List.range A).find? (isLru A m) = order.getLast? := by
  have hmem := mem_order_iff hn hlt hlen
  have hzero : ∀ i < A, (isLru A m i = true ↔ order.getLast? = some i) := by
    intro i hi
    rw [isLru_iff hA hi, getLast?_eq_some_iff_oldest hn ((hmem i).2 hi)]
    constructor
    · intro hrow j hj hji
      have := hrow j ((hmem j).1 hj) hji
      rw [h i hi j ((hmem j).1 hj)] at this
      exact of_decide_eq_false this
    · intro hold j hj hji
      rw [h i hi j hj]
      exact decide_eq_false (hold j ((hmem j).2 hj) hji)
  cases hlast : order.getLast? with
  | none =>
    rw [List.find?_eq_none]
    intro i hi
    rw [hzero i (List.mem_range.1 hi), hlast]
    simp
  | some a =>
    have haA : a < A := hlt a (List.mem_of_getLast? hlast)
    cases hf : (List.range A).find? (isLru A m) with
    | none => exact absurd ((hzero a haA).2 hlast) (List.find?_eq_none.1 hf a (List.mem_range.2 haA))
    | some i =>
      have hi : i < A := List.mem_range.1 (List.mem_of_find?_eq_some hf)
      have := (hzero i hi).1 (List.find?_some hf)
      rw [← this, hlast]

/-- The line `lru` returns: the least recently used one, once every line has been used. -/
theorem MatrixOrder.lru_fst {A a : Nat} (hA : A ≤ 8) (ha : a < A) {m : Word} {order : List Nat}
    (h : MatrixOrder A m order) (hn : order.Nodup) (hlt : ∀ j ∈ order, j < A)
    (hlen : (moveToFront a order).length = A) :
    (moveToFront a order).getLast? = some (ChArm.lru A a m).1 := by
  have hlt' : ∀ j ∈ moveToFront a order, j < A := by
    intro j hj
    rcases mem_moveToFront.1 hj with rfl | hj
    · exact ha
    · exact hlt j hj
  have hf := (h.lru hA ha).find?_isLru hA (nodup_moveToFront hn) hlt' hlen
  have hne : (moveToFront a order).getLast? ≠ none := by simp [moveToFront]
  obtain ⟨i, hi⟩ := Option.ne_none_iff_exists'.1 hne
  rw [hi] at hf ⊢
  simp only [ChArm.lru] at hf ⊢
  rw [hf, Option.getD_some]

end ChArm
