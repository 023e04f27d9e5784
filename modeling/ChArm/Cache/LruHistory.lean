import ChArm.Cache.LruMatrix

/-!
# What the bit matrix says about the past

A sequence of calls of `lru` on one matrix that starts at zero.  After it the matrix is a
function of when each line was last used (`EncodesHistory`): the bit in row `i` and column `j`
says that line `i` was used after line `j`, nothing else is ever set, and once every line has been
used the one zero row is that of the line used longest ago, which is what the last call returned.
-/

namespace ChArm

open Recency

/-- A sequence of calls of `lru` on a matrix that starts at 0: what the last one returned, and
the matrix after it. -/
def lruCalls (A : Nat) (accesses : List Nat) : Option Nat × Word :=
  accesses.foldl (fun s access =>
    let r := lru A access s.2
    (some r.1, r.2)) (none, 0)

theorem lruCalls_concat (A : Nat) (accesses : List Nat) (a : Nat) :
    lruCalls A (accesses ++ [a]) =
      (some (lru A a (lruCalls A accesses).2).1, (lru A a (lruCalls A accesses).2).2) := by
  rw [lruCalls, List.foldl_concat]
  rfl

/-- The matrix and the returned index after a sequence of calls, in terms of the last call for
each line. -/
structure EncodesHistory (A : Nat) (accesses : List Nat) (returned : Option Nat) (m : Word) :
    Prop where
  newer : ∀ i < A, ∀ j < A, i ≠ j →
    (m.getLsbD (i * 8 + j) = true ↔ i ∈ accesses ∧ lastUse j accesses < lastUse i accesses)
  diagonal : ∀ i < 8, m.getLsbD (i * 8 + i) = false
  outside : ∀ i < 8, ∀ j < 8, A ≤ i ∨ A ≤ j → m.getLsbD (i * 8 + j) = false
  zeroRow : (∀ i < A, i ∈ accesses) → ∃! i, i < A ∧ ∀ j < 8, m.getLsbD (i * 8 + j) = false
  /-- The search for a zero row does not fall through to `return 0`. -/
  found : (∀ i < A, i ∈ accesses) → (List.range A).find? (isLru A m) = returned
  oldest : (∀ i < A, i ∈ accesses) → ∃ i < A, returned = some i ∧
    ∀ j < A, j ≠ i → lastUse i accesses < lastUse j accesses

/-! ## The bits -/

/-- One call leaves the bits outside the corner, and those of the corner's diagonal, alone or
clears them. -/
theorem lru_getLsbD_outside {A a : Nat} (hA : A ≤ 8) (ha : a < A) {i j : Nat} (hi : i < 8)
    (hj : j < 8) (hout : A ≤ i ∨ A ≤ j) (m : Word) :
    (lru A a m).2.getLsbD (i * 8 + j) = m.getLsbD (i * 8 + j) := by
  unfold lru
  rw [getLsbD_lruClearColumn hA (by omega) hi hj, getLsbD_lruSetRow hA (by omega) hi hj,
    if_neg (by omega), if_neg (by omega)]

section
variable {A : Nat} {accesses : List Nat}

/-- The matrix encodes the recency list of the calls. -/
theorem matrixOrder_lruCalls (hA : A ≤ 8) (h : ∀ a ∈ accesses, a < A) :
    MatrixOrder A (lruCalls A accesses).2 (recency accesses) := by
  induction accesses using List.reverseRecOn with
  | nil => exact matrixOrder_nil A
  | append_singleton accesses a ih =>
    rw [lruCalls_concat, recency_concat]
    exact (ih fun b hb => h b (List.mem_append_left _ hb)).lru hA (h a (by simp))

theorem lruCalls_outside (hA : A ≤ 8) (h : ∀ a ∈ accesses, a < A) {i j : Nat} (hi : i < 8)
    (hj : j < 8) (hout : A ≤ i ∨ A ≤ j) : (lruCalls A accesses).2.getLsbD (i * 8 + j) = false := by
  induction accesses using List.reverseRecOn with
  | nil => exact BitVec.getLsbD_zero
  | append_singleton accesses a ih =>
    rw [lruCalls_concat, lru_getLsbD_outside hA (h a (by simp)) hi hj hout]
    exact ih fun b hb => h b (List.mem_append_left _ hb)

theorem lruCalls_getLsbD (hA : A ≤ 8) (h : ∀ a ∈ accesses, a < A) {i j : Nat} (hi : i < A)
    (hj : j < A) :
    (lruCalls A accesses).2.getLsbD (i * 8 + j) = true ↔
      lastUse j accesses < lastUse i accesses := by
  rw [matrixOrder_lruCalls hA h i hi j hj, decide_eq_true_iff, idxOf_recency_lt_iff]

/-! ## The line used longest ago -/

/-- Once every line has been used, the recency list holds them all. -/
theorem length_recency (h : ∀ a ∈ accesses, a < A) (hall : ∀ i < A, i ∈ accesses) :
    (recency accesses).length = A := by
  have hperm : (recency accesses).Perm (List.range A) := by
    refine (List.perm_ext_iff_of_nodup (nodup_recency accesses) List.nodup_range).2 fun i => ?_
    rw [mem_recency, List.mem_range]
    exact ⟨h i, hall i⟩
  rw [hperm.length_eq, List.length_range]

/-- The last call returns the end of the recency list. -/
theorem getLast?_recency (hA1 : 1 ≤ A) (hA : A ≤ 8) (h : ∀ a ∈ accesses, a < A)
    (hall : ∀ i < A, i ∈ accesses) :
    (recency accesses).getLast? = (lruCalls A accesses).1 := by
  have hlen := length_recency h hall
  cases accesses using List.reverseRecOn with
  | nil => exact absurd (hall 0 hA1) List.not_mem_nil
  | append_singleton accesses a =>
    have hpre : ∀ b ∈ accesses, b < A := fun b hb => h b (List.mem_append_left _ hb)
    rw [recency_concat] at hlen ⊢
    rw [lruCalls_concat]
    exact (matrixOrder_lruCalls hA hpre).lru_fst hA (h a (by simp)) (nodup_recency accesses)
      (fun j hj => hpre j (mem_recency.1 hj)) hlen

theorem exists_oldest (hA1 : 1 ≤ A) (hA : A ≤ 8) (h : ∀ a ∈ accesses, a < A)
    (hall : ∀ i < A, i ∈ accesses) :
    ∃ i < A, (lruCalls A accesses).1 = some i ∧
      ∀ j < A, j ≠ i → lastUse i accesses < lastUse j accesses := by
  have hlast := getLast?_recency hA1 hA h hall
  have hne : recency accesses ≠ [] := List.ne_nil_of_mem (mem_recency.2 (hall 0 hA1))
  rw [List.getLast?_eq_some_getLast hne] at hlast
  have hmem := List.getLast_mem hne
  refine ⟨_, h _ (mem_recency.1 hmem), hlast.symm, fun j hj hji => ?_⟩
  have hjmem : j ∈ recency accesses := mem_recency.2 (hall j hj)
  have hold := (getLast?_eq_some_iff_oldest (nodup_recency accesses) hmem).1
    (List.getLast?_eq_some_getLast hne) j hjmem hji
  have hidx : (recency accesses).idxOf j ≠
      (recency accesses).idxOf ((recency accesses).getLast hne) :=
    fun he => hji ((List.idxOf_inj hjmem).1 he)
  rw [← idxOf_recency_lt_iff]
  omega

/-- **The bit matrix encodes recency.** -/
theorem lruCalls_encodesHistory (hA1 : 1 ≤ A) (hA : A ≤ 8) (h : ∀ a ∈ accesses, a < A) :
    EncodesHistory A accesses (lruCalls A accesses).1 (lruCalls A accesses).2 where
  newer := by
    intro i hi j hj _
    rw [lruCalls_getLsbD hA h hi hj]
    refine ⟨fun hlt => ⟨?_, hlt⟩, fun hlt => hlt.2⟩
    rw [← mem_recency, ← List.idxOf_lt_length_iff]
    exact lt_of_lt_of_le ((idxOf_recency_lt_iff accesses i j).2 hlt) List.idxOf_le_length
  diagonal := by
    intro i hi
    by_cases hiA : i < A
    · rw [← Bool.not_eq_true, lruCalls_getLsbD hA h hiA hiA]
      exact lt_irrefl _
    · exact lruCalls_outside hA h hi hi (.inl (by omega))
  outside := fun i hi j hj hout => lruCalls_outside hA h hi hj hout
  zeroRow := by
    intro hall
    obtain ⟨i, hi, -, hold⟩ := exists_oldest hA1 hA h hall
    refine ⟨i, ⟨hi, fun j hj => ?_⟩, fun k ⟨hk, hrow⟩ => ?_⟩
    · by_cases hjA : j < A
      · rw [← Bool.not_eq_true, lruCalls_getLsbD hA h hi hjA]
        by_cases hji : j = i
        · rw [hji]
          exact lt_irrefl _
        · exact (hold j hjA hji).le.not_gt
      · exact lruCalls_outside hA h (by omega) hj (.inr (by omega))
    · -- the row of any other line has the bit of the oldest one set
      by_contra hne
      have hset := (lruCalls_getLsbD hA h hk hi).2 (hold k hk hne)
      rw [hrow i (by omega)] at hset
      cases hset
  found := by
    intro hall
    rw [← getLast?_recency hA1 hA h hall]
    exact (matrixOrder_lruCalls hA h).find?_isLru hA (nodup_recency accesses)
      (fun j hj => h j (mem_recency.1 hj)) (length_recency h hall)
  oldest := exists_oldest hA1 hA h

end

/-- Two lines: line 1 is used, then line 0. -/
theorem lruCalls_encodesHistory_two :
    EncodesHistory 2 [1, 0] (lruCalls 2 [1, 0]).1 (lruCalls 2 [1, 0]).2 ∧
      lruCalls 2 [1, 0] = (some 1, 2#64) :=
  ⟨lruCalls_encodesHistory (by decide) (by decide) (by decide), by decide⟩

end ChArm
