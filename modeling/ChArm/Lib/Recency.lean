import Mathlib

/-!
# Recency lists and least-recently-used sets

A recency list holds each of its elements once, most recently used first.
`moveToFront` is what using an element does to it, and `idxOf` reads off how
recent an element is; elements not on the list count as oldest.

On top of it, `Lru.access` is a bounded write-back set with least-recently-used
replacement: entries carry a dirty mark, and using a new element of a full set
evicts the last entry.  Nothing here depends on how such a set is implemented.
-/

namespace Recency

variable {α : Type*} [DecidableEq α]

/-- Use `a`: it becomes the most recent element. -/
def moveToFront (a : α) (l : List α) : List α := a :: l.erase a

theorem mem_moveToFront {a b : α} {l : List α} : b ∈ moveToFront a l ↔ b = a ∨ b ∈ l := by
  rw [moveToFront, List.mem_cons]
  by_cases h : b = a
  · simp [h]
  · simp [h, List.mem_erase_of_ne h]

theorem nodup_moveToFront {a : α} {l : List α} (h : l.Nodup) : (moveToFront a l).Nodup :=
  List.nodup_cons.2 ⟨fun hm => (h.mem_erase_iff.1 hm).1 rfl, h.erase a⟩

@[simp] theorem idxOf_moveToFront_self (a : α) (l : List α) : (moveToFront a l).idxOf a = 0 :=
  List.idxOf_cons_self

theorem idxOf_moveToFront_of_ne {a b : α} (h : b ≠ a) (l : List α) :
    (moveToFront a l).idxOf b = (l.erase a).idxOf b + 1 :=
  List.idxOf_cons_ne _ (Ne.symm h)

/-- Erasing an element keeps the order of the others. -/
theorem idxOf_erase_lt_iff {a b c : α} (hb : b ≠ a) (hc : c ≠ a) (l : List α) :
    (l.erase a).idxOf b < (l.erase a).idxOf c ↔ l.idxOf b < l.idxOf c := by
  induction l with
  | nil => simp
  | cons x xs ih =>
    by_cases hx : x = a
    · subst hx
      rw [List.erase_cons_head, List.idxOf_cons_ne _ (Ne.symm hb), List.idxOf_cons_ne _ (Ne.symm hc)]
      omega
    · rw [List.erase_cons_tail (by simpa using hx)]
      by_cases hxb : x = b <;> by_cases hxc : x = c
      · subst hxb; subst hxc; simp
      · subst hxb
        simp [List.idxOf_cons_ne _ hxc]
      · subst hxc
        simp [List.idxOf_cons_ne _ hxb]
      · rw [List.idxOf_cons_ne _ hxb, List.idxOf_cons_ne _ hxc, List.idxOf_cons_ne _ hxb,
          List.idxOf_cons_ne _ hxc]
        omega

/-- Using `a` keeps the order of the other elements. -/
theorem idxOf_moveToFront_lt_iff {a b c : α} (hb : b ≠ a) (hc : c ≠ a) (l : List α) :
    (moveToFront a l).idxOf b < (moveToFront a l).idxOf c ↔ l.idxOf b < l.idxOf c := by
  rw [idxOf_moveToFront_of_ne hb, idxOf_moveToFront_of_ne hc, Nat.add_lt_add_iff_right,
    idxOf_erase_lt_iff hb hc]

/-- The element nothing on the list is older than is the last one. -/
theorem getLast?_eq_some_iff_oldest {l : List α} (h : l.Nodup) {a : α} (ha : a ∈ l) :
    l.getLast? = some a ↔ ∀ b ∈ l, b ≠ a → ¬ l.idxOf a < l.idxOf b := by
  have hne : l ≠ [] := List.ne_nil_of_mem ha
  have hlast : l.idxOf (l.getLast hne) = l.length - 1 := by
    refine List.idxOf_getLast hne ?_
    have hn := h
    rw [← List.dropLast_append_getLast hne, List.nodup_append] at hn
    exact fun hm => hn.2.2 _ hm _ (List.mem_singleton_self _) rfl
  rw [List.getLast?_eq_some_getLast hne, Option.some_inj]
  constructor
  · rintro rfl b hb - hlt
    have := List.idxOf_lt_length_of_mem hb
    omega
  · intro hold
    by_contra hcon
    have h1 := hold _ (List.getLast_mem hne) hcon
    have h2 : l.idxOf a ≠ l.idxOf (l.getLast hne) :=
      fun he => hcon ((List.idxOf_inj ha).1 he).symm
    have h3 := List.idxOf_lt_length_of_mem ha
    omega

/-- Using the oldest element of a full list rotates it to the front. -/
theorem moveToFront_getLast {l : List α} (h : l.Nodup) {a : α} (ha : l.getLast? = some a) :
    moveToFront a l = a :: l.dropLast := by
  have hne : l ≠ [] := List.ne_nil_of_mem (List.mem_of_getLast? ha)
  have hl : l.dropLast ++ [a] = l := by
    rw [List.getLast?_eq_some_getLast hne, Option.some_inj] at ha
    rw [← ha]
    exact List.dropLast_append_getLast hne
  have hnot : a ∉ l.dropLast := by
    rw [← hl, List.nodup_append] at h
    exact fun hm => h.2.2 _ hm _ (List.mem_singleton_self _) rfl
  rw [moveToFront]
  congr 1
  conv_lhs => rw [← hl]
  rw [List.erase_append_right _ hnot, List.erase_cons_head, List.append_nil]

theorem moveToFront_concat {l : List α} {a : α} (h : (l ++ [a]).Nodup) :
    moveToFront a (l ++ [a]) = a :: l := by
  rw [moveToFront_getLast h (by simp), List.dropLast_concat]

/-- Using an element of two lists in a row that hold no element twice. -/
theorem moveToFront_append {l older : List α} (h : (l ++ older).Nodup) (a : α) :
    moveToFront a (l ++ older) = moveToFront a l ++ older.erase a := by
  rw [moveToFront, moveToFront, List.cons_append]
  by_cases ha : a ∈ l
  · have hnot : a ∉ older := fun hm => (List.nodup_append.1 h).2.2 a ha a hm rfl
    rw [List.erase_append_left _ ha, List.erase_of_not_mem hnot]
  · rw [List.erase_append_right _ ha, List.erase_of_not_mem ha]

/-! ## Histories -/

/-- When `a` was last used in a history: at which of its steps, counted from 1, and 0 if it
never was. -/
def lastUse (a : α) : List α → Nat
  | [] => 0
  | x :: h =>
      if lastUse a h = 0 then if x = a then 1 else 0
      else lastUse a h + 1

theorem lastUse_concat (a x : α) (h : List α) :
    lastUse a (h ++ [x]) = if x = a then h.length + 1 else lastUse a h := by
  induction h with
  | nil => simp [lastUse]
  | cons y h ih =>
    rw [List.cons_append, lastUse, ih, lastUse]
    by_cases hx : x = a <;> simp [hx]

theorem lastUse_le_length (a : α) (h : List α) : lastUse a h ≤ h.length := by
  induction h with
  | nil => simp [lastUse]
  | cons x h ih =>
    rw [lastUse, List.length_cons]
    split_ifs <;> omega

/-- The recency list of a history. -/
def recency (h : List α) : List α := h.foldl (fun l a => moveToFront a l) []

theorem recency_concat (h : List α) (a : α) : recency (h ++ [a]) = moveToFront a (recency h) := by
  rw [recency, List.foldl_concat]
  rfl

theorem mem_recency {a : α} {h : List α} : a ∈ recency h ↔ a ∈ h := by
  induction h using List.reverseRecOn with
  | nil => simp [recency]
  | append_singleton h x ih =>
    rw [recency_concat, mem_moveToFront, ih, List.mem_append, List.mem_singleton]
    exact or_comm

theorem nodup_recency (h : List α) : (recency h).Nodup := by
  induction h using List.reverseRecOn with
  | nil => exact List.nodup_nil
  | append_singleton h x ih =>
    rw [recency_concat]
    exact nodup_moveToFront ih

/-- Further to the front means used later. -/
theorem idxOf_recency_lt_iff (h : List α) (a b : α) :
    (recency h).idxOf a < (recency h).idxOf b ↔ lastUse b h < lastUse a h := by
  induction h using List.reverseRecOn with
  | nil => simp [recency, lastUse]
  | append_singleton h x ih =>
    rw [recency_concat, lastUse_concat, lastUse_concat]
    by_cases ha : a = x
    · rw [ha, idxOf_moveToFront_self, if_pos rfl]
      by_cases hb : b = x
      · rw [hb, idxOf_moveToFront_self, if_pos rfl]
        simp
      · have hle := lastUse_le_length b h
        rw [idxOf_moveToFront_of_ne hb, if_neg (Ne.symm hb)]
        omega
    · rw [if_neg (Ne.symm ha)]
      by_cases hb : b = x
      · have hle := lastUse_le_length a h
        rw [hb, idxOf_moveToFront_self, if_pos rfl]
        omega
      · rw [if_neg (Ne.symm hb), idxOf_moveToFront_lt_iff ha hb, ih]

/-! ## Orders that differ -/

/-- Two different lists of one length end alike up to a place where they differ. -/
theorem exists_last_difference {l l' : List α} (hlen : l.length = l'.length) (hne : l ≠ l') :
    ∃ u u' t p q, l = u ++ p :: t ∧ l' = u' ++ q :: t ∧ p ≠ q := by
  induction l using List.reverseRecOn generalizing l' with
  | nil => exact absurd (List.length_eq_zero_iff.1 hlen.symm).symm hne
  | append_singleton l p ih =>
    cases l' using List.reverseRecOn with
    | nil => simp at hlen
    | append_singleton l' q =>
      have hinit : l.length = l'.length := by simpa using hlen
      by_cases hpq : p = q
      · subst hpq
        obtain ⟨u, u', t, p', q', rfl, rfl, hne'⟩ := ih hinit fun h => hne (by rw [h])
        exact ⟨u, u', t ++ [p], p', q', by simp, by simp, hne'⟩
      · exact ⟨l, l', [], p, q, rfl, rfl, hpq⟩

/-- A recency list decreases exactly when no element on it is more recent than a larger one. -/
theorem pairwise_gt_iff {l : List Nat} (h : l.Nodup) :
    l.Pairwise (· > ·) ↔ ∀ a ∈ l, ∀ b ∈ l, a < b → ¬ l.idxOf a < l.idxOf b := by
  rw [List.pairwise_iff_getElem]
  constructor
  · intro hl a ha b hb hab hlt
    have := hl _ _ (List.idxOf_lt_length_of_mem ha) (List.idxOf_lt_length_of_mem hb) hlt
    rw [List.getElem_idxOf, List.getElem_idxOf] at this
    omega
  · intro hl i j hi hj hij
    by_contra hcon
    have hne : l[i] ≠ l[j] := fun he => hij.ne ((h.getElem_inj_iff).1 he)
    refine hl l[i] (List.getElem_mem hi) l[j] (List.getElem_mem hj) (by omega) ?_
    rw [h.idxOf_getElem i hi, h.idxOf_getElem j hj]
    exact hij

/-! ## Least-recently-used sets -/

/-- A resident element and whether it was written since it came in. -/
structure Entry (α : Type*) where
  block : α
  dirty : Bool
  deriving DecidableEq

/-- What an access finds: the element, or no such element and, from a full set,
the entry that has to go. -/
inductive Outcome (α : Type*) where
  | hit
  | miss (evicted : Option (Entry α))

namespace Lru

/-- Access `b`, as a write or not, in a set of at most `cap` entries. -/
def access (cap : Nat) (b : α) (w : Bool) (l : List (Entry α)) : Outcome α × List (Entry α) :=
  match l.find? fun e => e.block == b with
  | some e => (.hit, ⟨b, e.dirty || w⟩ :: l.eraseP fun e => e.block == b)
  | none =>
      if l.length < cap then (.miss none, ⟨b, w⟩ :: l)
      else (.miss l.getLast?, ⟨b, w⟩ :: l.dropLast)

theorem access_hit {cap : Nat} {b : α} {w : Bool} {l : List (Entry α)} {e : Entry α}
    (h : l.find? (fun e => e.block == b) = some e) :
    access cap b w l = (.hit, ⟨b, e.dirty || w⟩ :: l.eraseP fun e => e.block == b) := by
  rw [access, h]

theorem access_room {cap : Nat} {b : α} {w : Bool} {l : List (Entry α)}
    (h : l.find? (fun e => e.block == b) = none) (hlen : l.length < cap) :
    access cap b w l = (.miss none, ⟨b, w⟩ :: l) := by
  rw [access, h]
  exact if_pos hlen

theorem access_full {cap : Nat} {b : α} {w : Bool} {l : List (Entry α)}
    (h : l.find? (fun e => e.block == b) = none) (hlen : ¬ l.length < cap) :
    access cap b w l = (.miss l.getLast?, ⟨b, w⟩ :: l.dropLast) := by
  rw [access, h]
  exact if_neg hlen

/-- A set never holds more than its capacity. -/
theorem length_access_le {cap : Nat} (hcap : 0 < cap) (b : α) (w : Bool) {l : List (Entry α)}
    (h : l.length ≤ cap) : (access cap b w l).2.length ≤ cap := by
  unfold access
  split
  · rename_i e he
    have hm : e ∈ l := List.mem_of_find?_eq_some he
    have hp : (e.block == b) = true := by simpa using List.find?_some he
    have := List.length_eraseP_of_mem (p := fun e => e.block == b) hm hp
    have := List.length_pos_of_mem hm
    simp only [List.length_cons]
    omega
  · split
    · simpa using by omega
    · simp only [List.length_cons, List.length_dropLast]
      omega

/-- Erasing the entry of a block erases the block. -/
theorem map_block_eraseP (b : α) (l : List (Entry α)) :
    ((l.eraseP fun e => e.block == b).map Entry.block) = (l.map Entry.block).erase b := by
  induction l with
  | nil => rfl
  | cons e l ih =>
    by_cases he : e.block = b
    · simp [he]
    · rw [List.eraseP_cons_of_neg (by simpa using he), List.map_cons, List.map_cons,
        List.erase_cons_tail (by simpa using he), ih]

theorem mem_map_block {b : α} {l : List (Entry α)} {e : Entry α}
    (h : l.find? (fun e => e.block == b) = some e) : b ∈ l.map Entry.block := by
  have hb := List.find?_some h
  rw [← beq_iff_eq.1 hb]
  exact List.mem_map_of_mem (List.mem_of_find?_eq_some h)

theorem not_mem_map_block {b : α} {l : List (Entry α)}
    (h : l.find? (fun e => e.block == b) = none) : b ∉ l.map Entry.block := by
  intro hm
  obtain ⟨e, he, rfl⟩ := List.mem_map.1 hm
  simpa using List.find?_eq_none.1 h e he

/-- The blocks of a set stay distinct. -/
theorem nodup_access {cap : Nat} (b : α) (w : Bool) {l : List (Entry α)}
    (h : (l.map Entry.block).Nodup) : ((access cap b w l).2.map Entry.block).Nodup := by
  unfold access
  split
  · rw [List.map_cons, map_block_eraseP, List.nodup_cons]
    exact ⟨fun hm => (h.mem_erase_iff.1 hm).1 rfl, h.erase b⟩
  · rename_i hnone
    have hb := not_mem_map_block hnone
    split
    · exact List.nodup_cons.2 ⟨hb, h⟩
    · rw [List.map_cons, List.map_dropLast, List.nodup_cons]
      exact ⟨fun hm => hb (List.mem_of_mem_dropLast hm), h.sublist (List.dropLast_sublist _)⟩

/-! ## The stack property

A set of any capacity holds the most recent blocks of one and the same history.
-/

/-- Using an element among the first `cap` of a list. -/
theorem take_erase_of_mem {b : α} {l : List α} {cap : Nat} (h : b ∈ l.take cap) :
    (l.erase b).take (cap - 1) = (l.take cap).erase b := by
  have hsplit : l.erase b = (l.take cap).erase b ++ l.drop cap := by
    conv_lhs => rw [← List.take_append_drop cap l]
    exact List.erase_append_left _ h
  have hlen := List.length_erase_of_mem h
  rw [List.length_take] at hlen
  rw [hsplit]
  rcases Nat.lt_or_ge l.length cap with hlt | hge
  · rw [List.drop_eq_nil_of_le (by omega), List.append_nil, List.take_of_length_le (by omega)]
  · rw [List.take_append_of_le_length (by omega), List.take_of_length_le (by omega)]

/-- Using an element that is not among the first `cap` of a list. -/
theorem take_erase_of_not_mem {b : α} {l : List α} {cap : Nat} (h : b ∉ l.take cap) :
    (l.erase b).take (cap - 1) = l.take (cap - 1) := by
  have hsplit : l.erase b = l.take cap ++ (l.drop cap).erase b := by
    conv_lhs => rw [← List.take_append_drop cap l]
    exact List.erase_append_right _ h
  rw [hsplit]
  rcases Nat.lt_or_ge l.length cap with hlt | hge
  · rw [List.drop_eq_nil_of_le (by omega), List.erase_nil, List.append_nil, List.take_take,
      Nat.min_eq_left (by omega)]
  · rw [List.take_append_of_le_length (by rw [List.length_take]; omega), List.take_take,
      Nat.min_eq_left (by omega)]

/-- **The stack property.**  Accessing a set that holds the `cap` most recent blocks of a history
leaves it with the `cap` most recent blocks of the history in which the block was used. -/
theorem blocks_access {cap : Nat} (hcap : 0 < cap) (b : α) (w : Bool) {l : List (Entry α)}
    {history : List α} (h : l.map Entry.block = history.take cap) :
    (access cap b w l).2.map Entry.block = (moveToFront b history).take cap := by
  obtain ⟨n, rfl⟩ : ∃ n, cap = n + 1 := ⟨cap - 1, by omega⟩
  rw [moveToFront, List.take_succ_cons]
  cases hf : l.find? fun e => e.block == b with
  | some e =>
    have hmem := mem_map_block hf
    rw [h] at hmem
    rw [access_hit hf, List.map_cons, map_block_eraseP, h]
    exact congrArg _ (take_erase_of_mem hmem).symm
  | none =>
    have hnot := not_mem_map_block hf
    have hlen := congrArg List.length h
    rw [h] at hnot
    rw [List.length_map, List.length_take] at hlen
    have herase := take_erase_of_not_mem hnot
    rw [Nat.add_sub_cancel] at herase
    rw [herase]
    by_cases hroom : l.length < n + 1
    · rw [access_room hf hroom, List.map_cons, h, List.take_of_length_le (by omega),
        List.take_of_length_le (by omega)]
    · have hfull : (history.take (n + 1)).length - 1 = n := by
        rw [List.length_take]
        omega
      rw [access_full hf hroom, List.map_cons, List.map_dropLast, h, List.dropLast_eq_take, hfull,
        List.take_take, Nat.min_eq_left (Nat.le_succ n)]

end Lru

end Recency
