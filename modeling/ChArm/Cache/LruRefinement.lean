import ChArm.Cache.LruMatrix
import ChArm.Cache.Geometry

/-!
# The cache simulator is a least-recently-used cache

`Reference` is what a set-associative write-back cache with true LRU
replacement is: for every set the list of its at most `A` distinct blocks, most
recently used first, each with its dirty mark.  `SetRefines` connects a set of
`cache.c` to such a list through the order in which its lines were used: that
order lists the valid lines, the bit matrix encodes it and, in a full set,
`next_lru` is its last line.  One access keeps the connection
(`CacheRefines.accessData`), so a whole trace does (`CacheRefines.replayTrace`).
-/

namespace ChArm

open Recency

/-! ## The reference cache -/

/-- One set of the reference cache: at most `A` distinct blocks in recency order. -/
structure RefSet (A : Nat) where
  entries : List (Entry Nat)
  length_le : entries.length ≤ A
  nodup : (entries.map Entry.block).Nodup

/-- The empty set. -/
def RefSet.empty (A : Nat) : RefSet A := ⟨[], Nat.zero_le A, List.nodup_nil⟩

/-- Access a block of a set. -/
def RefSet.access {A : Nat} (hA : 0 < A) (block : Nat) (w : Bool) (r : RefSet A) :
    Outcome Nat × RefSet A :=
  let out := Lru.access A block w r.entries
  (out.1, ⟨out.2, Lru.length_access_le hA block w r.length_le, Lru.nodup_access block w r.nodup⟩)

/-- What an access adds to the counters. -/
def Counters.record (k : Counters) : Outcome Nat → Counters
  | .hit => { k with hitCount := k.hitCount + 1 }
  | .miss none => { k with missCount := k.missCount + 1 }
  | .miss (some e) =>
      if e.dirty then
        { k with
          missCount := k.missCount + 1
          dirtyEvictionCount := k.dirtyEvictionCount + 1 }
      else
        { k with
          missCount := k.missCount + 1
          cleanEvictionCount := k.cleanEvictionCount + 1 }

/-- The reference cache: its sets and what it has counted. -/
structure Reference (g : Geometry) where
  sets : Nat → RefSet g.A
  counts : Counters

namespace Reference

variable {g : Geometry}

/-- The empty reference cache. -/
def empty (g : Geometry) : Reference g := ⟨fun _ => .empty g.A, .zero⟩

/-- Access the block of an address. -/
def access (r : Reference g) (addr : Word) (operation : Operation) : Reference g :=
  let n := g.blockNum addr
  let i := n % 2 ^ g.s
  let out := (r.sets i).access g.one_le_A n (operation = .write)
  { sets := Function.update r.sets i out.2
    counts := r.counts.record out.1 }

end Reference

/-! ## Traces -/

/-- A line of a trace: a store, a load, or a load and a store of one address. -/
inductive TraceLine where
  | S (addr : Word)
  | L (addr : Word)
  | M (addr : Word)

/-- The calls of `access_data` a trace line makes. -/
def TraceLine.accesses : TraceLine → List (Word × Operation)
  | .S addr => [(addr, .write)]
  | .L addr => [(addr, .read)]
  | .M addr => [(addr, .read), (addr, .write)]

/-- `replayTrace`: the cache and the counters after a trace. -/
def replayTrace (c : Cache) (k : Counters) (trace : List TraceLine) : Cache × Counters :=
  (trace.flatMap TraceLine.accesses).foldl (fun s a => accessData s.1 s.2 a.1 a.2) (c, k)

/-- The reference cache after a trace. -/
def Reference.replayTrace {g : Geometry} (r : Reference g) (trace : List TraceLine) :
    Reference g :=
  (trace.flatMap TraceLine.accesses).foldl (fun r a => r.access a.1 a.2) r

/-! ## One set -/

/-- The reference entry a line stands for, in the set with index `i` of `S`. -/
def entryOf (S i : Nat) (set : CacheSet) (j : Nat) : Entry Nat :=
  ⟨(set.lines j).tag.toNat * S + i, (set.lines j).dirty⟩

/-- The set with index `i` of `S` holds the entries `es`; `order` lists its
valid lines, most recently used first. -/
structure SetRefines (A S i : Nat) (set : CacheSet) (order : List Nat) (es : List (Entry Nat)) :
    Prop where
  nodup : order.Nodup
  mem_iff : ∀ j, j ∈ order ↔ j < A ∧ (set.lines j).valid = true
  entries : es = order.map (entryOf S i set)
  matrix : MatrixOrder A set.lruMatrix order
  next : order.length = A → order.getLast? = some set.nextLru

theorem setRefines_fresh {A : Nat} (hA : 0 < A) (S i : Nat) :
    SetRefines A S i .fresh [] [] where
  nodup := List.nodup_nil
  mem_iff := by simp [CacheSet.fresh, CacheLine.fresh]
  entries := rfl
  matrix := matrixOrder_nil A
  next := fun h => by simp at h; omega

theorem find?_map_entryOf {S i : Nat} {set : CacheSet} {order : List Nat}
    (hn : ((order.map (entryOf S i set)).map Entry.block).Nodup) {j : Nat} (hj : j ∈ order) :
    (order.map (entryOf S i set)).find? (fun e => e.block == (entryOf S i set j).block) =
      some (entryOf S i set j) := by
  induction order with
  | nil => simp at hj
  | cons x xs ih =>
    rw [List.map_cons, List.find?_cons]
    by_cases hx : (entryOf S i set x).block = (entryOf S i set j).block
    · rcases List.mem_cons.1 hj with rfl | hjx
      · simp
      · rw [List.map_cons, List.map_cons, List.nodup_cons] at hn
        exact absurd (List.mem_map_of_mem (List.mem_map_of_mem hjx)) (hx ▸ hn.1)
    · have hjx : j ∈ xs := (List.mem_cons.1 hj).resolve_left fun h => hx (by rw [h])
      rw [beq_false_of_ne hx]
      exact ih (by simpa using (List.nodup_cons.1 hn).2) hjx

theorem eraseP_map_entryOf {S i : Nat} {set : CacheSet} {order : List Nat}
    (hn : ((order.map (entryOf S i set)).map Entry.block).Nodup) {j : Nat} (hj : j ∈ order) :
    (order.map (entryOf S i set)).eraseP (fun e => e.block == (entryOf S i set j).block) =
      (order.erase j).map (entryOf S i set) := by
  induction order with
  | nil => simp at hj
  | cons x xs ih =>
    by_cases hxj : x = j
    · rw [hxj, List.map_cons, List.erase_cons_head, List.eraseP_cons_of_pos (by simp)]
    · have hjx : j ∈ xs := (List.mem_cons.1 hj).resolve_left fun h => hxj h.symm
      have hx : (entryOf S i set x).block ≠ (entryOf S i set j).block := by
        intro hx
        rw [List.map_cons, List.map_cons, List.nodup_cons] at hn
        exact absurd (List.mem_map_of_mem (List.mem_map_of_mem hjx)) (hx ▸ hn.1)
      rw [List.map_cons, List.eraseP_cons_of_neg (by simpa using hx),
        List.erase_cons_tail (by simpa using hxj), List.map_cons,
        ih (by simpa using (List.nodup_cons.1 hn).2) hjx]

/-- Lines that were not touched stand for the entries they stood for. -/
theorem map_entryOf_putLine {S i : Nat} {set : CacheSet} {j : Nat} (l : CacheLine) (A : Nat)
    {order : List Nat} (hj : j ∉ order) :
    order.map (entryOf S i ((set.putLine j l).touch A j)) = order.map (entryOf S i set) := by
  refine List.map_congr_left fun x hx => ?_
  have hxj : x ≠ j := fun h => hj (h ▸ hx)
  simp [entryOf, CacheSet.touch, CacheSet.putLine, hxj]

namespace SetRefines

variable {A S i : Nat} {set : CacheSet} {order : List Nat} {es : List (Entry Nat)}

theorem lt (h : SetRefines A S i set order es) {j : Nat} (hj : j ∈ order) : j < A :=
  ((h.mem_iff j).1 hj).1

/-- Updating a line to a valid one and recording its use moves it to the front. -/
theorem touch (h : SetRefines A S i set order es) (hA : A ≤ 8) {j : Nat} (hj : j < A)
    {l : CacheLine} (hl : l.valid = true) :
    SetRefines A S i ((set.putLine j l).touch A j) (moveToFront j order)
      (⟨l.tag.toNat * S + i, l.dirty⟩ :: (order.erase j).map (entryOf S i set)) where
  nodup := nodup_moveToFront h.nodup
  mem_iff := by
    intro k
    rw [mem_moveToFront, h.mem_iff]
    by_cases hk : k = j
    · subst hk
      simp [CacheSet.touch, CacheSet.putLine, hj, hl]
    · simp [CacheSet.touch, CacheSet.putLine, hk]
  entries := by
    have hnot : j ∉ order.erase j := fun hm => (h.nodup.mem_erase_iff.1 hm).1 rfl
    rw [moveToFront, List.map_cons, map_entryOf_putLine l A hnot]
    simp [entryOf, CacheSet.touch, CacheSet.putLine]
  matrix := h.matrix.lru hA hj
  next := fun hlen => h.matrix.lru_fst hA hj h.nodup (fun _ => h.lt) hlen

/-- The line `find` returns is the one of the entry with that block. -/
theorem find_some (h : SetRefines A S i set order es) {t : Word} {j : Nat}
    (hf : set.find A t = some j) :
    j ∈ order ∧ (set.lines j).tag = t := by
  have hp := List.find?_some hf
  simp only [Bool.and_eq_true, beq_iff_eq] at hp
  have hj := List.mem_range.1 (List.mem_of_find?_eq_some hf)
  exact ⟨(h.mem_iff j).2 ⟨hj, hp.1⟩, hp.2⟩

theorem find_none (h : SetRefines A S i set order es) (hi : i < S) {t : Word}
    (hf : set.find A t = none) :
    es.find? (fun e => e.block == t.toNat * S + i) = none := by
  rw [h.entries, List.find?_eq_none]
  intro e he hb
  obtain ⟨j, hj, rfl⟩ := List.mem_map.1 he
  have hjm := (h.mem_iff j).1 hj
  have htag : (set.lines j).tag = t := by
    have heq : (set.lines j).tag.toNat * S + i = t.toNat * S + i := by simpa [entryOf] using hb
    exact BitVec.eq_of_toNat_eq (Nat.eq_of_mul_eq_mul_right (by omega) (Nat.add_right_cancel heq))
  have := List.find?_eq_none.1 hf j (List.mem_range.2 hjm.1)
  simp [hjm.2, htag] at this

/-- With an invalid line left, the set has room and that line is free. -/
theorem room (h : SetRefines A S i set order es) {j : Nat} (hj : j < A)
    (hv : (set.lines j).valid = false) : j ∉ order ∧ order.length < A := by
  have hnot : j ∉ order := fun hm => by
    have := ((h.mem_iff j).1 hm).2
    simp [hv] at this
  refine ⟨hnot, ?_⟩
  have hsub : (j :: order) ⊆ List.range A := by
    intro k hk
    rcases List.mem_cons.1 hk with rfl | hk
    · exact List.mem_range.2 hj
    · exact List.mem_range.2 (h.lt hk)
  have := (List.subperm_of_subset (List.nodup_cons.2 ⟨hnot, h.nodup⟩) hsub).length_le
  simpa using this

/-- With every line valid the set is full. -/
theorem full (h : SetRefines A S i set order es) (hv : ∀ j < A, (set.lines j).valid = true) :
    order.length = A := by
  have hperm : order.Perm (List.range A) := by
    refine (List.perm_ext_iff_of_nodup h.nodup List.nodup_range).2 fun j => ?_
    rw [h.mem_iff, List.mem_range]
    exact ⟨fun hj => hj.1, fun hj => ⟨hj, hv j hj⟩⟩
  rw [hperm.length_eq, List.length_range]

end SetRefines

/-! ## One access -/

/-- The line a store or a load leaves where it hits. -/
def CacheLine.hitLine (l : CacheLine) (operation : Operation) : CacheLine :=
  if operation = .write then { l with dirty := true } else l

/-- The line a miss leaves, filled by `access_data`. -/
def CacheLine.filled (l : CacheLine) (c : Cache) (addr : Word) (operation : Operation) :
    CacheLine :=
  { valid := true
    tag := tagOf c addr
    dirty := operation = .write
    data := memcpy l.data (fun _ => 0) c.B.toNat }

namespace SetRefines

variable {A S i : Nat} {c : Cache} {addr : Word} {order : List Nat} {es : List (Entry Nat)}

/-- An access that hits. -/
theorem accessData_hit (h : SetRefines A S i (getSet c addr) order es) (hcA : c.A.toNat = A)
    (hA : A ≤ 8) (hn : (es.map Entry.block).Nodup) (k : Counters) (operation : Operation)
    {j : Nat} (hf : (getSet c addr).find A (tagOf c addr) = some j) :
    ∃ set order', accessData c k addr operation = (c.putSet addr set,
        k.record (Lru.access A ((tagOf c addr).toNat * S + i) (operation = .write) es).1) ∧
      SetRefines A S i set order'
        (Lru.access A ((tagOf c addr).toNat * S + i) (operation = .write) es).2 := by
  obtain ⟨hj, htag⟩ := h.find_some hf
  have hjb : (entryOf S i (getSet c addr) j).block = (tagOf c addr).toNat * S + i := by
    rw [← htag]
    rfl
  rw [h.entries] at hn ⊢
  have hfind := find?_map_entryOf hn hj
  have herase := eraseP_map_entryOf hn hj
  rw [hjb] at hfind herase
  rw [Lru.access_hit hfind, herase]
  have htouch := h.touch hA (h.lt hj) (l := ((getSet c addr).lines j).hitLine operation)
    (by unfold CacheLine.hitLine; split <;> exact ((h.mem_iff j).1 hj).2)
  have hentry : (⟨(((getSet c addr).lines j).hitLine operation).tag.toNat * S + i,
        (((getSet c addr).lines j).hitLine operation).dirty⟩ : Entry Nat) =
      ⟨(tagOf c addr).toNat * S + i,
        (entryOf S i (getSet c addr) j).dirty || decide (operation = .write)⟩ := by
    cases operation <;> simp [entryOf, CacheLine.hitLine, ← htag]
  rw [hentry] at htouch
  refine ⟨_, moveToFront j order, ?_, htouch⟩
  simp only [accessData, checkHit, hcA, hf]
  rfl

/-- An access that misses in a set with an invalid line. -/
theorem accessData_room (h : SetRefines A S i (getSet c addr) order es) (hcA : c.A.toNat = A)
    (hA : A ≤ 8) (hi : i < S) (k : Counters) (operation : Operation)
    (hf : (getSet c addr).find A (tagOf c addr) = none) {j : Nat}
    (hinv : (List.range A).find? (fun j => !((getSet c addr).lines j).valid) = some j) :
    ∃ set order', accessData c k addr operation = (c.putSet addr set,
        k.record (Lru.access A ((tagOf c addr).toNat * S + i) (operation = .write) es).1) ∧
      SetRefines A S i set order'
        (Lru.access A ((tagOf c addr).toNat * S + i) (operation = .write) es).2 := by
  have hjA := List.mem_range.1 (List.mem_of_find?_eq_some hinv)
  have hjv : ((getSet c addr).lines j).valid = false := by
    simpa using List.find?_some hinv
  obtain ⟨hnot, hroom⟩ := h.room hjA hjv
  have hlen : es.length < A := by rwa [h.entries, List.length_map]
  rw [Lru.access_room (h.find_none hi hf) hlen]
  have htouch := h.touch hA hjA (l := ((getSet c addr).lines j).filled c addr operation) rfl
  rw [List.erase_of_not_mem hnot, ← h.entries] at htouch
  refine ⟨_, moveToFront j order, ?_, htouch⟩
  simp only [accessData, checkHit, hcA, hf, handleMiss, selectLine, hinv, hjv, Option.getD_none,
    Bool.false_eq_true, if_false]
  rfl

/-- An access that misses in a full set. -/
theorem accessData_full (h : SetRefines A S i (getSet c addr) order es) (hcA : c.A.toNat = A)
    (hA : A ≤ 8) (hi : i < S) (k : Counters) (operation : Operation)
    (hf : (getSet c addr).find A (tagOf c addr) = none)
    (hinv : (List.range A).find? (fun j => !((getSet c addr).lines j).valid) = none) :
    ∃ set order', accessData c k addr operation = (c.putSet addr set,
        k.record (Lru.access A ((tagOf c addr).toNat * S + i) (operation = .write) es).1) ∧
      SetRefines A S i set order'
        (Lru.access A ((tagOf c addr).toNat * S + i) (operation = .write) es).2 := by
  have hvalid : ∀ j < A, ((getSet c addr).lines j).valid = true := by
    intro j hj
    simpa using List.find?_eq_none.1 hinv j (List.mem_range.2 hj)
  have hfull := h.full hvalid
  have hlast := h.next hfull
  have hjA : (getSet c addr).nextLru < A := h.lt (List.mem_of_getLast? hlast)
  have hlen : ¬ es.length < A := by
    rw [h.entries, List.length_map]
    omega
  have hev : es.getLast? = some (entryOf S i (getSet c addr) (getSet c addr).nextLru) := by
    rw [h.entries, List.getLast?_map, hlast, Option.map_some]
  have hrot := moveToFront_getLast h.nodup hlast
  rw [moveToFront, List.cons.injEq] at hrot
  rw [Lru.access_full (h.find_none hi hf) hlen, hev]
  have htouch := h.touch hA hjA
    (l := ((getSet c addr).lines (getSet c addr).nextLru).filled c addr operation) rfl
  rw [hrot.2, List.map_dropLast, ← h.entries] at htouch
  refine ⟨_, moveToFront (getSet c addr).nextLru order, ?_, htouch⟩
  simp only [accessData, checkHit, hcA, hf, handleMiss, selectLine, hinv, hvalid _ hjA,
    Option.getD_none, if_true, ge_iff_le, Nat.not_le.2 hjA, if_false]
  rfl

/-- **One `access_data` is one access of the set it falls into.** -/
theorem accessData (h : SetRefines A S i (getSet c addr) order es) (hcA : c.A.toNat = A)
    (hA : A ≤ 8) (hi : i < S) (hn : (es.map Entry.block).Nodup) (k : Counters)
    (operation : Operation) :
    ∃ set order', accessData c k addr operation = (c.putSet addr set,
        k.record (Lru.access A ((tagOf c addr).toNat * S + i) (operation = .write) es).1) ∧
      SetRefines A S i set order'
        (Lru.access A ((tagOf c addr).toNat * S + i) (operation = .write) es).2 := by
  cases hf : (getSet c addr).find A (tagOf c addr) with
  | some j => exact h.accessData_hit hcA hA hn k operation hf
  | none =>
    cases hinv : (List.range A).find? fun j => !((getSet c addr).lines j).valid with
    | some j => exact h.accessData_room hcA hA hi k operation hf hinv
    | none => exact h.accessData_full hcA hA hi k operation hf hinv

end SetRefines

/-! ## The whole cache -/

/-- A cache and its counters do what the reference cache does. -/
structure CacheRefines (g : Geometry) (c : Cache) (k : Counters) (r : Reference g) : Prop where
  fits : c.Fits g
  sets : ∀ i < 2 ^ g.s, ∃ order, SetRefines g.A (2 ^ g.s) i (c.sets i) order (r.sets i).entries
  counts : k = r.counts

theorem cacheRefines_init (g : Geometry) :
    CacheRefines g g.cache .zero (.empty g) where
  fits := g.cache_fits
  sets := fun i _ => ⟨[], setRefines_fresh g.one_le_A _ i⟩
  counts := rfl

namespace CacheRefines

variable {g : Geometry} {c : Cache} {k : Counters} {r : Reference g}

/-- Replacing the set of an address keeps the connection if the new set matches. -/
theorem putSet (h : CacheRefines g c k r) {addr : Word} {set : CacheSet} {rs : RefSet g.A}
    (order : List Nat) {k' : Counters}
    (hset : SetRefines g.A (2 ^ g.s) (setIndex c addr).toNat set order rs.entries) :
    CacheRefines g (c.putSet addr set) k'
      ⟨Function.update r.sets (setIndex c addr).toNat rs, k'⟩ where
  fits := ⟨h.fits.A, h.fits.B, h.fits.C, h.fits.d⟩
  sets := by
    intro i hi
    by_cases hii : i = (setIndex c addr).toNat
    · subst hii
      exact ⟨order, by simpa [Cache.putSet] using hset⟩
    · obtain ⟨o, ho⟩ := h.sets i hi
      exact ⟨o, by simpa [Cache.putSet, hii] using ho⟩
  counts := rfl

/-- One `access_data` does what one access of the reference cache does. -/
theorem accessData (h : CacheRefines g c k r) (addr : Word) (operation : Operation) :
    CacheRefines g (accessData c k addr operation).1 (accessData c k addr operation).2
      (r.access addr operation) := by
  have hidx : (setIndex c addr).toNat = g.blockNum addr % 2 ^ g.s := h.fits.setIndex_toNat addr
  have hlt : (setIndex c addr).toNat < 2 ^ g.s := h.fits.setIndex_lt addr
  have hblock : (tagOf c addr).toNat * 2 ^ g.s + (setIndex c addr).toNat = g.blockNum addr := by
    rw [h.fits.tagOf_toNat, hidx, Nat.div_add_mod']
  obtain ⟨order, ho⟩ := h.sets _ hlt
  change SetRefines g.A (2 ^ g.s) (setIndex c addr).toNat (getSet c addr) order _ at ho
  obtain ⟨set, order', hcode, hset⟩ :=
    ho.accessData h.fits.A_toNat g.A_le hlt (r.sets _).nodup k operation
  rw [hblock] at hcode hset
  have hacc : r.access addr operation =
      ⟨Function.update r.sets (setIndex c addr).toNat
          ((r.sets (setIndex c addr).toNat).access g.one_le_A (g.blockNum addr)
            (operation = .write)).2,
        r.counts.record ((r.sets (setIndex c addr).toNat).access g.one_le_A (g.blockNum addr)
            (operation = .write)).1⟩ := by
    rw [hidx]
    rfl
  rw [hcode, hacc, h.counts]
  exact h.putSet order' hset

/-- Any sequence of accesses keeps the connection. -/
theorem foldl_accessData (as : List (Word × Operation)) (h : CacheRefines g c k r) :
    let s := as.foldl (fun s a => ChArm.accessData s.1 s.2 a.1 a.2) (c, k)
    CacheRefines g s.1 s.2 (as.foldl (fun r a => r.access a.1 a.2) r) := by
  induction as generalizing c k r with
  | nil => exact h
  | cons a as ih => exact ih (h.accessData a.1 a.2)

end CacheRefines

/-- **The cache simulator is a true LRU write-back cache**: after any trace its four
counters are those of the reference cache. -/
theorem replayTrace_counts (g : Geometry) (trace : List TraceLine) :
    (replayTrace g.cache .zero trace).2 = ((Reference.empty g).replayTrace trace).counts :=
  ((cacheRefines_init g).foldl_accessData (trace.flatMap TraceLine.accesses)).counts

end ChArm
