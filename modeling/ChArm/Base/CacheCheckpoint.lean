import ChArm.Base.CacheHeap

/-!
# A cache and its checkpoint in memory

`create_cache` and `create_checkpoint` take blocks no other cache has.  So a
session with a cache and one with its checkpoint do not disturb each other; that
they get the same replies hangs on the order in which the lines were used.

* `checkpointFaithful_iff` — for a cache in memory and any interleaving of two sessions.
* `createCheckpoint_faithful_iff` — after any calls on a cache that `create_cache` made.
-/

namespace ChArm

open Sessions

namespace Heap

/-! ## New blocks -/

section

variable (h : Heap) (c : Cache)

theorem set_alloc (i : Nat) :
    (h.alloc c).2.set (h.alloc c).1 i =
      ⟨h.lineArrayCount + i, (c.sets i).lruMatrix, (c.sets i).nextLru⟩ := by
  simp only [set, alloc, Function.update_self]

theorem line_alloc (i j : Nat) :
    (h.alloc c).2.line (h.alloc c).1 i j =
      ⟨((c.sets i).lines j).valid, ((c.sets i).lines j).tag, ((c.sets i).lines j).dirty,
        h.bufferCount + (i * c.A.toNat + j)⟩ := by
  rw [line, set_alloc]
  simp [alloc]

theorem buffer_alloc {j : Nat} (hj : j < c.A.toNat) (i : Nat) :
    (h.alloc c).2.buffer (h.alloc c).1 i j = ((c.sets i).lines j).data := by
  have hdiv : (i * c.A.toNat + j) / c.A.toNat = i := by
    rw [Nat.mul_comm, Nat.mul_add_div (by omega), Nat.div_eq_of_lt hj, Nat.add_zero]
  have hmod : (i * c.A.toNat + j) % c.A.toNat = j := by
    rw [Nat.mul_add_mod', Nat.mod_eq_of_lt hj]
  rw [buffer, line_alloc]
  simp [alloc, hdiv, hmod]

/-- The new blocks hold what was put into them. -/
theorem view_alloc (hc : c.InArrays) : (h.alloc c).2.view (h.alloc c).1 = c := by
  have hline : ∀ i, ∀ j < c.A.toNat,
      (h.alloc c).2.viewLine (h.alloc c).1 i j = (c.sets i).lines j := by
    intro i j hj
    rw [viewLine, line_alloc, buffer_alloc h c hj]
    refine congrArg (CacheLine.mk _ _ _) (funext fun k => ?_)
    by_cases hk : k < c.B.toNat
    · exact if_pos hk
    · rw [hc.data i j k (by omega)]
      exact if_neg hk
  have hset : ∀ i, (h.alloc c).2.viewSet (h.alloc c).1 i = c.sets i := by
    intro i
    rw [viewSet, set_alloc]
    refine congrArg (fun f => CacheSet.mk f _ _) (funext fun j => ?_)
    by_cases hj : j < c.A.toNat
    · exact (if_pos hj).trans (hline i j hj)
    · rw [hc.lines i j (by omega)]
      exact if_neg hj
  refine congrArg (fun f => Cache.mk f c.A c.B c.C c.d) (funext fun i => ?_)
  by_cases hi : i < c.S.toNat
  · exact (if_pos hi).trans (hset i)
  · rw [hc.sets i (by omega)]
    exact if_neg hi

/-- No block is given out twice. -/
theorem owns_alloc : (h.alloc c).2.Owns (h.alloc c).1 where
  lines := by
    intro i _ i' _ he
    rw [set_alloc, set_alloc] at he
    exact Nat.add_left_cancel he
  data := by
    intro i _ j hj i' _ j' hj' he
    change j < c.A.toNat at hj
    change j' < c.A.toNat at hj'
    rw [line_alloc, line_alloc] at he
    have hpos := Nat.add_left_cancel he
    have hdiv := congrArg (· / c.A.toNat) hpos
    have hmod := congrArg (· % c.A.toNat) hpos
    simp only [Nat.mul_add_mod', Nat.mod_eq_of_lt hj, Nat.mod_eq_of_lt hj'] at hmod
    simp only [Nat.mul_comm _ c.A.toNat, Nat.mul_add_div (Nat.zero_lt_of_lt hj),
      Nat.div_eq_of_lt hj, Nat.div_eq_of_lt hj', Nat.add_zero] at hdiv
    exact ⟨hdiv, hmod⟩

/-- The new blocks are in use from now on. -/
theorem inUse_alloc : (h.alloc c).2.InUse (h.alloc c).1 where
  sets := Nat.lt_succ_self _
  lines := by
    intro i hi
    rw [set_alloc]
    exact Nat.add_lt_add_left hi _
  data := by
    intro i hi j hj
    change i < c.S.toNat at hi
    change j < c.A.toNat at hj
    rw [line_alloc]
    refine Nat.add_lt_add_left ?_ _
    calc i * c.A.toNat + j < (i + 1) * c.A.toNat := by rw [Nat.add_one_mul]; omega
      _ ≤ c.S.toNat * c.A.toNat := Nat.mul_le_mul_right _ hi

section

variable {h} {q : CacheStruct} (hu : h.InUse q)
include hu

theorem set_alloc_inUse (i : Nat) : (h.alloc c).2.set q i = h.set q i := by
  rw [set, alloc]
  simp only [Function.update_of_ne hu.sets.ne]
  rfl

theorem line_alloc_inUse {i : Nat} (hi : i < q.S) (j : Nat) :
    (h.alloc c).2.line q i j = h.line q i j := by
  rw [line, set_alloc_inUse c hu]
  exact congrFun (if_pos (hu.lines i hi)) j

theorem buffer_alloc_inUse {i j : Nat} (hi : i < q.S) (hj : j < q.A.toNat) :
    (h.alloc c).2.buffer q i j = h.buffer q i j := by
  rw [buffer, line_alloc_inUse c hu hi]
  exact if_pos (hu.data i hi j hj)

/-- The blocks in use stay as they are. -/
theorem view_alloc_inUse : (h.alloc c).2.view q = h.view q :=
  view_congr (fun i _ => set_alloc_inUse c hu i) (fun _ hi j _ => line_alloc_inUse c hu hi j)
    fun _ hi _ hj => buffer_alloc_inUse c hu hi hj

theorem owns_alloc_inUse (ho : h.Owns q) : (h.alloc c).2.Owns q where
  lines := by
    intro i hi i' hi'
    rw [set_alloc_inUse c hu, set_alloc_inUse c hu]
    exact ho.lines i hi i' hi'
  data := by
    intro i hi j hj i' hi' j' hj'
    rw [line_alloc_inUse c hu hi, line_alloc_inUse c hu hi']
    exact ho.data i hi j hj i' hi' j' hj'

/-- The new blocks are not among them. -/
theorem apart_alloc : (h.alloc c).2.Apart (h.alloc c).1 q where
  sets := hu.sets.ne
  lines := by
    intro i hi i' _
    have hlt := hu.lines i hi
    rw [set_alloc_inUse c hu, set_alloc]
    dsimp only
    omega
  data := by
    intro i hi j hj i' _ j' _
    have hlt := hu.data i hi j hj
    rw [line_alloc_inUse c hu hi, line_alloc]
    dsimp only
    omega

end

end

/-! ## A cache and its checkpoint -/

/-- Sessions with a checkpoint get the replies that sessions with the original get, and a session
with the one leaves the other as it was. -/
def CheckpointFaithful (h : Heap) (p : CacheStruct) : Prop :=
  let q := (h.createCheckpoint p).1
  let h' := (h.createCheckpoint p).2
  ∀ calls,
    (session (call q) h' calls).1 = (session (call p) h' calls).1 ∧
      (session (call q) h' calls).2.view p = h'.view p ∧
      (session (call p) h' calls).2.view q = h'.view q

theorem inArrays_view (h : Heap) (p : CacheStruct) : (h.view p).InArrays :=
  .of_ite rfl fun _ _ _ hk => if_neg (Nat.not_lt.2 hk)

section

variable {g : Geometry} {p : CacheStruct} {h : Heap}

/-- What memory holds after `create_checkpoint`. -/
theorem holds_createCheckpoint (hf : (h.view p).Fits g) (ho : h.Owns p) (hu : h.InUse p) :
    Holds g p (h.createCheckpoint p).2 (h.view p, h.counts) ∧
      Holds g (h.createCheckpoint p).1 (h.createCheckpoint p).2
        (ChArm.createCheckpoint (h.view p), h.counts) := by
  have hview := view_alloc_inUse (ChArm.createCheckpoint (h.view p)) hu
  have hcopy := view_alloc h _ (inArrays_createCheckpoint (h.view p))
  refine ⟨⟨?_, owns_alloc_inUse _ hu ho, hview, rfl⟩, ⟨?_, owns_alloc h _, hcopy, rfl⟩⟩
  · exact hview.symm ▸ hf
  · exact hcopy.symm ▸ ⟨hf.A, hf.B, hf.C, hf.d⟩

/-- **A checkpoint** is faithful exactly when the lines of the original were used by index. -/
theorem checkpointFaithful_iff (hs : (h.view p).Sound g) (ho : h.Owns p) (hu : h.InUse p) :
    h.CheckpointFaithful p ↔ (h.view p).UsedByIndex := by
  obtain ⟨hp, hq⟩ := holds_createCheckpoint hs.fits ho hu
  have hapart : (h.createCheckpoint p).2.Apart (h.createCheckpoint p).1 p := apart_alloc _ hu
  rw [← hs.createCheckpoint_indistinguishable_iff (inArrays_view h p) h.counts h.counts]
  constructor
  · intro hfaith calls
    rw [← (session_holds hp calls).1, ← (session_holds hq calls).1]
    exact (hfaith calls).1.symm
  · intro hind calls
    refine ⟨?_, (session_writes hq.fits calls).view_eq hapart,
      (session_writes hp.fits calls).view_eq hapart.symm⟩
    rw [(session_holds hp calls).1, (session_holds hq calls).1]
    exact (hind calls).symm

end

end Heap

/-- The cache a `create_cache` of the geometry makes, and the memory after calls on it. -/
def Geometry.reached (g : Geometry) (h : Heap) (before : List Call) : CacheStruct × Heap :=
  let made := h.createCache (BitVec.ofNat 32 g.A) (BitVec.ofNat 32 g.B) (BitVec.ofNat 32 g.C)
    (BitVec.ofNat 32 g.d)
  (made.1, (session (Heap.call made.1) made.2 before).2)

/-- **Checkpoints.**  After any calls on a cache its checkpoint behaves like the original, and
apart from it, exactly when in every set the valid lines were last used in the order of their
indices. -/
theorem createCheckpoint_faithful_iff (g : Geometry) (h : Heap) (before : List Call) :
    (g.reached h before).2.CheckpointFaithful (g.reached h before).1 ↔
      ((g.reached h before).2.view (g.reached h before).1).UsedByIndex := by
  have hmade := Heap.view_alloc h g.cache ⟨fun _ _ => rfl, fun _ _ _ => rfl, fun _ _ _ _ => rfl⟩
  have hholds : Heap.Holds g (h.alloc g.cache).1 (h.alloc g.cache).2 (g.cache, h.counts) :=
    ⟨hmade.symm ▸ g.cache_fits, Heap.owns_alloc h _, hmade, rfl⟩
  have hwrites := Heap.session_writes hholds.fits before
  have hafter := (Heap.session_holds hholds before).2
  have hsound : (session Cache.call (g.cache, h.counts) before).2.1.Sound g :=
    Cache.Sound.of_session g.cache_sound before
  rw [← hafter.view] at hsound
  exact Heap.checkpointFaithful_iff hsound hafter.owns (hwrites.inUse (Heap.inUse_alloc h _))

/-- Memory with no block in use. -/
def Heap.empty : Heap where
  setArrays := fun _ _ => ⟨0, 0, 0⟩
  lineArrays := fun _ _ => ⟨false, 0, false, 0⟩
  buffers := fun _ _ => 0
  setArrayCount := 0
  lineArrayCount := 0
  bufferCount := 0
  counts := .zero

/-- The block that leaves a cache with the first reply of a session. -/
def firstEvicted : List (Except Abort Reply) → Option Word
  | .ok (.evicted line) :: _ => some line.blockAddr
  | _ => none

/-- Blocks 0 and 8 are brought in and block 0 is used again: the next miss takes block 8 from the
cache and block 0 from its checkpoint. -/
theorem not_createCheckpoint_faithful :
    ¬ ∀ (g : Geometry) (h : Heap) (before : List Call),
      (g.reached h before).2.CheckpointFaithful (g.reached h before).1 := by
  intro hclaim
  have hreplies := (hclaim .twoWays .empty
    [.checkHit 0 .read, .handleMiss 0 .read none, .checkHit 8 .read, .handleMiss 8 .read none,
      .checkHit 0 .read] [.handleMiss 16 .read none]).1
  have hevicted := congrArg firstEvicted hreplies
  revert hevicted
  decide +kernel

end ChArm
