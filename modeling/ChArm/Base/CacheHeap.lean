import ChArm.Base.CacheCopy

/-!
# Caches in memory

A `cache_t` points to its array of sets, every set to its array of lines and
every line to its buffer.  Here these are numbered blocks of a `Heap`, `view` reads a
cache back from them, and the functions of `cache.c` write through the pointers.
Where a cache shares no block with itself (`Owns`), they do what the
functions on caches do (`Heap.call_alike`); a cache that shares none with it does not
change (`Heap.Writes.view_eq`).  Both hold for a cache and its checkpoint.

* `Heap.Writes.view_eq` — the frame rule.
* `Holds.call` — one call in memory gets the reply that it gets on the cache.
* `session_holds` — so does a whole session, and it writes to its cache only.
-/

namespace ChArm

open Sessions

/-- `cache_line_t` in memory. -/
structure LineCell where
  valid : Bool
  tag : Word
  dirty : Bool
  data : Nat

/-- `cache_set_t` in memory. -/
structure SetCell where
  lines : Nat
  lruMatrix : Word
  nextLru : Nat

/-- `cache_t` in memory. -/
structure CacheStruct where
  sets : Nat
  A : BitVec 32
  B : BitVec 32
  C : BitVec 32
  d : BitVec 32

/-- The blocks that hold set arrays, line arrays and buffers, how many of each are in use, and the
statistics counters. -/
structure Heap where
  setArrays : Nat → Nat → SetCell
  lineArrays : Nat → Nat → LineCell
  buffers : Nat → Nat → Byte
  setArrayCount : Nat
  lineArrayCount : Nat
  bufferCount : Nat
  counts : Counters

/-- The number of sets. -/
def CacheStruct.S (p : CacheStruct) : Nat := (p.C / (p.A * p.B)).toNat

namespace Heap

/-! ## Reading -/

/-- `cache->sets[i]`. -/
def set (h : Heap) (p : CacheStruct) (i : Nat) : SetCell := h.setArrays p.sets i

/-- `cache->sets[i].lines[j]`. -/
def line (h : Heap) (p : CacheStruct) (i j : Nat) : LineCell := h.lineArrays (h.set p i).lines j

/-- `cache->sets[i].lines[j].data`. -/
def buffer (h : Heap) (p : CacheStruct) (i j : Nat) : Nat → Byte := h.buffers (h.line p i j).data

/-- The line that is in memory. -/
def viewLine (h : Heap) (p : CacheStruct) (i j : Nat) : CacheLine where
  valid := (h.line p i j).valid
  tag := (h.line p i j).tag
  dirty := (h.line p i j).dirty
  data := fun k => if k < p.B.toNat then h.buffer p i j k else 0

/-- The set that is in memory. -/
def viewSet (h : Heap) (p : CacheStruct) (i : Nat) : CacheSet where
  lines := fun j => if j < p.A.toNat then h.viewLine p i j else .fresh
  lruMatrix := (h.set p i).lruMatrix
  nextLru := (h.set p i).nextLru

/-- The cache that is in memory. -/
def view (h : Heap) (p : CacheStruct) : Cache where
  sets := fun i => if i < p.S then h.viewSet p i else .fresh
  A := p.A
  B := p.B
  C := p.C
  d := p.d

/-! ## Writing -/

/-- Store the replacement state of a set. -/
def writeSet (h : Heap) (p : CacheStruct) (i : Nat) (matrix : Word) (next : Nat) : Heap :=
  { h with
    setArrays := Function.update h.setArrays p.sets (Function.update (h.setArrays p.sets) i
      { h.set p i with lruMatrix := matrix, nextLru := next }) }

/-- Store the marks of a line. -/
def writeLine (h : Heap) (p : CacheStruct) (i j : Nat) (valid : Bool) (tag : Word)
    (dirty : Bool) : Heap :=
  { h with
    lineArrays := Function.update h.lineArrays (h.set p i).lines
      (Function.update (h.lineArrays (h.set p i).lines) j
        { h.line p i j with valid := valid, tag := tag, dirty := dirty }) }

/-- Store the bytes of a line. -/
def writeBuffer (h : Heap) (p : CacheStruct) (i j : Nat) (data : Nat → Byte) : Heap :=
  { h with buffers := Function.update h.buffers (h.line p i j).data data }

/-- `set->next_lru = lru(A, j, &set->lru_matrix)`. -/
def touch (h : Heap) (p : CacheStruct) (i j : Nat) : Heap :=
  h.writeSet p i (lru p.A.toNat j (h.set p i).lruMatrix).2
    (lru p.A.toNat j (h.set p i).lruMatrix).1

/-- `check_hit`. -/
def checkHit (h : Heap) (p : CacheStruct) (addr : Word) (operation : Operation) : Bool × Heap :=
  let i := (setIndex (h.view p) addr).toNat
  match getLine (h.view p) addr with
  | some j =>
      let h := { h with counts := { h.counts with hitCount := h.counts.hitCount + 1 } }
      let h := if operation = .write then
          h.writeLine p i j (h.line p i j).valid (h.line p i j).tag true
        else h
      (true, h.touch p i j)
  | none =>
      (false, { h with counts := { h.counts with missCount := h.counts.missCount + 1 } })

/-- What `handle_miss` tells of the line that goes. -/
def evictedLine (h : Heap) (p : CacheStruct) (addr : Word) (j : Nat) : EvictedLine :=
  let c := h.view p
  let i := (setIndex c addr).toNat
  { valid := (h.line p i j).valid
    dirty := (h.line p i j).dirty
    blockAddr := (((h.line p i j).tag <<< c.s) ||| setIndex c addr) <<< c.b
    data := memcpy (fun _ => 0) (h.buffer p i j) p.B.toNat }

/-- Count an eviction as `handle_miss` does. -/
def countEviction (h : Heap) (p : CacheStruct) (i j : Nat) : Heap :=
  { h with
    counts :=
      if (h.line p i j).valid then
        if (h.line p i j).dirty then
          { h.counts with dirtyEvictionCount := h.counts.dirtyEvictionCount + 1 }
        else { h.counts with cleanEvictionCount := h.counts.cleanEvictionCount + 1 }
      else h.counts }

/-- Fill a line as `handle_miss` does. -/
def fill (h : Heap) (p : CacheStruct) (i j : Nat) (tag : Word) (dirty : Bool)
    (incoming : Option (Nat → Byte)) : Heap :=
  (h.writeLine p i j true tag dirty).writeBuffer p i j
    (memcpy (h.buffer p i j) (incoming.getD fun _ => 0) p.B.toNat)

/-- `handle_miss`. -/
def handleMiss (h : Heap) (p : CacheStruct) (addr : Word) (operation : Operation)
    (incoming : Option (Nat → Byte)) : EvictedLine × Heap :=
  let c := h.view p
  let i := (setIndex c addr).toNat
  let (j, set) := selectLine (getSet c addr) p.A.toNat
  let h := h.writeSet p i set.lruMatrix set.nextLru
  (h.evictedLine p addr j,
    ((h.countEviction p i j).fill p i j (tagOf c addr) (operation = .write) incoming).touch p i j)

/-- `get_word_cache`. -/
def getWordCache (h : Heap) (p : CacheStruct) (addr : Word) : Except Abort Word :=
  let c := h.view p
  match getLine c addr with
  | none => .error .nullDeref
  | some j =>
      if blockOffset c addr + 8 ≤ p.B.toNat then
        .ok (leValue (fun k =>
          h.buffer p (setIndex c addr).toNat j (blockOffset c addr + k)) 8)
      else .error .outOfBounds

/-- `set_word_cache`. -/
def setWordCache (h : Heap) (p : CacheStruct) (addr val : Word) : Except Abort Heap :=
  let c := h.view p
  let i := (setIndex c addr).toNat
  match getLine c addr with
  | none => .error .nullDeref
  | some j =>
      if blockOffset c addr + 8 ≤ p.B.toNat then
        let h := h.writeBuffer p i j (putWord64 (h.buffer p i j) (blockOffset c addr) val)
        .ok (h.writeLine p i j (h.line p i j).valid (h.line p i j).tag true)
      else .error .outOfBounds

/-- One call on the cache of a `cache_t`. -/
def call (p : CacheStruct) (h : Heap) : Call → Except Abort (Reply × Heap)
  | .checkHit addr operation =>
      .ok (.hit (h.checkHit p addr operation).1, (h.checkHit p addr operation).2)
  | .handleMiss addr operation incoming =>
      .ok (.evicted (h.handleMiss p addr operation incoming).1,
        (h.handleMiss p addr operation incoming).2)
  | .getWord addr => (h.getWordCache p addr).map fun val => (.word val, h)
  | .setWord addr val => (h.setWordCache p addr val).map fun h => (.stored, h)

/-! ## Allocating -/

/-- The loops of `create_cache` and `create_checkpoint`: new blocks, numbered in the order in which
`calloc` gives them out, with the contents of `c`. -/
def alloc (h : Heap) (c : Cache) : CacheStruct × Heap :=
  (⟨h.setArrayCount, c.A, c.B, c.C, c.d⟩,
    { h with
      setArrays := Function.update h.setArrays h.setArrayCount fun i =>
        ⟨h.lineArrayCount + i, (c.sets i).lruMatrix, (c.sets i).nextLru⟩
      lineArrays := fun a =>
        if a < h.lineArrayCount then h.lineArrays a
        else fun j =>
          let i := a - h.lineArrayCount
          let line := (c.sets i).lines j
          ⟨line.valid, line.tag, line.dirty, h.bufferCount + (i * c.A.toNat + j)⟩
      buffers := fun a =>
        if a < h.bufferCount then h.buffers a
        else
          let n := a - h.bufferCount
          ((c.sets (n / c.A.toNat)).lines (n % c.A.toNat)).data
      setArrayCount := h.setArrayCount + 1
      lineArrayCount := h.lineArrayCount + c.S.toNat
      bufferCount := h.bufferCount + c.S.toNat * c.A.toNat })

/-- `create_cache`. -/
def createCache (h : Heap) (A B C d : BitVec 32) : CacheStruct × Heap :=
  h.alloc (ChArm.createCache A B C d)

/-- `create_checkpoint`. -/
def createCheckpoint (h : Heap) (p : CacheStruct) : CacheStruct × Heap :=
  h.alloc (ChArm.createCheckpoint (h.view p))

/-! ## What a call leaves alone -/

/-- Nothing was written but the counters and cells of a cache, and in those no pointer. -/
structure Writes (p : CacheStruct) (h h' : Heap) : Prop where
  linesPtr : ∀ a i, (h'.setArrays a i).lines = (h.setArrays a i).lines
  dataPtr : ∀ a j, (h'.lineArrays a j).data = (h.lineArrays a j).data
  setArrayCount : h'.setArrayCount = h.setArrayCount
  lineArrayCount : h'.lineArrayCount = h.lineArrayCount
  bufferCount : h'.bufferCount = h.bufferCount
  setArrays : ∀ a, a ≠ p.sets → h'.setArrays a = h.setArrays a
  lineArrays : ∀ a, (∀ i < p.S, a ≠ (h.set p i).lines) → h'.lineArrays a = h.lineArrays a
  buffers : ∀ a, (∀ i < p.S, ∀ j < p.A.toNat, a ≠ (h.line p i j).data) →
    h'.buffers a = h.buffers a

namespace Writes

variable {p : CacheStruct} {h h' h'' : Heap}

theorem refl (p : CacheStruct) (h : Heap) : Writes p h h :=
  ⟨fun _ _ => rfl, fun _ _ => rfl, rfl, rfl, rfl, fun _ _ => rfl, fun _ _ => rfl, fun _ _ => rfl⟩

theorem set_lines (w : Writes p h h') (q : CacheStruct) (i : Nat) :
    (h'.set q i).lines = (h.set q i).lines := w.linesPtr q.sets i

theorem line_data (w : Writes p h h') (q : CacheStruct) (i j : Nat) :
    (h'.line q i j).data = (h.line q i j).data := by
  rw [line, w.set_lines, w.dataPtr]
  rfl

theorem trans (w : Writes p h h') (w' : Writes p h' h'') : Writes p h h'' where
  linesPtr := fun a i => (w'.linesPtr a i).trans (w.linesPtr a i)
  dataPtr := fun a j => (w'.dataPtr a j).trans (w.dataPtr a j)
  setArrayCount := w'.setArrayCount.trans w.setArrayCount
  lineArrayCount := w'.lineArrayCount.trans w.lineArrayCount
  bufferCount := w'.bufferCount.trans w.bufferCount
  setArrays := fun a ha => (w'.setArrays a ha).trans (w.setArrays a ha)
  lineArrays := fun a ha =>
    (w'.lineArrays a fun i hi => by rw [w.set_lines]; exact ha i hi).trans (w.lineArrays a ha)
  buffers := fun a ha =>
    (w'.buffers a fun i hi j hj => by rw [w.line_data]; exact ha i hi j hj).trans
      (w.buffers a ha)

theorem counts (p : CacheStruct) (h : Heap) (k : Counters) : Writes p h { h with counts := k } :=
  ⟨fun _ _ => rfl, fun _ _ => rfl, rfl, rfl, rfl, fun _ _ => rfl, fun _ _ => rfl, fun _ _ => rfl⟩

theorem writeSet (p : CacheStruct) (h : Heap) (i : Nat) (matrix : Word) (next : Nat) :
    Writes p h (h.writeSet p i matrix next) := by
  refine ⟨fun a n => ?_, fun _ _ => rfl, rfl, rfl, rfl, fun a ha => ?_, fun _ _ => rfl,
    fun _ _ => rfl⟩
  · simp only [Heap.writeSet, Function.update_apply]
    by_cases ha : a = p.sets
    · subst ha
      rw [if_pos rfl, Function.update_apply]
      by_cases hn : n = i
      · subst hn
        rw [if_pos rfl]
        rfl
      · rw [if_neg hn]
    · rw [if_neg ha]
  · exact Function.update_of_ne ha _ _

theorem writeLine (p : CacheStruct) (h : Heap) {i : Nat} (hi : i < p.S) (j : Nat) (valid : Bool)
    (tag : Word) (dirty : Bool) : Writes p h (h.writeLine p i j valid tag dirty) := by
  refine ⟨fun _ _ => rfl, fun a n => ?_, rfl, rfl, rfl, fun _ _ => rfl, fun a ha => ?_,
    fun _ _ => rfl⟩
  · simp only [Heap.writeLine, Function.update_apply]
    by_cases ha : a = (h.set p i).lines
    · subst ha
      rw [if_pos rfl, Function.update_apply]
      by_cases hn : n = j
      · subst hn
        rw [if_pos rfl]
        rfl
      · rw [if_neg hn]
    · rw [if_neg ha]
  · exact Function.update_of_ne (ha i hi) _ _

theorem writeBuffer (p : CacheStruct) (h : Heap) {i j : Nat} (hi : i < p.S) (hj : j < p.A.toNat)
    (data : Nat → Byte) : Writes p h (h.writeBuffer p i j data) := by
  refine ⟨fun _ _ => rfl, fun _ _ => rfl, rfl, rfl, rfl, fun _ _ => rfl, fun _ _ => rfl,
    fun a ha => ?_⟩
  exact Function.update_of_ne (ha i hi j hj) _ _

theorem countEviction (p : CacheStruct) (h : Heap) (i j : Nat) :
    Writes p h (h.countEviction p i j) := .counts p h _

theorem fill (p : CacheStruct) (h : Heap) {i j : Nat} (hi : i < p.S) (hj : j < p.A.toNat)
    (tag : Word) (dirty : Bool) (incoming : Option (Nat → Byte)) :
    Writes p h (h.fill p i j tag dirty incoming) :=
  (writeLine p h hi j true tag dirty).trans (writeBuffer p _ hi hj _)

end Writes

/-- No two lines of a cache share a block. -/
structure Owns (h : Heap) (p : CacheStruct) : Prop where
  lines : ∀ i < p.S, ∀ i' < p.S, (h.set p i).lines = (h.set p i').lines → i = i'
  data : ∀ i < p.S, ∀ j < p.A.toNat, ∀ i' < p.S, ∀ j' < p.A.toNat,
    (h.line p i j).data = (h.line p i' j').data → i = i' ∧ j = j'

/-- Two caches share no block. -/
structure Apart (h : Heap) (p q : CacheStruct) : Prop where
  sets : q.sets ≠ p.sets
  lines : ∀ i < q.S, ∀ i' < p.S, (h.set q i).lines ≠ (h.set p i').lines
  data : ∀ i < q.S, ∀ j < q.A.toNat, ∀ i' < p.S, ∀ j' < p.A.toNat,
    (h.line q i j).data ≠ (h.line p i' j').data

/-- A cache lies in the blocks in use. -/
structure InUse (h : Heap) (p : CacheStruct) : Prop where
  sets : p.sets < h.setArrayCount
  lines : ∀ i < p.S, (h.set p i).lines < h.lineArrayCount
  data : ∀ i < p.S, ∀ j < p.A.toNat, (h.line p i j).data < h.bufferCount

theorem Apart.symm {h : Heap} {p q : CacheStruct} (ha : h.Apart p q) : h.Apart q p :=
  ⟨ha.sets.symm, fun i hi i' hi' => (ha.lines i' hi' i hi).symm,
    fun i hi j hj i' hi' j' hj' => (ha.data i' hi' j' hj' i hi j hj).symm⟩

/-- A view reads the cells of its cache. -/
theorem view_congr {h h' : Heap} {q : CacheStruct} (hset : ∀ i < q.S, h'.set q i = h.set q i)
    (hline : ∀ i < q.S, ∀ j < q.A.toNat, h'.line q i j = h.line q i j)
    (hbuffer : ∀ i < q.S, ∀ j < q.A.toNat, h'.buffer q i j = h.buffer q i j) :
    h'.view q = h.view q := by
  refine congrArg (fun f => Cache.mk f q.A q.B q.C q.d) (funext fun i => ?_)
  by_cases hi : i < q.S
  · rw [if_pos hi, if_pos hi, viewSet, viewSet, hset i hi]
    refine congrArg (fun f => CacheSet.mk f _ _) (funext fun j => ?_)
    by_cases hj : j < q.A.toNat
    · rw [if_pos hj, if_pos hj, viewLine, viewLine, hline i hi j hj, hbuffer i hi j hj]
    · rw [if_neg hj, if_neg hj]
  · rw [if_neg hi, if_neg hi]

namespace Writes

variable {p q : CacheStruct} {h h' : Heap}

theorem owns (w : Writes p h h') (ho : h.Owns q) : h'.Owns q := by
  refine ⟨fun i hi i' hi' => ?_, fun i hi j hj i' hi' j' hj' => ?_⟩
  · rw [w.set_lines, w.set_lines]
    exact ho.lines i hi i' hi'
  · rw [w.line_data, w.line_data]
    exact ho.data i hi j hj i' hi' j' hj'

theorem inUse (w : Writes p h h') (hu : h.InUse q) : h'.InUse q := by
  refine ⟨w.setArrayCount ▸ hu.sets, fun i hi => ?_, fun i hi j hj => ?_⟩
  · rw [w.set_lines, w.lineArrayCount]
    exact hu.lines i hi
  · rw [w.line_data, w.bufferCount]
    exact hu.data i hi j hj

/-- **Frame.**  A cache that shares no block with the one written to stays as it was. -/
theorem view_eq (w : Writes p h h') (ha : h.Apart p q) : h'.view q = h.view q := by
  have hset : ∀ i, h'.set q i = h.set q i :=
    fun i => congrFun (w.setArrays q.sets ha.sets) i
  have hline : ∀ i < q.S, ∀ j, h'.line q i j = h.line q i j := by
    intro i hi j
    rw [line, line, hset, w.lineArrays _ (ha.lines i hi)]
  refine view_congr (fun i _ => hset i) (fun i hi j _ => hline i hi j) fun i hi j hj => ?_
  rw [buffer, buffer, hline i hi, w.buffers _ (ha.data i hi j hj)]

end Writes

/-! ## What a write does to the cache written to -/

section

variable {p : CacheStruct} {h h' : Heap}

theorem view_sets {i : Nat} (hi : i < p.S) : (h.view p).sets i = h.viewSet p i := if_pos hi

theorem viewSet_lines {j : Nat} (hj : j < p.A.toNat) (i : Nat) :
    (h.viewSet p i).lines j = h.viewLine p i j := if_pos hj

/-- Writing to one set of a cache. -/
theorem view_eq_putSet {addr : Word} (hi : (setIndex (h.view p) addr).toNat < p.S)
    (hother : ∀ i < p.S, i ≠ (setIndex (h.view p) addr).toNat → h'.viewSet p i = h.viewSet p i) :
    h'.view p = (h.view p).putSet addr (h'.viewSet p (setIndex (h.view p) addr).toNat) := by
  refine congrArg (fun f => Cache.mk f p.A p.B p.C p.d) (funext fun i => ?_)
  by_cases hii : i = (setIndex (h.view p) addr).toNat
  · rw [if_pos hii, hii, if_pos hi]
  · rw [if_neg hii]
    by_cases his : i < p.S
    · rw [if_pos his, hother i his hii, view_sets his]
    · rw [if_neg his]
      exact (if_neg his).symm

theorem viewSet_writeSet (i i' : Nat) (matrix : Word) (next : Nat) :
    (h.writeSet p i matrix next).viewSet p i' =
      if i' = i then { h.viewSet p i with lruMatrix := matrix, nextLru := next }
      else h.viewSet p i' := by
  have hset : (h.writeSet p i matrix next).set p i' =
      if i' = i then { h.set p i with lruMatrix := matrix, nextLru := next } else h.set p i' := by
    rw [set, writeSet]
    simp only [Function.update_self, Function.update_apply]
    rfl
  by_cases hi : i' = i
  · rw [if_pos hi] at hset ⊢
    simp only [viewSet, viewLine, buffer, line, hset]
    rfl
  · rw [if_neg hi] at hset ⊢
    simp only [viewSet, viewLine, buffer, line, hset]
    rfl

theorem viewSet_writeSet_of_lines {i : Nat} {s : CacheSet} (hs : s.lines = (h.viewSet p i).lines)
    (i' : Nat) :
    (h.writeSet p i s.lruMatrix s.nextLru).viewSet p i' = if i' = i then s else h.viewSet p i' := by
  have hself : { h.viewSet p i with lruMatrix := s.lruMatrix, nextLru := s.nextLru } = s :=
    congrArg (fun f => CacheSet.mk f _ _) hs.symm
  rw [viewSet_writeSet, hself]

/-- Recording a use in memory. -/
theorem viewSet_touch (i i' j : Nat) :
    (h.touch p i j).viewSet p i' =
      if i' = i then (h.viewSet p i).touch p.A.toNat j else h.viewSet p i' :=
  viewSet_writeSet i i' _ _

/-- A set of which at most one line changed. -/
theorem viewSet_of_viewLine {i i' j : Nat} (hj : j < p.A.toNat) {l : CacheLine}
    (hset : h'.set p i' = h.set p i')
    (hline : ∀ j' < p.A.toNat,
      h'.viewLine p i' j' = if i' = i ∧ j' = j then l else h.viewLine p i' j') :
    h'.viewSet p i' = if i' = i then (h.viewSet p i).putLine j l else h.viewSet p i' := by
  have hlines : (h'.viewSet p i').lines =
      if i' = i then ((h.viewSet p i).putLine j l).lines else (h.viewSet p i').lines := by
    funext j'
    by_cases hjA : j' < p.A.toNat
    · rw [viewSet_lines hjA, hline j' hjA]
      by_cases hi : i' = i
      · subst hi
        simp only [if_true, true_and, CacheSet.lines_putLine, viewSet_lines hjA]
      · simp only [hi, false_and, if_false, viewSet_lines hjA]
    · have hfresh : ∀ (h : Heap) (i : Nat), (h.viewSet p i).lines j' = .fresh :=
        fun _ _ => if_neg hjA
      have hjj : j' ≠ j := fun he => hjA (he ▸ hj)
      by_cases hi : i' = i
      · simp only [hi, if_true, CacheSet.lines_putLine, hjj, if_false, hfresh]
      · simp only [hi, if_false, hfresh]
  by_cases hi : i' = i
  · subst hi
    rw [if_pos rfl] at hlines ⊢
    rw [viewSet, hset]
    exact congrArg (fun f => CacheSet.mk f _ _) hlines
  · rw [if_neg hi] at hlines ⊢
    rw [viewSet, hset]
    exact congrArg (fun f => CacheSet.mk f _ _) hlines

theorem line_writeLine (ho : h.Owns p) {i i' : Nat} (hi : i < p.S) (hi' : i' < p.S) (j j' : Nat)
    (valid : Bool) (tag : Word) (dirty : Bool) :
    (h.writeLine p i j valid tag dirty).line p i' j' =
      if i' = i ∧ j' = j then { h.line p i j with valid := valid, tag := tag, dirty := dirty }
      else h.line p i' j' := by
  change Function.update h.lineArrays (h.set p i).lines _ (h.set p i').lines j' = _
  by_cases hii : i' = i
  · subst hii
    rw [Function.update_self, Function.update_apply]
    simp only [true_and]
    rfl
  · rw [Function.update_of_ne fun he => hii (ho.lines i' hi' i hi he), if_neg fun he => hii he.1]
    rfl

theorem viewSet_writeLine (ho : h.Owns p) {i i' j : Nat} (hi : i < p.S) (hi' : i' < p.S)
    (hj : j < p.A.toNat) (valid : Bool) (tag : Word) (dirty : Bool) :
    (h.writeLine p i j valid tag dirty).viewSet p i' =
      if i' = i then
        (h.viewSet p i).putLine j
          { h.viewLine p i j with valid := valid, tag := tag, dirty := dirty }
      else h.viewSet p i' := by
  refine viewSet_of_viewLine hj rfl fun j' hj' => ?_
  simp only [viewLine, buffer, line_writeLine ho hi hi']
  by_cases hij : i' = i ∧ j' = j
  · simp only [if_pos hij]
    rfl
  · simp only [if_neg hij]
    rfl

theorem viewSet_writeBuffer (ho : h.Owns p) {i i' j : Nat} (hi : i < p.S) (hi' : i' < p.S)
    (hj : j < p.A.toNat) (data : Nat → Byte) :
    (h.writeBuffer p i j data).viewSet p i' =
      if i' = i then
        (h.viewSet p i).putLine j
          { h.viewLine p i j with data := fun k => if k < p.B.toNat then data k else 0 }
      else h.viewSet p i' := by
  refine viewSet_of_viewLine hj rfl fun j' hj' => ?_
  by_cases hij : i' = i ∧ j' = j
  · obtain ⟨rfl, rfl⟩ := hij
    rw [if_pos ⟨rfl, rfl⟩]
    refine congrArg (CacheLine.mk _ _ _) (funext fun k => ?_)
    rw [buffer, writeBuffer]
    simp only [line, set, Function.update_self]
  · have hdata : (h.line p i' j').data ≠ (h.line p i j).data :=
      fun he => hij (ho.data i' hi' j' hj' i hi j hj he)
    rw [if_neg hij]
    refine congrArg (CacheLine.mk _ _ _) (funext fun k => ?_)
    rw [buffer, buffer, writeBuffer]
    exact congrArg (fun f : Nat → Byte => if k < p.B.toNat then f k else 0)
      (Function.update_of_ne hdata _ _)

theorem putLine_putLine (s : CacheSet) (j : Nat) (l l' : CacheLine) :
    (s.putLine j l).putLine j l' = s.putLine j l' := by
  refine congrArg (fun f => CacheSet.mk f s.lruMatrix s.nextLru) (funext fun k => ?_)
  by_cases hk : k = j
  · rw [if_pos hk, if_pos hk]
  · rw [if_neg hk, if_neg hk, CacheSet.lines_putLine, if_neg hk]

/-- The marks of a line and its bytes stored, in the order of `handle_miss`. -/
theorem viewSet_fill (ho : h.Owns p) {i i' j : Nat} (hi : i < p.S) (hi' : i' < p.S)
    (hj : j < p.A.toNat) (tag : Word) (dirty : Bool) (incoming : Option (Nat → Byte)) :
    (h.fill p i j tag dirty incoming).viewSet p i' =
      if i' = i then
        (h.viewSet p i).putLine j
          ⟨true, tag, dirty,
            memcpy (h.viewLine p i j).data (incoming.getD fun _ => 0) p.B.toNat⟩
      else h.viewSet p i' := by
  have ho' := (Writes.writeLine p h hi j true tag dirty).owns ho
  have hline := line_writeLine ho hi hi j j true tag dirty
  have hdata : (fun k => if k < p.B.toNat then
        memcpy (h.buffer p i j) (incoming.getD fun _ => 0) p.B.toNat k else 0) =
      memcpy (h.viewLine p i j).data (incoming.getD fun _ => 0) p.B.toNat := by
    funext k
    simp only [memcpy, viewLine]
    by_cases hk : k < p.B.toNat
    · simp only [if_pos hk]
    · simp only [if_neg hk]
  rw [if_pos ⟨rfl, rfl⟩] at hline
  rw [fill, viewSet_writeBuffer ho' hi hi' hj, viewSet_writeLine ho hi hi hj,
    viewSet_writeLine ho hi hi' hj, if_pos rfl, putLine_putLine, hdata]
  by_cases hii : i' = i
  · rw [if_pos hii, if_pos hii]
    simp only [viewLine, hline]
  · rw [if_neg hii, if_neg hii, if_neg hii]

/-- Its bytes and its marks, in the order of `set_word_cache`. -/
theorem viewSet_store (ho : h.Owns p) {i i' j : Nat} (hi : i < p.S) (hi' : i' < p.S)
    (hj : j < p.A.toNat) (valid : Bool) (tag : Word) (dirty : Bool) (data : Nat → Byte) :
    ((h.writeBuffer p i j data).writeLine p i j valid tag dirty).viewSet p i' =
      if i' = i then
        (h.viewSet p i).putLine j
          ⟨valid, tag, dirty, fun k => if k < p.B.toNat then data k else 0⟩
      else h.viewSet p i' := by
  have ho' := (Writes.writeBuffer p h hi hj data).owns ho
  have hbuffer : (h.writeBuffer p i j data).buffer p i j = data := Function.update_self _ _ _
  rw [viewSet_writeLine ho' hi hi' hj, viewSet_writeBuffer ho hi hi hj,
    viewSet_writeBuffer ho hi hi' hj, if_pos rfl, putLine_putLine]
  by_cases hii : i' = i
  · rw [if_pos hii, if_pos hii, viewLine, hbuffer]
  · rw [if_neg hii, if_neg hii, if_neg hii]

end

/-! ## The calls do in memory what they do on caches -/

section

variable {g : Geometry} {p : CacheStruct} {h : Heap}

theorem getSet_view (hf : (h.view p).Fits g) (addr : Word) :
    (setIndex (h.view p) addr).toNat < p.S ∧
      getSet (h.view p) addr = h.viewSet p (setIndex (h.view p) addr).toNat := by
  have hi : (setIndex (h.view p) addr).toNat < p.S :=
    lt_of_lt_of_eq (hf.setIndex_lt addr) hf.S_toNat.symm
  exact ⟨hi, view_sets hi⟩

theorem A_pos (hf : (h.view p).Fits g) : 0 < p.A.toNat := by
  rw [show p.A.toNat = g.A from hf.A_toNat]
  exact g.one_le_A

/-- A line a lookup finds lies in the set. -/
theorem lt_of_getLine {addr : Word} {j : Nat} (hj : getLine (h.view p) addr = some j) :
    j < p.A.toNat :=
  List.mem_range.1 (List.find?_range_eq_some.1 hj).2.1

theorem checkHit_view (hf : (h.view p).Fits g) (ho : h.Owns p) (addr : Word)
    (operation : Operation) :
    ((h.checkHit p addr operation).1,
        (h.checkHit p addr operation).2.view p, (h.checkHit p addr operation).2.counts) =
      ChArm.checkHit (h.view p) h.counts addr operation := by
  obtain ⟨hi, hset⟩ := getSet_view hf addr
  cases hj : getLine (h.view p) addr with
  | none =>
    rw [checkHit_of_none hj]
    simp only [checkHit, hj]
    rfl
  | some j =>
    have hjA := lt_of_getLine hj
    rw [checkHit_of_some hj, Cache.hit, hset]
    have ho' := (Writes.counts p h { h.counts with hitCount := h.counts.hitCount + 1 }).owns ho
    cases operation with
    | read =>
      simp only [checkHit, hj, reduceCtorEq, if_false]
      refine Prod.ext rfl (Prod.ext ?_ rfl)
      refine (view_eq_putSet hi fun i' hi' hne => ?_).trans (congrArg _ ?_)
      · rw [viewSet_touch, if_neg hne]
        rfl
      · rw [viewSet_touch, if_pos rfl, CacheLine.hitLine, if_neg (by decide),
          CacheSet.putLine_lines]
        rfl
    | write =>
      simp only [checkHit, hj, if_true]
      refine Prod.ext rfl (Prod.ext ?_ rfl)
      refine (view_eq_putSet hi fun i' hi' hne => ?_).trans (congrArg _ ?_)
      · rw [viewSet_touch, if_neg hne, viewSet_writeLine ho' hi hi' hjA, if_neg hne]
        rfl
      · rw [viewSet_touch, if_pos rfl, viewSet_writeLine ho' hi hi hjA, if_pos rfl,
          viewSet_lines hjA]
        rfl

theorem Owns.countEviction (ho : h.Owns p) (i j : Nat) : (h.countEviction p i j).Owns p :=
  (Writes.countEviction p h i j).owns ho

theorem viewLine_countEviction (h : Heap) (p : CacheStruct) (i j i' j' : Nat) :
    (h.countEviction p i j).viewLine p i' j' = h.viewLine p i' j' := rfl

theorem viewSet_countEviction (h : Heap) (p : CacheStruct) (i j i' : Nat) :
    (h.countEviction p i j).viewSet p i' = h.viewSet p i' := rfl

theorem counts_countEviction (h : Heap) (p : CacheStruct) (i j : Nat) :
    (h.countEviction p i j).counts =
      if (h.viewLine p i j).valid then
        if (h.viewLine p i j).dirty then
          { h.counts with dirtyEvictionCount := h.counts.dirtyEvictionCount + 1 }
        else { h.counts with cleanEvictionCount := h.counts.cleanEvictionCount + 1 }
      else h.counts := rfl

/-- What `handle_miss` tells is what is in memory. -/
theorem evictedLine_eq (h : Heap) (p : CacheStruct) (addr : Word) (j : Nat) :
    h.evictedLine p addr j =
      { valid := (h.viewLine p (setIndex (h.view p) addr).toNat j).valid
        dirty := (h.viewLine p (setIndex (h.view p) addr).toNat j).dirty
        blockAddr :=
          (((h.viewLine p (setIndex (h.view p) addr).toNat j).tag <<< (h.view p).s) |||
            setIndex (h.view p) addr) <<< (h.view p).b
        data := memcpy (fun _ => 0) (h.viewLine p (setIndex (h.view p) addr).toNat j).data
          p.B.toNat } := by
  refine congrArg (EvictedLine.mk _ _ _) (funext fun k => ?_)
  simp only [memcpy, viewLine]
  by_cases hk : k < p.B.toNat
  · simp only [if_pos hk]
  · simp only [if_neg hk]

theorem handleMiss_view (hf : (h.view p).Fits g) (ho : h.Owns p) (addr : Word)
    (operation : Operation) (incoming : Option (Nat → Byte)) :
    ((h.handleMiss p addr operation incoming).1,
        (h.handleMiss p addr operation incoming).2.view p,
        (h.handleMiss p addr operation incoming).2.counts) =
      ChArm.handleMiss (h.view p) h.counts addr operation incoming := by
  obtain ⟨hi, hset⟩ := getSet_view hf addr
  obtain ⟨hjA, hlines⟩ := selectLine_spec (getSet (h.view p) addr) (A_pos hf)
  rcases hr : selectLine (getSet (h.view p) addr) p.A.toNat with ⟨j, s⟩
  rw [hr, hset] at hlines
  rw [hr] at hjA
  dsimp only at hlines hjA
  have hr' : selectLine (getSet (h.view p) addr) (h.view p).A.toNat = (j, s) := hr
  simp only [handleMiss, hr, ChArm.handleMiss, hr']
  have ho' := (Writes.writeSet p h (setIndex (h.view p) addr).toNat s.lruMatrix s.nextLru).owns ho
  -- the set as `select_line` leaves it
  have hview := viewSet_writeSet_of_lines hlines
  have hline : (h.writeSet p (setIndex (h.view p) addr).toNat s.lruMatrix s.nextLru).viewLine p
      (setIndex (h.view p) addr).toNat j = s.lines j := by
    rw [← viewSet_lines hjA, hview, if_pos rfl]
  refine Prod.ext ?_ (Prod.ext ?_ ?_)
  · have hev := evictedLine_eq
      (h.writeSet p (setIndex (h.view p) addr).toNat s.lruMatrix s.nextLru) p addr j
    rw [show (h.writeSet p (setIndex (h.view p) addr).toNat s.lruMatrix s.nextLru).viewLine p
      (setIndex ((h.writeSet p (setIndex (h.view p) addr).toNat s.lruMatrix s.nextLru).view p)
        addr).toNat j = s.lines j from hline] at hev
    exact hev
  · refine (view_eq_putSet hi fun i' hi' hne => ?_).trans (congrArg _ ?_)
    · rw [viewSet_touch, if_neg hne, viewSet_fill (ho'.countEviction _ _) hi hi' hjA, if_neg hne]
      exact (hview i').trans (if_neg hne)
    · rw [viewSet_touch, if_pos rfl, viewSet_fill (ho'.countEviction _ _) hi hi hjA, if_pos rfl,
        viewSet_countEviction, viewLine_countEviction, hview, if_pos rfl, hline]
      rfl
  · have hcount := counts_countEviction
      (h.writeSet p (setIndex (h.view p) addr).toNat s.lruMatrix s.nextLru) p
      (setIndex (h.view p) addr).toNat j
    rw [hline] at hcount
    exact hcount

theorem getWordCache_view (hf : (h.view p).Fits g) (addr : Word) :
    h.getWordCache p addr = ChArm.getWordCache (h.view p) addr := by
  obtain ⟨hi, hset⟩ := getSet_view hf addr
  have hviewB : (h.view p).B = p.B := rfl
  simp only [getWordCache, ChArm.getWordCache, hset, hviewB]
  cases hj : getLine (h.view p) addr with
  | none => rfl
  | some j =>
    by_cases hfit : blockOffset (h.view p) addr + 8 ≤ p.B.toNat
    · simp only [if_pos hfit]
      refine congrArg Except.ok (leValue_congr fun k hk => ?_)
      rw [viewSet_lines (lt_of_getLine hj)]
      exact (if_pos (by omega)).symm
    · simp only [if_neg hfit]

/-- A word stored in memory is stored in the cache. -/
theorem setWord_view (hf : (h.view p).Fits g) (ho : h.Owns p) (addr val : Word) :
    (h.setWordCache p addr val).map (fun h' => (h'.view p, h'.counts)) =
      (ChArm.setWordCache (h.view p) addr val).map fun c => (c, h.counts) := by
  obtain ⟨hi, hset⟩ := getSet_view hf addr
  have hviewB : (h.view p).B = p.B := rfl
  simp only [setWordCache, ChArm.setWordCache, hset, hviewB]
  cases hj : getLine (h.view p) addr with
  | none => rfl
  | some j =>
    have hjA := lt_of_getLine hj
    by_cases hfit : blockOffset (h.view p) addr + 8 ≤ p.B.toNat
    · simp only [if_pos hfit, Except.map]
      refine congrArg Except.ok (Prod.ext ?_ rfl)
      refine (view_eq_putSet hi fun i' hi' hne => ?_).trans (congrArg _ ?_)
      · rw [viewSet_store ho hi hi' hjA, if_neg hne]
      · rw [viewSet_store ho hi hi hjA, if_pos rfl, viewSet_lines hjA]
        refine congrArg (CacheSet.putLine _ j) (congrArg (CacheLine.mk _ _ _) (funext fun k => ?_))
        simp only [putWord64, viewLine]
        by_cases hk : blockOffset (h.view p) addr ≤ k ∧ k < blockOffset (h.view p) addr + 8
        · rw [if_pos hk, if_pos hk, if_pos (by omega)]
        · rw [if_neg hk, if_neg hk]
    · simp only [if_neg hfit]
      rfl

/-! ## What a call writes -/

theorem writes_checkHit (hf : (h.view p).Fits g) (addr : Word) (operation : Operation) :
    Writes p h (h.checkHit p addr operation).2 := by
  obtain ⟨hi, -⟩ := getSet_view hf addr
  cases hj : getLine (h.view p) addr with
  | none =>
    simp only [checkHit, hj]
    exact .counts p h _
  | some j =>
    simp only [checkHit, hj]
    have hcount := Writes.counts p h { h.counts with hitCount := h.counts.hitCount + 1 }
    cases operation with
    | read => exact hcount.trans (.writeSet p _ _ _ _)
    | write => exact (hcount.trans (.writeLine p _ hi j _ _ _)).trans (.writeSet p _ _ _ _)

theorem writes_handleMiss (hf : (h.view p).Fits g) (addr : Word) (operation : Operation)
    (incoming : Option (Nat → Byte)) : Writes p h (h.handleMiss p addr operation incoming).2 := by
  obtain ⟨hi, -⟩ := getSet_view hf addr
  obtain ⟨hjA, -⟩ := selectLine_spec (getSet (h.view p) addr) (A_pos hf)
  rcases hr : selectLine (getSet (h.view p) addr) p.A.toNat with ⟨j, s⟩
  rw [hr] at hjA
  simp only [handleMiss, hr]
  have hsel := Writes.writeSet p h (setIndex (h.view p) addr).toNat s.lruMatrix s.nextLru
  exact ((hsel.trans (.countEviction p _ _ j)).trans (.fill p _ hi hjA _ _ _)).trans
    (.writeSet p _ _ _ _)

/-- **One call** writes to its cache only. -/
theorem writes_call (hf : (h.view p).Fits g) {h' : Heap} {call : Call} {reply : Reply}
    (hcall : Heap.call p h call = .ok (reply, h')) : Writes p h h' := by
  cases call with
  | checkHit addr operation =>
    simp only [Heap.call, Except.ok.injEq, Prod.mk.injEq] at hcall
    exact hcall.2 ▸ writes_checkHit hf addr operation
  | handleMiss addr operation incoming =>
    simp only [Heap.call, Except.ok.injEq, Prod.mk.injEq] at hcall
    exact hcall.2 ▸ writes_handleMiss hf addr operation incoming
  | getWord addr =>
    cases hword : h.getWordCache p addr with
    | error e => simp [Heap.call, hword, Except.map] at hcall
    | ok val =>
      simp only [Heap.call, hword, Except.map, Except.ok.injEq, Prod.mk.injEq] at hcall
      exact hcall.2 ▸ .refl p h
  | setWord addr val =>
    obtain ⟨hi, -⟩ := getSet_view hf addr
    cases hj : getLine (h.view p) addr with
    | none => simp [Heap.call, setWordCache, hj, Except.map] at hcall
    | some j =>
      by_cases hfit : blockOffset (h.view p) addr + 8 ≤ p.B.toNat
      · simp only [Heap.call, setWordCache, hj, if_pos hfit, Except.map, Except.ok.injEq,
          Prod.mk.injEq] at hcall
        rw [← hcall.2]
        exact (Writes.writeBuffer p h hi (lt_of_getLine hj) _).trans (.writeLine p _ hi j _ _ _)
      · simp [Heap.call, setWordCache, hj, hfit, Except.map] at hcall

/-- Memory holds a cache and the counters. -/
structure Holds (g : Geometry) (p : CacheStruct) (h : Heap) (s : Cache × Counters) : Prop where
  fits : (h.view p).Fits g
  owns : h.Owns p
  view : h.view p = s.1
  counts : h.counts = s.2

namespace Holds

variable {s s' : Cache × Counters}

/-- What is in memory after a call that wrote to the cache only. -/
theorem of_writes {h' : Heap} (hh : Holds g p h s) (w : Writes p h h')
    (hs : (h'.view p, h'.counts) = s') : Holds g p h' s' where
  fits := ⟨hh.fits.A, hh.fits.B, hh.fits.C, hh.fits.d⟩
  owns := w.owns hh.owns
  view := congrArg Prod.fst hs
  counts := congrArg Prod.snd hs

/-- **One call** in memory gets the reply it gets on the cache. -/
theorem call (hh : Holds g p h s) (call : Call) :
    Alike (Holds g p) (Heap.call p h call) (Cache.call s call) := by
  obtain ⟨c, k⟩ := s
  obtain ⟨hf, ho, hview, hcounts⟩ := hh
  dsimp only at hview hcounts
  subst hview hcounts
  have hh : Holds g p h (h.view p, h.counts) := ⟨hf, ho, rfl, rfl⟩
  cases call with
  | checkHit addr operation =>
    have hcall := checkHit_view hf ho addr operation
    rw [Heap.call, Cache.call, ← hcall]
    exact .ok _ (hh.of_writes (writes_checkHit hf addr operation) rfl)
  | handleMiss addr operation incoming =>
    have hcall := handleMiss_view hf ho addr operation incoming
    rw [Heap.call, Cache.call, ← hcall]
    exact .ok _ (hh.of_writes (writes_handleMiss hf addr operation incoming) rfl)
  | getWord addr =>
    rw [Heap.call, Cache.call, getWordCache_view hf]
    cases ChArm.getWordCache (h.view p) addr with
    | error e => exact .error e
    | ok val => exact .ok _ hh
  | setWord addr val =>
    have hcall := setWord_view hf ho addr val
    cases hw : h.setWordCache p addr val with
    | error e =>
      cases hc : ChArm.setWordCache (h.view p) addr val with
      | error e' =>
        rw [hw, hc] at hcall
        rw [Heap.call, Cache.call, hw, hc, Except.error.inj hcall]
        exact .error e'
      | ok c =>
        rw [hw, hc] at hcall
        cases hcall
    | ok h' =>
      have hmem : Heap.call p h (.setWord addr val) = .ok (.stored, h') := by
        rw [Heap.call, hw]
        rfl
      cases hc : ChArm.setWordCache (h.view p) addr val with
      | error e' =>
        rw [hw, hc] at hcall
        cases hcall
      | ok c =>
        rw [hw, hc] at hcall
        rw [hmem, Cache.call, hc]
        exact .ok _ (hh.of_writes (writes_call hf hmem) (Except.ok.inj hcall))

end Holds

/-- **A session** in memory gets the replies it gets on the cache, and writes to the cache only. -/
theorem session_holds {s : Cache × Counters} (hh : Holds g p h s) (calls : List Call) :
    (session (Heap.call p) h calls).1 = (session Cache.call s calls).1 ∧
      Holds g p (session (Heap.call p) h calls).2 (session Cache.call s calls).2 :=
  session_related (fun _ _ hh call => hh.call call) hh calls

theorem session_writes (hf : (h.view p).Fits g) (calls : List Call) :
    Writes p h (session (Heap.call p) h calls).2 := by
  have hstep : ∀ h₁ call reply h₂, Writes p h h₁ ∧ (h₁.view p).Fits g →
      Heap.call p h₁ call = .ok (reply, h₂) → Writes p h h₂ ∧ (h₂.view p).Fits g := by
    intro h₁ call reply h₂ hw hcall
    exact ⟨hw.1.trans (writes_call hw.2 hcall), ⟨hw.2.A, hw.2.B, hw.2.C, hw.2.d⟩⟩
  exact (session_preserves hstep ⟨.refl p h, hf⟩ calls).1

end

end Heap

end ChArm
