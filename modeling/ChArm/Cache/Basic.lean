import ChArm.Base.Word

/-!
# The set-associative cache

`src/cache/cache.c` and `include/cache/cache.h`: sizes, indexing, the bit-matrix
replacement policy, hits, misses and the word accesses.  The four global
counters travel beside the cache as `Counters`.

Arrays are functions from an index: `sets i` is meaningful below the number of
sets, `lines j` below `A`, `data k` below `B`.  Counters are natural numbers.
-/

namespace ChArm

/-- `operation_t`. -/
inductive Operation where
  | read | write
  deriving DecidableEq, Repr

/-- `cache_line_t`. -/
structure CacheLine where
  valid : Bool
  tag : Word
  dirty : Bool
  data : Nat → Byte

/-- `cache_set_t`. -/
structure CacheSet where
  lines : Nat → CacheLine
  lruMatrix : Word
  nextLru : Nat

/-- `cache_t`. -/
structure Cache where
  sets : Nat → CacheSet
  A : BitVec 32
  B : BitVec 32
  C : BitVec 32
  d : BitVec 32

/-- `evicted_line_t`. -/
structure EvictedLine where
  valid : Bool
  dirty : Bool
  blockAddr : Word
  data : Nat → Byte

/-- The statistics counters. -/
structure Counters where
  missCount : Nat
  hitCount : Nat
  dirtyEvictionCount : Nat
  cleanEvictionCount : Nat
  deriving DecidableEq, Repr

/-- The counters as the program starts. -/
def Counters.zero : Counters := ⟨0, 0, 0, 0⟩

/-- Ways an emulator process can end other than by leaving the loop of `runElf`. -/
inductive Abort where
  /-- `exit(EXIT_FAILURE)` -/
  | exitFailure
  /-- a failing `assert` -/
  | assertFailed
  /-- a null pointer is dereferenced -/
  | nullDeref
  /-- an access leaves the buffer it points into -/
  | outOfBounds
  deriving DecidableEq, Repr

/-! ## Sizes and indices -/

/-- The loop of `_log`; 64 halvings empty a `size_t`. -/
def logLoop : Nat → Word → Nat
  | 0, _ => 0
  | n + 1, x => if x >>> 1 = 0 then 0 else logLoop n (x >>> 1) + 1

/-- `_log`. -/
def log (x : Word) : Nat := logLoop 64 x

/-- The number of sets, `C / (A * B)` in unsigned arithmetic. -/
def Cache.S (c : Cache) : BitVec 32 := c.C / (c.A * c.B)

/-- The number of block-offset bits. -/
def Cache.b (c : Cache) : Nat := log (c.B.setWidth 64)

/-- The number of set-index bits. -/
def Cache.s (c : Cache) : Nat := log (c.S.setWidth 64)

/-- `(addr >> b) & ((1 << s) - 1)`. -/
def setIndex (c : Cache) (addr : Word) : Word :=
  (addr >>> c.b) &&& ((1#32 <<< c.s) - 1#32).signExtend 64

/-- `addr >> (b + s)`. -/
def tagOf (c : Cache) (addr : Word) : Word := addr >>> (c.b + c.s)

/-- A fresh cache line: invalid, clean, zeroed. -/
def CacheLine.fresh : CacheLine := ⟨false, 0, false, fun _ => 0⟩

/-- A fresh set; `next_lru` starts at `~0ULL`. -/
def CacheSet.fresh : CacheSet := ⟨fun _ => .fresh, 0, 2 ^ 64 - 1⟩

/-- `create_cache`. -/
def createCache (A B C d : BitVec 32) : Cache := ⟨fun _ => .fresh, A, B, C, d⟩

/-- `get_set`. -/
def getSet (c : Cache) (addr : Word) : CacheSet := c.sets (setIndex c addr).toNat

/-- Replace the set an address maps to. -/
def Cache.putSet (c : Cache) (addr : Word) (s : CacheSet) : Cache :=
  { c with sets := fun i => if i = (setIndex c addr).toNat then s else c.sets i }

/-- Replace one line of a set. -/
def CacheSet.putLine (s : CacheSet) (j : Nat) (l : CacheLine) : CacheSet :=
  { s with lines := fun k => if k = j then l else s.lines k }

theorem sets_putSet (c : Cache) (addr : Word) (set : CacheSet) (i : Nat) :
    (c.putSet addr set).sets i = if i = (setIndex c addr).toNat then set else c.sets i := rfl

theorem getSet_putSet_self (c : Cache) (addr : Word) (set : CacheSet) :
    getSet (c.putSet addr set) addr = set := if_pos rfl

theorem Cache.putSet_getSet (c : Cache) (addr : Word) : c.putSet addr (getSet c addr) = c := by
  refine congrArg (fun f => Cache.mk f c.A c.B c.C c.d) (funext fun i => ?_)
  by_cases hi : i = (setIndex c addr).toNat
  · rw [if_pos hi, hi, getSet]
  · rw [if_neg hi]

theorem CacheSet.lines_putLine (s : CacheSet) (j : Nat) (l : CacheLine) (k : Nat) :
    (s.putLine j l).lines k = if k = j then l else s.lines k := rfl

theorem CacheSet.putLine_lines (s : CacheSet) (j : Nat) : s.putLine j (s.lines j) = s := by
  refine congrArg (fun f => CacheSet.mk f s.lruMatrix s.nextLru) (funext fun k => ?_)
  by_cases hk : k = j
  · rw [if_pos hk, hk]
  · rw [if_neg hk]

/-- The first line of a set that is valid and carries the tag, as the loops of
`get_line` and `check_hit` find it. -/
def CacheSet.find (s : CacheSet) (A : Nat) (tag : Word) : Option Nat :=
  (List.range A).find? fun j => (s.lines j).valid && (s.lines j).tag == tag

/-- `get_line`: the index of the line holding the address, `none` for `NULL`. -/
def getLine (c : Cache) (addr : Word) : Option Nat :=
  (getSet c addr).find c.A.toNat (tagOf c addr)

/-! ## Replacement -/

/-- The mask of the matrix entry in row `i` and column `j`. -/
def lruBit (i j : Nat) : Word := 1#64 <<< (i * 8 + j)

/-- The first loop of `lru`: set row `access`, except for its diagonal bit. -/
def lruSetRow (A access : Nat) (matrix : Word) : Word :=
  (List.range A).foldl (fun m j =>
    if j = access then m &&& ~~~(lruBit access j) else m ||| lruBit access j) matrix

/-- The second loop of `lru`: clear column `access`. -/
def lruClearColumn (A access : Nat) (matrix : Word) : Word :=
  (List.range A).foldl (fun m i => m &&& ~~~(lruBit i access)) matrix

/-- The inner loop of `lru`: is row `i` zero off the diagonal? -/
def isLru (A : Nat) (matrix : Word) (i : Nat) : Bool :=
  (List.range A).all fun j => i == j || (matrix &&& lruBit i j) == 0

/-- `lru`: record the access and return the first all-zero row. -/
def lru (A access : Nat) (matrix : Word) : Nat × Word :=
  let matrix := lruClearColumn A access (lruSetRow A access matrix)
  (((List.range A).find? (isLru A matrix)).getD 0, matrix)

/-- Record an access to line `j`: `set->next_lru = lru(A, j, &set->lru_matrix)`. -/
def CacheSet.touch (s : CacheSet) (A j : Nat) : CacheSet :=
  { s with lruMatrix := (lru A j s.lruMatrix).2, nextLru := (lru A j s.lruMatrix).1 }

/-- `select_line`: the first invalid line, else the line `next_lru` names. The
`next_lru` that comes back has been reset to 0 where it was out of range. -/
def selectLine (s : CacheSet) (A : Nat) : Nat × CacheSet :=
  match (List.range A).find? fun j => !(s.lines j).valid with
  | some j => (j, s)
  | none => if s.nextLru ≥ A then (0, { s with nextLru := 0 }) else (s.nextLru, s)

/-! ## Hits and misses -/

/-- `check_hit`. -/
def checkHit (c : Cache) (k : Counters) (addr : Word) (operation : Operation) :
    Bool × Cache × Counters :=
  let set := getSet c addr
  match set.find c.A.toNat (tagOf c addr) with
  | some i =>
      let line := set.lines i
      let line := if operation = .write then { line with dirty := true } else line
      (true, c.putSet addr ((set.putLine i line).touch c.A.toNat i),
        { k with hitCount := k.hitCount + 1 })
  | none => (false, c, { k with missCount := k.missCount + 1 })

/-- `handle_miss`; `incoming` is `none` for a null `incoming_data`. -/
def handleMiss (c : Cache) (k : Counters) (addr : Word) (operation : Operation)
    (incoming : Option (Nat → Byte)) : EvictedLine × Cache × Counters :=
  let (j, set) := selectLine (getSet c addr) c.A.toNat
  let line := set.lines j
  let evicted : EvictedLine :=
    { valid := line.valid
      dirty := line.dirty
      blockAddr := ((line.tag <<< c.s) ||| setIndex c addr) <<< c.b
      data := memcpy (fun _ => 0) line.data c.B.toNat }
  let k := if line.valid then
      if line.dirty then { k with dirtyEvictionCount := k.dirtyEvictionCount + 1 }
      else { k with cleanEvictionCount := k.cleanEvictionCount + 1 }
    else k
  let filled : CacheLine :=
    { valid := true
      tag := tagOf c addr
      dirty := operation = .write
      data := memcpy line.data (incoming.getD fun _ => 0) c.B.toNat }
  (evicted, c.putSet addr ((set.putLine j filled).touch c.A.toNat j), k)

/-! ## Word accesses -/

/-- `addr & (cache->B - 1)`. -/
def blockOffset (c : Cache) (addr : Word) : Nat :=
  (addr &&& (c.B - 1#32).setWidth 64).toNat

/-- `get_word_cache`: an absent line is a null dereference, and eight bytes that
do not fit in the line leave its buffer.  Such an over-read ends the run here, so what a run does
after a fetch has made one is not covered. -/
def getWordCache (c : Cache) (addr : Word) : Except Abort Word :=
  match getLine c addr with
  | none => .error .nullDeref
  | some j =>
      if blockOffset c addr + 8 ≤ c.B.toNat then
        .ok (leValue (fun k => ((getSet c addr).lines j).data (blockOffset c addr + k)) 8)
      else .error .outOfBounds

/-- `memcpy(data + off, &val, 8)`. -/
def putWord64 (data : Nat → Byte) (off : Nat) (val : Word) : Nat → Byte :=
  fun k => if off ≤ k ∧ k < off + 8 then byteOf val (k - off) else data k

/-- `set_word_cache`. -/
def setWordCache (c : Cache) (addr val : Word) : Except Abort Cache :=
  match getLine c addr with
  | none => .error .nullDeref
  | some j =>
      if blockOffset c addr + 8 ≤ c.B.toNat then
        let set := getSet c addr
        let line := set.lines j
        .ok (c.putSet addr (set.putLine j
          { line with data := putWord64 line.data (blockOffset c addr) val, dirty := true }))
      else .error .outOfBounds

/-- `access_data`. -/
def accessData (c : Cache) (k : Counters) (addr : Word) (operation : Operation) :
    Cache × Counters :=
  match checkHit c k addr operation with
  | (true, c, k) => (c, k)
  | (false, c, k) => (handleMiss c k addr operation none).2

end ChArm
