import ChArm.Base.CacheLines
import ChArm.Cache.LineOrder
import ChArm.Lib.Sessions

/-!
# What the callers of a cache see

`Cache.call` is one call of `check_hit`, `handle_miss`, `get_word_cache` or
`set_word_cache` with its reply.  Two caches with the same lines reply alike for
as long as their sets give up the lines in the same order
(`SameOrders.indistinguishable`).  Where the orders differ, misses use up the
lines on which they agree, and a store makes the next two victims differ
(`Parting.not_indistinguishable`).

* `SameOrders.call` — one call gets one reply from both.
* `SameOrders.indistinguishable` — so does every session.
* `Parting.not_indistinguishable` — where the orders differ, some session tells the caches apart.
-/

namespace ChArm

open Recency Sessions

/-! ## Calls and replies -/

/-- A call on a cache. -/
inductive Call where
  | checkHit (addr : Word) (operation : Operation)
  | handleMiss (addr : Word) (operation : Operation) (incoming : Option (Nat → Byte))
  | getWord (addr : Word)
  | setWord (addr val : Word)

/-- What a call gives its caller. -/
inductive Reply where
  | hit (found : Bool)
  | evicted (line : EvictedLine)
  | word (val : Word)
  | stored

/-- One call. -/
def Cache.call (s : Cache × Counters) : Call → Except Abort (Reply × Cache × Counters)
  | .checkHit addr operation =>
      .ok (.hit (ChArm.checkHit s.1 s.2 addr operation).1,
        (ChArm.checkHit s.1 s.2 addr operation).2)
  | .handleMiss addr operation incoming =>
      .ok (.evicted (ChArm.handleMiss s.1 s.2 addr operation incoming).1,
        (ChArm.handleMiss s.1 s.2 addr operation incoming).2)
  | .getWord addr => (getWordCache s.1 addr).map fun val => (.word val, s)
  | .setWord addr val => (setWordCache s.1 addr val).map fun c => (.stored, c, s.2)

/-! ## Two sets with the same lines -/

/-- Two sets with the same lines, each in an order of its own. -/
structure Twins (A : Nat) (set set' : CacheSet) (order order' : List Nat) : Prop where
  lines : set'.lines = set.lines
  ordered : Ordered A set order
  ordered' : Ordered A set' order'

namespace Twins

variable {A : Nat} {set set' : CacheSet} {order order' : List Nat}

theorem putLine_lines (h : Twins A set set' order order') (j : Nat) (l : CacheLine) :
    (set'.putLine j l).lines = (set.putLine j l).lines := by
  simp only [CacheSet.putLine, h.lines]

theorem touch (h : Twins A set set' order order') (hA : A ≤ 8) {j : Nat} (hj : j < A)
    {l : CacheLine} (hl : l.valid = true) :
    Twins A ((set.putLine j l).touch A j) ((set'.putLine j l).touch A j) (moveToFront j order)
      (moveToFront j order') :=
  ⟨h.putLine_lines j l, h.ordered.touch hA hj hl, h.ordered'.touch hA hj hl⟩

theorem putLine (h : Twins A set set' order order') {j : Nat} (hj : (set.lines j).valid = true)
    {l : CacheLine} (hl : l.valid = true) :
    Twins A (set.putLine j l) (set'.putLine j l) order order' := by
  refine ⟨h.putLine_lines j l, h.ordered.putLine hj hl, h.ordered'.putLine ?_ hl⟩
  rwa [h.lines]

theorem mem_iff (h : Twins A set set' order order') (j : Nat) : j ∈ order' ↔ j ∈ order := by
  rw [h.ordered'.mem_iff, h.ordered.mem_iff, h.lines]

theorem length_eq (h : Twins A set set' order order') : order'.length = order.length :=
  ((List.perm_ext_iff_of_nodup h.ordered'.nodup h.ordered.nodup).2 h.mem_iff).length_eq

/-- Both sets give up one line, when one is free or the orders end in one line. -/
theorem selectLine (h : Twins A set set' order order')
    (hlast : order.length = A → order.getLast? = order'.getLast?) :
    ∃ j < A, ((set.lines j).valid = false ∨ order.length = A ∧ order.getLast? = some j) ∧
      ChArm.selectLine set A = (j, set) ∧ ChArm.selectLine set' A = (j, set') := by
  cases hinv : (List.range A).find? fun j => !(set.lines j).valid with
  | some j =>
    refine ⟨j, List.mem_range.1 (List.mem_of_find?_eq_some hinv), Or.inl ?_,
      selectLine_room hinv, selectLine_room ?_⟩
    · simpa using List.find?_some hinv
    · rwa [h.lines]
  | none =>
    obtain ⟨j, hj, hfull, hl, hsel⟩ := h.ordered.selectLine_full hinv
    obtain ⟨j', -, -, hl', hsel'⟩ := h.ordered'.selectLine_full (by rwa [h.lines])
    have hjj : j' = j := by
      rw [hlast hfull, hl', Option.some_inj] at hl
      exact hl
    exact ⟨j, hj, Or.inr ⟨hfull, hl⟩, hsel, hjj ▸ hsel'⟩

end Twins

/-! ## Calls that two caches answer alike -/

theorem Cache.Fits.putSet {c : Cache} {g : Geometry} (h : c.Fits g) (addr : Word)
    (set : CacheSet) : (c.putSet addr set).Fits g := ⟨h.A, h.B, h.C, h.d⟩

/-- What `handle_miss` does once the line is selected. -/
theorem handleMiss_of_selectLine {c : Cache} {addr : Word} {j : Nat}
    (h : selectLine (getSet c addr) c.A.toNat = (j, getSet c addr)) (k : Counters)
    (operation : Operation) (incoming : Option (Nat → Byte)) :
    ∃ k', handleMiss c k addr operation incoming =
      (c.evictedLine addr j,
        c.putSet addr (((getSet c addr).putLine j
          (c.filledLine addr operation j (incoming.getD fun _ => 0))).touch c.A.toNat j), k') := by
  simp only [handleMiss, h]
  exact ⟨_, rfl⟩

namespace Cache.Fits

variable {g : Geometry} {c c' : Cache} {addr : Word}

/-- A lookup reads the lines of one set. -/
theorem getLine_of_set (h : c.Fits g) (h' : c'.Fits g)
    (hl : (getSet c' addr).lines = (getSet c addr).lines) : getLine c' addr = getLine c addr := by
  rw [h.eq_of_sets h'] at hl ⊢
  simp only [getLine, CacheSet.find, hl]
  rfl

/-- So does the evicted line, and the line that takes its place. -/
theorem evictedLine_of_set (h : c.Fits g) (h' : c'.Fits g)
    (hl : (getSet c' addr).lines = (getSet c addr).lines) (j : Nat) :
    c'.evictedLine addr j = c.evictedLine addr j := by
  rw [h.eq_of_sets h'] at hl ⊢
  simp only [Cache.evictedLine, hl]
  rfl

theorem filledLine_of_set (h : c.Fits g) (h' : c'.Fits g)
    (hl : (getSet c' addr).lines = (getSet c addr).lines) (operation : Operation) (j : Nat)
    (data : Nat → Byte) :
    c'.filledLine addr operation j data = c.filledLine addr operation j data := by
  rw [h.eq_of_sets h'] at hl ⊢
  simp only [Cache.filledLine, hl]
  rfl

end Cache.Fits

/-- Two caches of one geometry whose sets agree in their lines and in the order in which these
will go. -/
structure SameOrders (g : Geometry) (c c' : Cache) : Prop where
  fits : c.Fits g
  fits' : c'.Fits g
  sets : ∀ i < 2 ^ g.s, ∃ order, Twins g.A (c.sets i) (c'.sets i) order order

namespace SameOrders

variable {g : Geometry} {c c' : Cache}

theorem set (h : SameOrders g c c') (addr : Word) :
    ∃ order, Twins g.A (getSet c addr) (getSet c' addr) order order := by
  have hset := h.sets _ (h.fits.setIndex_lt addr)
  rw [h.fits.eq_of_sets h.fits'] at hset ⊢
  exact hset

theorem putSet (h : SameOrders g c c') {addr : Word} {set set' : CacheSet} {order : List Nat}
    (hset : Twins g.A set set' order order) :
    SameOrders g (c.putSet addr set) (c'.putSet addr set') := by
  refine ⟨h.fits.putSet _ _, h.fits'.putSet _ _, fun i hi => ?_⟩
  have hindex : setIndex c' addr = setIndex c addr := by
    rw [h.fits.eq_of_sets h.fits']
    rfl
  rw [sets_putSet, sets_putSet, hindex]
  by_cases hii : i = (setIndex c addr).toNat
  · rw [if_pos hii, if_pos hii]
    exact ⟨order, hset⟩
  · rw [if_neg hii, if_neg hii]
    exact h.sets i hi

/-- Storing a valid line and recording its use, in both. -/
theorem touch (h : SameOrders g c c') {addr : Word} {j : Nat} (hj : j < g.A) {l : CacheLine}
    (hl : l.valid = true) :
    SameOrders g (c.putSet addr (((getSet c addr).putLine j l).touch c.A.toNat j))
      (c'.putSet addr (((getSet c' addr).putLine j l).touch c'.A.toNat j)) := by
  obtain ⟨order, hset⟩ := h.set addr
  rw [h.fits.A_toNat, h.fits'.A_toNat]
  exact h.putSet (hset.touch g.A_le hj hl)

theorem checkHit (h : SameOrders g c c') (k k' : Counters) (addr : Word) (operation : Operation) :
    (checkHit c k addr operation).1 = (checkHit c' k' addr operation).1 ∧
      SameOrders g (checkHit c k addr operation).2.1 (checkHit c' k' addr operation).2.1 := by
  obtain ⟨order, hset⟩ := h.set addr
  have hline := h.fits.getLine_of_set h.fits' hset.lines
  cases hj : getLine c addr with
  | none =>
    rw [checkHit_of_none hj, checkHit_of_none (hline.trans hj)]
    exact ⟨rfl, h⟩
  | some j =>
    obtain ⟨hp, hjA, -⟩ := List.find?_range_eq_some.1 hj
    rw [h.fits.A_toNat, List.mem_range] at hjA
    rw [checkHit_of_some hj, checkHit_of_some (hline.trans hj), Cache.hit, Cache.hit, hset.lines]
    refine ⟨rfl, h.touch hjA ?_⟩
    cases operation <;> exact (Bool.and_eq_true_iff.1 hp).1

theorem handleMiss (h : SameOrders g c c') (k k' : Counters) (addr : Word) (operation : Operation)
    (incoming : Option (Nat → Byte)) :
    (handleMiss c k addr operation incoming).1 = (handleMiss c' k' addr operation incoming).1 ∧
      SameOrders g (handleMiss c k addr operation incoming).2.1
        (handleMiss c' k' addr operation incoming).2.1 := by
  obtain ⟨order, hset⟩ := h.set addr
  obtain ⟨j, hj, -, hsel, hsel'⟩ := hset.selectLine fun _ => rfl
  obtain ⟨_, hmiss⟩ := handleMiss_of_selectLine (h.fits.A_toNat ▸ hsel) k operation incoming
  obtain ⟨_, hmiss'⟩ := handleMiss_of_selectLine (h.fits'.A_toNat ▸ hsel') k' operation incoming
  rw [hmiss, hmiss', h.fits.evictedLine_of_set h.fits' hset.lines,
    h.fits.filledLine_of_set h.fits' hset.lines]
  exact ⟨rfl, h.touch hj rfl⟩

theorem getWordCache (h : SameOrders g c c') (addr : Word) :
    getWordCache c' addr = getWordCache c addr := by
  obtain ⟨order, hset⟩ := h.set addr
  have hline := h.fits.getLine_of_set h.fits' hset.lines
  rw [ChArm.getWordCache, ChArm.getWordCache, hline, hset.lines]
  rw [h.fits.eq_of_sets h.fits']
  rfl

theorem setWord (h : SameOrders g c c') (k k' : Counters) (addr val : Word) :
    Alike (fun s t => SameOrders g s.1 t.1) (Cache.call (c, k) (.setWord addr val))
      (Cache.call (c', k') (.setWord addr val)) := by
  obtain ⟨order, hset⟩ := h.set addr
  have hline := h.fits.getLine_of_set h.fits' hset.lines
  have hoff : blockOffset c' addr = blockOffset c addr := by
    rw [h.fits.blockOffset_eq, h.fits'.blockOffset_eq]
  have hB : c'.B = c.B := by rw [h.fits.B, h.fits'.B]
  simp only [Cache.call, setWordCache, hline, hoff, hB, hset.lines]
  cases hj : getLine c addr with
  | none => exact .error _
  | some j =>
    have hv := (Bool.and_eq_true_iff.1 (List.find?_range_eq_some.1 hj).1).1
    by_cases hfit : blockOffset c addr + 8 ≤ c.B.toNat
    · simp only [if_pos hfit]
      exact .ok _ (h.putSet (hset.putLine hv hv))
    · simp only [if_neg hfit]
      exact .error _

/-- **One call** gets one reply from both caches and leaves them in step. -/
theorem call {s t : Cache × Counters} (h : SameOrders g s.1 t.1) (call : Call) :
    Alike (fun s t => SameOrders g s.1 t.1) (Cache.call s call) (Cache.call t call) := by
  cases call with
  | checkHit addr operation =>
    obtain ⟨hreply, hafter⟩ := h.checkHit s.2 t.2 addr operation
    rw [Cache.call, Cache.call, hreply]
    exact .ok _ hafter
  | handleMiss addr operation incoming =>
    obtain ⟨hreply, hafter⟩ := h.handleMiss s.2 t.2 addr operation incoming
    rw [Cache.call, Cache.call, hreply]
    exact .ok _ hafter
  | getWord addr =>
    rw [Cache.call, Cache.call, h.getWordCache]
    cases ChArm.getWordCache s.1 addr with
    | error e => exact .error e
    | ok val => exact .ok _ h
  | setWord addr val => exact h.setWord s.2 t.2 addr val

/-- No session tells the caches apart. -/
theorem indistinguishable {s t : Cache × Counters} (h : SameOrders g s.1 t.1) :
    Indistinguishable Cache.call s t :=
  indistinguishable_of_related (R := fun s t => SameOrders g s.1 t.1) (fun _ _ h => h.call) h

end SameOrders

/-! ## Orders that show -/

/-- The line `set_word_cache` leaves. -/
def Cache.storedLine (c : Cache) (addr : Word) (j : Nat) (val : Word) : CacheLine :=
  { (getSet c addr).lines j with
    data := putWord64 ((getSet c addr).lines j).data (blockOffset c addr) val
    dirty := true }

theorem call_setWord {c : Cache} {addr : Word} {j : Nat} (hj : getLine c addr = some j)
    (hfit : blockOffset c addr + 8 ≤ c.B.toNat) (k : Counters) (val : Word) :
    Cache.call (c, k) (.setWord addr val) =
      .ok (.stored, c.putSet addr ((getSet c addr).putLine j (c.storedLine addr j val)), k) := by
  simp only [Cache.call, setWordCache, hj, if_pos hfit]
  rfl

theorem call_handleMiss {c : Cache} {addr : Word} {j : Nat}
    (hsel : selectLine (getSet c addr) c.A.toNat = (j, getSet c addr)) (k : Counters) :
    ∃ k', Cache.call (c, k) (.handleMiss addr .read none) =
      .ok (.evicted (c.evictedLine addr j),
        c.putSet addr (((getSet c addr).putLine j
          (c.filledLine addr .read j fun _ => 0)).touch c.A.toNat j), k') := by
  obtain ⟨k', hmiss⟩ := handleMiss_of_selectLine hsel k .read none
  exact ⟨k', by rw [Cache.call, hmiss]; rfl⟩

theorem exists_byteOf_ne (b : Byte) : ∃ val, byteOf val 0 ≠ b := by
  by_cases hb : b = 0
  · exact ⟨1, by subst hb; decide⟩
  · exact ⟨0, by simpa [byteOf] using Ne.symm hb⟩

/-- Two full sets about to give up lines with different first bytes. -/
theorem not_indistinguishable_of_victims {g : Geometry} {c c' : Cache} (hf : c.Fits g)
    (hf' : c'.Fits g) {addr : Word} {u u' : List Nat} {p q : Nat}
    (h : Twins g.A (getSet c addr) (getSet c' addr) (u ++ [p]) (u' ++ [q]))
    (hlen : (u ++ [p]).length = g.A)
    (hdata : ((getSet c addr).lines p).data 0 ≠ ((getSet c addr).lines q).data 0)
    (k k' : Counters) : ¬ Indistinguishable Cache.call (c, k) (c', k') := by
  intro hind
  have hsel := h.ordered.selectLine_last hlen
  have hsel' := h.ordered'.selectLine_last (h.length_eq.trans hlen)
  obtain ⟨_, hmiss⟩ := call_handleMiss (hf.A_toNat.symm ▸ hsel) k
  obtain ⟨_, hmiss'⟩ := call_handleMiss (hf'.A_toNat.symm ▸ hsel') k'
  obtain ⟨hreply, -⟩ := hind.answer hmiss hmiss'
  have hbyte := congrFun (congrArg EvictedLine.data (Reply.evicted.inj hreply)) 0
  rw [hf.evictedLine_of_set hf' h.lines] at hbyte
  simp only [Cache.evictedLine] at hbyte
  rw [memcpy_of_lt, memcpy_of_lt] at hbyte
  · exact hdata hbyte
  all_goals
    rw [hf.B_toNat]
    exact Nat.two_pow_pos _

/-- In the sets of `x` the orders of two caches differ, last before the lines `t` that end both: the
one continues with `p`, the other with `q`. The line `q` is where a store to `y` goes, but for the
lines `t` and invalid ones. -/
structure Parting (g : Geometry) (x y : Word) (c c' : Cache) (u u' : List Nat) (p q : Nat)
    (t : List Nat) : Prop where
  fits : c.Fits g
  fits' : c'.Fits g
  twins : Twins g.A (getSet c x) (getSet c' x) (u ++ p :: t) (u' ++ q :: t)
  ne : p ≠ q
  index : setIndex c y = setIndex c x
  tags : tagOf c y ≠ tagOf c x
  offset : blockOffset c y = 0
  tag : ((getSet c x).lines q).tag = tagOf c y
  before : ∀ j < q, ((getSet c x).lines j).valid = true →
    j ∈ t ∨ ((getSet c x).lines j).tag = tagOf c x

namespace Parting

variable {g : Geometry} {x y : Word} {c c' : Cache} {u u' : List Nat} {p q : Nat} {t : List Nat}

/-- With both sets full and about to give up `p` and `q`, a store to `y` tells them apart. -/
theorem not_indistinguishable_of_full (h : Parting g x y c c' u u' p q [])
    (hfull : (u ++ [p]).length = g.A) (k k' : Counters) :
    ¬ Indistinguishable Cache.call (c, k) (c', k') := by
  intro hind
  obtain ⟨f, rfl⟩ : ∃ f, c' = { c with sets := f } := ⟨_, h.fits.eq_of_sets h.fits'⟩
  have hA := h.fits.A_toNat
  have hfull' : (u' ++ [q]).length = g.A := h.twins.length_eq.trans hfull
  have hsety : getSet c y = getSet c x := by rw [getSet, getSet, h.index]
  have hsety' : getSet { c with sets := f } y = getSet { c with sets := f } x := by
    rw [getSet, getSet]
    exact congrArg (fun i : Word => f i.toNat) h.index
  have hpA : p < g.A := ((h.twins.ordered.mem_iff p).1 (by simp)).1
  have hqA : q < g.A := ((h.twins.ordered'.mem_iff q).1 (by simp)).1
  have hv : ∀ j < g.A, ((getSet c x).lines j).valid = true :=
    fun j hj => h.twins.ordered.valid_of_full hfull hj
  -- no line before `q` has the tag of `y`
  have hq : getLine c y = some q := by
    rw [getLine, hsety, hA, CacheSet.find, List.find?_range_eq_some]
    refine ⟨?_, List.mem_range.2 hqA, fun j hj => ?_⟩
    · rw [hv q hqA, h.tag]
      simp
    · rcases h.before j hj (hv j (by omega)) with hmem | htag
      · cases hmem
      · rw [htag]
        simp [h.tags.symm]
  have hq' : getLine { c with sets := f } y = some q := by
    refine (h.fits.getLine_of_set h.fits' ?_).trans hq
    rw [hsety, hsety', h.twins.lines]
  have hfit : blockOffset c y + 8 ≤ c.B.toNat := by
    rw [h.offset, h.fits.B_toNat, ← g.B_eq]
    exact (Nat.zero_add 8).symm ▸ g.B_ge
  obtain ⟨val, hval⟩ := exists_byteOf_ne (((getSet c x).lines p).data 0)
  obtain ⟨-, hind⟩ := hind.answer (call_setWord hq hfit k val) (call_setWord hq' hfit k' val)
  have hstored : Cache.storedLine { c with sets := f } y q val = c.storedLine y q val := by
    simp only [Cache.storedLine, hsety, hsety', h.twins.lines]
    rfl
  rw [hsety, hsety', hstored] at hind
  have htw := h.twins.putLine (l := c.storedLine y q val) (hv q hqA) (by
    rw [Cache.storedLine, hsety]
    exact hv q hqA)
  -- now the one set gives up `p`, the other the line just stored to
  have hvict : Twins g.A
      (getSet (c.putSet y ((getSet c x).putLine q (c.storedLine y q val))) y)
      (getSet (Cache.putSet { c with sets := f } y
        ((getSet { c with sets := f } x).putLine q (c.storedLine y q val))) y)
      (u ++ [p]) (u' ++ [q]) := by
    rw [getSet_putSet_self, getSet_putSet_self]
    exact htw
  refine not_indistinguishable_of_victims (h.fits.putSet _ _) (h.fits'.putSet _ _) hvict hfull ?_
    k k' hind
  rw [getSet_putSet_self]
  simp only [CacheSet.putLine, if_true, if_neg h.ne, Cache.storedLine, h.offset]
  exact hval.symm

/-- A miss handled at `x` that gives up one line in both caches. -/
theorem fill (h : Parting g x y c c' u u' p q t) {j : Nat} (hj : j < g.A) (hqj : q ≠ j)
    {t₁ : List Nat} (ho : moveToFront j (u ++ p :: t) = j :: u ++ p :: t₁)
    (ho' : moveToFront j (u' ++ q :: t) = j :: u' ++ q :: t₁) (ht : ∀ i ∈ t, i ≠ j → i ∈ t₁)
    {l : CacheLine} (hl : l.valid = true) (hx : l.tag = tagOf c x) :
    Parting g x y (c.putSet x (((getSet c x).putLine j l).touch g.A j))
      (c'.putSet x (((getSet c' x).putLine j l).touch g.A j)) (j :: u) (j :: u') p q t₁ := by
  have hline : ∀ i, (((getSet c x).putLine j l).touch g.A j).lines i =
      if i = j then l else (getSet c x).lines i := fun _ => rfl
  refine ⟨h.fits.putSet _ _, h.fits'.putSet _ _, ?_, h.ne, h.index, h.tags, h.offset, ?_, ?_⟩
  · rw [getSet_putSet_self, getSet_putSet_self, ← ho, ← ho']
    exact h.twins.touch g.A_le hj hl
  · rw [getSet_putSet_self, hline, if_neg hqj]
    exact h.tag
  · intro i hi hv
    rw [getSet_putSet_self, hline] at hv ⊢
    by_cases hij : i = j
    · rw [if_pos hij]
      exact Or.inr hx
    · rw [if_neg hij] at hv ⊢
      exact (h.before i hi hv).imp_left fun hm => ht i hm hij

/-- Handling a miss at `x` leaves caches no session tells apart with such caches. -/
theorem indistinguishable_fill (h : Parting g x y c c' u u' p q t) {j : Nat}
    (hsel : selectLine (getSet c x) g.A = (j, getSet c x))
    (hsel' : selectLine (getSet c' x) g.A = (j, getSet c' x)) {k k' : Counters}
    (hind : Indistinguishable Cache.call (c, k) (c', k')) :
    ∃ l k₁ k₁', l.valid = true ∧ l.tag = tagOf c x ∧ Indistinguishable Cache.call
      (c.putSet x (((getSet c x).putLine j l).touch g.A j), k₁)
      (c'.putSet x (((getSet c' x).putLine j l).touch g.A j), k₁') := by
  obtain ⟨k₁, hmiss⟩ := call_handleMiss (h.fits.A_toNat.symm ▸ hsel) k
  obtain ⟨k₁', hmiss'⟩ := call_handleMiss (h.fits'.A_toNat.symm ▸ hsel') k'
  obtain ⟨-, hafter⟩ := hind.answer hmiss hmiss'
  rw [h.fits.A_toNat, h.fits'.A_toNat, h.fits.filledLine_of_set h.fits' h.twins.lines] at hafter
  exact ⟨_, k₁, k₁', rfl, rfl, hafter⟩

/-- **Orders show.**  Misses handled at `x` use up the free lines and the lines on which the orders
agree, then a store and one more miss tell the caches apart. -/
theorem not_indistinguishable (h : Parting g x y c c' u u' p q t) (k k' : Counters) :
    ¬ Indistinguishable Cache.call (c, k) (c', k') := by
  -- the lines still to go before `p` and `q` do, and the free ones
  induction hn : t.length + (g.A - (u ++ p :: t).length) using Nat.strong_induction_on
    generalizing c c' u u' t k k' with
  | _ n ih =>
    intro hind
    by_cases hfull : (u ++ p :: t).length = g.A
    · cases t using List.reverseRecOn with
      | nil => exact h.not_indistinguishable_of_full hfull k k' hind
      | append_singleton t a =>
        have hsplit : ∀ (v : List Nat) (r : Nat), v ++ r :: (t ++ [a]) = v ++ r :: t ++ [a] := by
          intro v r
          rw [List.append_assoc, List.cons_append]
        have hord := h.twins.ordered
        have hord' := h.twins.ordered'
        have hfull' := h.twins.length_eq.trans hfull
        rw [hsplit] at hord hord' hfull hfull'
        obtain ⟨l, k₁, k₁', hl, hx, hind'⟩ := h.indistinguishable_fill
          (hord.selectLine_last hfull) (hord'.selectLine_last hfull') hind
        have hqa : q ≠ a :=
          (List.nodup_append.1 hord'.nodup).2.2 q (by simp) a (List.mem_singleton_self a)
        have ht : ∀ i ∈ t ++ [a], i ≠ a → i ∈ t := by
          intro i hi hia
          exact (List.mem_append.1 hi).resolve_right fun hm => hia (List.mem_singleton.1 hm)
        have hfill := h.fill ((hord.mem_iff a).1 (by simp)).1 hqa
          ((hsplit u p).symm ▸ moveToFront_concat hord.nodup)
          ((hsplit u' q).symm ▸ moveToFront_concat hord'.nodup) ht hl hx
        refine ih _ ?_ hfill k₁ k₁' rfl hind'
        simp only [List.length_append, List.length_cons, List.length_nil] at hn ⊢
        omega
    · obtain ⟨j, hj, hfree | ⟨hlen, -⟩, hsel, hsel'⟩ :=
        h.twins.selectLine fun hlen => absurd hlen hfull
      · obtain ⟨l, k₁, k₁', hl, hx, hind'⟩ := h.indistinguishable_fill hsel hsel' hind
        have hnot : j ∉ u ++ p :: t := fun hm => by
          have := ((h.twins.ordered.mem_iff j).1 hm).2
          simp [hfree] at this
        have hnot' : j ∉ u' ++ q :: t := fun hm => hnot ((h.twins.mem_iff j).1 hm)
        have hqj : q ≠ j := fun hqj => hnot' (by simp [hqj])
        have hfill := h.fill hj hqj (congrArg _ (List.erase_of_not_mem hnot))
          (congrArg _ (List.erase_of_not_mem hnot')) (fun i hi _ => hi) hl hx
        refine ih _ ?_ hfill k₁ k₁' rfl hind'
        have hle := h.twins.ordered.length_le
        simp only [List.length_append, List.length_cons] at hn hle hfull ⊢
        omega
      · exact absurd hlen hfull

end Parting

end ChArm
