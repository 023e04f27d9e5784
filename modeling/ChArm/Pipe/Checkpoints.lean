import ChArm.Base.Loads
import ChArm.Pipe.CacheInvisible

/-!
# Checkpoints and loads

The data and stack sections of the log walk the page table, while the newest data
may be in a line of the write-back cache.  In every state of every run the
sections show what loads would see exactly when no doubleword they cover is
hidden by a line that holds another one (`checkpoint_showsLoads_iff`).

* `showsLoads_iff` — one section of the log.
* `sections_eq_iff` — when two sections print the same.
* `checkpoint_showsLoads_iff` — the log, at every point of every run.
* `Memory.Mirrors.hidden_eq_false` — lines that have been written back hide nothing.
-/

namespace ChArm

/-! ## What a section covers -/

/-- Is this one of the doublewords of the run of mapped pages from `base` on? -/
def Scanned (pt : PTable) (base stride a : Word) : Prop :=
  ∃ n, Run pt base stride n ∧
    ∃ i < n, ∃ t < 512, a = walkAddr base stride i + BitVec.ofNat 64 (8 * t)

/-- Every doubleword of the section, printed or omitted as zero, is the one that a load returns. -/
structure ShowsLoads (m : Memory) (base stride : Word) (lines : List (Word × Word)) : Prop where
  printed : ∀ a w, (a, w) ∈ lines → m.Loads a w
  omitted : ∀ a, Scanned m.ptable base stride a → (∀ w, (a, w) ∉ lines) → m.Loads a 0

/-- Does a resident line hold another doubleword for the address than the page table?  It need not be
dirty: a misaligned `STUR` that begins just below the data segment writes past a clean one. -/
def Memory.hidden (m : Memory) (a : Word) : Bool :=
  match m.cache with
  | some c => m.segStart .data ≤ a &&
      match getWordCache c a with
      | .ok v => v != m.ptable.wordAt a
      | .error _ => false
  | none => false

/-- No doubleword that the section covers is hidden, and none is at address 0. -/
def Shown (m : Memory) (base stride : Word) : Prop :=
  ∀ a, Scanned m.ptable base stride a → a ≠ NULL_ADDR ∧ m.hidden a = false

theorem Memory.hidden_eq_false_iff (m : Memory) (a : Word) :
    m.hidden a = false ↔ m.loadedWord a = m.ptable.wordAt a := by
  unfold hidden loadedWord
  cases m.cache with
  | none => simp
  | some c =>
    dsimp only
    by_cases hle : m.segStart .data ≤ a
    · rw [decide_eq_true hle, Bool.true_and, if_pos hle]
      cases getWordCache c a <;> simp
    · rw [decide_eq_false hle, Bool.false_and, if_neg hle]
      simp

theorem Scanned.aligned {pt : PTable} {base stride a : Word} (hb : PageAligned base)
    (hs : PageAligned stride) (ha : Scanned pt base stride a) : a.toNat % 8 = 0 := by
  obtain ⟨n, -, i, -, t, ht, rfl⟩ := ha
  have hwalk := hb.walkAddr hs i
  rw [PageAligned] at hwalk
  rw [BitVec.toNat_add, BitVec.toNat_ofNat]
  omega

/-- **When a section shows what loads see.** -/
theorem showsLoads_iff {m : Memory} (hm : m.Tagged) {base stride : Word} (hb : PageAligned base)
    (hs : PageAligned stride) {lines : List (Word × Word)} (hl : Lists m.ptable base stride lines) :
    ShowsLoads m base stride lines ↔ Shown m base stride := by
  obtain ⟨n, hn, rfl⟩ := hl
  constructor
  · intro h a ha
    have hal := ha.aligned hb hs
    have hword : m.Loads a (m.ptable.wordAt a) := by
      obtain ⟨p, hp, i, hi, t, ht, haddr⟩ := ha
      by_cases hzero : m.ptable.wordAt a = 0
      · rw [hzero]
        refine h.omitted a ⟨p, hp, i, hi, t, ht, haddr⟩ fun w hw => ?_
        obtain ⟨hne, rfl, -⟩ := mem_runWords.1 hw
        exact hne hzero
      · rw [← hn.unique hp] at hi
        exact h.printed a _ (mem_runWords.2 ⟨hzero, rfl, i, hi, t, ht, haddr⟩)
    obtain ⟨hne, hloaded⟩ := (Memory.loads_iff hm hal _).1 hword
    exact ⟨hne, (m.hidden_eq_false_iff a).2 hloaded.symm⟩
  · intro h
    have hloads : ∀ a, Scanned m.ptable base stride a → m.Loads a (m.ptable.wordAt a) := by
      intro a ha
      obtain ⟨hne, hshown⟩ := h a ha
      exact (Memory.loads_iff hm (ha.aligned hb hs) _).2
        ⟨hne, ((m.hidden_eq_false_iff a).1 hshown).symm⟩
    refine ⟨fun a w hw => ?_, fun a ha hno => ?_⟩
    · obtain ⟨-, rfl, hscan⟩ := mem_runWords.1 hw
      exact hloads a ⟨n, hn, hscan⟩
    · have hzero : m.ptable.wordAt a = 0 := by
        by_contra hne
        obtain ⟨p, hp, hscan⟩ := ha
        rw [← hn.unique hp] at hscan
        exact hno _ (mem_runWords.2 ⟨hne, rfl, hscan⟩)
      rw [← hzero]
      exact hloads a ha

/-! ## Two logs -/

/-- Loads return the same. -/
def SameLoads (m m' : Memory) : Prop := ∀ a, a.toNat % 8 = 0 → ∀ v, m.Loads a v ↔ m'.Loads a v

/-- Where the run of one page table goes on behind the end of the other's, it holds zeros only. -/
def SurplusZero (pt pt' : PTable) (base stride : Word) : Prop :=
  ∀ n p, Run pt base stride n → Run pt' base stride p → ∀ t < 512,
    (∀ i, n ≤ i → i < p → pt'.wordAt (walkAddr base stride i + BitVec.ofNat 64 (8 * t)) = 0) ∧
      ∀ i, p ≤ i → i < n → pt.wordAt (walkAddr base stride i + BitVec.ofNat 64 (8 * t)) = 0

theorem pageWords_congr {pt pt' : PTable} {start : Word}
    (h : ∀ t < 512, pt.wordAt (start + BitVec.ofNat 64 (8 * t)) =
      pt'.wordAt (start + BitVec.ofNat 64 (8 * t))) : pt.pageWords start = pt'.pageWords start := by
  refine List.filterMap_congr fun t ht => ?_
  dsimp only
  rw [h t (List.mem_range.1 ht)]

theorem pageWords_eq_nil_iff {pt : PTable} {start : Word} :
    pt.pageWords start = [] ↔ ∀ t < 512, pt.wordAt (start + BitVec.ofNat 64 (8 * t)) = 0 := by
  simp only [PTable.pageWords, List.filterMap_eq_nil_iff, List.mem_range]
  refine forall₂_congr fun t _ => ?_
  split <;> simp_all

theorem runWords_add (pt : PTable) (base stride : Word) (n k : Nat) :
    pt.runWords base stride (n + k) = pt.runWords base stride n ++
      (List.range k).flatMap fun i => pt.pageWords (walkAddr base stride (n + i)) := by
  simp only [PTable.runWords, List.range_add, List.flatMap_append, List.flatMap_map]

/-- A longer run prints the same exactly when there are only zeros behind the shorter one. -/
theorem runWords_eq_add_iff {pt pt' : PTable} {base stride : Word} {n k : Nat}
    (h : pt.runWords base stride n = pt'.runWords base stride n) :
    pt.runWords base stride n = pt'.runWords base stride (n + k) ↔
      ∀ i, n ≤ i → i < n + k → ∀ t < 512,
        pt'.wordAt (walkAddr base stride i + BitVec.ofNat 64 (8 * t)) = 0 := by
  rw [runWords_add, h, List.self_eq_append_right, List.flatMap_eq_nil_iff]
  constructor
  · intro hnil i hni hik
    obtain ⟨j, rfl⟩ := Nat.exists_eq_add_of_le hni
    exact pageWords_eq_nil_iff.1 (hnil j (List.mem_range.2 (by omega)))
  · intro hzero i hi
    rw [List.mem_range] at hi
    exact pageWords_eq_nil_iff.2 (hzero (n + i) (by omega) (by omega))

/-- **When two sections print the same**, where they cover the same doublewords. -/
theorem sections_eq_iff {pt pt' : PTable} {base stride : Word} {lines lines' : List (Word × Word)}
    (hl : Lists pt base stride lines) (hl' : Lists pt' base stride lines')
    (hagree : ∀ a, Scanned pt base stride a → Scanned pt' base stride a →
      pt.wordAt a = pt'.wordAt a) :
    lines = lines' ↔ SurplusZero pt pt' base stride := by
  obtain ⟨n, hn, rfl⟩ := hl
  obtain ⟨p, hp, rfl⟩ := hl'
  have hcommon : ∀ q, q ≤ n → q ≤ p →
      pt.runWords base stride q = pt'.runWords base stride q := by
    intro q hqn hqp
    refine List.flatMap_congr fun i hi => pageWords_congr fun t ht => ?_
    rw [List.mem_range] at hi
    exact hagree _ ⟨n, hn, i, by omega, t, ht, rfl⟩ ⟨p, hp, i, by omega, t, ht, rfl⟩
  have hsurplus : SurplusZero pt pt' base stride ↔
      (∀ i, n ≤ i → i < p → ∀ t < 512,
        pt'.wordAt (walkAddr base stride i + BitVec.ofNat 64 (8 * t)) = 0) ∧
      ∀ i, p ≤ i → i < n → ∀ t < 512,
        pt.wordAt (walkAddr base stride i + BitVec.ofNat 64 (8 * t)) = 0 := by
    constructor
    · intro h
      exact ⟨fun i hni hip t ht => (h n p hn hp t ht).1 i hni hip,
        fun i hpi hin t ht => (h n p hn hp t ht).2 i hpi hin⟩
    · rintro ⟨h, h'⟩ n' p' hn' hp' t ht
      obtain rfl := hn.unique hn'
      obtain rfl := hp.unique hp'
      exact ⟨fun i hni hip => h i hni hip t ht, fun i hpi hin => h' i hpi hin t ht⟩
  rw [hsurplus]
  rcases Nat.le_total n p with hle | hle
  · obtain ⟨k, rfl⟩ := Nat.exists_eq_add_of_le hle
    rw [runWords_eq_add_iff (hcommon n le_rfl hle)]
    exact ⟨fun h => ⟨h, fun i hpi hin => absurd hin (by omega)⟩, fun h => h.1⟩
  · obtain ⟨k, rfl⟩ := Nat.exists_eq_add_of_le hle
    rw [eq_comm, runWords_eq_add_iff (hcommon p hle le_rfl).symm]
    exact ⟨fun h => ⟨fun i hni hip => absurd hip (by omega), h⟩, fun h => h.2⟩

/-! ## When no line is dirty -/

/-- Has every line been written back? -/
def Cache.noneDirty (c : Cache) : Bool :=
  (List.range c.S.toNat).all fun i => (List.range c.A.toNat).all fun j => !((c.sets i).lines j).dirty

theorem Cache.WellTagged.copy_clean {c : Cache} {g : Geometry} (h : c.WellTagged g)
    (hdirty : c.noneDirty = true) {pt : PTable} {a : Word} {d : Bool} {v : Byte}
    (hcopy : (c.contents pt).copy a = some (d, v)) : d = false := by
  obtain ⟨j, hj, hline⟩ := Option.map_eq_some_iff.1 hcopy
  have hlt : (setIndex c a).toNat < c.S.toNat := lt_of_lt_of_eq (h.fits.setIndex_lt a) h.fits.S_toNat.symm
  rw [h.getLine_eq] at hj
  have hjA : j < c.A.toNat := lt_of_lt_of_eq (CacheSet.find_sound hj).1 h.fits.A_toNat.symm
  have hset := List.all_eq_true.1 hdirty _ (List.mem_range.2 hlt)
  have hnot := List.all_eq_true.1 hset j (List.mem_range.2 hjA)
  rw [Bool.not_eq_true'] at hnot
  exact (congrArg Prod.fst hline).symm.trans hnot

namespace Memory.Mirrors

variable {g : Geometry} {c : Cache} {m m' : Memory} (h : Mirrors g c m m')
include h

/-- A load sees the doubleword of the flat memory. -/
theorem loadedWord_eq (hdata : (m'.segStart .data).toNat % 8 = 0) {a : Word} (ha : a.toNat % 8 = 0) :
    m'.loadedWord a = m.ptable.wordAt a := by
  have hcache := h.coherent.cache
  have hview : ∀ b, (c.contents m'.ptable).view b = m.ptable.byteAt b := by
    intro b
    have hb := congrFun h.view_eq b
    rw [h.flat.view_eq, h.coherent.view_eq] at hb
    exact hb
  unfold Memory.loadedWord
  rw [hcache]
  dsimp only
  by_cases hle : m'.segStart .data ≤ a
  · rw [if_pos hle]
    have hfit := of_decide_eq_true (g.fitsBlock_of_aligned ha)
    by_cases hg : getLine c a = none
    · have hnone : getWordCache c a = .error .nullDeref := by rw [getWordCache, hg]
      rw [hnone]
      refine leValue_congr fun k hk => ?_
      have habsent : (c.contents m'.ptable).copy (a + BitVec.ofNat 64 k) = none := by
        rw [copy_eq_none_iff, h.coherent.tags.getLine_congr (g.blockNum_add (by omega)).1, hg]
      rw [← hview, WriteBack.Store.view_of_absent habsent]
      rfl
    · rw [h.coherent.tags.getWordCache_spec hg hfit m'.ptable]
      exact leValue_congr fun k hk => hview _
  · -- below the data segment fetch and loads read the page table
    rw [if_neg hle]
    refine leValue_congr fun k hk => ?_
    have htext : m'.textByte (a + BitVec.ofNat 64 k) := by
      rw [BitVec.le_def] at hle
      have hlt := a.isLt
      rw [Memory.textByte, BitVec.toNat_add, BitVec.toNat_ofNat]
      omega
    rw [h.byteAt_eq htext, h.flat.view_eq]

/-- Loads return the same in both. -/
theorem sameLoads (hdata : (m'.segStart .data).toNat % 8 = 0) (hm : m.Tagged) : SameLoads m' m := by
  intro a ha v
  have hflat : m.loadedWord a = m.ptable.wordAt a := by rw [Memory.loadedWord, h.flat.1]
  rw [Memory.loads_iff h.tagged ha, Memory.loads_iff hm ha, h.loadedWord_eq hdata ha, hflat]

/-- Nothing is hidden by a line that has been written back. -/
theorem hidden_eq_false (hdirty : c.noneDirty = true) {a : Word} (ha : a.toNat % 8 = 0) :
    m'.hidden a = false := by
  rw [Memory.hidden_eq_false_iff]
  unfold Memory.loadedWord
  rw [h.coherent.cache]
  dsimp only
  split
  · have hfit := of_decide_eq_true (g.fitsBlock_of_aligned ha)
    by_cases hg : getLine c a = none
    · have hnone : getWordCache c a = .error .nullDeref := by rw [getWordCache, hg]
      rw [hnone]
    · rw [h.coherent.tags.getWordCache_spec hg hfit m'.ptable]
      refine leValue_congr fun k hk => ?_
      cases hcopy : (c.contents m'.ptable).copy (a + BitVec.ofNat 64 k) with
      | none => exact WriteBack.Store.view_of_absent hcopy
      | some r =>
        obtain ⟨d, v⟩ := r
        obtain rfl := h.coherent.tags.copy_clean hdirty hcopy
        rw [WriteBack.Store.view_of_copy hcopy]
        exact h.coherent.clean _ _ hcopy
  · rfl

end Memory.Mirrors

/-! ## The logs of a run -/

/-- Do the data and the stack section show what loads see? -/
def CheckpointShowsLoads (m : Memory) (log : MemoryLog) : Prop :=
  ShowsLoads m (pageStart (m.segStart .data)) 4096#64 log.data ∧
    ShowsLoads m (pageStart (m.segStart .stack - 4096#64)) (-4096#64) log.stack

/-- Nothing that the data and the stack section cover is hidden. -/
def CheckpointShown (m : Memory) : Prop :=
  Shown m (pageStart (m.segStart .data)) 4096#64 ∧
    Shown m (pageStart (m.segStart .stack - 4096#64)) (-4096#64)

/-- The memory systems a run can log: between two cycles, and after fetch, when a read of
`CHECKPOINT_ADDR` in M logs the machine. -/
def LogPoint (ec : Bool) (s : Machine) (m : Memory) : Prop :=
  m = s.mem ∨ ∃ s₁, fetchInstr ec s = .ok s₁ ∧ m = s₁.mem

theorem LogPoint.tagged {ec : Bool} {img : Image} {entry : Word} {n : Nat} {σ : Nat → Machine}
    (hc : img.CacheOk) (h : Execution ec img entry n σ) {k : Nat} (hk : k ≤ n) {m : Memory}
    (hm : LogPoint ec (σ k) m) : m.Tagged := by
  rcases hm with rfl | ⟨s₁, hf, rfl⟩
  · exact h.tagged hc hk
  · obtain ⟨-, r, hr, hmem⟩ := fetchInstr_inv hf
    rw [hmem]
    exact tagged_of_fetch (h.tagged hc hk) hr

theorem wordAt_agree {m m' : Memory} (hm : m.Tagged) (hm' : m'.Tagged) (hsame : SameLoads m m')
    {base stride : Word} (hb : PageAligned base) (hs : PageAligned stride)
    (hshown : Shown m base stride) (hshown' : Shown m' base stride) (a : Word)
    (ha : Scanned m.ptable base stride a) (ha' : Scanned m'.ptable base stride a) :
    m.ptable.wordAt a = m'.ptable.wordAt a := by
  have hal := ha.aligned hb hs
  obtain ⟨hne, h⟩ := hshown a ha
  rw [Memory.hidden_eq_false_iff] at h
  have h' := (Memory.hidden_eq_false_iff m' a).1 (hshown' a ha').2
  have hloads := (hsame a hal _).1 ((Memory.loads_iff hm hal _).2 ⟨hne, rfl⟩)
  rw [← h, ← h']
  exact ((Memory.loads_iff hm' hal _).1 hloads).2

/-- **When checkpoints show what loads see.**  At every point of every run at which the machine is
logged, the data and stack sections show what loads return if and only if no doubleword they
cover is at address 0 or hidden by a line that holds another one.  Two runs that show what
loads see, and in which loads return the same, print the same sections if and only if the
longer of their runs of mapped pages ends in zeros. -/
theorem checkpoint_showsLoads_iff {ec : Bool} {img : Image} {entry : Word} {n : Nat}
    {σ : Nat → Machine} (hc : img.CacheOk) (h : Execution ec img entry n σ) {k : Nat} (hk : k ≤ n)
    {m : Memory} (hm : LogPoint ec (σ k) m) {fuel : Nat} {log : MemoryLog}
    (hlog : logMemory fuel m.segStart m.ptable = some log) :
    (CheckpointShowsLoads m log ↔ CheckpointShown m) ∧
      ∀ {ec' : Bool} {img' : Image} {entry' : Word} {n' : Nat} {σ' : Nat → Machine} {k' : Nat}
        {m' : Memory} {fuel' : Nat} {log' : MemoryLog}, img'.CacheOk →
        Execution ec' img' entry' n' σ' → k' ≤ n' → LogPoint ec' (σ' k') m' →
        logMemory fuel' m'.segStart m'.ptable = some log' → m'.segStart = m.segStart →
        SameLoads m m' → CheckpointShown m → CheckpointShown m' →
        (log.data = log'.data ∧ log.stack = log'.stack ↔
          SurplusZero m.ptable m'.ptable (pageStart (m.segStart .data)) 4096#64 ∧
            SurplusZero m.ptable m'.ptable (pageStart (m.segStart .stack - 4096#64)) (-4096#64)) := by
  have ht := hm.tagged hc h hk
  have hup : PageAligned 4096#64 := rfl
  have hdown : PageAligned (-4096#64) := rfl
  obtain ⟨-, hdata, -, hstack⟩ := logMemory_inv hlog
  refine ⟨and_congr (showsLoads_iff ht (pageAligned_pageStart _) hup hdata)
    (showsLoads_iff ht (pageAligned_pageStart _) hdown hstack), ?_⟩
  intro ec' img' entry' n' σ' k' m' fuel' log' hc' h' hk' hm' hlog' hseg hsame hshown hshown'
  have ht' := hm'.tagged hc' h' hk'
  obtain ⟨-, hdata', -, hstack'⟩ := logMemory_inv hlog'
  rw [CheckpointShown, hseg] at hshown'
  rw [hseg] at hdata' hstack'
  exact and_congr
    (sections_eq_iff hdata hdata' (wordAt_agree ht ht' hsame (pageAligned_pageStart _) hup
      hshown.1 hshown'.1))
    (sections_eq_iff hstack hstack' (wordAt_agree ht ht' hsame (pageAligned_pageStart _) hdown
      hshown.2 hshown'.2))

/-- `movz x0, #0x80, lsl #16`, `movz x1, #7`, `stur x1, [x0]`, `ret`: a store to the data segment. -/
def dataStore : List (BitVec 32) := [0xd2a01000#32, 0xd28000e1#32, 0xf8000001#32, 0xd65f03c0#32]

/-- The same, and before the `ret` `ldur x2, [x0, #8]`: a load that evicts the line of the store. -/
def dataStoreEvicted : List (BitVec 32) :=
  [0xd2a01000#32, 0xd28000e1#32, 0xf8000001#32, 0xf8408002#32, 0xd65f03c0#32]

theorem shown_of_runs {m : Memory}
    (hdata : Run m.ptable (pageStart (m.segStart .data)) 4096#64 1)
    (hstack : Run m.ptable (pageStart (m.segStart .stack - 4096#64)) (-4096#64) 0)
    (hbase : walkAddr (pageStart (m.segStart .data)) 4096#64 0 = 0x800000#64)
    (hhidden : ∀ a : Word, a.toNat % 8 = 0 → m.hidden a = false) : CheckpointShown m := by
  constructor
  · intro a ha
    have hup : PageAligned 4096#64 := rfl
    have hal := ha.aligned (pageAligned_pageStart _) hup
    refine ⟨fun h0 => ?_, hhidden a hal⟩
    obtain ⟨n, hn, i, hi, t, ht, hat⟩ := ha
    obtain rfl := hdata.unique hn
    obtain rfl := Nat.lt_one_iff.1 hi
    have hnat := congrArg BitVec.toNat (hat.symm.trans h0)
    rw [hbase, BitVec.toNat_add, BitVec.toNat_ofNat, BitVec.toNat_ofNat,
      show NULL_ADDR.toNat = 0 from rfl] at hnat
    omega
  · rintro a ⟨n, hn, i, hi, -⟩
    obtain rfl := hstack.unique hn
    exact absurd hi (Nat.not_lt_zero i)

/-- Once the line has been written back the log shows the store, and is that of the run without a
cache. -/
theorem checkpoint_showsLoads_evicted :
    ∃ m m' fuel fuel' log log',
      LogPoint false (stateAt false (.ofWords dataStoreEvicted none) 0x400000#64 11) m ∧
      LogPoint false (stateAt false (.ofWords dataStoreEvicted (some Geometry.oneLine.cache))
        0x400000#64 15) m' ∧
      logMemory fuel m.segStart m.ptable = some log ∧
      logMemory fuel' m'.segStart m'.ptable = some log' ∧
      CheckpointShowsLoads m' log' ∧ log'.data = log.data ∧ log'.stack = log.stack := by
  have hrun : Execution false (.ofWords dataStoreEvicted none) 0x400000#64 11
      (stateAt false (.ofWords dataStoreEvicted none) 0x400000#64) :=
    execution_stateAt (by decide +kernel)
  have hrun' : Execution false (.ofWords dataStoreEvicted (some Geometry.oneLine.cache)) 0x400000#64
      15 (stateAt false (.ofWords dataStoreEvicted (some Geometry.oneLine.cache)) 0x400000#64) :=
    execution_stateAt (by decide +kernel)
  obtain ⟨m, hm⟩ : ∃ m, m = (stateAt false (.ofWords dataStoreEvicted none) 0x400000#64 11).mem :=
    ⟨_, rfl⟩
  obtain ⟨m', hm'⟩ : ∃ m', m' = (stateAt false
      (.ofWords dataStoreEvicted (some Geometry.oneLine.cache)) 0x400000#64 15).mem := ⟨_, rfl⟩
  -- the two runs end with the same memory, and the line has been written back
  obtain ⟨g, c, hmirrors⟩ : ∃ g c, Memory.Mirrors g c m m' := by
    rw [hm, hm']
    exact @mirrors_of_halted false (.ofWords dataStoreEvicted none) .oneLine (by decide) _ _ _ _ _ _
      hrun (by decide +kernel) (by decide +kernel) hrun' (by decide +kernel) (by decide +kernel)
  have hdirty : c.noneDirty = true := by
    have hall : m'.cache.all Cache.noneDirty = true := by
      rw [hm']
      decide +kernel
    rw [hmirrors.coherent.cache] at hall
    exact hall
  have hdata : Run m.ptable (pageStart (m.segStart .data)) 4096#64 1 := by
    rw [hm]
    exact ⟨by decide +kernel, by decide +kernel⟩
  have hstack : Run m.ptable (pageStart (m.segStart .stack - 4096#64)) (-4096#64) 0 := by
    rw [hm]
    exact ⟨by decide +kernel, by decide +kernel⟩
  have hdata' : Run m'.ptable (pageStart (m'.segStart .data)) 4096#64 1 := by
    rw [hm']
    exact ⟨by decide +kernel, by decide +kernel⟩
  have hstack' : Run m'.ptable (pageStart (m'.segStart .stack - 4096#64)) (-4096#64) 0 := by
    rw [hm']
    exact ⟨by decide +kernel, by decide +kernel⟩
  have hseg : m'.segStart = m.segStart := hmirrors.agree.segStart
  have hbase : walkAddr (pageStart (m.segStart .data)) 4096#64 0 = 0x800000#64 := by
    rw [hm]
    decide +kernel
  have hshown : CheckpointShown m := shown_of_runs hdata hstack hbase fun a _ => by
    rw [Memory.hidden, hmirrors.flat.1]
  have hshown' : CheckpointShown m' := shown_of_runs hdata' hstack' (hseg ▸ hbase) fun a ha =>
    hmirrors.hidden_eq_false hdirty ha
  obtain ⟨fuel, log, hlog⟩ := exists_logMemory hdata.ends m.segStart
  obtain ⟨fuel', log', hlog'⟩ := exists_logMemory hdata'.ends m'.segStart
  have hc := Image.cacheOk_uncached dataStoreEvicted
  have hc' := Image.cacheOk_ofWords dataStoreEvicted .oneLine
  have hpoint : LogPoint false (stateAt false (.ofWords dataStoreEvicted none) 0x400000#64 11) m :=
    Or.inl hm
  have hpoint' : LogPoint false (stateAt false
      (.ofWords dataStoreEvicted (some Geometry.oneLine.cache)) 0x400000#64 15) m' := Or.inl hm'
  have hsame : SameLoads m' m :=
    hmirrors.sameLoads (by rw [hm']; decide +kernel) (hpoint.tagged hc hrun le_rfl)
  obtain ⟨hshows, hpair⟩ := checkpoint_showsLoads_iff hc' hrun' le_rfl hpoint' hlog'
  have hsurplus : ∀ {base stride : Word} {n : Nat}, Run m'.ptable base stride n →
      Run m.ptable base stride n → SurplusZero m'.ptable m.ptable base stride := by
    intro base stride n hn hn₁ p p₁ hp hp₁ t ht
    obtain rfl := hn.unique hp
    obtain rfl := hn₁.unique hp₁
    exact ⟨fun i hle hlt => absurd hlt (by omega), fun i hle hlt => absurd hlt (by omega)⟩
  have hsections := (hpair hc hrun le_rfl hpoint hlog hseg.symm hsame hshown' hshown).2
    ⟨hsurplus hdata' (hseg ▸ hdata), hsurplus hstack' (hseg ▸ hstack)⟩
  exact ⟨m, m', fuel, fuel', log, log', hpoint, hpoint', hlog, hlog', hshows.2 hshown', hsections⟩

/-- Without the eviction the log at the end of the run omits the word that was stored. -/
theorem not_checkpoint_showsLoads_cached :
    ∃ n σ, Execution false (.ofWords dataStore (some Geometry.oneLine.cache)) 0x400000#64 n σ ∧
      (σ n).running = false ∧ ∃ fuel log,
        logMemory fuel (σ n).mem.segStart (σ n).mem.ptable = some log ∧
        ¬ CheckpointShowsLoads (σ n).mem log := by
  obtain ⟨m, hm⟩ : ∃ m, m = (stateAt false (.ofWords dataStore (some Geometry.oneLine.cache))
      0x400000#64 12).mem := ⟨_, rfl⟩
  have hdata : Run m.ptable (pageStart (m.segStart .data)) 4096#64 1 := by
    rw [hm]
    exact ⟨by decide +kernel, by decide +kernel⟩
  obtain ⟨fuel, log, hlog⟩ := exists_logMemory hdata.ends m.segStart
  have hrun : Execution false (.ofWords dataStore (some Geometry.oneLine.cache)) 0x400000#64 12
      (stateAt false (.ofWords dataStore (some Geometry.oneLine.cache)) 0x400000#64) :=
    execution_stateAt (by decide +kernel)
  have ht : m.Tagged := by
    rw [hm]
    exact hrun.tagged (Image.cacheOk_ofWords dataStore .oneLine) le_rfl
  have hscan : Scanned m.ptable (pageStart (m.segStart .data)) 4096#64 0x800000#64 := by
    refine ⟨1, hdata, 0, by decide, 0, by decide, ?_⟩
    rw [hm]
    decide +kernel
  have hhidden : m.hidden 0x800000#64 = true := by
    rw [hm]
    decide +kernel
  have hfails : ¬ CheckpointShowsLoads m log := by
    intro hshows
    have hup : PageAligned 4096#64 := rfl
    have hshown := (showsLoads_iff ht (pageAligned_pageStart _) hup (logMemory_inv hlog).2.1).1
      hshows.1 _ hscan
    rw [hhidden] at hshown
    cases hshown.2
  rw [hm] at hlog hfails
  exact ⟨12, _, hrun, by decide +kernel, fuel, log, hlog, hfails⟩

end ChArm
