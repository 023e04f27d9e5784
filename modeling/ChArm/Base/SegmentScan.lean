import ChArm.Base.Log
import ChArm.Base.Execution

/-!
# What the memory sections list

A section of the log should list the non-zero doublewords of the run of mapped
pages that begins at its segment's first page (`Lists`), and ends at the first page
that is not mapped.  Addresses are taken modulo 2^64, as the loops count them.
Text, data and stack do so whenever their walks end.  The heap's loop starts from
the page number at which the data walk has ended, which is not mapped, so it
lists nothing (`logMemory_inv`).

* `scanPages_run`, `scanPages_inv` — the loop over a run of mapped pages.
* `logMemory_inv` — what the log prints, in all four sections.
* `listsSegments_iff` — when that is what it should list.
-/

namespace ChArm

/-! ## Runs of mapped pages -/

/-- The doubleword the page table holds at an address. -/
def PTable.wordAt (pt : PTable) (a : Word) : Word :=
  leValue (fun k => pt.byteAt (a + BitVec.ofNat 64 k)) 8

/-- Is the page of the address mapped? -/
def PTable.mapped (pt : PTable) (a : Word) : Bool := (getPage pt (pageOf a)).isSome

/-- Where the walk is after `i` pages. -/
def walkAddr (base stride : Word) (i : Nat) : Word := base + BitVec.ofNat 64 i * stride

/-- The run of mapped pages from `base` on is `n` pages long. -/
structure Run (pt : PTable) (base stride : Word) (n : Nat) : Prop where
  mapped : ∀ i < n, pt.mapped (walkAddr base stride i) = true
  ends : pt.mapped (walkAddr base stride n) = false

/-- The non-zero doublewords of a page, with their addresses. -/
def PTable.pageWords (pt : PTable) (start : Word) : List (Word × Word) :=
  (List.range 512).filterMap fun t =>
    let a := start + BitVec.ofNat 64 (8 * t)
    if pt.wordAt a ≠ 0 then some (a, pt.wordAt a) else none

/-- The non-zero doublewords of the first `n` pages of a walk. -/
def PTable.runWords (pt : PTable) (base stride : Word) (n : Nat) : List (Word × Word) :=
  (List.range n).flatMap fun i => pt.pageWords (walkAddr base stride i)

/-- The lines are the non-zero doublewords of the run of mapped pages from `base` on. -/
def Lists (pt : PTable) (base stride : Word) (lines : List (Word × Word)) : Prop :=
  ∃ n, Run pt base stride n ∧ lines = pt.runWords base stride n

/-- What the four memory sections should list. -/
structure ListsSegments (segStart : Seg → Word) (pt : PTable) (log : MemoryLog) : Prop where
  text : Lists pt (pageStart (segStart .text)) 4096#64 log.text
  data : Lists pt (pageStart (segStart .data)) 4096#64 log.data
  heap : Lists pt (pageStart (segStart .heap)) 4096#64 log.heap
  stack : Lists pt (pageStart (segStart .stack - 4096#64)) (-4096#64) log.stack

theorem walkAddr_zero (base stride : Word) : walkAddr base stride 0 = base := by
  simp [walkAddr]

theorem walkAddr_succ (base stride : Word) (i : Nat) :
    walkAddr base stride (i + 1) = walkAddr (base + stride) stride i := by
  rw [walkAddr, walkAddr, BitVec.ofNat_add, add_mul, BitVec.one_mul, add_comm (_ * stride),
    add_assoc]

theorem Run.unique {pt : PTable} {base stride : Word} {n p : Nat} (hn : Run pt base stride n)
    (hp : Run pt base stride p) : n = p := by
  rcases Nat.lt_trichotomy n p with hlt | heq | hlt
  · exact absurd ((hp.mapped n hlt).symm.trans hn.ends) nofun
  · exact heq
  · exact absurd ((hn.mapped p hlt).symm.trans hp.ends) nofun

theorem runWords_succ (pt : PTable) (base stride : Word) (n : Nat) :
    pt.runWords base stride (n + 1) =
      pt.pageWords base ++ pt.runWords (base + stride) stride n := by
  simp only [PTable.runWords, List.range_succ_eq_map, List.flatMap_cons, List.flatMap_map,
    walkAddr_zero, walkAddr_succ]

/-- The lines of a run, as a set. -/
theorem mem_runWords {pt : PTable} {base stride : Word} {n : Nat} {a w : Word} :
    (a, w) ∈ pt.runWords base stride n ↔
      w ≠ 0 ∧ w = pt.wordAt a ∧
        ∃ i < n, ∃ t < 512, a = walkAddr base stride i + BitVec.ofNat 64 (8 * t) := by
  simp only [PTable.runWords, PTable.pageWords, List.mem_flatMap, List.mem_filterMap,
    List.mem_range]
  constructor
  · rintro ⟨i, hi, t, ht, hline⟩
    split at hline
    · next hne =>
      obtain ⟨rfl, rfl⟩ := Prod.mk.inj (Option.some.inj hline)
      exact ⟨hne, rfl, i, hi, t, ht, rfl⟩
    · cases hline
  · rintro ⟨hne, rfl, i, hi, t, ht, rfl⟩
    exact ⟨i, hi, t, ht, if_pos hne⟩

/-! ## One page -/

/-- Page addresses have no offset. -/
def PageAligned (a : Word) : Prop := a.toNat % 4096 = 0

theorem pageAligned_pageStart (a : Word) : PageAligned (pageStart a) := by
  have := a.isLt
  rw [PageAligned, pageStart, BitVec.toNat_sub, BitVec.toNat_umod,
    show (4096#64 : Word).toNat = 4096 from rfl]
  omega

theorem PageAligned.walkAddr {base stride : Word} (hb : PageAligned base)
    (hs : PageAligned stride) (i : Nat) : PageAligned (walkAddr base stride i) := by
  rw [PageAligned, ChArm.walkAddr, BitVec.toNat_add, BitVec.toNat_mul, Nat.mod_mod_of_dvd _ (by decide)]
  rw [Nat.add_mod, hb, Nat.mod_mod_of_dvd _ (by decide), Nat.mul_mod, hs, Nat.mul_zero]

/-- Inside a page only the offset changes. -/
theorem PageAligned.page_add {base : Word} (hb : PageAligned base) {k : Nat} (hk : k < 4096) :
    pageOf (base + BitVec.ofNat 64 k) = pageOf base ∧ pageOff (base + BitVec.ofNat 64 k) = k := by
  have hlt := base.isLt
  rw [PageAligned] at hb
  have hsum : (base + BitVec.ofNat 64 k).toNat = base.toNat + k := by
    rw [BitVec.toNat_add, BitVec.toNat_ofNat]
    omega
  constructor
  · apply BitVec.eq_of_toNat_eq
    rw [pageOf, pageOf, BitVec.toNat_udiv, BitVec.toNat_udiv, hsum,
      show (4096#64 : Word).toNat = 4096 from rfl]
    omega
  · rw [pageOff, BitVec.toNat_umod, hsum, show (4096#64 : Word).toNat = 4096 from rfl]
    omega

theorem pageWord_eq {pt : PTable} {base : Word} (hb : PageAligned base) {page : Pte}
    (hpage : getPage pt (pageOf base) = some page) {i : Nat} (hi : i + 8 ≤ 4096) :
    pageWord page i = pt.wordAt (base + BitVec.ofNat 64 i) := by
  refine leValue_congr fun k hk => ?_
  obtain ⟨hof, hoff⟩ := hb.page_add (k := i + k) (by omega)
  rw [PTable.byteAt, BitVec.add_assoc, ← BitVec.ofNat_add, hof, hpage, hoff]

theorem pageLines_eq {pt : PTable} {base : Word} (hb : PageAligned base) {page : Pte}
    (hpage : getPage pt (pageOf base) = some page) :
    pageLines page base 0 = pt.pageWords base := by
  have hwords : ∀ t ∈ List.range 512,
      (let data := pageWord page (0 + 8 * t)
       if data ≠ 0 then some (base + BitVec.ofNat 64 (0 + 8 * t), data) else none) =
      (let a := base + BitVec.ofNat 64 (8 * t)
       if pt.wordAt a ≠ 0 then some (a, pt.wordAt a) else none) := by
    intro t ht
    rw [List.mem_range] at ht
    rw [Nat.zero_add, pageWord_eq hb hpage (by omega)]
  exact List.filterMap_congr hwords

/-! ## One section -/

theorem Run.tail {pt : PTable} {base stride : Word} {n : Nat} (h : Run pt base stride (n + 1)) :
    Run pt (base + stride) stride n where
  mapped := fun i hi => by
    rw [← walkAddr_succ]
    exact h.mapped (i + 1) (Nat.succ_lt_succ hi)
  ends := by
    rw [← walkAddr_succ]
    exact h.ends

theorem Run.cons {pt : PTable} {base stride : Word} {n : Nat} (hb : pt.mapped base = true)
    (h : Run pt (base + stride) stride n) : Run pt base stride (n + 1) where
  mapped := fun i hi => by
    cases i with
    | zero => rwa [walkAddr_zero]
    | succ i =>
      rw [walkAddr_succ]
      exact h.mapped i (Nat.lt_of_succ_lt_succ hi)
  ends := by
    rw [walkAddr_succ]
    exact h.ends

section

variable {pt : PTable} {stride : Word} {start : Word → Nat}
  (hs : PageAligned stride) (hstart : ∀ a, PageAligned a → start a = 0)
include hs hstart

/-- The loop over a run of mapped pages prints its words and stops behind it. -/
theorem scanPages_run {n : Nat} {base : Word} (hb : PageAligned base) (h : Run pt base stride n)
    {fuel : Nat} (hf : n < fuel) :
    scanPages pt stride start fuel base (pageOf base) =
      some (pt.runWords base stride n, walkAddr base stride n, pageOf (walkAddr base stride n)) := by
  induction n generalizing base fuel with
  | zero =>
    obtain ⟨fuel, rfl⟩ := Nat.exists_eq_succ_of_ne_zero hf.ne'
    have hends := h.ends
    rw [walkAddr_zero, PTable.mapped, Option.isSome_eq_false_iff, Option.isNone_iff_eq_none] at hends
    rw [scanPages, hends, walkAddr_zero]
    rfl
  | succ n ih =>
    obtain ⟨fuel, rfl⟩ := Nat.exists_eq_succ_of_ne_zero (Nat.ne_zero_of_lt hf)
    have hmapped := h.mapped 0 (Nat.succ_pos n)
    rw [walkAddr_zero, PTable.mapped, Option.isSome_iff_exists] at hmapped
    obtain ⟨page, hpage⟩ := hmapped
    have hnext := hb.walkAddr hs 1
    rw [walkAddr_succ, walkAddr_zero] at hnext
    rw [scanPages, hpage]
    dsimp only
    rw [ih hnext h.tail (Nat.lt_of_succ_lt_succ hf), hstart base hb, pageLines_eq hb hpage,
      runWords_succ, walkAddr_succ]
    rfl

/-- A loop that ends has walked over a run of mapped pages. -/
theorem scanPages_inv {fuel : Nat} {base : Word} (hb : PageAligned base)
    {r : List (Word × Word) × Word × Word}
    (hr : scanPages pt stride start fuel base (pageOf base) = some r) :
    ∃ n, Run pt base stride n ∧
      r = (pt.runWords base stride n, walkAddr base stride n, pageOf (walkAddr base stride n)) := by
  have hrun : ∃ n < fuel, Run pt base stride n := by
    induction fuel generalizing base r with
    | zero => cases hr
    | succ fuel ih =>
      rw [scanPages] at hr
      cases hpage : getPage pt (pageOf base) with
      | none =>
        refine ⟨0, Nat.succ_pos fuel, fun i hi => absurd hi (Nat.not_lt_zero i), ?_⟩
        rw [walkAddr_zero, PTable.mapped, hpage]
        rfl
      | some page =>
        rw [hpage, Option.map_eq_some_iff] at hr
        obtain ⟨r', hr', -⟩ := hr
        have hnext := hb.walkAddr hs 1
        rw [walkAddr_succ, walkAddr_zero] at hnext
        obtain ⟨n, hn, h⟩ := ih hnext hr'
        refine ⟨n + 1, Nat.succ_lt_succ hn, h.cons ?_⟩
        rw [PTable.mapped, hpage]
        rfl
  obtain ⟨n, hn, h⟩ := hrun
  refine ⟨n, h, ?_⟩
  rw [scanPages_run hs hstart hb h hn] at hr
  exact (Option.some.inj hr).symm

end

theorem scanPages_unmapped {pt : PTable} {pnum : Word} (h : getPage pt pnum = none) (stride : Word)
    (start : Word → Nat) (addr : Word) (fuel : Nat) :
    scanPages pt stride start (fuel + 1) addr pnum = some ([], addr, pnum) := by
  rw [scanPages, h]

theorem pageOff_of_aligned {a : Word} (ha : PageAligned a) : pageOff a = 0 := by
  rw [pageOff, BitVec.toNat_umod]
  exact ha

/-! ## The four sections -/

/-- **What the log prints**: the runs of text, data and stack, and nothing for the heap. -/
theorem logMemory_inv {fuel : Nat} {segStart : Seg → Word} {pt : PTable} {log : MemoryLog}
    (hlog : logMemory fuel segStart pt = some log) :
    Lists pt (pageStart (segStart .text)) 4096#64 log.text ∧
      Lists pt (pageStart (segStart .data)) 4096#64 log.data ∧ log.heap = [] ∧
      Lists pt (pageStart (segStart .stack - 4096#64)) (-4096#64) log.stack := by
  have hup : PageAligned 4096#64 := rfl
  have hdown : PageAligned (-4096#64) := rfl
  simp only [logMemory, Option.bind_eq_bind, Option.bind_eq_some_iff] at hlog
  obtain ⟨⟨text, _, _⟩, htext, ⟨data, _, pnum⟩, hdata, ⟨heap, _, _⟩, hheap, ⟨stack, _, _⟩, hstack,
    hend⟩ := hlog
  obtain ⟨n, hn, htext'⟩ := scanPages_inv hup (fun _ _ => rfl) (pageAligned_pageStart _) htext
  obtain ⟨p, hp, hdata'⟩ := scanPages_inv hup (fun _ _ => rfl) (pageAligned_pageStart _) hdata
  obtain ⟨q, hq, hstack'⟩ := scanPages_inv hdown (fun _ ha => pageOff_of_aligned ha)
    (pageAligned_pageStart _) hstack
  obtain rfl := Option.some.inj hend
  have hempty : heap = [] := by
    have hends := hp.ends
    rw [PTable.mapped, Option.isSome_eq_false_iff, Option.isNone_iff_eq_none] at hends
    obtain ⟨-, -, rfl⟩ := Prod.mk.inj hdata' |>.imp_right Prod.mk.inj
    cases fuel with
    | zero => cases hheap
    | succ fuel =>
      rw [scanPages_unmapped hends] at hheap
      cases hheap
      rfl
  exact ⟨⟨n, hn, congrArg Prod.fst htext'⟩, ⟨p, hp, congrArg Prod.fst hdata'⟩, hempty,
    q, hq, congrArg Prod.fst hstack'⟩

/-- A walk comes past every page. -/
theorem exists_walkAddr {base : Word} (hb : PageAligned base) {stride : Word}
    (hs : stride = 4096#64 ∨ stride = -4096#64) (a : Word) :
    ∃ i, pageOf (walkAddr base stride i) = pageOf a := by
  have hbase : base = pageOf base * 4096#64 := by
    apply BitVec.eq_of_toNat_eq
    have := base.isLt
    rw [PageAligned] at hb
    rw [pageOf, BitVec.toNat_mul, BitVec.toNat_udiv, show (4096#64 : Word).toNat = 4096 from rfl]
    omega
  have hpage : pageOf (pageOf a * 4096#64) = pageOf a := by
    apply BitVec.eq_of_toNat_eq
    have := a.isLt
    rw [pageOf, pageOf, BitVec.toNat_udiv, BitVec.toNat_mul, BitVec.toNat_udiv,
      show (4096#64 : Word).toNat = 4096 from rfl]
    omega
  rcases hs with rfl | rfl
  · refine ⟨(pageOf a - pageOf base).toNat, ?_⟩
    rw [walkAddr, BitVec.ofNat_toNat, BitVec.setWidth_eq]
    nth_rewrite 1 [hbase]
    rw [← add_mul, add_sub_cancel, hpage]
  · refine ⟨(pageOf base - pageOf a).toNat, ?_⟩
    rw [walkAddr, BitVec.ofNat_toNat, BitVec.setWidth_eq, mul_neg, ← neg_mul, neg_sub]
    nth_rewrite 1 [hbase]
    rw [← add_mul, add_sub_cancel, hpage]

/-- Where some page is not mapped, every run ends. -/
theorem exists_run {pt : PTable} {a : Word} (ha : pt.mapped a = false) {base : Word}
    (hb : PageAligned base) {stride : Word} (hs : stride = 4096#64 ∨ stride = -4096#64) :
    ∃ n, Run pt base stride n := by
  have hends : ∃ i, pt.mapped (walkAddr base stride i) = false := by
    obtain ⟨i, hi⟩ := exists_walkAddr hb hs a
    exact ⟨i, by rwa [PTable.mapped, hi]⟩
  refine ⟨Nat.find hends, fun i hi => ?_, Nat.find_spec hends⟩
  rw [← Bool.not_eq_false]
  exact Nat.find_min hends hi

/-- Where the runs end, so does the log. -/
theorem logMemory_eq {pt : PTable} {segStart : Seg → Word} {n p q fuel : Nat}
    (hn : Run pt (pageStart (segStart .text)) 4096#64 n)
    (hp : Run pt (pageStart (segStart .data)) 4096#64 p)
    (hq : Run pt (pageStart (segStart .stack - 4096#64)) (-4096#64) q)
    (hf : n + p + q < fuel) :
    logMemory fuel segStart pt = some
      { text := pt.runWords (pageStart (segStart .text)) 4096#64 n
        data := pt.runWords (pageStart (segStart .data)) 4096#64 p
        heap := []
        stack := pt.runWords (pageStart (segStart .stack - 4096#64)) (-4096#64) q } := by
  have hup : PageAligned 4096#64 := rfl
  have hdown : PageAligned (-4096#64) := rfl
  have htext : scanPages pt 4096#64 (fun _ => 0) fuel (pageStart (segStart .text)) _ = _ :=
    scanPages_run hup (fun _ _ => rfl) (pageAligned_pageStart _) hn (by omega)
  have hdata : scanPages pt 4096#64 (fun _ => 0) fuel (pageStart (segStart .data)) _ = _ :=
    scanPages_run hup (fun _ _ => rfl) (pageAligned_pageStart _) hp (by omega)
  have hstack :
      scanPages pt (-4096#64) pageOff fuel (pageStart (segStart .stack - 4096#64)) _ = _ :=
    scanPages_run hdown (fun _ ha => pageOff_of_aligned ha) (pageAligned_pageStart _) hq (by omega)
  have hends := hp.ends
  rw [PTable.mapped, Option.isSome_eq_false_iff, Option.isNone_iff_eq_none] at hends
  obtain ⟨fuel, rfl⟩ := Nat.exists_eq_succ_of_ne_zero (Nat.ne_zero_of_lt hf)
  have hheap := scanPages_unmapped hends 4096#64 pageOff (segStart .heap) fuel
  simp only [logMemory, htext, hdata, hheap, hstack, Option.bind_eq_bind, Option.bind_some]

/-- Where some page is not mapped, the log ends. -/
theorem exists_logMemory {pt : PTable} {a : Word} (ha : pt.mapped a = false)
    (segStart : Seg → Word) : ∃ fuel log, logMemory fuel segStart pt = some log := by
  obtain ⟨n, hn⟩ := exists_run ha (pageAligned_pageStart (segStart .text)) (Or.inl rfl)
  obtain ⟨p, hp⟩ := exists_run ha (pageAligned_pageStart (segStart .data)) (Or.inl rfl)
  obtain ⟨q, hq⟩ := exists_run ha (pageAligned_pageStart (segStart .stack - 4096#64)) (Or.inr rfl)
  exact ⟨_, _, logMemory_eq hn hp hq (Nat.lt_succ_self _)⟩

/-- A section that lists nothing is right for zeros only. -/
theorem wordAt_eq_zero_of_lists {pt : PTable} {base stride : Word} (h : Lists pt base stride [])
    {i : Nat} (hi : ∀ j ≤ i, pt.mapped (walkAddr base stride j) = true) {t : Nat} (ht : t < 512) :
    pt.wordAt (walkAddr base stride i + BitVec.ofNat 64 (8 * t)) = 0 := by
  obtain ⟨n, hn, hlines⟩ := h
  have hlt : i < n := by
    by_contra hge
    exact absurd ((hi n (Nat.le_of_not_lt hge)).symm.trans hn.ends) nofun
  by_contra hne
  have hmem : (walkAddr base stride i + BitVec.ofNat 64 (8 * t),
      pt.wordAt (walkAddr base stride i + BitVec.ofNat 64 (8 * t))) ∈ pt.runWords base stride n :=
    mem_runWords.2 ⟨hne, rfl, i, hlt, t, ht, rfl⟩
  rw [← hlines] at hmem
  exact List.not_mem_nil hmem

/-- **When the log lists its segments.**  Whatever the pages and the segments, the log ends with each
section listing the run of its segment if and only if some page is not mapped and the run of
the heap holds no doubleword but zeros. -/
theorem listsSegments_iff (segStart : Seg → Word) (pt : PTable) :
    (∃ fuel log, logMemory fuel segStart pt = some log ∧ ListsSegments segStart pt log) ↔
      (∃ a, pt.mapped a = false) ∧
        ∀ i, (∀ j ≤ i, pt.mapped (walkAddr (pageStart (segStart .heap)) 4096#64 j) = true) →
          ∀ t < 512, pt.wordAt
            (walkAddr (pageStart (segStart .heap)) 4096#64 i + BitVec.ofNat 64 (8 * t)) = 0 := by
  constructor
  · rintro ⟨fuel, log, hlog, hlists⟩
    obtain ⟨-, -, hempty, -⟩ := logMemory_inv hlog
    have hheap := hlists.heap
    obtain ⟨n, hn, -⟩ := hlists.text
    rw [hempty] at hheap
    exact ⟨⟨_, hn.ends⟩, fun i hi t ht => wordAt_eq_zero_of_lists hheap hi ht⟩
  · rintro ⟨⟨a, ha⟩, hzero⟩
    obtain ⟨n, hn⟩ := exists_run ha (pageAligned_pageStart (segStart .text)) (Or.inl rfl)
    obtain ⟨p, hp⟩ := exists_run ha (pageAligned_pageStart (segStart .data)) (Or.inl rfl)
    obtain ⟨k, hk⟩ := exists_run ha (pageAligned_pageStart (segStart .heap)) (Or.inl rfl)
    obtain ⟨q, hq⟩ := exists_run ha (pageAligned_pageStart (segStart .stack - 4096#64)) (Or.inr rfl)
    refine ⟨n + p + q + 1, _, logMemory_eq hn hp hq (Nat.lt_succ_self _),
      ⟨n, hn, rfl⟩, ⟨p, hp, rfl⟩, ⟨k, hk, ?_⟩, q, hq, rfl⟩
    refine (List.eq_nil_iff_forall_not_mem.2 fun line hline => ?_).symm
    obtain ⟨hne, hw, i, hi, t, ht, haddr⟩ := mem_runWords.1 (show (line.1, line.2) ∈ _ from hline)
    rw [hw, haddr] at hne
    exact hne (hzero i (fun j hj => hk.mapped j (lt_of_le_of_lt hj hi)) t ht)

/-- `movz x0, #0x1000, lsl #16`, `movz x1, #5`, `stur x1, [x0]`, `ret`: a store to the heap. -/
def heapStore : List (BitVec 32) := [0xd2a20000#32, 0xd28000a1#32, 0xf8000001#32, 0xd65f03c0#32]

/-- The word that was stored on the heap is not listed. -/
theorem not_listsSegments_heapStore :
    ∃ n σ, Execution false (.ofWords heapStore none) 0x400000#64 n σ ∧
      ¬ ∃ fuel log, logMemory fuel (σ n).mem.segStart (σ n).mem.ptable = some log ∧
        ListsSegments (σ n).mem.segStart (σ n).mem.ptable log := by
  refine ⟨6, _, execution_stateAt (by decide +kernel), ?_⟩
  rintro ⟨fuel, log, hlog, hlists⟩
  have hheap := hlists.heap
  rw [(logMemory_inv hlog).2.2.1] at hheap
  have hzero := wordAt_eq_zero_of_lists hheap (i := 0) (t := 0) (fun j hj => ?_) (by decide)
  · have hfive : (stateAt false (.ofWords heapStore none) 0x400000#64 6).mem.ptable.wordAt
        (walkAddr (pageStart ((stateAt false (.ofWords heapStore none)
          0x400000#64 6).mem.segStart .heap)) 4096#64 0 + BitVec.ofNat 64 (8 * 0)) = 5#64 := by
      decide +kernel
    rw [hfive] at hzero
    cases hzero
  · obtain rfl := Nat.le_zero.1 hj
    decide +kernel

end ChArm
