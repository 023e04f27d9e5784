import ChArm.Base.PTable

/-!
# The page table is a flat byte memory

`_mem_read_LE` and `_mem_write_LE`, called in any order on a table that starts
empty, behave as accesses to one byte array of 2^64 cells: a read returns the
bytes last written (`memReadLE_flat`).  The chained buckets behind it stay well
formed: every page sits in the bucket its number hashes to, and no number has
two pages (`PTable.WellFormed`).

* `PTable.WellFormed.addPage` — `add_page` keeps the buckets well formed.
* `runCalls_flat` — any sequence of calls leaves a table that stands for the flat memory.
* `memReadLE_flat` — so every read returns the little-endian value of the bytes last written.
-/

namespace ChArm

/-! ## Well-formed tables -/

/-- Every page is in its own bucket, and no bucket holds two pages of one number. -/
structure PTable.WellFormed (pt : PTable) : Prop where
  own_bucket : ∀ b, ∀ p ∈ pt b, ptableHash p.pNum = b
  nodup : ∀ b, ((pt b).map Pte.pNum).Nodup

/-- All pages of the table, bucket by bucket. -/
def PTable.pages (pt : PTable) : List Pte := (List.range HASHSIZE).flatMap pt

theorem ptableHash_lt (pnum : Word) : ptableHash pnum < HASHSIZE := Nat.mod_lt _ (by decide)

theorem not_mem_of_getPage_none {pt : PTable} {num : Word} (h : getPage pt num = none) :
    num ∉ (pt (ptableHash num)).map Pte.pNum := by
  intro hmem
  obtain ⟨p, hp, hnum⟩ := List.mem_map.1 hmem
  have hne := List.find?_eq_none.1 h p hp
  exact hne (beq_iff_eq.2 hnum.symm)

theorem mem_addPage {pt : PTable} {b : Nat} {p : Pte} (num : Word) (hp : p ∈ pt b) :
    p ∈ addPage pt num b := by
  unfold addPage
  by_cases hb : b = ptableHash num
  · rw [hb] at hp ⊢
    rw [Function.update_self]
    exact List.mem_cons_of_mem _ hp
  · rwa [Function.update_of_ne hb]

theorem map_pNum_setFirst (pnum : Word) (poff : Nat) (data : Byte) (ps : List Pte) :
    (storePage.setFirst pnum poff data ps).map Pte.pNum = ps.map Pte.pNum := by
  induction ps with
  | nil => rfl
  | cons p ps ih =>
    unfold storePage.setFirst
    split
    · rfl
    · rw [List.map_cons, List.map_cons, ih]

/-- Storing a byte leaves the page numbers of every bucket alone. -/
theorem map_pNum_storePage (pt : PTable) (pnum : Word) (poff : Nat) (data : Byte) (b : Nat) :
    (storePage pt pnum poff data b).map Pte.pNum = (pt b).map Pte.pNum := by
  unfold storePage
  by_cases hb : b = ptableHash pnum
  · rw [hb, Function.update_self, map_pNum_setFirst]
  · rw [Function.update_of_ne hb]

namespace PTable.WellFormed

theorem empty : PTable.empty.WellFormed :=
  ⟨fun _ _ hp => absurd hp List.not_mem_nil, fun _ => List.nodup_nil⟩

/-- Well-formedness speaks of the page numbers only. -/
theorem of_map_pNum {pt qt : PTable} (h : pt.WellFormed)
    (hmap : ∀ b, (qt b).map Pte.pNum = (pt b).map Pte.pNum) : qt.WellFormed := by
  refine ⟨fun b p hp => ?_, fun b => hmap b ▸ h.nodup b⟩
  have hmem : p.pNum ∈ (pt b).map Pte.pNum := hmap b ▸ List.mem_map_of_mem hp
  obtain ⟨q, hq, hnum⟩ := List.mem_map.1 hmem
  rw [← hnum]
  exact h.own_bucket b q hq

/-- `add_page` keeps the table well formed where `get_page` found nothing. -/
theorem addPage {pt : PTable} {num : Word} (h : pt.WellFormed) (hn : getPage pt num = none) :
    (addPage pt num).WellFormed := by
  constructor
  · intro b p hp
    by_cases hb : b = ptableHash num
    · subst hb
      rw [ChArm.addPage, Function.update_self, List.mem_cons] at hp
      rcases hp with rfl | hp
      · rfl
      · exact h.own_bucket _ p hp
    · rw [ChArm.addPage, Function.update_of_ne hb] at hp
      exact h.own_bucket b p hp
  · intro b
    by_cases hb : b = ptableHash num
    · subst hb
      rw [ChArm.addPage, Function.update_self, List.map_cons, List.nodup_cons]
      exact ⟨not_mem_of_getPage_none hn, h.nodup _⟩
    · rw [ChArm.addPage, Function.update_of_ne hb]
      exact h.nodup b

theorem storePage {pt : PTable} (h : pt.WellFormed) (pnum : Word) (poff : Nat) (data : Byte) :
    (storePage pt pnum poff data).WellFormed :=
  h.of_map_pNum (map_pNum_storePage pt pnum poff data)

theorem memReadByte {pt : PTable} (h : pt.WellFormed) (addr : Word) :
    (memReadByte pt addr).2.WellFormed := by
  unfold ChArm.memReadByte
  cases hg : getPage pt (pageOf addr) with
  | none => exact h.addPage hg
  | some page => exact h

theorem memWriteByte {pt : PTable} (h : pt.WellFormed) (addr : Word) (data : Byte) :
    (memWriteByte pt addr data).WellFormed := by
  unfold ChArm.memWriteByte
  apply WellFormed.storePage
  cases hg : getPage pt (pageOf addr) with
  | none => exact h.addPage hg
  | some page => exact h

theorem memReadLE {pt : PTable} (h : pt.WellFormed) (addr : Word) (width : Nat) :
    (memReadLE pt addr width).2.WellFormed := by
  have key : ∀ (is : List Nat) (r : Word × PTable), r.2.WellFormed →
      (is.foldl (memReadStep addr) r).2.WellFormed := by
    intro is
    induction is with
    | nil => exact fun r hr => hr
    | cons i is ih =>
      intro r hr
      exact ih _ (WellFormed.memReadByte hr _)
  exact key _ _ h

theorem memWriteLE {pt : PTable} (h : pt.WellFormed) (addr data : Word) (width : Nat) :
    (memWriteLE pt addr data width).WellFormed := by
  unfold ChArm.memWriteLE
  induction width with
  | zero => exact h
  | succ n ih =>
    rw [List.range_succ, List.foldl_append]
    exact ih.memWriteByte _ _

/-- No page number occurs twice in the whole table. -/
theorem nodup_pages {pt : PTable} (h : pt.WellFormed) : (pt.pages.map Pte.pNum).Nodup := by
  rw [PTable.pages, List.map_flatMap, List.nodup_flatMap]
  refine ⟨fun b _ => h.nodup b, ?_⟩
  refine List.nodup_range.imp fun {b c} hbc => ?_
  intro num hb hc
  obtain ⟨p, hp, rfl⟩ := List.mem_map.1 hb
  obtain ⟨q, hq, hnum⟩ := List.mem_map.1 hc
  apply hbc
  rw [← h.own_bucket b p hp, ← h.own_bucket c q hq, hnum]

/-- The page of a number is found wherever it is in the table. -/
theorem getPage_of_mem {pt : PTable} (h : pt.WellFormed) {b : Nat} {p : Pte} (hp : p ∈ pt b) :
    getPage pt p.pNum = some p := by
  obtain rfl := h.own_bucket b p hp
  unfold getPage
  have hsome : ((pt (ptableHash p.pNum)).find? fun q => p.pNum == q.pNum).isSome := by
    rw [List.find?_isSome]
    exact ⟨p, hp, beq_self_eq_true _⟩
  obtain ⟨q, hq⟩ := Option.isSome_iff_exists.1 hsome
  have hfound := List.find?_some hq
  have hnum : p.pNum = q.pNum := beq_iff_eq.1 hfound
  rw [hq, List.inj_on_of_nodup_map (h.nodup _) (List.mem_of_find?_eq_some hq) hp hnum.symm]

end PTable.WellFormed

/-! ## Little-endian values -/

theorem leValue_succ (f : Nat → Byte) (n : Nat) :
    leValue f (n + 1) = (leValue (fun k => f (k + 1)) n <<< 8) + (f 0).setWidth 64 := by
  unfold leValue
  rw [List.range_succ_eq_map, List.foldr_cons, List.foldr_map]

/-- The value of up to eight bytes, as the sum it stands for. -/
theorem toNat_leValue (f : Nat → Byte) {n : Nat} (hn : n ≤ 8) :
    (leValue f n).toNat = ∑ k ∈ Finset.range n, (f k).toNat * 256 ^ k ∧
      (leValue f n).toNat < 256 ^ n := by
  induction n generalizing f with
  | zero => exact ⟨rfl, Nat.one_pos⟩
  | succ n ih =>
    obtain ⟨hsum, hlt⟩ := ih (fun k => f (k + 1)) (by omega)
    have hpow : 256 ^ n ≤ 256 ^ 7 := Nat.pow_le_pow_right (by decide) (by omega)
    have hbyte : (f 0).toNat < 256 := (f 0).isLt
    have hval : (leValue f (n + 1)).toNat =
        (leValue (fun k => f (k + 1)) n).toNat * 256 + (f 0).toNat := by
      rw [leValue_succ, BitVec.toNat_add, BitVec.toNat_shiftLeft, BitVec.toNat_setWidth,
        Nat.shiftLeft_eq]
      omega
    rw [hval, Finset.sum_range_succ', hsum, Finset.sum_mul, pow_zero, Nat.mul_one]
    refine ⟨?_, ?_⟩
    · congr 1
      refine Finset.sum_congr rfl fun k _ => ?_
      rw [pow_succ, Nat.mul_assoc]
    · rw [← Finset.sum_mul, ← hsum, pow_succ]
      omega

/-! ## Sequences of calls -/

/-- The widths of an access. -/
abbrev Width := { w : Nat // w ∈ [1, 2, 4, 8] }

theorem Width.le_eight (w : Width) : w.val ≤ 8 := by
  have hw := w.property
  simp only [List.mem_cons, List.not_mem_nil, or_false] at hw
  omega

/-- A call of `_mem_read_LE` or `_mem_write_LE`. -/
inductive MemCall where
  | readLE (addr : Word) (width : Width)
  | writeLE (addr data : Word) (width : Width)
  deriving DecidableEq

/-- The table after a call. -/
def MemCall.run (pt : PTable) : MemCall → PTable
  | readLE addr width => (memReadLE pt addr width).2
  | writeLE addr data width => memWriteLE pt addr data width

/-- The table after a sequence of calls on the empty one. -/
def runCalls (calls : List MemCall) : PTable := calls.foldl MemCall.run PTable.empty

/-- What the flat memory holds at `a`, given the calls so far, newest first: the byte last written
there, and 0 where none was. -/
def lastWritten : List MemCall → Word → Byte
  | [], _ => 0
  | .readLE _ _ :: older, a => lastWritten older a
  | .writeLE addr data width :: older, a =>
      if (a - addr).toNat < width then byteOf data (a - addr).toNat else lastWritten older a

theorem MemCall.run_wellFormed {pt : PTable} (h : pt.WellFormed) (call : MemCall) :
    (call.run pt).WellFormed := by
  cases call with
  | readLE addr width => exact h.memReadLE addr width
  | writeLE addr data width => exact h.memWriteLE addr data width

/-- One call on a table that stands for the flat memory of the calls before it. -/
theorem MemCall.byteAt_run {pt : PTable} {older : List MemCall}
    (h : pt.byteAt = lastWritten older) (call : MemCall) :
    (call.run pt).byteAt = lastWritten (call :: older) := by
  cases call with
  | readLE addr width =>
    rw [MemCall.run, byteAt_memReadLE, h]
    rfl
  | writeLE addr data width =>
    have hw : width.val ≤ 2 ^ 64 := width.le_eight.trans (by decide)
    rw [MemCall.run, byteAt_memWriteLE _ _ _ hw, h]
    rfl

/-- **Any sequence of calls leaves a well-formed table that stands for the flat memory.** -/
theorem runCalls_flat (calls : List MemCall) :
    (runCalls calls).WellFormed ∧ (runCalls calls).byteAt = lastWritten calls.reverse := by
  induction calls using List.reverseRecOn with
  | nil => exact ⟨.empty, funext byteAt_empty⟩
  | append_singleton calls call ih =>
    rw [runCalls, List.foldl_append, List.reverse_append]
    exact ⟨call.run_wellFormed ih.1, call.byteAt_run ih.2⟩

/-- **The page table is a flat byte memory.**  After any calls, a read returns the little-endian
value of the bytes last written; no page number has two entries, each entry is in the bucket of
its hash, and adding a page leaves every other page, and every byte, as it was. -/
theorem memReadLE_flat (calls : List MemCall) :
    (∀ (addr : Word) (width : Width), (memReadLE (runCalls calls) addr width).1.toNat =
      ∑ k ∈ Finset.range width,
        (lastWritten calls.reverse (addr + BitVec.ofNat 64 k)).toNat * 256 ^ k) ∧
      ((runCalls calls).pages.map Pte.pNum).Nodup ∧
      (∀ b, ∀ p ∈ runCalls calls b, ptableHash p.pNum = b ∧ b < HASHSIZE) ∧
      ∀ num, getPage (runCalls calls) num = none →
        (∀ other, other ≠ num →
          getPage (addPage (runCalls calls) num) other = getPage (runCalls calls) other) ∧
        (∀ b, ∀ p ∈ runCalls calls b,
          getPage (addPage (runCalls calls) num) p.pNum = some p) ∧
        (addPage (runCalls calls) num).byteAt = (runCalls calls).byteAt := by
  obtain ⟨hwf, hbytes⟩ := runCalls_flat calls
  refine ⟨fun addr width => ?_, hwf.nodup_pages, fun b p hp => ?_, fun num hn => ⟨?_, ?_, ?_⟩⟩
  · rw [memReadLE_fst, (toNat_leValue _ width.le_eight).1, hbytes]
  · have hb := hwf.own_bucket b p hp
    exact ⟨hb, hb ▸ ptableHash_lt p.pNum⟩
  · intro other hne
    rw [getPage_addPage, if_neg hne]
  · intro b p hp
    exact (hwf.addPage hn).getPage_of_mem (mem_addPage num hp)
  · exact byteAt_addPage hn

end ChArm
