import ChArm.Base.CacheAccess
import ChArm.Base.SettledBytes
import ChArm.Base.SegmentScan

/-!
# Steps on the page table

`add_page` and the store of a byte are the steps in which the page table changes
(`PTable.Step`).  An access gets from table to table by such steps and stores only what it is
meant to store (`passes_dmem`).

* No step removes a page (`Passes.mapped`), or changes a byte other than those that may be stored
  (`Passes.byteAt`).
* So a word whose page is there reads the same at any moment of an access that leaves its bytes
  alone, and reading it adds no page (`FetchDuring.reads`).
-/

namespace ChArm

open WriteBack

/-- A step on the page table; `may` says which bytes may be stored. -/
inductive PTable.Step (may : Word → Byte → Prop) (pt : PTable) : PTable → Prop
  | page {num : Word} (hn : getPage pt num = none) : Step may pt (addPage pt num)
  | store {a : Word} {b : Byte} (hp : pt.mapped a = true) (hb : may a b) :
      Step may pt (storePage pt (pageOf a) (pageOff a) b)

/-- Steps one after the other. -/
abbrev PTable.Passes (may : Word → Byte → Prop) : PTable → PTable → Prop :=
  Relation.ReflTransGen (PTable.Step may)

/-- The bytes that a data access may store in the page table: those of its doubleword if it is a
write that bypasses the cache, and dirty bytes of the cache if it goes there. -/
def Memory.mayStore (m : Memory) (addr data : Word) (read write : Bool) (a : Word) (b : Byte) :
    Prop :=
  (write = true ∧ isSpecialAddr addr = false ∧ (∀ c, ¬ m.Cached c addr) ∧
    ∃ k < 8, a = addr + BitVec.ofNat 64 k ∧ b = byteOf data k) ∨
  ((read || write) = true ∧ ∃ c, m.Cached c addr ∧ (c.contents m.ptable).copy a = some (true, b))

/-! ## What accesses do, step by step -/

section

variable {may : Word → Byte → Prop} {pt pt' : PTable}

theorem Passes.mono {may' : Word → Byte → Prop} (h : pt.Passes may pt')
    (hmay : ∀ a b, may a b → may' a b) : pt.Passes may' pt' := by
  induction h with
  | refl => exact .refl
  | tail _ hstep ih =>
    cases hstep with
    | page hn => exact ih.tail (.page hn)
    | store hp hb => exact ih.tail (.store hp (hmay _ _ hb))

theorem passes_memReadByte (may : Word → Byte → Prop) (pt : PTable) (a : Word) :
    pt.Passes may (memReadByte pt a).2 := by
  unfold memReadByte
  cases h : getPage pt (pageOf a) with
  | some page => exact .refl
  | none => exact .single (.page h)

theorem passes_memReadLE (may : Word → Byte → Prop) (pt : PTable) (addr : Word) (width : Nat) :
    pt.Passes may (memReadLE pt addr width).2 := by
  have key : ∀ (is : List Nat) (r : Word × PTable),
      r.2.Passes may (is.foldl (memReadStep addr) r).2 := by
    intro is
    induction is with
    | nil => exact fun r => .refl
    | cons i is ih => exact fun r => (passes_memReadByte may r.2 _).trans (ih (memReadStep addr r i))
  exact key _ (0, pt)

theorem passes_memWriteByte {a : Word} {b : Byte} (h : may a b) :
    pt.Passes may (memWriteByte pt a b) := by
  unfold memWriteByte
  cases hg : getPage pt (pageOf a) with
  | some page => exact .single (.store (by rw [PTable.mapped, hg]; rfl) h)
  | none =>
    refine .tail (.single (.page hg)) (.store ?_ h)
    rw [PTable.mapped, getPage_addPage, if_pos rfl]
    rfl

theorem passes_memWriteLE {addr data : Word} {width : Nat}
    (h : ∀ k < width, may (addr + BitVec.ofNat 64 k) (byteOf data k)) :
    pt.Passes may (memWriteLE pt addr data width) := by
  unfold memWriteLE
  induction width with
  | zero => exact .refl
  | succ n ih =>
    rw [List.range_succ, List.foldl_append, List.foldl_cons, List.foldl_nil]
    exact (ih fun k hk => h k (by omega)).trans (passes_memWriteByte (h n (by omega)))

theorem passes_readBlock (may : Word → Byte → Prop) (pt : PTable) (base : Word) (n : Nat) :
    pt.Passes may (readBlock pt base n).2 := by
  induction n with
  | zero => exact .refl
  | succ n ih =>
    rw [readBlock_succ]
    exact ih.trans (passes_memReadLE may _ _ 1)

theorem passes_writeBack {e : EvictedLine} {n : Nat}
    (h : e.valid = true → e.dirty = true →
      ∀ i < n, may (e.blockAddr + BitVec.ofNat 64 i) (e.data i)) :
    pt.Passes may (writeBack pt e n) := by
  unfold writeBack
  by_cases hv : (e.valid && e.dirty) = true
  · rw [if_pos hv]
    rw [Bool.and_eq_true] at hv
    have hmay := h hv.1 hv.2
    clear h
    induction n with
    | zero => exact .refl
    | succ n ih =>
      rw [List.range_succ, List.foldl_append, List.foldl_cons, List.foldl_nil]
      refine (ih fun i hi => hmay i (by omega)).trans (passes_memWriteLE fun k hk => ?_)
      obtain rfl : k = 0 := by omega
      have hbyte : byteOf ((e.data n).setWidth 64) 0 = e.data n := by
        apply BitVec.eq_of_toNat_eq
        simp [byteOf]
      rw [hbyte, BitVec.add_zero]
      exact hmay n (by omega)
  · rw [if_neg hv]

end

/-- The bytes of the loop lie in one block: at most one line is written back. -/
theorem Cache.WellTagged.passes_cacheLoop {c c' : Cache} {g : Geometry} (h : c.WellTagged g)
    {operation : Operation} {fillBase : Word → Word} {n : Nat} {x : Word} {m m' : Memory} {r : Bool}
    (hblock : ∀ k < n + 1, g.blockNum (x + BitVec.ofNat 64 k) = g.blockNum x)
    (hloop : cacheLoop operation fillBase (n + 1) x c m = (r, c', m')) :
    m.ptable.Passes (fun a b => (c.contents m.ptable).copy a = some (true, b)) m'.ptable := by
  cases hg : getLine c x with
  | some j =>
    rw [h.cacheLoop_resident operation fillBase hblock hg] at hloop
    cases hloop
    exact .refl
  | none =>
    by_cases hdone : m.countdown c (g.blockStart (g.blockNum x)) = 0
    · rw [(h.cacheLoop_completes operation fillBase hblock hg hdone rfl).1] at hloop
      cases hloop
      have hA : 0 < c.A.toNat := by
        rw [h.fits.A_toNat]
        exact g.one_le_A
      obtain ⟨j, set, k, hj, -, hmiss⟩ := handleMiss_eq c hA m.counts.miss
        (g.blockStart (g.blockNum x)) operation (readBlock m.ptable
          (fillBase (g.blockStart (g.blockNum x))) c.B.toNat).1
      rw [h.fits.A_toNat] at hj
      refine (passes_readBlock _ m.ptable (fillBase (g.blockStart (g.blockNum x))) c.B.toNat).trans ?_
      have hm : (m.missed c (g.blockStart (g.blockNum x))).ptable = m.ptable := rfl
      have hk : (m.missed c (g.blockStart (g.blockNum x))).counts = m.counts.miss := rfl
      simp only [completeMiss, hm, hk, hmiss]
      exact passes_writeBack fun hv hd i hi => h.copy_evictedLine hj hi hv hd m.ptable
    · rw [h.cacheLoop_missed operation fillBase n hg hdone] at hloop
      cases hloop
      exact .refl

/-- The bytes of an access that signals no error lie in one block. -/
theorem blockNum_of_dmemErr (g : Geometry) {m : Memory} {addr : Word}
    (hs : isSpecialAddr addr = false) (he : dmemErr m addr = false) :
    ∀ k < 7 + 1, g.blockNum (addr + BitVec.ofNat 64 k) = g.blockNum addr := by
  intro k hk
  have hfit := of_decide_eq_true (g.fitsBlock_of_aligned (aligned_of_dmemErr hs he).1)
  exact (g.blockNum_add (by omega)).1

section

variable {m m' : Memory} {addr : Word}

section

variable (ht : m.Tagged) (he : dmemErr m addr = false)
include ht he

theorem passes_memRead {v : Word} (data : Word) (hr : memRead m addr 8 = .ok (v, m')) :
    m.ptable.Passes (m.mayStore addr data true false) m'.ptable := by
  rcases memRead_inv hr with ⟨-, scanned, hm⟩ | ⟨hs, c, hc, hr⟩ | ⟨-, -, -, hm⟩
  · rw [hm]
  · obtain ⟨g, hw⟩ := ht c hc.1
    rcases hloop : cacheLoop .read (fun _ => blockAddress c addr) 8 addr c m with ⟨r, c', m₁⟩
    rw [(memReadCache_inv hr hloop).2.1]
    exact Passes.mono (hw.passes_cacheLoop (blockNum_of_dmemErr g hs he) hloop) fun a b hb =>
      .inr ⟨rfl, c, hc, hb⟩
  · rw [hm]
    dsimp only
    exact passes_memReadLE _ _ _ _

theorem passes_memWrite {data : Word} (hr : memWrite m addr data 8 = .ok m') :
    m.ptable.Passes (m.mayStore addr data false true) m'.ptable := by
  rcases memWrite_inv hr with ⟨-, printed, hm⟩ | ⟨hs, c, hc, hr⟩ | ⟨hs, hno, hm⟩
  · rw [hm]
  · obtain ⟨g, hw⟩ := ht c hc.1
    rcases hloop : cacheLoop .write id 8 addr c m with ⟨r, c', m₁⟩
    rw [(memWriteCache_inv hr hloop).1]
    exact Passes.mono (hw.passes_cacheLoop (blockNum_of_dmemErr g hs he) hloop) fun a b hb =>
      .inr ⟨rfl, c, hc, hb⟩
  · rw [hm]
    exact passes_memWriteLE fun k hk => .inl ⟨rfl, hs, hno, k, hk, rfl, rfl⟩

end

/-- **A data access that signals no error goes from table to table in steps**, and stores in the page
table only bytes it may store. -/
theorem passes_dmem {data rval v : Word} {read write : Bool} (ht : m.Tagged)
    (hrw : (read && write) = false)
    (hd : dmem m addr data read write rval = .ok (v, false, m')) :
    m.ptable.Passes (m.mayStore addr data read write) m'.ptable := by
  rcases dmem_inv hrw hd with ⟨-, -, hm, -, -⟩ | ⟨hread, hwrite, hr, he⟩ | ⟨hread, hwrite, hr, -, he⟩
  · rw [hm]
  · rw [hread, hwrite]
    exact passes_memRead ht he.symm data hr
  · rw [hread, hwrite]
    exact passes_memWrite ht he.symm hr

end

/-! ## What the steps leave alone -/

namespace PTable

variable {may : Word → Byte → Prop} {pt pt' : PTable}

theorem Step.mapped (h : pt.Step may pt') {a : Word} (ha : pt.mapped a = true) :
    pt'.mapped a = true := by
  unfold PTable.mapped at ha ⊢
  cases h with
  | page hn =>
    rw [getPage_addPage]
    split
    · rfl
    · exact ha
  | store hp hb =>
    rw [getPage_storePage]
    split
    · rw [Option.isSome_map]
      exact ha
    · exact ha

/-- No step removes a page. -/
theorem Passes.mapped (h : pt.Passes may pt') {a : Word} (ha : pt.mapped a = true) :
    pt'.mapped a = true := by
  induction h with
  | refl => exact ha
  | tail _ hstep ih => exact hstep.mapped ih

/-- A byte that may only be stored as it is stays what it is. -/
theorem Passes.byteAt (h : pt.Passes may pt') {a : Word} (ha : ∀ b, may a b → b = pt.byteAt a) :
    pt'.byteAt a = pt.byteAt a := by
  induction h with
  | refl => rfl
  | tail _ hstep ih =>
    cases hstep with
    | page hn => rw [byteAt_addPage hn, ih]
    | @store a' b hp hb =>
      rw [byteAt_storePage b hp]
      by_cases haa : a = a'
      · rw [haa, Function.update_self, ha b (haa ▸ hb), haa]
      · rw [Function.update_of_ne haa, ih]

end PTable

/-! ## Reading meanwhile -/

/-- Fetch reads the four bytes of its word, the last one first, while another access takes its steps
on the table. -/
inductive FetchDuring (may : Word → Byte → Prop) (addr : Word) (pt₀ : PTable) :
    List Byte → PTable → Prop
  | start : FetchDuring may addr pt₀ [] pt₀
  | step {bytes : List Byte} {pt pt' : PTable} (h : FetchDuring may addr pt₀ bytes pt)
      (hstep : pt.Step may pt') : FetchDuring may addr pt₀ bytes pt'
  | read {bytes : List Byte} {pt : PTable} {k : Nat} (h : FetchDuring may addr pt₀ bytes pt)
      (hk : bytes.length + k = 3) :
      FetchDuring may addr pt₀ ((memReadByte pt (addr + BitVec.ofNat 64 k)).1 :: bytes)
        (memReadByte pt (addr + BitVec.ofNat 64 k)).2

/-- The bytes of the word at `addr`. -/
def PTable.wordBytes (pt : PTable) (addr : Word) : List Byte :=
  (List.range 4).map fun k => pt.byteAt (addr + BitVec.ofNat 64 k)

theorem memReadByte_of_mapped {pt : PTable} {a : Word} (h : pt.mapped a = true) :
    memReadByte pt a = (pt.byteAt a, pt) := by
  obtain ⟨page, hpage⟩ := Option.isSome_iff_exists.1 h
  rw [memReadByte, PTable.byteAt, hpage]

/-- **Wherever in the other access fetch reads a byte, it reads what was there before**, as long as
the page is there and the access may not change the byte; and it leaves the table as it is. -/
theorem FetchDuring.reads {may : Word → Byte → Prop} {addr : Word} {pt₀ pt : PTable}
    {bytes : List Byte} (h : FetchDuring may addr pt₀ bytes pt)
    (hmapped : ∀ k < 4, pt₀.mapped (addr + BitVec.ofNat 64 k) = true)
    (hkept : ∀ k < 4, ∀ b, may (addr + BitVec.ofNat 64 k) b →
      b = pt₀.byteAt (addr + BitVec.ofNat 64 k)) :
    pt₀.Passes may pt ∧ bytes = (pt₀.wordBytes addr).drop (4 - bytes.length) := by
  induction h with
  | start => exact ⟨.refl, rfl⟩
  | step _ hstep ih => exact ⟨ih.1.tail hstep, ih.2⟩
  | @read bytes pt k _ hk ih =>
    obtain ⟨hpasses, hbytes⟩ := ih
    have hlt : k < 4 := by omega
    rw [memReadByte_of_mapped (hpasses.mapped (hmapped k hlt)), hpasses.byteAt (hkept k hlt)]
    refine ⟨hpasses, ?_⟩
    have hlen : (pt₀.wordBytes addr).length = 4 := by simp [PTable.wordBytes]
    rw [List.length_cons, show 4 - (bytes.length + 1) = k by omega,
      List.drop_eq_getElem_cons (by rw [hlen]; exact hlt)]
    refine List.cons_eq_cons.2 ⟨by simp [PTable.wordBytes], ?_⟩
    rw [show k + 1 = 4 - bytes.length by omega]
    exact hbytes

end ChArm
