import ChArm.Base.Word

/-!
# The page table

`src/base/ptable.c` and the byte accesses of `src/base/mem.c` built on it: a
hash table of 128 chained buckets whose pages come into being, zeroed, at the
first touch.

`PTable.byteAt` is what the table means: the byte an address reads as.  Reads
leave it alone (`byteAt_memReadLE`) and writes change exactly the bytes written
(`byteAt_memWriteLE`).  The protection bits of a page are never read by
the emulator and are left out.
-/

namespace ChArm

/-- `PAGESIZE`. -/
def PAGESIZE : Nat := 4096

/-- `HASHSIZE`. -/
def HASHSIZE : Nat := 128

/-- `pte_t`. -/
structure Pte where
  pNum : Word
  pData : Nat → Byte

/-- The buckets of the table, newest page first. -/
abbrev PTable := Nat → List Pte

/-- The table as the program starts. -/
def PTable.empty : PTable := fun _ => []

/-- One round of the loop of `ptable_hash`; `char` is signed. -/
def hashStep (h : Word) (ch : Byte) : Word :=
  let h := (h <<< 4) + ch.signExtend 64
  let high := h &&& 0xF0000000#64
  let h := if high ≠ 0 then h ^^^ (high >>> 24) else h
  h &&& ~~~high

/-- `ptable_hash`. -/
def ptableHash (pnum : Word) : Nat :=
  ((List.range 7).foldl (fun h i => hashStep h (byteOf pnum i)) 0).toNat % HASHSIZE

/-- `get_page`. -/
def getPage (pt : PTable) (pnum : Word) : Option Pte :=
  (pt (ptableHash pnum)).find? fun p => pnum == p.pNum

/-- `add_page`. -/
def addPage (pt : PTable) (num : Word) : PTable :=
  Function.update pt (ptableHash num) (⟨num, fun _ => 0⟩ :: pt (ptableHash num))

/-- `page->p_data[poff] = data` for the page `get_page` returns. -/
def storePage (pt : PTable) (pnum : Word) (poff : Nat) (data : Byte) : PTable :=
  Function.update pt (ptableHash pnum) (setFirst (pt (ptableHash pnum)))
where
  /-- Update the first page of the chain with this number. -/
  setFirst : List Pte → List Pte
    | [] => []
    | p :: ps =>
        if pnum == p.pNum then { p with pData := Function.update p.pData poff data } :: ps
        else p :: setFirst ps

/-- `addr / PAGESIZE`. -/
def pageOf (addr : Word) : Word := addr / 4096#64

/-- `addr % PAGESIZE`. -/
def pageOff (addr : Word) : Nat := (addr % 4096#64).toNat

/-- `_mem_read_byte`. -/
def memReadByte (pt : PTable) (addr : Word) : Byte × PTable :=
  match getPage pt (pageOf addr) with
  | some page => (page.pData (pageOff addr), pt)
  | none => (0, addPage pt (pageOf addr))

/-- One round of the loop of `_mem_read_LE`, on `retval` and the table. -/
def memReadStep (addr : Word) (r : Word × PTable) (i : Nat) : Word × PTable :=
  let (byte, pt) := memReadByte r.2 (addr + BitVec.ofNat 64 i)
  ((r.1 <<< 8) + byte.setWidth 64, pt)

/-- `_mem_read_LE`; the loop counts down. -/
def memReadLE (pt : PTable) (addr : Word) (width : Nat) : Word × PTable :=
  (List.range width).reverse.foldl (memReadStep addr) (0, pt)

/-- `_mem_write_byte`. -/
def memWriteByte (pt : PTable) (addr : Word) (data : Byte) : PTable :=
  let pt := match getPage pt (pageOf addr) with
    | some _ => pt
    | none => addPage pt (pageOf addr)
  storePage pt (pageOf addr) (pageOff addr) data

/-- `_mem_write_LE`. -/
def memWriteLE (pt : PTable) (addr data : Word) (width : Nat) : PTable :=
  (List.range width).foldl (fun pt i =>
    memWriteByte pt (addr + BitVec.ofNat 64 i) (byteOf data i)) pt

/-! ## What a table means -/

/-- The byte an address reads as: its page's byte, or 0 where there is no page. -/
def PTable.byteAt (pt : PTable) (addr : Word) : Byte :=
  match getPage pt (pageOf addr) with
  | some page => page.pData (pageOff addr)
  | none => 0

theorem pageOf_pageOff_inj {a b : Word} (hp : pageOf a = pageOf b) (ho : pageOff a = pageOff b) :
    a = b := by
  have h1 := congrArg BitVec.toNat hp
  simp only [pageOf, pageOff, BitVec.toNat_udiv, BitVec.toNat_umod,
    show (4096#64 : Word).toNat = 4096 from rfl] at h1 ho
  apply BitVec.eq_of_toNat_eq
  omega

/-- Adding the page of a number that has none adds a zeroed page and hides no other. -/
theorem getPage_addPage (pt : PTable) (num pnum : Word) :
    getPage (addPage pt num) pnum = if pnum = num then some ⟨num, fun _ => 0⟩ else getPage pt pnum := by
  unfold getPage addPage
  by_cases hb : ptableHash pnum = ptableHash num
  · rw [hb, Function.update_self, List.find?_cons]
    by_cases hn : pnum = num
    · simp [hn]
    · rw [if_neg hn, beq_false_of_ne hn]
  · have hn : pnum ≠ num := fun h => hb (by rw [h])
    rw [Function.update_of_ne hb, if_neg hn]

theorem find?_setFirst (pnum : Word) (poff : Nat) (data : Byte) (num : Word) (ps : List Pte) :
    (storePage.setFirst pnum poff data ps).find? (fun p => num == p.pNum) =
      if num = pnum then
        (ps.find? fun p => num == p.pNum).map fun p =>
          { p with pData := Function.update p.pData poff data }
      else ps.find? fun p => num == p.pNum := by
  induction ps with
  | nil => simp [storePage.setFirst]
  | cons p ps ih =>
    unfold storePage.setFirst
    by_cases hp : pnum = p.pNum
    · by_cases hn : num = pnum
      · simp [← hp, hn]
      · simp [← hp, hn]
    · rw [if_neg (by simpa using hp), List.find?_cons, ih]
      by_cases hn : num = p.pNum
      · have : num ≠ pnum := fun h => hp (by rw [← h, hn])
        simp [← hn, this]
      · rw [List.find?_cons, beq_false_of_ne hn]

/-- Storing a byte into a page changes that page and no other. -/
theorem getPage_storePage (pt : PTable) (pnum : Word) (poff : Nat) (data : Byte) (num : Word) :
    getPage (storePage pt pnum poff data) num =
      if num = pnum then
        (getPage pt num).map fun p => { p with pData := Function.update p.pData poff data }
      else getPage pt num := by
  unfold getPage storePage
  by_cases hb : ptableHash num = ptableHash pnum
  · rw [hb, Function.update_self, find?_setFirst]
  · have hn : num ≠ pnum := fun h => hb (by rw [h])
    rw [Function.update_of_ne hb, if_neg hn]

@[simp] theorem byteAt_empty (a : Word) : PTable.empty.byteAt a = 0 := rfl

/-- A page that materialises reads as the zeros that were read before. -/
theorem byteAt_addPage {pt : PTable} {num : Word} (h : getPage pt num = none) :
    (addPage pt num).byteAt = pt.byteAt := by
  funext a
  unfold PTable.byteAt
  rw [getPage_addPage]
  by_cases ha : pageOf a = num
  · rw [if_pos ha, ha, h]
  · rw [if_neg ha]

theorem memReadByte_fst (pt : PTable) (addr : Word) :
    (memReadByte pt addr).1 = pt.byteAt addr := by
  unfold memReadByte PTable.byteAt
  cases getPage pt (pageOf addr) <;> rfl

theorem byteAt_memReadByte (pt : PTable) (addr : Word) :
    (memReadByte pt addr).2.byteAt = pt.byteAt := by
  unfold memReadByte
  cases h : getPage pt (pageOf addr) with
  | none => exact byteAt_addPage h
  | some page => rfl

/-- A byte stored in a page that is there. -/
theorem byteAt_storePage {pt : PTable} {addr : Word} (data : Byte)
    (h : (getPage pt (pageOf addr)).isSome = true) :
    (storePage pt (pageOf addr) (pageOff addr) data).byteAt = Function.update pt.byteAt addr data := by
  funext a
  unfold PTable.byteAt
  rw [getPage_storePage]
  by_cases ha : a = addr
  · subst ha
    rw [if_pos rfl, Function.update_self]
    cases hg : getPage pt (pageOf a) with
    | none =>
      rw [hg] at h
      cases h
    | some p => simp
  · rw [Function.update_of_ne ha]
    by_cases hp : pageOf a = pageOf addr
    · rw [if_pos hp]
      have ho : pageOff a ≠ pageOff addr := fun ho => ha (pageOf_pageOff_inj hp ho)
      cases getPage pt (pageOf a) with
      | none => rfl
      | some p => simp [Function.update_of_ne ho]
    · rw [if_neg hp]

/-- Writing a byte changes what that address reads as, and nothing else. -/
theorem byteAt_memWriteByte (pt : PTable) (addr : Word) (data : Byte) :
    (memWriteByte pt addr data).byteAt = Function.update pt.byteAt addr data := by
  unfold memWriteByte
  cases h : getPage pt (pageOf addr) with
  | some p => exact byteAt_storePage data (by rw [h]; rfl)
  | none =>
    rw [byteAt_storePage data (by rw [getPage_addPage, if_pos rfl]; rfl), byteAt_addPage h]

/-! ## Multi-byte accesses -/

/-- The loop of `_mem_read_LE` from any accumulator. -/
theorem foldl_memReadStep (addr : Word) (is : List Nat) (r : Word × PTable) :
    (is.foldl (memReadStep addr) r).1 = is.foldl (fun (v : Word) i =>
        (v <<< 8) + (r.2.byteAt (addr + BitVec.ofNat 64 i)).setWidth 64) r.1 ∧
      (is.foldl (memReadStep addr) r).2.byteAt = r.2.byteAt := by
  induction is generalizing r with
  | nil => exact ⟨rfl, rfl⟩
  | cons i is ih =>
    obtain ⟨h1, h2⟩ := ih (memReadStep addr r i)
    have hb : (memReadStep addr r i).2.byteAt = r.2.byteAt := byteAt_memReadByte _ _
    have hv : (memReadStep addr r i).1 =
        (r.1 <<< 8) + (r.2.byteAt (addr + BitVec.ofNat 64 i)).setWidth 64 := by
      simp only [memReadStep, memReadByte_fst]
    rw [hb, hv] at h1
    exact ⟨h1, h2.trans hb⟩

/-- `_mem_read_LE` returns the little-endian value of the bytes. -/
theorem memReadLE_fst (pt : PTable) (addr : Word) (width : Nat) :
    (memReadLE pt addr width).1 =
      leValue (fun k => pt.byteAt (addr + BitVec.ofNat 64 k)) width := by
  unfold memReadLE leValue
  refine (foldl_memReadStep addr _ (0, pt)).1.trans ?_
  rw [List.foldl_reverse]

/-- Reading does not change what the table means. -/
@[simp] theorem byteAt_memReadLE (pt : PTable) (addr : Word) (width : Nat) :
    (memReadLE pt addr width).2.byteAt = pt.byteAt :=
  (foldl_memReadStep addr _ (0, pt)).2

/-- The bytes of `[addr, addr + n)`, modulo 2^64, overwritten with `g 0`, `g 1`, and so on. -/
def overwrite (f : Word → Byte) (addr : Word) (g : Nat → Byte) (n : Nat) : Word → Byte :=
  fun a => if (a - addr).toNat < n then g (a - addr).toNat else f a

theorem overwrite_succ (f : Word → Byte) (addr : Word) (g : Nat → Byte) {n : Nat}
    (hn : n < 2 ^ 64) :
    Function.update (overwrite f addr g n) (addr + BitVec.ofNat 64 n) (g n) =
      overwrite f addr g (n + 1) := by
  funext a
  unfold overwrite
  by_cases ha : a = addr + BitVec.ofNat 64 n
  · subst ha
    have hs : (addr + BitVec.ofNat 64 n - addr).toNat = n := by
      rw [BitVec.add_comm, BitVec.add_sub_cancel, BitVec.toNat_ofNat, Nat.mod_eq_of_lt hn]
    rw [Function.update_self, hs, if_pos (Nat.lt_succ_self n)]
  · have hs : (a - addr).toNat ≠ n := by
      intro h
      apply ha
      rw [← h, BitVec.ofNat_toNat, BitVec.setWidth_eq, BitVec.add_comm, BitVec.sub_add_cancel]
    rw [Function.update_of_ne ha]
    by_cases hlt : (a - addr).toNat < n
    · rw [if_pos hlt, if_pos (by omega)]
    · rw [if_neg hlt, if_neg (by omega)]

/-- What `_mem_write_LE` does to the bytes: those of `[addr, addr + width)` become
the bytes of `data`, modulo 2^64. -/
def writeBytes (f : Word → Byte) (addr data : Word) (width : Nat) : Word → Byte :=
  fun a => if (a - addr).toNat < width then byteOf data (a - addr).toNat else f a

theorem writeBytes_succ (f : Word → Byte) (addr data : Word) {n : Nat} (hn : n < 2 ^ 64) :
    Function.update (writeBytes f addr data n) (addr + BitVec.ofNat 64 n) (byteOf data n) =
      writeBytes f addr data (n + 1) :=
  overwrite_succ f addr (byteOf data) hn

/-- `_mem_write_LE` changes exactly the bytes it writes. -/
theorem byteAt_memWriteLE (pt : PTable) (addr data : Word) {width : Nat} (hw : width ≤ 2 ^ 64) :
    (memWriteLE pt addr data width).byteAt = writeBytes pt.byteAt addr data width := by
  unfold memWriteLE
  induction width with
  | zero => funext a; simp [writeBytes]
  | succ n ih =>
    rw [List.range_succ, List.foldl_append, List.foldl_cons, List.foldl_nil, byteAt_memWriteByte,
      ih (by omega), writeBytes_succ _ _ _ (by omega)]

end ChArm
