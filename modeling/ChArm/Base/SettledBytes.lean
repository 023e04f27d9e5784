import ChArm.Base.SameTables

/-!
# Bytes that no store reaches

`Memory.Settled q` says that the cache, if there is one, holds no changed copy of
a byte in `q`: the page table has these bytes, whatever the cache evicts.  A read
keeps it, and so does a write that stays clear of `q`; neither changes these bytes of the
page table.

* `Settled.memRead`, `Settled.memWrite` — one access.
* `Settled.dmem` — one data access that signals no error.
-/

namespace ChArm

open WriteBack

/-- Every cached copy of a byte in `q` equals the page byte, and the cache is in order. -/
def Memory.Settled (q : Word → Prop) (m : Memory) : Prop :=
  ∀ c, m.cache = some c → ∃ g, c.WellTagged g ∧ (c.contents m.ptable).Settled q

/-- The page table keeps the bytes in `q`. -/
def Memory.KeepsBytes (q : Word → Prop) (m m' : Memory) : Prop :=
  ∀ a, q a → m'.ptable.byteAt a = m.ptable.byteAt a

theorem settled_dirtied {g : Geometry} {q : Word → Prop} {s : Store Word Byte} (h : s.Settled q)
    (operation : Operation) (addr : Word) : (dirtied g operation addr s).Settled q := by
  cases operation
  · exact h
  · exact h.markDirty _

theorem backing_dirtied (g : Geometry) (operation : Operation) (addr : Word)
    (s : Store Word Byte) : (dirtied g operation addr s).backing = s.backing := by
  cases operation <;> rfl

/-- An access that signals no error is aligned and lies in data memory. -/
theorem aligned_of_dmemErr {m : Memory} {addr : Word} (hs : isSpecialAddr addr = false)
    (he : dmemErr m addr = false) : addr.toNat % 8 = 0 ∧ m.segStart .data ≤ addr := by
  simp only [dmemErr, hs, Bool.not_false, Bool.true_and, Bool.or_eq_false_iff,
    Bool.not_eq_eq_eq_not, bne_eq_false_iff_eq, addrInDmem, Bool.and_eq_true,
    decide_eq_true_eq] at he
  obtain ⟨⟨hlo, -⟩, hal⟩ := he
  refine ⟨?_, hlo⟩
  have hmask := congrArg BitVec.toNat hal
  rw [BitVec.toNat_and] at hmask
  exact (Nat.and_two_pow_sub_one_eq_mod addr.toNat 3).symm.trans hmask

/-- A byte of an aligned instruction word that begins below the data segment. -/
def Memory.textByte (m : Memory) (a : Word) : Prop :=
  4 * (a.toNat / 4) < (m.segStart .data).toNat

/-- No data access that signals no error reaches a byte of an instruction. -/
theorem inWord_of_textByte {m : Memory} {addr a : Word} (hs : isSpecialAddr addr = false)
    (he : dmemErr m addr = false) (ha : m.textByte a) : inWord addr a = false := by
  obtain ⟨hal, hle⟩ := aligned_of_dmemErr hs he
  have hlt := addr.isLt
  rw [BitVec.le_def] at hle
  unfold Memory.textByte at ha
  rw [inWord, decide_eq_false_iff_not, BitVec.toNat_sub]
  omega

namespace Cache.WellTagged

variable {c : Cache} {g : Geometry} (h : c.WellTagged g)
include h

/-- The byte loop over bytes of one block. -/
theorem cacheLoop_settled {q : Word → Prop} {m : Memory}
    (hs : (c.contents m.ptable).Settled q) (operation : Operation) (fillBase : Word → Word)
    {n : Nat} {x : Word}
    (hbase : fillBase (g.blockStart (g.blockNum x)) = g.blockStart (g.blockNum x))
    (hblock : ∀ k < n + 1, g.blockNum (x + BitVec.ofNat 64 k) = g.blockNum x) :
    ∃ r c' m', cacheLoop operation fillBase (n + 1) x c m = (r, c', m') ∧ c'.WellTagged g ∧
      (c'.contents m'.ptable).Settled q ∧ m.KeepsBytes q m' ∧ (r = false → getLine c' x ≠ none) := by
  by_cases hg : getLine c x = none
  · by_cases hdone : m.countdown c (g.blockStart (g.blockNum x)) = 0
    · obtain ⟨c', k, pt, p, hloop, hw', hl', hs'⟩ := h.cacheLoop_fill operation hbase hblock hg hdone
      have habsent : ∀ a, g.inBlock (g.blockNum x) a = true →
          ((c.contents m.ptable).evict p).copy a = none := by
        intro a ha
        have : (c.contents m.ptable).copy a = none := by
          rw [copy_eq_none_iff, h.getLine_congr (beq_iff_eq.1 ha), hg]
        simp [Store.evict, this]
      refine ⟨_, c', _, hloop, hw', ?_, fun a ha => ?_, fun _ => hl'⟩
      · rw [hs']
        exact settled_dirtied ((hs.evict p).fill habsent _) operation x
      · have hback : (c'.contents pt).backing a = ((c.contents m.ptable).evict p).backing a := by
          rw [hs', backing_dirtied]
          rfl
        exact hback.trans (hs.backing_evict p ha)
    · obtain ⟨k, hloop⟩ := h.cacheLoop_wait operation fillBase n hg hdone
      exact ⟨_, c, _, hloop, h, hs, fun a _ => rfl, fun hfalse => by cases hfalse⟩
  · obtain ⟨c', k, hloop, hw', hl', hs'⟩ := h.cacheLoop_hit operation fillBase hblock hg m
    refine ⟨_, c', _, hloop, hw', ?_, fun a _ => rfl, fun _ => by rwa [hl']⟩
    rw [hs', if_neg (Nat.succ_ne_zero n)]
    exact settled_dirtied hs operation x

/-- The rest of a loop, in the next block: it waits, or it ends and the word does not fit. -/
theorem cacheLoop_rest_waits {operation : Operation} {fillBase : Word → Word} {n : Nat} {x : Word}
    {m m' : Memory} {c' : Cache}
    (hblock : ∀ k < n + 1, g.blockNum (x + BitVec.ofNat 64 k) = g.blockNum x)
    (hloop : cacheLoop operation fillBase (n + 1) x c m = (true, c', m')) :
    c' = c ∧ m'.ptable = m.ptable := by
  by_cases hg : getLine c x = none
  · by_cases hdone : m.countdown c (g.blockStart (g.blockNum x)) = 0
    · obtain ⟨c₁, m₁, hloop₁, -⟩ := h.cacheLoop_bringIn operation fillBase hblock hg hdone
      rw [hloop₁] at hloop
      cases hloop
    · obtain ⟨k, hloop₁⟩ := h.cacheLoop_wait operation fillBase n hg hdone
      rw [hloop₁] at hloop
      cases hloop
      exact ⟨rfl, rfl⟩
  · obtain ⟨c₁, k, hloop₁, -⟩ := h.cacheLoop_hit operation fillBase hblock hg m
    rw [hloop₁] at hloop
    cases hloop

/-- A cached read that goes through, of at most eight bytes at any address. -/
theorem memReadCache_settled {q : Word → Prop} {m m' : Memory} {addr v : Word} {width : Nat}
    (hs : (c.contents m.ptable).Settled q) (hpos : 0 < width) (hle : width ≤ 8)
    (hr : memReadCache c m addr width = .ok (v, m')) :
    (∃ c', m'.cache = some c' ∧ c'.WellTagged g ∧ (c'.contents m'.ptable).Settled q) ∧
      m.KeepsBytes q m' := by
  have hbase : (fun _ : Word => blockAddress c addr) (g.blockStart (g.blockNum addr)) =
      g.blockStart (g.blockNum addr) := h.fits.blockAddress_eq addr
  -- the bytes of the first block
  have hfirst : ∀ {n}, n + 1 ≤ g.bytesInBlock addr → ∃ r c₁ m₁,
      cacheLoop .read (fun _ => blockAddress c addr) (n + 1) addr c m = (r, c₁, m₁) ∧
      c₁.WellTagged g ∧ (c₁.contents m₁.ptable).Settled q ∧ m.KeepsBytes q m₁ := by
    intro n hn
    have hblock : ∀ k < n + 1, g.blockNum (addr + BitVec.ofNat 64 k) = g.blockNum addr :=
      fun k hk => (g.bytesInBlock_spec addr).2.2 k (by omega)
    obtain ⟨r, c₁, m₁, hloop, hw₁, hs₁, hk₁, -⟩ := h.cacheLoop_settled hs .read
      (fun _ => blockAddress c addr) hbase hblock
    exact ⟨r, c₁, m₁, hloop, hw₁, hs₁, hk₁⟩
  -- looking the word up changes neither the cache nor the page table
  have hend : ∀ {r c₁} {m₁ : Memory},
      cacheLoop .read (fun _ => blockAddress c addr) width addr c m = (r, c₁, m₁) →
      c₁.WellTagged g → (c₁.contents m₁.ptable).Settled q → m.KeepsBytes q m₁ →
      (∃ c', m'.cache = some c' ∧ c'.WellTagged g ∧ (c'.contents m'.ptable).Settled q) ∧
        m.KeepsBytes q m' := by
    intro r c₁ m₁ hloop hw₁ hs₁ hk₁
    obtain ⟨hc, hpt, -⟩ := memReadCache_inv hr hloop
    exact ⟨⟨c₁, hc, hw₁, hpt ▸ hs₁⟩, fun a ha => hpt ▸ hk₁ a ha⟩
  obtain ⟨hpos₁, hle₁, hblock₁⟩ := g.bytesInBlock_spec addr
  rcases Nat.lt_or_ge (g.bytesInBlock addr) width with hlt | hge
  · -- the word crosses into the next block, so a read that ends leaves its buffer
    have hfit : g.fitsBlock addr = false := by
      by_contra hfit
      rw [Bool.not_eq_false] at hfit
      have := (g.bytesInBlock_eq_iff addr).2 hfit
      omega
    obtain ⟨n, hn⟩ : ∃ n, g.bytesInBlock addr = n + 1 := ⟨g.bytesInBlock addr - 1, by omega⟩
    obtain ⟨k, hk⟩ : ∃ k, width - g.bytesInBlock addr = k + 1 :=
      ⟨width - g.bytesInBlock addr - 1, by omega⟩
    obtain ⟨r₁, c₁, m₁, hloop₁, hw₁, hs₁, hk₁⟩ := hfirst hn.ge
    have hsplit := cacheLoop_add .read (fun _ => blockAddress c addr) (g.bytesInBlock addr) (k + 1)
      addr c m
    rw [← hk, Nat.add_sub_cancel' hlt.le, hn, hloop₁, ← hn] at hsplit
    cases r₁ with
    | true => exact hend hsplit hw₁ hs₁ hk₁
    | false =>
      dsimp only at hsplit
      obtain ⟨⟨r₂, c₂, m₂⟩, hloop₂⟩ : ∃ r, cacheLoop .read (fun _ => blockAddress c addr)
        (width - g.bytesInBlock addr) (addr + BitVec.ofNat 64 (g.bytesInBlock addr)) c₁ m₁ = r :=
          ⟨_, rfl⟩
      rw [hloop₂] at hsplit
      cases r₂ with
      | true =>
        rw [hk] at hloop₂
        obtain ⟨rfl, hpt⟩ := hw₁.cacheLoop_rest_waits
          (fun j hj => g.rest_block addr j (by omega)) hloop₂
        exact hend hsplit hw₁ (hpt ▸ hs₁) (fun a ha => hpt ▸ hk₁ a ha)
      | false =>
        obtain ⟨-, -, hget⟩ := memReadCache_inv hr hsplit
        obtain ⟨w, hw⟩ := hget rfl
        exact absurd hw ((hw₁.tagged_of_cacheLoop hloop₂).getWordCache_crossing hfit w)
  · obtain ⟨n, rfl⟩ : ∃ n, width = n + 1 := ⟨width - 1, by omega⟩
    obtain ⟨r, c₁, m₁, hloop, hw₁, hs₁, hk₁⟩ := hfirst hge
    exact hend hloop hw₁ hs₁ hk₁

/-- A cached write of a doubleword inside one block, clear of the settled bytes. -/
theorem memWriteCache_settled {q : Word → Prop} {m m' : Memory} {addr data : Word}
    (hs : (c.contents m.ptable).Settled q) (hfit : g.fitsBlock addr = true)
    (hclear : ∀ a, q a → inWord addr a = false)
    (hr : memWriteCache c m addr data 8 = .ok m') :
    (∃ c', m'.cache = some c' ∧ c'.WellTagged g ∧ (c'.contents m'.ptable).Settled q) ∧
      m.KeepsBytes q m' := by
  have hblock : ∀ k < 7 + 1, g.blockNum (addr + BitVec.ofNat 64 k) = g.blockNum addr := by
    intro k hk
    have hfit := of_decide_eq_true hfit
    exact (g.blockNum_add (by omega)).1
  obtain ⟨r, c₁, m₁, hloop, hw₁, hs₁, hk₁, hl₁⟩ :=
    h.cacheLoop_settled hs .write id rfl hblock
  obtain ⟨hpt, ⟨-, hc⟩ | ⟨hfalse, c₂, hset, hc⟩⟩ := memWriteCache_inv hr hloop
  · exact ⟨⟨c₁, hc, hw₁, hpt ▸ hs₁⟩, fun a ha => hpt ▸ hk₁ a ha⟩
  · obtain ⟨c₂', hset', hw₂, -, hs₂⟩ := hw₁.setWordCache_spec (hl₁ hfalse) (of_decide_eq_true hfit) data
    obtain rfl : c₂' = c₂ := Except.ok.inj (hset'.symm.trans hset)
    refine ⟨⟨c₂', hc, hw₂, ?_⟩, fun a ha => hpt ▸ hk₁ a ha⟩
    rw [hpt, hs₂]
    exact (settled_dirtied hs₁ .write addr).write hclear _

end Cache.WellTagged

/-! ## Memory systems -/

namespace Memory.Settled

variable {q : Word → Prop} {m m' : Memory} (h : m.Settled q)
include h

/-- A change of the page table that keeps its bytes. -/
theorem of_ptable {pt : PTable} (hpt : pt.byteAt = m.ptable.byteAt) :
    ({ m with ptable := pt } : Memory).Settled q := by
  intro c hc
  obtain ⟨g, hw, hs⟩ := h c hc
  exact ⟨g, hw, contents_congr c hpt ▸ hs⟩

/-- A read that goes through, of at most eight bytes at any address. -/
theorem memRead {addr v : Word} {width : Nat} (hpos : 0 < width) (hle : width ≤ 8)
    (hr : ChArm.memRead m addr width = .ok (v, m')) : m'.Settled q ∧ m.KeepsBytes q m' := by
  rcases memRead_inv hr with ⟨-, scanned, rfl⟩ | ⟨-, c, ⟨hc, -⟩, hr⟩ | ⟨-, -, -, rfl⟩
  · exact ⟨h, fun a _ => rfl⟩
  · obtain ⟨g, hw, hs⟩ := h c hc
    obtain ⟨⟨c', hc', hw', hs'⟩, hk⟩ := hw.memReadCache_settled hs hpos hle hr
    refine ⟨fun c'' hc'' => ?_, hk⟩
    obtain rfl : c' = c'' := Option.some.inj (hc'.symm.trans hc'')
    exact ⟨g, hw', hs'⟩
  · have hpt := byteAt_memReadLE m.ptable addr width
    exact ⟨h.of_ptable hpt, fun a _ => congrFun hpt a⟩

/-- A write that signals no error is aligned, so it stays in its block. -/
theorem memWrite {addr data : Word} (herr : dmemErr m addr = false)
    (hclear : ∀ a, q a → inWord addr a = false)
    (hr : ChArm.memWrite m addr data 8 = .ok m') : m'.Settled q ∧ m.KeepsBytes q m' := by
  rcases memWrite_inv hr with ⟨-, printed, rfl⟩ | ⟨hs, c, ⟨hc, -⟩, hr⟩ | ⟨hs, hno, rfl⟩
  · exact ⟨h, fun a _ => rfl⟩
  · obtain ⟨g, hw, hset⟩ := h c hc
    have hfit := g.fitsBlock_of_aligned (aligned_of_dmemErr hs herr).1
    obtain ⟨⟨c', hc', hw', hs'⟩, hk⟩ := hw.memWriteCache_settled hset hfit hclear hr
    refine ⟨fun c'' hc'' => ?_, hk⟩
    obtain rfl : c' = c'' := Option.some.inj (hc'.symm.trans hc'')
    exact ⟨g, hw', hs'⟩
  · refine ⟨fun c hc => absurd ⟨hc, (aligned_of_dmemErr hs herr).2⟩ (hno c), fun a ha => ?_⟩
    have hb : (memWriteLE m.ptable addr data 8).byteAt = _ :=
      byteAt_memWriteLE m.ptable addr data (by decide)
    have hout := of_decide_eq_false (hclear a ha)
    rw [memWriteFlat, hb, writeBytes, if_neg hout]

theorem imem {addr : Word} {insnbits : BitVec 32} {err : Bool}
    (hi : ChArm.imem m addr = .ok (insnbits, err, m')) : m'.Settled q ∧ m.KeepsBytes q m' := by
  obtain ⟨-, v, hr, -⟩ := imem_inv hi
  exact h.memRead (by decide) (by decide) hr

/-- A data access that signals no error, clear of the settled bytes. -/
theorem dmem {addr wval rval v : Word} {read write : Bool} (hrw : (read && write) = false)
    (hclear : isSpecialAddr addr = false → ∀ a, q a → inWord addr a = false)
    (hd : ChArm.dmem m addr wval read write rval = .ok (v, false, m')) :
    m'.Settled q ∧ m.KeepsBytes q m' := by
  rcases dmem_inv hrw hd with ⟨-, -, rfl, -, -⟩ | ⟨-, -, hr, -⟩ | ⟨-, -, hr, -, herr⟩
  · exact ⟨h, fun a _ => rfl⟩
  · exact h.memRead (by decide) (by decide) hr
  · cases hs : isSpecialAddr addr with
    | false => exact h.memWrite herr.symm (hclear hs) hr
    | true =>
      rw [memWrite_special hs] at hr
      obtain ⟨printed, rfl⟩ := memWriteSpecial_inv hr
      exact ⟨h, fun a _ => rfl⟩

end Memory.Settled

end ChArm
