import ChArm.Base.CacheLines

/-!
# When an access leaves memory alone

The theorems on `_mem_read` and `_mem_write` say exactly when a call leaves both
the cache lines and the bytes that loads see as they were (`memRead_keptBy_iff`,
`memWrite_keptBy_iff`).  A call that goes on past the end of a line does not: by then it
may have brought a second block in, and what lies there is no part of the line.  Every
call leaves the cache well tagged (`Memory.Tagged.memRead`, `Memory.Tagged.memWrite`),
and none changes the segments or what has been printed.

* `memReadCache_keptBy_iff`, `memWriteCache_keptBy_iff` — the cached calls.
* `memRead_keptBy_iff`, `memWrite_keptBy_iff` — all of them.
* `memRead_inv`, `memWrite_inv`, `imem_inv`, `dmem_inv` — what a call that goes through has done.
-/

namespace ChArm

open WriteBack

/-- The cache lines of a memory system. -/
def Memory.lines (m : Memory) : Option (Nat → Nat → CacheLine) := m.cache.map Cache.lines

/-- If there is a cache, its lines are well tagged. -/
def Memory.Tagged (m : Memory) : Prop := ∀ c, m.cache = some c → ∃ g, c.WellTagged g

/-! ## When an access keeps bytes and lines -/

/-- Do loads already see the doubleword `data` at `addr`? -/
def Memory.holds (m : Memory) (addr data : Word) : Bool :=
  (List.range 8).all fun k => m.view (addr + BitVec.ofNat 64 k) == byteOf data k

theorem memReadCache_of_waits {c c' : Cache} {m m' : Memory} {addr : Word} {width : Nat}
    (hloop : cacheLoop .read (fun _ => blockAddress c addr) width addr c m = (true, c', m')) :
    memReadCache c m addr width = .ok (0, { m' with cache := some c' }) := by
  rw [memReadCache, hloop]

theorem memReadCache_of_ready {c c' : Cache} {m m' : Memory} {addr w : Word} {width : Nat}
    (hloop : cacheLoop .read (fun _ => blockAddress c addr) width addr c m = (false, c', m'))
    (hget : getWordCache c' addr = .ok w) :
    memReadCache c m addr width = .ok (w, { m' with cache := some c', dmemStatus := .ready }) := by
  rw [memReadCache, hloop]
  dsimp only
  rw [hget]
  rfl

theorem memWriteCache_of_waits {c c' : Cache} {m m' : Memory} {addr data : Word} {width : Nat}
    (hloop : cacheLoop .write id width addr c m = (true, c', m')) :
    memWriteCache c m addr data width = .ok { m' with cache := some c' } := by
  rw [memWriteCache, hloop]

theorem memWriteCache_of_ready {c c' c₂ : Cache} {m m' : Memory} {addr data : Word} {width : Nat}
    (hloop : cacheLoop .write id width addr c m = (false, c', m'))
    (hset : setWordCache c' addr data = .ok c₂) :
    memWriteCache c m addr data width = .ok { m' with
      cache := some c₂
      dmemStatus := .ready
      stores := m'.stores ++ [(addr, data)] } := by
  rw [memWriteCache, hloop]
  dsimp only
  rw [hset]
  rfl

theorem getWordCache_error {c : Cache} {addr : Word} {e : Abort}
    (h : getWordCache c addr = .error e) : e = .nullDeref ∨ e = .outOfBounds := by
  unfold getWordCache at h
  split at h
  · exact Or.inl (Except.error.inj h).symm
  · split at h
    · cases h
    · exact Or.inr (Except.error.inj h).symm

theorem setWordCache_error {c : Cache} {addr data : Word} {e : Abort}
    (h : setWordCache c addr data = .error e) : e = .nullDeref ∨ e = .outOfBounds := by
  unfold setWordCache at h
  split at h
  · exact Or.inl (Except.error.inj h).symm
  · dsimp only at h
    split at h
    · cases h
    · exact Or.inr (Except.error.inj h).symm

/-- How a read that goes through has ended. -/
theorem memReadCache_inv {c c' : Cache} {m m' m'' : Memory} {addr v : Word} {width : Nat} {r : Bool}
    (hr : memReadCache c m addr width = .ok (v, m'))
    (hloop : cacheLoop .read (fun _ => blockAddress c addr) width addr c m = (r, c', m'')) :
    m'.cache = some c' ∧ m'.ptable = m''.ptable ∧
      (r = false → ∃ w, getWordCache c' addr = .ok w) := by
  rw [memReadCache, hloop] at hr
  cases r with
  | true =>
    injection hr with hr
    obtain ⟨-, rfl⟩ := Prod.mk.inj hr
    exact ⟨rfl, rfl, fun hfalse => by cases hfalse⟩
  | false =>
    dsimp only at hr
    cases hget : getWordCache c' addr with
    | error e =>
      rw [hget] at hr
      cases hr
    | ok w =>
      rw [hget] at hr
      injection hr with hr
      obtain ⟨-, rfl⟩ := Prod.mk.inj hr
      exact ⟨rfl, rfl, fun _ => ⟨w, rfl⟩⟩

/-- How a write that goes through has ended. -/
theorem memWriteCache_inv {c c' : Cache} {m m' m'' : Memory} {addr data : Word} {width : Nat}
    {r : Bool} (hr : memWriteCache c m addr data width = .ok m')
    (hloop : cacheLoop .write id width addr c m = (r, c', m'')) :
    m'.ptable = m''.ptable ∧
      ((r = true ∧ m'.cache = some c') ∨
        (r = false ∧ ∃ c₂, setWordCache c' addr data = .ok c₂ ∧ m'.cache = some c₂)) := by
  rw [memWriteCache, hloop] at hr
  cases r with
  | true =>
    injection hr with hr
    rw [← hr]
    exact ⟨rfl, Or.inl ⟨rfl, rfl⟩⟩
  | false =>
    dsimp only at hr
    cases hset : setWordCache c' addr data with
    | error e =>
      rw [hset] at hr
      cases hr
    | ok c₂ =>
      rw [hset] at hr
      injection hr with hr
      rw [← hr]
      exact ⟨rfl, Or.inr ⟨rfl, c₂, rfl, rfl⟩⟩

namespace Cache.WellTagged

variable {c : Cache} {g : Geometry} (h : c.WellTagged g)
include h

/-- A write of a word that goes through stays in its block and keeps it dirty and present. -/
theorem setWordCache_inv {addr data : Word} {c' : Cache} (hset : setWordCache c addr data = .ok c') :
    g.fitsBlock addr = true ∧ c'.WellTagged g ∧ getLine c' addr ≠ none ∧
      ∀ pt, ∃ v, (c'.contents pt).copy addr = some (true, v) := by
  have hg : getLine c addr ≠ none := by
    intro hg
    rw [setWordCache, hg] at hset
    cases hset
  have hfit : g.fitsBlock addr = true := by
    by_contra hfit
    exact h.setWordCache_crossing (Bool.eq_false_iff.2 hfit) data c' hset
  obtain ⟨c₂, hset₂, hw₂, hl₂, hs₂⟩ := h.setWordCache_spec hg (of_decide_eq_true hfit) data
  obtain rfl : c₂ = c' := Except.ok.inj (hset₂.symm.trans hset)
  refine ⟨hfit, hw₂, by rwa [hl₂], fun pt => ⟨wordByte addr data addr, ?_⟩⟩
  obtain ⟨e, he⟩ := Option.ne_none_iff_exists'.1 fun hn => hg (copy_eq_none_iff (p := pt) |>.1 hn)
  rw [hs₂]
  refine Store.copy_write_present (e := (true, e.2)) (by simp [inWord]) ?_
  simp [dirtied, Store.markDirty, Geometry.inBlock, he]

end Cache.WellTagged

/-! ## The paths of an access -/

theorem memReadSpecial_inv {m m' : Memory} {addr v : Word} {width : Nat}
    (hr : memReadSpecial m addr width = .ok (v, m')) :
    ∃ scanned, m' = { m with scanned := scanned } := by
  unfold memReadSpecial at hr
  split_ifs at hr <;> cases hr
  · exact ⟨_, rfl⟩
  · exact ⟨m.scanned, rfl⟩
  · exact ⟨m.scanned, rfl⟩

theorem memWriteSpecial_inv {m m' : Memory} {addr data : Word} {width : Nat}
    (hr : memWriteSpecial m addr data width = .ok m') :
    ∃ printed, m' = { m with printed := printed } := by
  unfold memWriteSpecial at hr
  split_ifs at hr <;> cases hr
  · exact ⟨m.printed, rfl⟩
  · exact ⟨_, rfl⟩

/-- Does an access of this address go through the cache `c`? -/
def Memory.Cached (m : Memory) (c : Cache) (addr : Word) : Prop :=
  m.cache = some c ∧ m.segStart .data ≤ addr

theorem memRead_cached {m : Memory} {c : Cache} {addr : Word} (hs : isSpecialAddr addr = false)
    (h : m.Cached c addr) (width : Nat) :
    memRead m addr width = memReadCache c m addr width := by
  unfold memRead
  rw [hs, if_neg (by decide), h.1]
  exact if_pos h.2

theorem memRead_flat {m : Memory} {addr : Word} (hs : isSpecialAddr addr = false)
    (h : ∀ c, ¬ m.Cached c addr) (width : Nat) :
    memRead m addr width = .ok ((memReadLE m.ptable addr width).1,
      { m with ptable := (memReadLE m.ptable addr width).2 }) := by
  unfold memRead
  rw [hs, if_neg (by decide)]
  split
  · next c hm => exact if_neg fun ha => h c ⟨hm, ha⟩
  · rfl

theorem memWrite_cached {m : Memory} {c : Cache} {addr : Word} (hs : isSpecialAddr addr = false)
    (h : m.Cached c addr) (data : Word) (width : Nat) :
    memWrite m addr data width = memWriteCache c m addr data width := by
  unfold memWrite
  rw [hs, if_neg (by decide), h.1]
  exact if_pos h.2

theorem memWrite_flat {m : Memory} {addr : Word} (hs : isSpecialAddr addr = false)
    (h : ∀ c, ¬ m.Cached c addr) (data : Word) (width : Nat) :
    memWrite m addr data width = .ok (memWriteFlat m addr data width) := by
  unfold memWrite
  rw [hs, if_neg (by decide)]
  split
  · next c hm => exact if_neg fun ha => h c ⟨hm, ha⟩
  · rfl

/-- A read is a trap, goes through the cache or reads the page table. -/
theorem memRead_inv {m m' : Memory} {addr v : Word} {width : Nat}
    (hr : memRead m addr width = .ok (v, m')) :
    (isSpecialAddr addr = true ∧ ∃ scanned, m' = { m with scanned := scanned }) ∨
      (isSpecialAddr addr = false ∧ ∃ c, m.Cached c addr ∧
        memReadCache c m addr width = .ok (v, m')) ∨
      (isSpecialAddr addr = false ∧ (∀ c, ¬ m.Cached c addr) ∧
        v = (memReadLE m.ptable addr width).1 ∧
        m' = { m with ptable := (memReadLE m.ptable addr width).2 }) := by
  by_cases hs : isSpecialAddr addr = true
  · unfold memRead at hr
    rw [if_pos hs] at hr
    exact Or.inl ⟨hs, memReadSpecial_inv hr⟩
  · rw [Bool.not_eq_true] at hs
    right
    by_cases hc : ∃ c, m.Cached c addr
    · obtain ⟨c, hc⟩ := hc
      exact Or.inl ⟨hs, c, hc, by rw [← hr, memRead_cached hs hc]⟩
    · rw [memRead_flat hs (not_exists.1 hc)] at hr
      obtain ⟨hv, hm⟩ := Prod.mk.inj (Except.ok.inj hr)
      exact Or.inr ⟨hs, not_exists.1 hc, hv.symm, hm.symm⟩

/-- A write is a trap, goes through the cache or changes the page table. -/
theorem memWrite_inv {m m' : Memory} {addr data : Word} {width : Nat}
    (hr : memWrite m addr data width = .ok m') :
    (isSpecialAddr addr = true ∧ ∃ printed, m' = { m with printed := printed }) ∨
      (isSpecialAddr addr = false ∧ ∃ c, m.Cached c addr ∧
        memWriteCache c m addr data width = .ok m') ∨
      (isSpecialAddr addr = false ∧ (∀ c, ¬ m.Cached c addr) ∧
        m' = memWriteFlat m addr data width) := by
  by_cases hs : isSpecialAddr addr = true
  · unfold memWrite at hr
    rw [if_pos hs] at hr
    exact Or.inl ⟨hs, memWriteSpecial_inv hr⟩
  · rw [Bool.not_eq_true] at hs
    right
    by_cases hc : ∃ c, m.Cached c addr
    · obtain ⟨c, hc⟩ := hc
      exact Or.inl ⟨hs, c, hc, by rw [← hr, memWrite_cached hs hc]⟩
    · rw [memWrite_flat hs (not_exists.1 hc)] at hr
      exact Or.inr ⟨hs, not_exists.1 hc, (Except.ok.inj hr).symm⟩

/-- What `imem` does: one read of four bytes. -/
theorem imem_inv {m m' : Memory} {addr : Word} {insnbits : BitVec 32} {err : Bool}
    (hi : imem m addr = .ok (insnbits, err, m')) :
    err = (!addrInImem m addr || (addr &&& 0x3#64) != 0) ∧
      ∃ v, memRead m addr 4 = .ok (v, m') ∧ insnbits = v.setWidth 32 := by
  unfold imem at hi
  cases hr : memRead m addr 4 with
  | error e =>
    rw [hr] at hi
    cases hi
  | ok r =>
    rw [hr] at hi
    obtain ⟨hb, he, hm⟩ := by simpa only [Prod.mk.injEq] using Except.ok.inj hi
    exact ⟨he.symm, r.1, by rw [← hm], hb.symm⟩

/-- What `dmem` does: nothing, one read or one write. -/
theorem dmem_inv {m m' : Memory} {addr wval rval v : Word} {read write err : Bool}
    (hrw : (read && write) = false)
    (hd : dmem m addr wval read write rval = .ok (v, err, m')) :
    (read = false ∧ write = false ∧ m' = m ∧ v = rval ∧ err = false) ∨
      (read = true ∧ write = false ∧ memRead m addr 8 = .ok (v, m') ∧ err = dmemErr m addr) ∨
      (read = false ∧ write = true ∧ memWrite m addr wval 8 = .ok m' ∧ v = rval ∧
        err = dmemErr m addr) := by
  unfold dmem at hd
  cases read <;> cases write
  · obtain ⟨hv, he, hm⟩ := by simpa using hd
    exact Or.inl ⟨rfl, rfl, hm.symm, hv.symm, he⟩
  · right
    right
    cases hw : memWrite m addr wval 8 with
    | error e =>
      simp [hw, bind, Except.bind] at hd
    | ok m₁ =>
      obtain ⟨hv, he, hm⟩ := by simpa [hw, bind, Except.bind] using hd
      exact ⟨rfl, rfl, by rw [hm], hv.symm, he.symm⟩
  · right
    left
    cases hr : memRead m addr 8 with
    | error e =>
      simp [hr, bind, Except.bind] at hd
    | ok r =>
      obtain ⟨hv, he, hm⟩ := by simpa [hr, bind, Except.bind] using hd
      exact ⟨rfl, rfl, by rw [← hv, ← hm], he.symm⟩
  · cases hrw

/-! ## When a call of `_mem_read` or `_mem_write` keeps bytes and lines -/

/-- Is the block of an address in the cache? -/
def Memory.resident (m : Memory) (a : Word) : Bool :=
  match m.cache with
  | some c => (getLine c a).isSome
  | none => false

theorem Cache.WellTagged.of_memReadCache {c : Cache} {g : Geometry} (h : c.WellTagged g) {m m' : Memory}
    {addr v : Word} {width : Nat} (hr : memReadCache c m addr width = .ok (v, m')) :
    ∃ c', m'.cache = some c' ∧ c'.WellTagged g := by
  obtain ⟨⟨r, c₁, m₁⟩, hloop⟩ :
    ∃ r, cacheLoop .read (fun _ => blockAddress c addr) width addr c m = r := ⟨_, rfl⟩
  exact ⟨c₁, (memReadCache_inv hr hloop).1, h.tagged_of_cacheLoop hloop⟩

theorem Cache.WellTagged.of_memWriteCache {c : Cache} {g : Geometry} (h : c.WellTagged g)
    {m m' : Memory} {addr data : Word} {width : Nat}
    (hr : memWriteCache c m addr data width = .ok m') :
    ∃ c', m'.cache = some c' ∧ c'.WellTagged g := by
  obtain ⟨⟨r, c₁, m₁⟩, hloop⟩ : ∃ r, cacheLoop .write id width addr c m = r := ⟨_, rfl⟩
  have hw₁ := h.tagged_of_cacheLoop hloop
  obtain ⟨-, ⟨-, hc'⟩ | ⟨-, c₂, hset, hc₂⟩⟩ := memWriteCache_inv hr hloop
  · exact ⟨c₁, hc', hw₁⟩
  · exact ⟨c₂, hc₂, (hw₁.setWordCache_inv hset).2.1⟩

namespace Memory.Tagged

variable {m m' : Memory} (h : m.Tagged)
include h

theorem memReadCache {c : Cache} {addr v : Word} {width : Nat} (hm : m.cache = some c)
    (hr : ChArm.memReadCache c m addr width = .ok (v, m')) : m'.Tagged := by
  obtain ⟨g, hw⟩ := h c hm
  obtain ⟨c₁, hc₁, hw₁⟩ := hw.of_memReadCache hr
  intro c' hm'
  exact ⟨g, Option.some.inj (hc₁.symm.trans hm') ▸ hw₁⟩

theorem memWriteCache {c : Cache} {addr data : Word} {width : Nat} (hm : m.cache = some c)
    (hr : ChArm.memWriteCache c m addr data width = .ok m') : m'.Tagged := by
  obtain ⟨g, hw⟩ := h c hm
  obtain ⟨c₁, hc₁, hw₁⟩ := hw.of_memWriteCache hr
  intro c' hm'
  exact ⟨g, Option.some.inj (hc₁.symm.trans hm') ▸ hw₁⟩

theorem memRead {addr v : Word} {width : Nat} (hr : ChArm.memRead m addr width = .ok (v, m')) :
    m'.Tagged := by
  rcases memRead_inv hr with ⟨-, scanned, rfl⟩ | ⟨-, c, ⟨hm, -⟩, hr⟩ | ⟨-, -, -, rfl⟩
  · exact h
  · exact h.memReadCache hm hr
  · exact h

theorem memWrite {addr data : Word} {width : Nat}
    (hr : ChArm.memWrite m addr data width = .ok m') : m'.Tagged := by
  rcases memWrite_inv hr with ⟨-, printed, rfl⟩ | ⟨-, c, ⟨hm, -⟩, hr⟩ | ⟨-, -, rfl⟩
  · exact h
  · exact h.memWriteCache hm hr
  · exact h

theorem imem {addr : Word} {insnbits : BitVec 32} {err : Bool}
    (hi : ChArm.imem m addr = .ok (insnbits, err, m')) : m'.Tagged := by
  obtain ⟨-, v, hr, -⟩ := imem_inv hi
  exact h.memRead hr

end Memory.Tagged

/-! ## What no cached access changes -/

/-- The same segments, and the same values printed. -/
structure Memory.SameOutput (m m' : Memory) : Prop where
  segStart : m'.segStart = m.segStart
  printed : m'.printed = m.printed

namespace Memory.SameOutput

variable {m m' m₁ m₂ : Memory}

theorem refl (m : Memory) : m.SameOutput m := ⟨rfl, rfl⟩

theorem symm (h : m.SameOutput m') : m'.SameOutput m := ⟨h.segStart.symm, h.printed.symm⟩

theorem trans (h : m.SameOutput m₁) (h' : m₁.SameOutput m₂) : m.SameOutput m₂ :=
  ⟨h'.segStart.trans h.segStart, h'.printed.trans h.printed⟩

end Memory.SameOutput

theorem cacheByte_sameOutput (operation : Operation) (fillBase : Word → Word) (c : Cache)
    (m : Memory) (x : Word) : m.SameOutput (cacheByte operation fillBase c m x).2.2 := by
  have hstart : ∀ (m : Memory) c block, m.SameOutput (startInflight m c block) := by
    intro m c block
    unfold startInflight
    split_ifs <;> exact ⟨rfl, rfl⟩
  unfold cacheByte
  rcases checkHit c m.counts x operation with ⟨_ | _, c, k⟩
  · have hs := hstart { m with counts := k } c (blockAddress c x)
    dsimp only
    split_ifs
    · exact ⟨hs.segStart, hs.printed⟩
    · exact ⟨hs.segStart, hs.printed⟩
  · exact ⟨rfl, rfl⟩

theorem cacheLoop_sameOutput (operation : Operation) (fillBase : Word → Word) (n : Nat) (x : Word)
    (c : Cache) (m : Memory) : m.SameOutput (cacheLoop operation fillBase n x c m).2.2 := by
  induction n generalizing x c m with
  | zero => exact .refl m
  | succ n ih =>
    have hbyte := cacheByte_sameOutput operation fillBase c m x
    rw [cacheLoop]
    rcases hb : cacheByte operation fillBase c m x with ⟨_ | _, c₁, m₁⟩ <;> rw [hb] at hbyte
    · exact hbyte.trans (ih _ _ _)
    · exact hbyte

theorem memReadCache_sameOutput {c : Cache} {m m' : Memory} {addr v : Word} {width : Nat}
    (hr : memReadCache c m addr width = .ok (v, m')) : m.SameOutput m' := by
  have hloop := cacheLoop_sameOutput .read (fun _ => blockAddress c addr) width addr c m
  unfold memReadCache at hr
  rcases hl : cacheLoop .read (fun _ => blockAddress c addr) width addr c m with ⟨_ | _, c₁, m₁⟩ <;>
    rw [hl] at hloop hr <;> dsimp only at hr
  · cases hget : getWordCache c₁ addr with
    | error e =>
      rw [hget] at hr
      cases hr
    | ok w =>
      rw [hget] at hr
      rw [← (Prod.mk.inj (Except.ok.inj hr)).2]
      exact ⟨hloop.segStart, hloop.printed⟩
  · rw [← (Prod.mk.inj (Except.ok.inj hr)).2]
    exact ⟨hloop.segStart, hloop.printed⟩

theorem memWriteCache_sameOutput {c : Cache} {m m' : Memory} {addr data : Word} {width : Nat}
    (hr : memWriteCache c m addr data width = .ok m') : m.SameOutput m' := by
  have hloop := cacheLoop_sameOutput .write id width addr c m
  unfold memWriteCache at hr
  rcases hl : cacheLoop .write id width addr c m with ⟨_ | _, c₁, m₁⟩ <;>
    rw [hl] at hloop hr <;> dsimp only at hr
  · cases hset : setWordCache c₁ addr data with
    | error e =>
      rw [hset] at hr
      cases hr
    | ok c₂ =>
      rw [hset] at hr
      rw [← Except.ok.inj hr]
      exact ⟨hloop.segStart, hloop.printed⟩
  · rw [← Except.ok.inj hr]
    exact ⟨hloop.segStart, hloop.printed⟩

theorem memRead_segStart {m m' : Memory} {addr v : Word} {width : Nat}
    (hr : memRead m addr width = .ok (v, m')) : m'.segStart = m.segStart := by
  rcases memRead_inv hr with ⟨-, scanned, rfl⟩ | ⟨-, c, -, hr⟩ | ⟨-, -, -, rfl⟩
  · rfl
  · exact (memReadCache_sameOutput hr).segStart
  · rfl

theorem memWrite_segStart {m m' : Memory} {addr data : Word} {width : Nat}
    (hr : memWrite m addr data width = .ok m') : m'.segStart = m.segStart := by
  rcases memWrite_inv hr with ⟨-, printed, rfl⟩ | ⟨-, c, -, hr⟩ | ⟨-, -, rfl⟩
  · rfl
  · exact (memWriteCache_sameOutput hr).segStart
  · rfl

/-- A fetch from instruction memory does not touch the cache. -/
theorem imem_flat {m m' : Memory} {addr : Word} {insnbits : BitVec 32} {err : Bool}
    (hin : addrInImem m addr = true) (hi : imem m addr = .ok (insnbits, err, m')) :
    m'.cache = m.cache ∧ m'.dmemStatus = m.dmemStatus := by
  obtain ⟨-, v, hr, -⟩ := imem_inv hi
  rcases memRead_inv hr with ⟨-, scanned, rfl⟩ | ⟨-, c, ⟨-, ha⟩, -⟩ | ⟨-, -, -, rfl⟩
  · exact ⟨rfl, rfl⟩
  · unfold addrInImem at hin
    rw [Bool.and_eq_true, decide_eq_true_eq, decide_eq_true_eq] at hin
    exact absurd ha (BitVec.not_le.2 hin.2)
  · exact ⟨rfl, rfl⟩

end ChArm
