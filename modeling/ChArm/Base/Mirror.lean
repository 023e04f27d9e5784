import ChArm.Base.Agree
import ChArm.Base.SettledBytes
import ChArm.Base.CacheAccess

/-!
# A cached memory beside a flat one

`Memory.Mirrors` puts a memory system with a cache beside one without: loads see the
same bytes in both, and so does fetch, which goes past the cache.  An instruction read that
keeps clear of the data segment delivers the same in both (`Mirrors.imem`).  A data access
without an error does so once its block is there (`Mirrors.dmem_ready`); until then it
changes nothing in the cached system but the countdown (`Mirrors.dmem_waits`).

* `Mirrors.init` — an empty cache mirrors the memory of the image.
* `Mirrors.imem`, `Mirrors.dmem_ready`, `Mirrors.dmem_waits` — what an access keeps of it.
-/

namespace ChArm

/-- The cached system `m'` shows what the flat one `m` holds: the same bytes to loads and to
fetch, the same console, the same effects so far. -/
structure Memory.Mirrors (g : Geometry) (c : Cache) (m m' : Memory) : Prop where
  flat : m.Uncached
  coherent : Coherent g c m'
  settled : m'.Settled m'.textByte
  agree : m.Agree (fun _ => False) m'

instance (m : Memory) (a : Word) : Decidable (m.textByte a) :=
  inferInstanceAs (Decidable (4 * (a.toNat / 4) < (m.segStart .data).toNat))

/-- Does a fetch from this address read neither the console nor the data segment? -/
def Memory.fetchClear (m : Memory) (pc : Word) : Bool :=
  pc != IO_CHAR_ADDR && (isSpecialAddr pc ||
    decide (pc < m.segStart .data ∧ ∀ k < 4, m.textByte (pc + BitVec.ofNat 64 k)))

/-- Does an access of eight bytes have to wait for its block in this call? -/
def Memory.waitsFor (m : Memory) (addr : Word) : Bool :=
  match m.cache with
  | some c => !isSpecialAddr addr && m.segStart .data ≤ addr && (getLine c addr).isNone &&
      m.missWaits c addr
  | none => false

namespace Memory.Mirrors

variable {g : Geometry} {c : Cache} {m m' m₁ : Memory}

/-- An empty cache over the memory of an image. -/
theorem init (g : Geometry) {img img' : Image} (hc : img.cache = none)
    (hc' : img'.cache = some g.cache) (hseg : img'.segStart = img.segStart)
    (hpt : img'.ptable = img.ptable) (hin : img'.stdin = img.stdin) :
    Mirrors g g.cache img.memory img'.memory := by
  obtain ⟨hcoh, hview⟩ := coherent_fresh (m := img'.memory) hc' rfl
  have hflat : img.memory.Uncached := ⟨hc, rfl⟩
  refine ⟨hflat, hcoh, fun c hcache => ?_, ⟨⟨hseg, rfl, rfl⟩, hin, rfl, fun a _ => ?_⟩⟩
  · obtain rfl : g.cache = c := Option.some.inj (hc'.symm.trans hcache)
    exact ⟨g, g.cache_wellTagged, hcoh.clean, fun a _ =>
      WriteBack.Store.view_of_absent (contents_fresh g img'.memory.ptable a)⟩
  · rw [hview, hflat.view_eq]
    exact congrArg (PTable.byteAt · a) hpt

theorem view_eq (h : Mirrors g c m m') : m'.view = m.view :=
  funext fun a => h.agree.view a id

theorem tagged (h : Mirrors g c m m') : m'.Tagged := by
  intro c' hc'
  obtain rfl : c = c' := Option.some.inj (h.coherent.cache.symm.trans hc')
  exact ⟨g, h.coherent.tags⟩

theorem output (h : Mirrors g c m m') : m.SameOutput m' := ⟨h.agree.segStart, h.agree.printed⟩

/-- Fetch finds the bytes of instructions in the page table. -/
theorem byteAt_eq (h : Mirrors g c m m') {a : Word} (ha : m'.textByte a) :
    m'.ptable.byteAt a = m.view a := by
  obtain ⟨g', -, hs⟩ := h.settled c h.coherent.cache
  have hb : (c.contents m'.ptable).view a = m'.ptable.byteAt a := hs.view_eq a ha
  rw [← hb, ← h.coherent.view_eq, h.view_eq]

/-- Nothing of the cache changes with the chains of the page table and the console. -/
theorem of_ptable (h : Mirrors g c m m') {pt : PTable} (hpt : pt.byteAt = m'.ptable.byteAt)
    {scanned : List Nat} (hflat : m₁.Uncached)
    (hagree : m₁.Agree (fun _ => False) { m' with ptable := pt, scanned := scanned }) :
    Mirrors g c m₁ { m' with ptable := pt, scanned := scanned } where
  flat := hflat
  coherent := ⟨h.coherent.cache, h.coherent.tags, contents_congr c hpt ▸ h.coherent.clean,
    h.coherent.countdown⟩
  settled := fun c' hc' => (h.settled.of_ptable hpt) c' hc'
  agree := hagree

/-- New chains in the page table of the cached system alone. -/
theorem with_ptable (h : Mirrors g c m m') {pt : PTable} (hpt : pt.byteAt = m'.ptable.byteAt) :
    Mirrors g c m { m' with ptable := pt } := by
  refine h.of_ptable hpt h.flat ⟨⟨h.agree.segStart, h.agree.printed, h.agree.stores⟩, h.agree.stdin,
    h.agree.scanned, fun a ha => ?_⟩
  refine (?_ : _ = m'.view a).trans (h.agree.view a ha)
  rw [Memory.view, Memory.view, h.coherent.cache]
  exact congrFun (congrArg WriteBack.Store.view (contents_congr c hpt)) a

/-! ## Instruction reads -/

/-- **An instruction read that keeps clear of the data segment** delivers the same, and changes
nothing of the cache. -/
theorem imem (h : Mirrors g c m m') {pc : Word} (hpc : m'.fetchClear pc = true)
    {insnbits : BitVec 32} {err : Bool} (hi : ChArm.imem m pc = .ok (insnbits, err, m₁)) :
    ∃ pt, ChArm.imem m' pc = .ok (insnbits, err, { m' with ptable := pt }) ∧
      Mirrors g c m { m' with ptable := pt } ∧ Mirrors g c m₁ { m' with ptable := pt } := by
  obtain ⟨herr, v, hr, hb⟩ := imem_inv hi
  have herr' : err = (!addrInImem m' pc || (pc &&& 0x3#64) != 0) := by
    rw [herr, addrInImem, addrInImem, h.agree.segStart]
  rw [fetchClear, Bool.and_eq_true, bne_iff_ne] at hpc
  have hpt : ∀ {pt}, pt.byteAt = m'.ptable.byteAt → Mirrors g c m { m' with ptable := pt } ∧
      Mirrors g c m₁ { m' with ptable := pt } := fun hpt =>
    ⟨h.with_ptable hpt, h.of_ptable hpt (h.flat.memRead hr)
      (((imem_keeps h.flat hi).2 hpc.1 _).symm.trans (h.with_ptable hpt).agree)⟩
  cases hs : isSpecialAddr pc with
  | true =>
    rw [memRead_special hs] at hr
    have hr' : memReadSpecial m' pc 4 = .ok (v, m') := by
      unfold memReadSpecial at hr ⊢
      rw [if_neg (Ne.symm hpc.1)] at hr ⊢
      split_ifs at hr ⊢ <;> cases hr <;> rfl
    refine ⟨m'.ptable, ?_, hpt rfl⟩
    rw [imem_of_memRead ((memRead_special hs m' 4).trans hr'), ← herr', hb]
  | false =>
    obtain ⟨hlt, htext⟩ : pc < m'.segStart .data ∧ ∀ k < 4, m'.textByte (pc + BitVec.ofNat 64 k) := by
      rw [hs, Bool.false_or, decide_eq_true_eq] at hpc
      exact hpc.2
    obtain ⟨pt, -, heq⟩ := h.flat.memRead_eq hs 4
    rw [heq] at hr
    cases hr
    have hno : ∀ c, ¬ m'.Cached c pc := fun c hc => BitVec.not_le.2 hlt hc.2
    refine ⟨_, ?_, hpt (byteAt_memReadLE m'.ptable pc 4)⟩
    rw [imem_of_memRead (memRead_flat hs hno 4), ← herr', hb, memReadLE_fst]
    congr 3
    exact leValue_congr fun k hk => h.byteAt_eq (htext k hk)

/-! ## Data accesses -/

/-- Which accesses wait, and that they wait for calls that are counted. -/
theorem waitsFor_iff (h : Mirrors g c m m') (addr : Word) :
    m'.waitsFor addr = true ↔
      isSpecialAddr addr = false ∧ m'.segStart .data ≤ addr ∧ 0 < m'.waits g c addr := by
  rw [waitsFor, h.coherent.cache]
  dsimp only
  rw [Nat.pos_iff_ne_zero, Ne, Memory.waits_eq_zero_iff, ← h.coherent.tags.fits.blockAddress_eq]
  simp only [Bool.and_eq_true, Bool.not_eq_true', decide_eq_true_eq, Option.isNone_iff_eq_none,
    missWaits, bne_iff_ne, Classical.not_imp, and_assoc]

theorem textByte_congr (hseg : m₁.segStart = m'.segStart) : m₁.textByte = m'.textByte := by
  funext a
  rw [textByte, textByte, hseg]

/-- **An access that has to wait** changes nothing that the flat memory holds. -/
theorem dmem_waits (h : Mirrors g c m m') (hd : 1 ≤ g.d) {addr : Word} (wval rval : Word)
    {read write : Bool} (hrw : (read && write) = false) (hacc : (read || write) = true)
    (he : dmemErr m' addr = false) (hw : m'.waitsFor addr = true) :
    ∃ v m₁', dmem m' addr wval read write rval = .ok (v, false, m₁') ∧ Mirrors g c m m₁' ∧
      m₁'.dmemStatus = .inFlight ∧ m₁'.waits g c addr + 1 = m'.waits g c addr := by
  obtain ⟨hs, hdata, hpos⟩ := (h.waitsFor_iff addr).1 hw
  have hmirror : ∀ {m₁'}, Coherent g c m₁' → m₁'.view = m'.view → m'.SameIo m₁' →
      m₁'.stores = m'.stores → m₁'.Settled m'.textByte → Mirrors g c m m₁' := by
    rintro m₁' hcoh hview ⟨hseg, hin, hsc, hpr⟩ hst hset
    refine ⟨h.flat, hcoh, ?_, h.agree.trans ⟨⟨hseg, hpr, hst⟩, hin, hsc, fun a _ => ?_⟩⟩
    · rwa [textByte_congr hseg]
    · rw [hview]
  cases read with
  | true =>
    obtain rfl : write = false := by simpa using hrw
    obtain ⟨m₁', hr, hcoh, hview, hio, hst, hfl, hwaits⟩ := h.coherent.memReadCache_waits hd hpos
    have hr : memRead m' addr 8 = .ok (0, m₁') := by
      rw [memRead_cached hs ⟨h.coherent.cache, hdata⟩, hr]
    have hset := (h.settled.memRead (by decide) (by decide) hr).1
    refine ⟨0, m₁', ?_, hmirror hcoh hview hio hst hset, hfl, hwaits⟩
    rw [dmem, he]
    simp [hr, bind, Except.bind]
  | false =>
    obtain rfl : write = true := by simpa using hacc
    obtain ⟨m₁', hr, hcoh, hview, hio, hst, hfl, hwaits⟩ :=
      h.coherent.memWriteCache_waits hd hpos wval
    have hr : memWrite m' addr wval 8 = .ok m₁' := by
      rw [memWrite_cached hs ⟨h.coherent.cache, hdata⟩, hr]
    have hset := (h.settled.memWrite he (fun a ha => inWord_of_textByte hs he ha) hr).1
    refine ⟨rval, m₁', ?_, hmirror hcoh hview hio hst hset, hfl, hwaits⟩
    rw [dmem, he]
    simp [hr, bind, Except.bind]

/-- An access that signals no error and need not wait finds its block within reach. -/
theorem waits_eq_zero (h : Mirrors g c m m') {addr : Word} (hs : isSpecialAddr addr = false)
    (hdata : m'.segStart .data ≤ addr) (hno : m'.waitsFor addr = false) :
    m'.waits g c addr = 0 := by
  by_contra hne
  have hw := (h.waitsFor_iff addr).2 ⟨hs, hdata, Nat.pos_of_ne_zero hne⟩
  rw [hno] at hw
  cases hw

theorem memRead_ready (h : Mirrors g c m m') {addr v : Word} (he : dmemErr m' addr = false)
    (hno : m'.waitsFor addr = false)
    (hst : m'.dmemStatus = .ready ∨ isSpecialAddr addr = false)
    (hr : memRead m addr 8 = .ok (v, m₁)) :
    ∃ c' m₁', memRead m' addr 8 = .ok (v, m₁') ∧ Mirrors g c' m₁ m₁' ∧
      m₁'.dmemStatus = .ready := by
  have hflat₁ := h.flat.memRead hr
  cases hs : isSpecialAddr addr with
  | true =>
    rw [memRead_special hs] at hr
    obtain ⟨v', m₁', hr', -, hagree⟩ := memReadSpecial_both h.agree.toSameEffects hr
    obtain ⟨rfl, hag⟩ := hagree h.agree
    obtain ⟨scanned, rfl⟩ := memReadSpecial_inv hr'
    exact ⟨c, _, (memRead_special hs m' 8).trans hr', h.of_ptable rfl hflat₁ hag,
      hst.resolve_right (by rw [hs]; decide)⟩
  | false =>
    obtain ⟨hal, hdata⟩ := aligned_of_dmemErr hs he
    obtain ⟨c', m₁', hr', hcoh, hview, ⟨hseg, hin, hsc, hpr⟩, hstores, hrd⟩ :=
      h.coherent.memReadCache_ready (h.waits_eq_zero hs hdata hno) (g.fitsBlock_of_aligned hal)
    rw [← memRead_cached hs ⟨h.coherent.cache, hdata⟩] at hr'
    obtain ⟨pt, hpt, heq⟩ := h.flat.memRead_eq hs 8
    rw [heq] at hr
    cases hr
    rw [h.view_eq] at hr' hview
    refine ⟨c', m₁', hr', ⟨hflat₁, hcoh, ?_, ⟨⟨hseg.trans h.agree.segStart,
      hpr.trans h.agree.printed, hstores.trans h.agree.stores⟩, hin.trans h.agree.stdin,
      hsc.trans h.agree.scanned, fun a _ => ?_⟩⟩, hrd⟩
    · rw [textByte_congr hseg]
      exact (h.settled.memRead (by decide) (by decide) hr').1
    · rw [hview, h.flat.view_eq, ← hpt]
      exact (congrFun (h.flat.view_ptable pt) a).symm

theorem memWrite_ready (h : Mirrors g c m m') {addr data : Word} (he : dmemErr m' addr = false)
    (hno : m'.waitsFor addr = false)
    (hst : m'.dmemStatus = .ready ∨ isSpecialAddr addr = false)
    (hr : memWrite m addr data 8 = .ok m₁) :
    ∃ c' m₁', memWrite m' addr data 8 = .ok m₁' ∧ Mirrors g c' m₁ m₁' ∧
      m₁'.dmemStatus = .ready := by
  have hflat₁ := h.flat.memWrite hr
  cases hs : isSpecialAddr addr with
  | true =>
    rw [memWrite_special hs] at hr
    obtain ⟨m₁', hr', -, hag⟩ := memWriteSpecial_both h.agree.toSameEffects hr
    obtain ⟨printed, rfl⟩ := memWriteSpecial_inv hr'
    refine ⟨c, _, (memWrite_special hs m' data 8).trans hr', ⟨hflat₁, ⟨h.coherent.cache,
      h.coherent.tags, h.coherent.clean, h.coherent.countdown⟩, h.settled, hag h.agree⟩, ?_⟩
    exact hst.resolve_right (by rw [hs]; decide)
  | false =>
    obtain ⟨hal, hdata⟩ := aligned_of_dmemErr hs he
    obtain ⟨c', m₁', hr', hcoh, hview, ⟨hseg, hin, hsc, hpr⟩, hstores, hrd⟩ :=
      h.coherent.memWriteCache_ready (h.waits_eq_zero hs hdata hno) (g.fitsBlock_of_aligned hal) data
    rw [← memWrite_cached hs ⟨h.coherent.cache, hdata⟩] at hr'
    rw [h.flat.memWrite_eq hs] at hr
    cases hr
    refine ⟨c', m₁', hr', ⟨hflat₁, hcoh, ?_, ⟨⟨hseg.trans h.agree.segStart,
      hpr.trans h.agree.printed, ?_⟩, hin.trans h.agree.stdin,
      hsc.trans h.agree.scanned, fun a _ => ?_⟩⟩, hrd⟩
    · rw [textByte_congr hseg]
      exact (h.settled.memWrite he (fun a ha => inWord_of_textByte hs he ha) hr').1
    · rw [hstores, h.agree.stores]
      rfl
    · have hflatView : (memWriteFlat m addr data 8).view = writeBytes m.view addr data 8 := by
        rw [h.flat.view_eq, ← byteAt_memWriteLE _ _ _ (by decide)]
        exact h.flat.view_ptable _
      rw [hview, h.view_eq, hflatView]

/-- **An access that need not wait** does the same to both. -/
theorem dmem_ready (h : Mirrors g c m m') {addr wval rval v : Word} (rval' : Word)
    {read write : Bool} (hrw : (read && write) = false)
    (hno : (read || write) = true → m'.waitsFor addr = false)
    (hst : m'.dmemStatus = .ready ∨ (read || write) = true ∧ isSpecialAddr addr = false)
    (hd : dmem m addr wval read write rval = .ok (v, false, m₁)) :
    ∃ c' v' m₁', dmem m' addr wval read write rval' = .ok (v', false, m₁') ∧
      Mirrors g c' m₁ m₁' ∧ m₁'.dmemStatus = .ready ∧ (read = true → v' = v) := by
  have herr := dmemErr_congr h.agree.segStart addr
  have hst' := hst.imp_right And.right
  rcases dmem_inv hrw hd with ⟨rfl, rfl, rfl, rfl, -⟩ | ⟨rfl, rfl, hr, he⟩ | ⟨rfl, rfl, hr, rfl, he⟩
  · refine ⟨c, rval', m', rfl, h, hst.resolve_right ?_, fun hread => by cases hread⟩
    rintro ⟨hacc, -⟩
    cases hacc
  · rw [← herr] at he
    obtain ⟨c', m₁', hr', h', hrd⟩ := h.memRead_ready he.symm (hno rfl) hst' hr
    refine ⟨c', v, m₁', ?_, h', hrd, fun _ => rfl⟩
    rw [dmem, ← he]
    simp [hr', bind, Except.bind]
  · rw [← herr] at he
    obtain ⟨c', m₁', hr', h', hrd⟩ := h.memWrite_ready he.symm (hno rfl) hst' hr
    refine ⟨c', rval', m₁', ?_, h', hrd, fun hread => by cases hread⟩
    rw [dmem, ← he]
    simp [hr', bind, Except.bind]

end Memory.Mirrors

end ChArm
