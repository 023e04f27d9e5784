import ChArm.Base.Uncached

/-!
# Memory systems that agree

Two memory systems without a cache, seen side by side.  `Memory.SameEffects` compares what they have
done so far, `Memory.Agree p` also what they will deliver: the console and the bytes outside `p`.
An access that goes through in one goes through in the other and keeps both relations.

* `dmem_both` — the same data access to both.
* `imem_both` — the same instruction read from both.
* `fetch_agree` — fetches that read the console alike.
-/

namespace ChArm

/-- The same segments, and the same values printed and stored. -/
structure Memory.SameEffects (m m' : Memory) : Prop where
  segStart : m'.segStart = m.segStart
  printed : m'.printed = m.printed
  stores : m'.stores = m.stores

/-- The same effects, the same console, and the same bytes outside `p`. -/
structure Memory.Agree (p : Word → Prop) (m m' : Memory) : Prop extends m.SameEffects m' where
  stdin : m'.stdin = m.stdin
  scanned : m'.scanned = m.scanned
  view : ∀ a, ¬ p a → m'.view a = m.view a

theorem Memory.SameEffects.trans {m₁ m₂ m₃ : Memory} (h : m₁.SameEffects m₂)
    (h' : m₂.SameEffects m₃) : m₁.SameEffects m₃ :=
  ⟨h'.segStart.trans h.segStart, h'.printed.trans h.printed, h'.stores.trans h.stores⟩

theorem Memory.SameEffects.symm {m m' : Memory} (h : m.SameEffects m') : m'.SameEffects m :=
  ⟨h.segStart.symm, h.printed.symm, h.stores.symm⟩

theorem Memory.Agree.refl (p : Word → Prop) (m : Memory) : m.Agree p m :=
  ⟨⟨rfl, rfl, rfl⟩, rfl, rfl, fun _ _ => rfl⟩

theorem Memory.Agree.symm {p : Word → Prop} {m m' : Memory} (h : m.Agree p m') : m'.Agree p m :=
  ⟨h.toSameEffects.symm, h.stdin.symm, h.scanned.symm, fun a ha => (h.view a ha).symm⟩

theorem Memory.Agree.trans {p : Word → Prop} {m₁ m₂ m₃ : Memory} (h : m₁.Agree p m₂)
    (h' : m₂.Agree p m₃) : m₁.Agree p m₃ :=
  ⟨h.toSameEffects.trans h'.toSameEffects, h'.stdin.trans h.stdin, h'.scanned.trans h.scanned,
    fun a ha => (h'.view a ha).trans (h.view a ha)⟩

/-! ## Accesses without a cache -/

namespace Memory.Uncached

variable {m : Memory} (h : m.Uncached)
include h

theorem view_eq : m.view = m.ptable.byteAt := by
  rw [Memory.view, h.cache]

/-- A read of the page table delivers what loads see and changes nothing they see. -/
theorem memRead_eq {addr : Word} (hs : isSpecialAddr addr = false) (width : Nat) :
    ∃ pt : PTable, pt.byteAt = m.ptable.byteAt ∧ ChArm.memRead m addr width =
      .ok (leValue (fun k => m.view (addr + BitVec.ofNat 64 k)) width, { m with ptable := pt }) := by
  refine ⟨_, byteAt_memReadLE m.ptable addr width, ?_⟩
  rw [memRead_flat hs (fun c => h.not_cached c addr), memReadLE_fst, h.view_eq]

theorem memWrite_eq {addr : Word} (hs : isSpecialAddr addr = false) (data : Word) (width : Nat) :
    ChArm.memWrite m addr data width = .ok (memWriteFlat m addr data width) :=
  memWrite_flat hs (fun c => h.not_cached c addr) data width

theorem view_ptable (pt : PTable) : ({ m with ptable := pt } : Memory).view = pt.byteAt := by
  simp only [Memory.view, h.cache]

end Memory.Uncached

theorem memRead_special {addr : Word} (hs : isSpecialAddr addr = true) (m : Memory) (width : Nat) :
    memRead m addr width = memReadSpecial m addr width := by
  rw [memRead, if_pos hs]

theorem memWrite_special {addr : Word} (hs : isSpecialAddr addr = true) (m : Memory) (data : Word)
    (width : Nat) : memWrite m addr data width = memWriteSpecial m addr data width := by
  rw [memWrite, if_pos hs]

section Pairs

variable {p : Word → Prop} {m m' m₁ : Memory} {addr : Word} {width : Nat}

/-- A trap that reads goes through in both, if in one. -/
theorem memReadSpecial_both {v : Word} (h : m.SameEffects m')
    (hr : memReadSpecial m addr width = .ok (v, m₁)) :
    ∃ v' m₁', memReadSpecial m' addr width = .ok (v', m₁') ∧ m₁.SameEffects m₁' ∧
      (m.Agree p m' → v' = v ∧ m₁.Agree p m₁') := by
  unfold memReadSpecial at hr ⊢
  split_ifs at hr ⊢ <;> cases hr
  · refine ⟨_, _, rfl, ⟨h.segStart, h.printed, h.stores⟩, fun ha => ⟨?_, ?_⟩⟩
    · rw [ha.scanned, ha.stdin]
    · exact ⟨⟨h.segStart, h.printed, h.stores⟩, ha.stdin,
        congrArg (· ++ [width]) ha.scanned, ha.view⟩
  · exact ⟨_, _, rfl, h, fun ha => ⟨rfl, ha⟩⟩
  · exact ⟨_, _, rfl, h, fun ha => ⟨rfl, ha⟩⟩

theorem memRead_both {v : Word} (hm : m.Uncached) (hm' : m'.Uncached) (h : m.SameEffects m')
    (hr : memRead m addr width = .ok (v, m₁)) :
    ∃ v' m₁', memRead m' addr width = .ok (v', m₁') ∧ m₁.SameEffects m₁' ∧
      (m.Agree p m' → m₁.Agree p m₁' ∧
        (isSpecialAddr addr = true ∨ (∀ k < width, ¬ p (addr + BitVec.ofNat 64 k)) → v' = v)) := by
  cases hs : isSpecialAddr addr with
  | true =>
    rw [memRead_special hs] at hr ⊢
    obtain ⟨v', m₁', hr', h₁, hagree⟩ := memReadSpecial_both (p := p) h hr
    exact ⟨v', m₁', hr', h₁, fun ha => ⟨(hagree ha).2, fun _ => (hagree ha).1⟩⟩
  | false =>
    obtain ⟨pt, hpt, heq⟩ := hm.memRead_eq hs width
    obtain ⟨pt', hpt', heq'⟩ := hm'.memRead_eq hs width
    rw [heq] at hr
    cases hr
    refine ⟨_, _, heq', ⟨h.segStart, h.printed, h.stores⟩, fun ha => ⟨⟨⟨h.segStart, h.printed,
      h.stores⟩, ha.stdin, ha.scanned, fun a hp => ?_⟩, fun hp => ?_⟩⟩
    · rw [hm.view_ptable, hm'.view_ptable, hpt, hpt', ← hm.view_eq, ← hm'.view_eq]
      exact ha.view a hp
    · exact leValue_congr fun k hk => ha.view _ (hp.resolve_left nofun k hk)

/-- A trap that writes goes through in both, if in one. -/
theorem memWriteSpecial_both {data : Word} (h : m.SameEffects m')
    (hr : memWriteSpecial m addr data width = .ok m₁) :
    ∃ m₁', memWriteSpecial m' addr data width = .ok m₁' ∧ m₁.SameEffects m₁' ∧
      (m.Agree p m' → m₁.Agree p m₁') := by
  unfold memWriteSpecial at hr ⊢
  split_ifs at hr ⊢ <;> cases hr
  · exact ⟨m', rfl, h, id⟩
  · have h₁ : ({ m with printed := m.printed ++ [(width, (data.setWidth (8 * width)).setWidth 64)] } :
        Memory).SameEffects
        { m' with printed := m'.printed ++ [(width, (data.setWidth (8 * width)).setWidth 64)] } :=
      ⟨h.segStart, by dsimp only; rw [h.printed], h.stores⟩
    exact ⟨_, rfl, h₁, fun ha => ⟨h₁, ha.stdin, ha.scanned, ha.view⟩⟩

theorem memWrite_both {data : Word} (hm : m.Uncached) (hm' : m'.Uncached) (h : m.SameEffects m')
    (hr : memWrite m addr data width = .ok m₁) (hwidth : width ≤ 2 ^ 64) :
    ∃ m₁', memWrite m' addr data width = .ok m₁' ∧ m₁.SameEffects m₁' ∧
      (m.Agree p m' → m₁.Agree p m₁') := by
  cases hs : isSpecialAddr addr with
  | true =>
    rw [memWrite_special hs] at hr ⊢
    exact memWriteSpecial_both h hr
  | false =>
    rw [hm.memWrite_eq hs] at hr
    cases hr
    have h₁ : (memWriteFlat m addr data width).SameEffects (memWriteFlat m' addr data width) :=
      ⟨h.segStart, h.printed, by simp only [memWriteFlat, h.stores]⟩
    refine ⟨_, hm'.memWrite_eq hs data width, h₁,
      fun ha => ⟨h₁, ha.stdin, ha.scanned, fun a hp => ?_⟩⟩
    have hview : (memWriteFlat m addr data width).view = writeBytes m.view addr data width := by
      rw [hm.view_eq, ← byteAt_memWriteLE _ _ _ hwidth]
      exact hm.view_ptable _
    have hview' : (memWriteFlat m' addr data width).view = writeBytes m'.view addr data width := by
      rw [hm'.view_eq, ← byteAt_memWriteLE _ _ _ hwidth]
      exact hm'.view_ptable _
    rw [hview, hview', writeBytes, writeBytes, ha.view a hp]

end Pairs

/-! ## Instruction and data memory -/

/-- Without a cache only the read of `NULL_ADDR` ends the emulator. -/
theorem exists_imem {m : Memory} (h : m.Uncached) {addr : Word} (h0 : addr ≠ 0) :
    ∃ insnbits err m', imem m addr = .ok (insnbits, err, m') := by
  have hread : ∃ v m', memRead m addr 4 = .ok (v, m') := by
    cases hs : isSpecialAddr addr with
    | true =>
      rw [memRead_special hs]
      unfold memReadSpecial
      have hnull : ¬ NULL_ADDR = addr := fun he => h0 he.symm
      have hret : ¬ RET_FROM_MAIN_ADDR = addr := fun he => h0 he.symm
      rw [if_neg hnull]
      split_ifs with h1 h2 h3 <;> try exact ⟨_, _, rfl⟩
      · exact absurd (show (4 : Nat) ∈ [1, 2, 4, 8] by decide) h2
      · have hx : (NULL_ADDR == addr) = false := beq_eq_false_iff_ne.2 hnull
        have hr : (RET_FROM_MAIN_ADDR == addr) = false := beq_eq_false_iff_ne.2 hret
        simp [isSpecialAddr, hx, hr, h1, h3] at hs
    | false =>
      obtain ⟨pt, -, heq⟩ := h.memRead_eq hs 4
      exact ⟨_, _, heq⟩
  obtain ⟨v, m', hr⟩ := hread
  exact ⟨v.setWidth 32, _, m', by rw [imem, hr]; rfl⟩

theorem imem_of_memRead {m m' : Memory} {addr v : Word} (hr : memRead m addr 4 = .ok (v, m')) :
    imem m addr = .ok (v.setWidth 32, !addrInImem m addr || (addr &&& 0x3#64) != 0, m') := by
  rw [imem, hr]
  rfl

/-- A fetch leaves what loads see, and reads the console only at `IO_CHAR_ADDR`. -/
theorem imem_keeps {m m' : Memory} (h : m.Uncached) {addr : Word} {insnbits : BitVec 32} {err : Bool}
    (hi : imem m addr = .ok (insnbits, err, m')) :
    m.SameEffects m' ∧ (addr ≠ IO_CHAR_ADDR → ∀ p, m.Agree p m') := by
  obtain ⟨-, v, hr, -⟩ := imem_inv hi
  cases hs : isSpecialAddr addr with
  | true =>
    rw [memRead_special hs] at hr
    unfold memReadSpecial at hr
    split_ifs at hr with h1 h2 <;> cases hr
    · exact ⟨⟨rfl, rfl, rfl⟩, fun hne => absurd h2.symm hne⟩
    · exact ⟨⟨rfl, rfl, rfl⟩, fun _ p => .refl p m⟩
    · exact ⟨⟨rfl, rfl, rfl⟩, fun _ p => .refl p m⟩
  | false =>
    obtain ⟨pt, hpt, heq⟩ := h.memRead_eq hs 4
    rw [heq] at hr
    cases hr
    refine ⟨⟨rfl, rfl, rfl⟩, fun _ p => ⟨⟨rfl, rfl, rfl⟩, rfl, rfl, fun a _ => ?_⟩⟩
    rw [h.view_ptable, h.view_eq, hpt]

section Pairs

variable {p : Word → Prop} {m m' m₁ : Memory} {addr : Word} {err : Bool}

/-- The same fetch from both. -/
theorem imem_both {insnbits : BitVec 32} (hm : m.Uncached) (hm' : m'.Uncached)
    (h : m.Agree p m') (hi : imem m addr = .ok (insnbits, err, m₁)) :
    ∃ insnbits' m₁', imem m' addr = .ok (insnbits', err, m₁') ∧ m₁.Agree p m₁' ∧
      (insnbits' ≠ insnbits → ∃ k < 4, p (addr + BitVec.ofNat 64 k)) := by
  obtain ⟨herr, v, hr, hb⟩ := imem_inv hi
  obtain ⟨v', m₁', hr', -, hagree⟩ := memRead_both (p := p) hm hm' h.toSameEffects hr
  refine ⟨v'.setWidth 32, m₁', ?_, (hagree h).1, fun hne => ?_⟩
  · rw [imem_of_memRead hr', herr]
    simp only [addrInImem, h.segStart]
  · by_contra hno
    refine hne ?_
    rw [hb, (hagree h).2 (Or.inr fun k hk hp => hno ⟨k, hk, hp⟩)]

theorem dmemErr_congr (h : m'.segStart = m.segStart) (addr : Word) :
    dmemErr m' addr = dmemErr m addr := by
  simp only [dmemErr, addrInDmem, h]

/-- An access that signals no error stays clear of instruction memory. -/
theorem not_imem_of_dmemErr (hs : isSpecialAddr addr = false) (he : dmemErr m addr = false) {k : Nat}
    (hk : k < 8) : addrInImem m (addr + BitVec.ofNat 64 k) = false := by
  simp only [dmemErr, hs, Bool.not_false, Bool.true_and, Bool.or_eq_false_iff,
    Bool.not_eq_eq_eq_not, bne_eq_false_iff_eq, addrInDmem, Bool.and_eq_true,
    decide_eq_true_eq] at he
  obtain ⟨⟨hlo, -⟩, hal⟩ := he
  have halign : addr.toNat % 8 = 0 := by
    have := congrArg BitVec.toNat hal
    rw [BitVec.toNat_and] at this
    have h7 := Nat.and_two_pow_sub_one_eq_mod addr.toNat 3
    exact h7.symm.trans this
  have hlt := addr.isLt
  have hsum : (addr + BitVec.ofNat 64 k).toNat = addr.toNat + k := by
    rw [BitVec.toNat_add, BitVec.toNat_ofNat, Nat.mod_eq_of_lt (show k < 2 ^ 64 by omega),
      Nat.mod_eq_of_lt (by omega)]
  have hle : m.segStart .data ≤ addr + BitVec.ofNat 64 k := by
    rw [BitVec.le_def] at hlo ⊢
    omega
  simp only [addrInImem, Bool.and_eq_false_iff, decide_eq_false_iff_not, BitVec.not_lt]
  exact Or.inr hle

/-- The same data access to both; what a load delivers is the same if it signals no error. -/
theorem dmem_both {wval rval v : Word} (rval' : Word) {read write : Bool} (hrw : (read && write) = false)
    (hm : m.Uncached) (hm' : m'.Uncached) (h : m.SameEffects m')
    (hd : dmem m addr wval read write rval = .ok (v, err, m₁)) :
    ∃ v' m₁', dmem m' addr wval read write rval' = .ok (v', err, m₁') ∧ m₁.SameEffects m₁' ∧
      (m.Agree p m' → m₁.Agree p m₁' ∧
        ((∀ a, p a → addrInImem m a = true) → read = true → err = false → v' = v)) := by
  have herr := dmemErr_congr h.segStart addr
  rcases dmem_inv hrw hd with ⟨rfl, rfl, rfl, rfl, rfl⟩ | ⟨rfl, rfl, hr, rfl⟩ | ⟨rfl, rfl, hw, rfl, rfl⟩
  · exact ⟨rval', m', rfl, h, fun ha => ⟨ha, nofun⟩⟩
  · obtain ⟨v', m₁', hr', h₁, hagree⟩ := memRead_both (p := p) hm hm' h hr
    refine ⟨v', m₁', ?_, h₁, fun ha => ⟨(hagree ha).1, fun hp _ he => (hagree ha).2 ?_⟩⟩
    · rw [dmem, herr]
      simp [hr', bind, Except.bind]
    · cases hs : isSpecialAddr addr with
      | true => exact Or.inl rfl
      | false =>
        refine Or.inr fun k hk hpa => ?_
        have := not_imem_of_dmemErr hs he hk
        rw [hp _ hpa] at this
        cases this
  · obtain ⟨m₁', hw', h₁, hagree⟩ := memWrite_both (p := p) hm hm' h hw (by decide)
    refine ⟨rval', m₁', ?_, h₁, fun ha => ⟨hagree ha, fun _ => nofun⟩⟩
    rw [dmem, herr]
    simp [hw', bind, Except.bind]

end Pairs

/-! ## The memory accesses of a cycle -/

section Machines

variable {ec : Bool} {p : Word → Prop} {s t : Machine} {v : Wires}

/-- Without a cache, fetch never ends the emulator. -/
theorem exists_fetchWires (ec : Bool) (h : t.mem.Uncached) : ∃ d fStatus fPC fMem,
    fetchWires ec t = .ok (d, fStatus, fPC, fMem) ∧ fMem.Uncached ∧ t.mem.SameEffects fMem := by
  unfold fetchWires
  by_cases hh : fetchHalts ec t = true
  · exact ⟨_, _, _, _, if_pos hh, h, rfl, rfl, rfl⟩
  · have h0 : fetchPC ec t ≠ 0 := fun h0 => hh (by rw [fetchHalts, h0]; rfl)
    obtain ⟨insnbits, err, m', hi⟩ := exists_imem h h0
    obtain ⟨-, v, hr, -⟩ := imem_inv hi
    rw [if_neg hh, hi]
    exact ⟨_, _, _, _, rfl, h.memRead hr, (imem_keeps h hi).1⟩

/-- Does fetch read from the console in this cycle? -/
def Machine.readsConsole (ec : Bool) (s : Machine) : Bool :=
  !fetchHalts ec s && fetchPC ec s == IO_CHAR_ADDR

/-- What a fetch leaves of the memory system. -/
theorem fetch_keeps (h : s.mem.Uncached) (hv : wires ec s = .ok v) :
    s.mem.SameEffects v.fMem ∧ (s.readsConsole ec = false → s.mem.Agree p v.fMem) := by
  rcases fetch_inv hv with ⟨-, -, -, -, hm⟩ | ⟨hh, insnbits, imemErr, hi, -⟩
  · rw [hm]
    exact ⟨⟨rfl, rfl, rfl⟩, fun _ => .refl p _⟩
  · obtain ⟨heff, hag⟩ := imem_keeps h hi
    refine ⟨heff, fun hno => hag (fun hio => ?_) p⟩
    rw [Machine.readsConsole, hh, hio] at hno
    cases hno

/-- Fetches that read the console alike keep memory systems in agreement. -/
theorem fetch_agree {w : Wires} (hs : s.mem.Uncached) (ht : t.mem.Uncached)
    (h : s.mem.Agree p t.mem) (hv : wires ec s = .ok v) (hw : wires ec t = .ok w)
    (hcon : t.readsConsole ec = s.readsConsole ec) : v.fMem.Agree p w.fMem := by
  cases hc : s.readsConsole ec with
  | false =>
    exact ((fetch_keeps hs hv).2 hc).symm.trans (h.trans ((fetch_keeps ht hw).2 (hcon.trans hc)))
  | true =>
    rw [hc] at hcon
    simp only [Machine.readsConsole, Bool.and_eq_true, beq_iff_eq] at hc hcon
    have hread : ∀ {u : Machine} {x : Wires}, wires ec u = .ok x →
        (!fetchHalts ec u) = true ∧ fetchPC ec u = IO_CHAR_ADDR →
        ∃ i e, imem u.mem IO_CHAR_ADDR = .ok (i, e, x.fMem) := by
      rintro u x hx ⟨hh, hio⟩
      rcases fetch_inv hx with ⟨hh', -⟩ | ⟨-, insnbits, imemErr, hi, -⟩
      · rw [hh'] at hh
        cases hh
      · rw [hio] at hi
        exact ⟨_, _, hi⟩
    obtain ⟨i, e, hi⟩ := hread hv hc
    obtain ⟨i', e', hi'⟩ := hread hw hcon
    obtain ⟨i'', m₁', hi'', hag, -⟩ := imem_both hs ht h hi
    rw [hi''] at hi'
    cases hi'
    exact hag

end Machines

end ChArm
