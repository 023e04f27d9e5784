import ChArm.Base.Agree

/-!
# Page tables with the same bytes

Reads put pages into the table, so two orders of the same accesses leave tables
whose chains differ.  `Memory.Same` compares memory systems up to that: their
tables hold the same bytes and everything else is equal.  No access can tell
such memory systems apart (`dmem_same`): it fails alike in both or
goes through with the same result and leaves them the same again.

* `memRead_same`, `memWrite_same` — one access to both.
* `dmem_same` — one data access, with its error.
-/

namespace ChArm

/-- Two computations that fail alike, or succeed with related results. -/
inductive SameOutcome {α β : Type} (R : α → β → Prop) : Except Abort α → Except Abort β → Prop
  | error (e : Abort) : SameOutcome R (.error e) (.error e)
  | ok {a : α} {b : β} (h : R a b) : SameOutcome R (.ok a) (.ok b)

namespace SameOutcome

variable {α β α' β' : Type} {R : α → β → Prop} {S : α' → β' → Prop}

theorem bind {x : Except Abort α} {y : Except Abort β} {f : α → Except Abort α'}
    {g : β → Except Abort β'} (h : SameOutcome R x y)
    (hfg : ∀ a b, R a b → SameOutcome S (f a) (g b)) : SameOutcome S (x >>= f) (y >>= g) := by
  cases h with
  | error e => exact .error e
  | ok h => exact hfg _ _ h

theorem map {x : Except Abort α} {y : Except Abort β} {f : α → α'} {g : β → β'}
    (h : SameOutcome R x y) (hfg : ∀ a b, R a b → S (f a) (g b)) :
    SameOutcome S (x.map f) (y.map g) := by
  cases h with
  | error e => exact .error e
  | ok h => exact .ok (hfg _ _ h)

theorem symm {R' : β → α → Prop} {x : Except Abort α} {y : Except Abort β} (h : SameOutcome R x y)
    (hR : ∀ a b, R a b → R' b a) : SameOutcome R' y x := by
  cases h with
  | error e => exact .error e
  | ok h => exact .ok (hR _ _ h)

theorem trans {γ : Type} {S : β → γ → Prop} {T : α → γ → Prop} {x : Except Abort α}
    {y : Except Abort β} {z : Except Abort γ} (h : SameOutcome R x y) (h' : SameOutcome S y z)
    (hRS : ∀ a b c, R a b → S b c → T a c) : SameOutcome T x z := by
  cases h with
  | error e =>
    cases h' with
    | error => exact .error e
  | ok h =>
    cases h' with
    | ok h' => exact .ok (hRS _ _ _ h h')

end SameOutcome

/-- Equal but for the chains of the page table. -/
def Memory.Same (m m' : Memory) : Prop :=
  ∃ pt : PTable, pt.byteAt = m.ptable.byteAt ∧ m' = { m with ptable := pt }

namespace Memory.Same

variable {m m' m'' : Memory}

theorem refl (m : Memory) : m.Same m := ⟨m.ptable, rfl, rfl⟩

theorem symm (h : m.Same m') : m'.Same m := by
  obtain ⟨pt, hpt, rfl⟩ := h
  exact ⟨m.ptable, hpt.symm, rfl⟩

theorem trans (h : m.Same m') (h' : m'.Same m'') : m.Same m'' := by
  obtain ⟨pt, hpt, rfl⟩ := h
  obtain ⟨pt', hpt', rfl⟩ := h'
  exact ⟨pt', hpt'.trans hpt, rfl⟩

theorem byteAt (h : m.Same m') : m'.ptable.byteAt = m.ptable.byteAt := by
  obtain ⟨pt, hpt, rfl⟩ := h
  exact hpt

theorem segStart (h : m.Same m') : m'.segStart = m.segStart := by
  obtain ⟨pt, hpt, rfl⟩ := h
  rfl

theorem cache (h : m.Same m') : m'.cache = m.cache := by
  obtain ⟨pt, hpt, rfl⟩ := h
  rfl

end Memory.Same

/-! ## The page table -/

section Tables

variable {pt pt' : PTable} (h : pt'.byteAt = pt.byteAt)
include h

theorem memReadLE_same (addr : Word) (width : Nat) :
    (memReadLE pt' addr width).1 = (memReadLE pt addr width).1 ∧
      (memReadLE pt' addr width).2.byteAt = (memReadLE pt addr width).2.byteAt := by
  rw [memReadLE_fst, memReadLE_fst, byteAt_memReadLE, byteAt_memReadLE, h]
  exact ⟨rfl, rfl⟩

theorem byteAt_memWriteLE_same (addr data : Word) {width : Nat} (hw : width ≤ 2 ^ 64) :
    (memWriteLE pt' addr data width).byteAt = (memWriteLE pt addr data width).byteAt := by
  rw [byteAt_memWriteLE _ _ _ hw, byteAt_memWriteLE _ _ _ hw, h]

theorem readBlock_same (base : Word) (n : Nat) :
    (readBlock pt' base n).1 = (readBlock pt base n).1 ∧
      (readBlock pt' base n).2.byteAt = (readBlock pt base n).2.byteAt := by
  induction n with
  | zero => exact ⟨rfl, h⟩
  | succ n ih =>
    have hread := memReadLE_same ih.2 (base + BitVec.ofNat 64 n) 1
    rw [readBlock_succ, readBlock_succ, ih.1, hread.1]
    exact ⟨rfl, hread.2⟩

theorem byteAt_writeBack_same (e : EvictedLine) {n : Nat} (hn : n ≤ 2 ^ 64) :
    (writeBack pt' e n).byteAt = (writeBack pt e n).byteAt := by
  funext a
  rw [byteAt_writeBack _ _ hn, byteAt_writeBack _ _ hn, h]

end Tables

/-! ## Cached accesses -/

/-- The results of a byte loop, up to the chains of the table. -/
def SameLoop (r r' : Bool × Cache × Memory) : Prop :=
  r'.1 = r.1 ∧ r'.2.1 = r.2.1 ∧ r.2.2.Same r'.2.2

section Cached

variable {m m' : Memory} (h : m.Same m')
include h

theorem completeMiss_same (operation : Operation) (fillBase block : Word) (c : Cache) :
    (completeMiss operation fillBase block c m').1 = (completeMiss operation fillBase block c m).1 ∧
      (completeMiss operation fillBase block c m).2.Same
        (completeMiss operation fillBase block c m').2 := by
  obtain ⟨pt, hpt, rfl⟩ := h
  have hread := readBlock_same hpt fillBase c.B.toNat
  have hB : c.B.toNat ≤ 2 ^ 64 := by omega
  unfold completeMiss
  dsimp only
  rw [hread.1]
  exact ⟨rfl, _, byteAt_writeBack_same hread.2 _ hB, rfl⟩

theorem startInflight_same (c : Cache) (block : Word) :
    (startInflight m c block).Same (startInflight m' c block) := by
  obtain ⟨pt, hpt, rfl⟩ := h
  unfold startInflight
  split_ifs <;> exact ⟨pt, hpt, rfl⟩

theorem cacheByte_same (operation : Operation) (fillBase : Word → Word) (c : Cache) (x : Word) :
    SameLoop (cacheByte operation fillBase c m x) (cacheByte operation fillBase c m' x) := by
  have hcounts : m'.counts = m.counts := by
    obtain ⟨pt, hpt, rfl⟩ := h
    rfl
  simp only [cacheByte, hcounts]
  obtain ⟨pt, hpt, rfl⟩ := h
  rcases checkHit c m.counts x operation with ⟨_ | _, c₁, k⟩
  · have hstart : ({ m with counts := k } : Memory).Same { m with ptable := pt, counts := k } :=
      ⟨pt, hpt, rfl⟩
    obtain ⟨pt₁, hpt₁, heq⟩ := startInflight_same hstart c₁ (blockAddress c₁ x)
    dsimp only
    rw [heq]
    dsimp only
    split_ifs
    · exact ⟨rfl, rfl, pt₁, hpt₁, rfl⟩
    · have hdone := completeMiss_same (m := { startInflight { m with counts := k } c₁
          (blockAddress c₁ x) with
          inflightCycles :=
            (startInflight { m with counts := k } c₁ (blockAddress c₁ x)).inflightCycles - 1#64 })
        ⟨pt₁, hpt₁, rfl⟩ operation (fillBase (blockAddress c₁ x)) (blockAddress c₁ x) c₁
      exact ⟨rfl, hdone.1, hdone.2⟩
  · exact ⟨rfl, rfl, pt, hpt, rfl⟩

end Cached

theorem cacheLoop_same {m m' : Memory} (h : m.Same m') (operation : Operation)
    (fillBase : Word → Word) (n : Nat) (x : Word) (c : Cache) :
    SameLoop (cacheLoop operation fillBase n x c m) (cacheLoop operation fillBase n x c m') := by
  induction n generalizing x c m m' with
  | zero => exact ⟨rfl, rfl, h⟩
  | succ n ih =>
    have hbyte := cacheByte_same h operation fillBase c x
    rw [cacheLoop, cacheLoop]
    generalize cacheByte operation fillBase c m x = r at hbyte
    generalize cacheByte operation fillBase c m' x = r' at hbyte
    obtain ⟨w, c₁, m₁⟩ := r
    obtain ⟨w', c₁', m₁'⟩ := r'
    obtain ⟨h1, h2, h3⟩ := hbyte
    obtain rfl : w' = w := h1
    obtain rfl : c₁' = c₁ := h2
    cases w' with
    | true => exact ⟨rfl, rfl, h3⟩
    | false => exact ih h3 _ _

/-- The results of an access that delivers a value. -/
def SameValue {α : Type} (r r' : α × Memory) : Prop := r'.1 = r.1 ∧ r.2.Same r'.2

section Accesses

variable {m m' : Memory} (h : m.Same m')
include h

theorem memReadCache_same (c : Cache) (addr : Word) (width : Nat) :
    SameOutcome SameValue (memReadCache c m addr width) (memReadCache c m' addr width) := by
  have hloop := cacheLoop_same h .read (fun _ => blockAddress c addr) width addr c
  unfold memReadCache
  generalize cacheLoop .read (fun _ => blockAddress c addr) width addr c m = r at hloop
  generalize cacheLoop .read (fun _ => blockAddress c addr) width addr c m' = r' at hloop
  obtain ⟨w, c₁, m₁⟩ := r
  obtain ⟨w', c₁', m₁'⟩ := r'
  obtain ⟨h1, h2, h3⟩ := hloop
  obtain rfl : w' = w := h1
  obtain rfl : c₁' = c₁ := h2
  obtain ⟨pt, hpt, rfl⟩ : m₁.Same m₁' := h3
  cases w' with
  | true => exact .ok ⟨rfl, pt, hpt, rfl⟩
  | false =>
    dsimp only
    cases getWordCache c₁' addr with
    | error e => exact .error e
    | ok v => exact .ok ⟨rfl, pt, hpt, rfl⟩

theorem memWriteCache_same (c : Cache) (addr data : Word) (width : Nat) :
    SameOutcome Memory.Same (memWriteCache c m addr data width)
      (memWriteCache c m' addr data width) := by
  have hloop := cacheLoop_same h .write id width addr c
  unfold memWriteCache
  generalize cacheLoop .write id width addr c m = r at hloop
  generalize cacheLoop .write id width addr c m' = r' at hloop
  obtain ⟨w, c₁, m₁⟩ := r
  obtain ⟨w', c₁', m₁'⟩ := r'
  obtain ⟨h1, h2, h3⟩ := hloop
  obtain rfl : w' = w := h1
  obtain rfl : c₁' = c₁ := h2
  obtain ⟨pt, hpt, rfl⟩ : m₁.Same m₁' := h3
  cases w' with
  | true => exact .ok ⟨pt, hpt, rfl⟩
  | false =>
    dsimp only
    cases setWordCache c₁' addr data with
    | error e => exact .error e
    | ok c₂ => exact .ok ⟨pt, hpt, rfl⟩

/-! ## Any access -/

theorem memReadSpecial_same (addr : Word) (width : Nat) :
    SameOutcome SameValue (memReadSpecial m addr width) (memReadSpecial m' addr width) := by
  obtain ⟨pt, hpt, rfl⟩ := h
  unfold memReadSpecial
  split_ifs
  · exact .error _
  · exact .ok ⟨rfl, pt, hpt, rfl⟩
  · exact .error _
  · exact .ok ⟨rfl, pt, hpt, rfl⟩
  · exact .ok ⟨rfl, pt, hpt, rfl⟩
  · exact .error _

theorem memWriteSpecial_same (addr data : Word) (width : Nat) :
    SameOutcome Memory.Same (memWriteSpecial m addr data width)
      (memWriteSpecial m' addr data width) := by
  obtain ⟨pt, hpt, rfl⟩ := h
  unfold memWriteSpecial
  split_ifs
  · exact .ok ⟨pt, hpt, rfl⟩
  · exact .ok ⟨pt, hpt, rfl⟩
  · exact .error _
  · exact .error _

theorem not_cached_same {addr : Word} (hc : ∀ c, ¬ m.Cached c addr) (c : Cache) :
    ¬ m'.Cached c addr := by
  rw [Memory.Cached, h.cache, h.segStart]
  exact hc c

theorem memRead_same (addr : Word) (width : Nat) :
    SameOutcome SameValue (memRead m addr width) (memRead m' addr width) := by
  cases hs : isSpecialAddr addr with
  | true =>
    rw [memRead_special hs, memRead_special hs]
    exact memReadSpecial_same h addr width
  | false =>
    by_cases hc : ∃ c, m.Cached c addr
    · obtain ⟨c, hc⟩ := hc
      have hc' : m'.Cached c addr := by rwa [Memory.Cached, h.cache, h.segStart]
      rw [memRead_cached hs hc, memRead_cached hs hc']
      exact memReadCache_same h c addr width
    · have hc := not_exists.1 hc
      rw [memRead_flat hs hc, memRead_flat hs (not_cached_same h hc)]
      obtain ⟨pt, hpt, rfl⟩ := h
      obtain ⟨hv, hb⟩ := memReadLE_same hpt addr width
      exact .ok ⟨hv, _, hb, rfl⟩

theorem memWrite_same (addr data : Word) {width : Nat} (hw : width ≤ 2 ^ 64) :
    SameOutcome Memory.Same (memWrite m addr data width) (memWrite m' addr data width) := by
  cases hs : isSpecialAddr addr with
  | true =>
    rw [memWrite_special hs, memWrite_special hs]
    exact memWriteSpecial_same h addr data width
  | false =>
    by_cases hc : ∃ c, m.Cached c addr
    · obtain ⟨c, hc⟩ := hc
      have hc' : m'.Cached c addr := by rwa [Memory.Cached, h.cache, h.segStart]
      rw [memWrite_cached hs hc, memWrite_cached hs hc']
      exact memWriteCache_same h c addr data width
    · have hc := not_exists.1 hc
      rw [memWrite_flat hs hc, memWrite_flat hs (not_cached_same h hc)]
      obtain ⟨pt, hpt, rfl⟩ := h
      exact .ok ⟨_, byteAt_memWriteLE_same hpt addr data hw, rfl⟩

omit h in
theorem dmem_eq (m : Memory) (addr wval : Word) (read write : Bool) (rval : Word) :
    dmem m addr wval read write rval =
      if !read && !write then .ok (rval, false, m)
      else (if read then memRead m addr 8 else .ok (rval, m)) >>= fun r =>
        (if write then memWrite r.2 addr wval 8 else .ok r.2) >>= fun m₁ =>
          .ok (r.1, dmemErr m addr, m₁) := by
  cases read <;> cases write <;> rfl

/-- One data access to both. -/
theorem dmem_same (addr wval : Word) (read write : Bool) (rval : Word) :
    SameOutcome (fun r r' => r'.1 = r.1 ∧ r'.2.1 = r.2.1 ∧ r.2.2.Same r'.2.2)
      (dmem m addr wval read write rval) (dmem m' addr wval read write rval) := by
  rw [dmem_eq, dmem_eq]
  by_cases hno : (!read && !write) = true
  · rw [if_pos hno, if_pos hno]
    exact .ok ⟨rfl, rfl, h⟩
  · rw [if_neg hno, if_neg hno]
    have hread : SameOutcome SameValue (if read = true then memRead m addr 8 else .ok (rval, m))
        (if read = true then memRead m' addr 8 else .ok (rval, m')) := by
      split_ifs
      · exact memRead_same h addr 8
      · exact .ok ⟨rfl, h⟩
    refine hread.bind fun r r' hr => ?_
    have hwrite : SameOutcome Memory.Same (if write = true then memWrite r.2 addr wval 8 else .ok r.2)
        (if write = true then memWrite r'.2 addr wval 8 else .ok r'.2) := by
      split_ifs
      · exact memWrite_same hr.2 addr wval (by decide)
      · exact .ok hr.2
    exact hwrite.bind fun m₁ m₁' hm => .ok ⟨hr.1, dmemErr_congr h.segStart addr, hm⟩

end Accesses

end ChArm
