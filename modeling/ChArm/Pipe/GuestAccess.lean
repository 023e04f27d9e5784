import ChArm.Base.FillBounds
import ChArm.Pipe.FaultingAccess

/-!
# Data accesses that break the emulator

`dmem` notices a misaligned address but does not stop the access, and
`_mem_write_special` has no case for `CHECKPOINT_ADDR`.  So a load or a store can
end the emulator: a store to `CHECKPOINT_ADDR` fails an assertion, and a cached
access to two blocks asks, as soon as both have been brought in, for eight bytes
that no line holds (`memoryInstr_breaks_iff`).

* `cacheLoop_crossing` — when an access to two blocks gets through.
* `breaks_memRead`, `breaks_memWrite` — one read, one write.
* `memoryInstr_breaks_iff` — the M stage, in every state of every run.
-/

namespace ChArm

/-- Does an ending of the process break the emulator?  A read of the null pointer ends it in order. -/
def Abort.breaks : Abort → Bool
  | .exitFailure => false
  | .assertFailed | .nullDeref | .outOfBounds => true

/-- Does filling in the block of `addr` drop the block of `last`? -/
def fillDrops (c : Cache) (addr last : Word) : Bool :=
  setIndex c last == setIndex c addr &&
    getLine c last == some (selectLine (getSet c addr) c.A.toNat).1

/-- Does an access to two blocks get through both in this call?  Each has to be resident, and
stay so, or its miss has to end now. -/
def getsThrough (c : Cache) (m : Memory) (addr : Word) : Bool :=
  let last := addr + 7#64
  if (getLine c addr).isNone then
    m.countdown c (blockAddress c addr) == 0 &&
      (c.d == 1 || (getLine c last).isSome && !fillDrops c addr last)
  else (getLine c last).isSome || m.countdown c (blockAddress c last) == 0

/-- Does the access go through the cache, to two blocks that are both there? -/
def Memory.overreaches (m : Memory) (addr : Word) : Bool :=
  match m.cache with
  | some c => !isSpecialAddr addr && m.segStart .data ≤ addr && crossesBlock c addr &&
      getsThrough c m addr
  | none => false

/-- A miss that starts now ends now exactly when the delay is one. -/
theorem Memory.countdown_idle {m : Memory} {c : Cache} (hidle : m.inflight = false) (block : Word) :
    m.countdown c block = 0 ↔ c.d = 1 := by
  have hd := c.d.isLt
  rw [countdown, if_pos (Or.inr hidle), ← BitVec.toNat_inj, ← BitVec.toNat_inj,
    BitVec.toNat_sub, BitVec.toNat_setWidth]
  have hzero : (0 : Word).toNat = 0 := rfl
  have hone : (1#64 : Word).toNat = 1 ∧ (1 : BitVec 32).toNat = 1 := ⟨rfl, rfl⟩
  omega

namespace Cache.WellTagged

variable {c : Cache} {g : Geometry} (h : c.WellTagged g)
include h

/-- A loop over bytes of one block gets through when the block is there or its miss ends. -/
theorem cacheLoop_fst_iff (operation : Operation) (fillBase : Word → Word) {n : Nat} {x : Word}
    (hblock : ∀ k < n + 1, g.blockNum (x + BitVec.ofNat 64 k) = g.blockNum x) (m : Memory) :
    (cacheLoop operation fillBase (n + 1) x c m).1 = false ↔
      getLine c x ≠ none ∨ m.countdown c (blockAddress c x) = 0 := by
  rw [h.fits.blockAddress_eq]
  by_cases hg : getLine c x = none
  · by_cases hdone : m.countdown c (g.blockStart (g.blockNum x)) = 0
    · obtain ⟨c', m', hloop, -⟩ := h.cacheLoop_bringIn operation fillBase hblock hg hdone
      rw [hloop]
      exact ⟨fun _ => Or.inr hdone, fun _ => rfl⟩
    · rw [h.cacheLoop_missed operation fillBase n hg hdone]
      exact ⟨nofun, fun hor => (hor.elim (absurd hg) hdone).elim⟩
  · obtain ⟨c', k, hloop, -⟩ := h.cacheLoop_hit operation fillBase hblock hg m
    rw [hloop]
    exact ⟨fun _ => Or.inl hg, fun _ => rfl⟩

/-- What is still there after the block of an absent address was filled in. -/
theorem getLine_completeMiss (operation : Operation) (fillBase : Word) {addr : Word}
    (hg : getLine c addr = none) (m : Memory) {last : Word}
    (hlast : g.blockNum last ≠ g.blockNum addr) :
    getLine (completeMiss operation fillBase (g.blockStart (g.blockNum addr)) c m).1 last =
      if fillDrops c addr last then none else getLine c last := by
  have hA : 0 < c.A.toNat := h.ways.1
  obtain ⟨hi, ht⟩ := (h.fits.same_block_iff _ addr).2 (g.blockNum_blockStart addr)
  obtain ⟨set, k, hset, hmiss⟩ := handleMiss_selectLine c hA m.counts addr operation
    (readBlock m.ptable fillBase c.B.toNat).1
  have hj := lt_of_lt_of_eq (selectLine_spec (getSet c addr) hA).1 h.fits.A_toNat
  have hput := h.getLine_putLine hj
    (l := c.filledLine addr operation (selectLine (getSet c addr) c.A.toNat).1
      (readBlock m.ptable fillBase c.B.toNat).1) rfl rfl
    (fun k hk _ hkv => h.tag_ne_of_absent hg rfl hk hkv) hset last
  rw [if_neg (by rw [Geometry.inBlock]; simpa using hlast)] at hput
  simp only [completeMiss, handleMiss_congr hi ht, hmiss, hput, fillDrops, Bool.and_eq_true,
    beq_iff_eq]

/-- **When an access to two blocks gets through.**  The loop over the bytes of the first block,
then the loop over the rest. -/
theorem cacheLoop_crossing (operation : Operation) (fillBase : Word → Word) {addr : Word}
    (hcross : g.fitsBlock addr = false) (m : Memory) :
    (cacheLoop operation fillBase 8 addr c m).1 = false ↔ getsThrough c m addr = true := by
  obtain ⟨hrest, hother⟩ := Geometry.last_block hcross
  obtain ⟨hpos, hle, hblock⟩ := g.bytesInBlock_spec addr
  have hblock₂ := g.rest_block addr
  have hlt : g.bytesInBlock addr < 8 := by
    refine lt_of_le_of_ne hle fun heq => ?_
    rw [(g.bytesInBlock_eq_iff addr).1 heq] at hcross
    cases hcross
  obtain ⟨n, hn⟩ : ∃ n, g.bytesInBlock addr = n + 1 := ⟨g.bytesInBlock addr - 1, by omega⟩
  obtain ⟨p, hp⟩ : ∃ p, 8 - (n + 1) = p + 1 := ⟨6 - n, by omega⟩
  -- the loop over the first block, then the loop over the second
  have hsplit := cacheLoop_add operation fillBase (n + 1) (p + 1) addr c m
  rw [← hp, Nat.add_sub_cancel' (by omega), hp] at hsplit
  rw [hn] at hblock hrest hblock₂
  rw [hp] at hblock₂
  have hsecond : ∀ {c₁ : Cache} (_ : c₁.WellTagged g) (m₁ : Memory),
      (cacheLoop operation fillBase (p + 1) (addr + BitVec.ofNat 64 (n + 1)) c₁ m₁).1 = false ↔
        getLine c₁ (addr + 7#64) ≠ none ∨
          m₁.countdown c (blockAddress c (addr + 7#64)) = 0 := by
    intro c₁ h₁ m₁
    rw [h₁.cacheLoop_fst_iff operation fillBase hblock₂, h₁.getLine_congr hrest,
      h₁.fits.blockAddress_eq, hrest, ← h.fits.blockAddress_eq, h.countdown_congr h₁]
  unfold getsThrough
  dsimp only
  cases hg : getLine c addr with
  | some j =>
    have hne : getLine c addr ≠ none := by
      rw [hg]
      exact Option.some_ne_none j
    obtain ⟨c₁, k, hloop, h₁, hl₁, -⟩ := h.cacheLoop_hit operation fillBase hblock hne m
    rw [hloop] at hsplit
    rw [hsplit]
    dsimp only
    rw [hsecond h₁, hl₁]
    simp [Memory.countdown, Option.isSome_iff_ne_none]
  | none =>
    by_cases hdone : m.countdown c (g.blockStart (g.blockNum addr)) = 0
    · obtain ⟨r, hr⟩ : ∃ r, completeMiss operation (fillBase (g.blockStart (g.blockNum addr)))
          (g.blockStart (g.blockNum addr)) c (m.missed c (g.blockStart (g.blockNum addr))) = r :=
        ⟨_, rfl⟩
      have hidle : r.2.inflight = false := by rw [← hr]; rfl
      obtain ⟨hloop, h₁⟩ := h.cacheLoop_completes operation fillBase hblock hg hdone hr
      -- filling the first block may evict the second
      have hget := h.getLine_completeMiss operation (fillBase (g.blockStart (g.blockNum addr))) hg
        (m.missed c (g.blockStart (g.blockNum addr))) hother
      rw [hr] at hget
      rw [hloop] at hsplit
      rw [hsplit]
      dsimp only
      rw [hsecond h₁, hget, Memory.countdown_idle (m := { r.2 with counts := r.2.counts.hits n }) hidle,
        h.fits.blockAddress_eq addr, hdone]
      by_cases hdrop : fillDrops c addr (addr + 7#64) = true
      · simp [hdrop]
      · simp [hdrop, Option.isSome_iff_ne_none, or_comm]
    · rw [h.cacheLoop_missed operation fillBase n hg hdone] at hsplit
      rw [hsplit, h.fits.blockAddress_eq, if_pos Option.isNone_none,
        Bool.and_eq_true, beq_iff_eq]
      exact ⟨fun hfalse => absurd hfalse.symm Bool.false_ne_true, fun hall => absurd hall.1 hdone⟩

/-- An access that gets through finds the block of its first byte, unless it goes on to another. -/
theorem getLine_of_cacheLoop {operation : Operation} {fillBase : Word → Word} {addr : Word}
    (hfit : g.fitsBlock addr = true) {m m' : Memory} {c' : Cache}
    (hloop : cacheLoop operation fillBase 8 addr c m = (false, c', m')) :
    getLine c' addr ≠ none := by
  have hbytes := (g.bytesInBlock_spec addr).2.2
  rw [(g.bytesInBlock_eq_iff addr).2 hfit] at hbytes
  by_cases hg : getLine c addr = none
  · by_cases hdone : m.countdown c (g.blockStart (g.blockNum addr)) = 0
    · obtain ⟨c₁, m₁, hends, -, hl₁⟩ := h.cacheLoop_bringIn operation fillBase hbytes hg hdone
      rw [hends] at hloop
      cases hloop
      exact hl₁
    · rw [h.cacheLoop_missed operation fillBase 7 hg hdone] at hloop
      cases hloop
  · obtain ⟨c₁, k, hends, -, hl₁, -⟩ := h.cacheLoop_hit operation fillBase hbytes hg m
    rw [hends] at hloop
    cases hloop
    rwa [hl₁]

/-- What the look-up after the loop does depends on the address alone. -/
theorem breaks_of_cacheLoop {operation : Operation} {fillBase : Word → Word} {addr : Word}
    {m m' : Memory} {c' : Cache}
    (hloop : cacheLoop operation fillBase 8 addr c m = (false, c', m')) :
    ((getLine c' addr).isNone || crossesBlock c' addr) = crossesBlock c addr := by
  have h' := h.tagged_of_cacheLoop hloop
  have hsame : crossesBlock c' addr = crossesBlock c addr := by
    rw [Bool.eq_iff_iff, h'.crossesBlock_iff, h.crossesBlock_iff]
  rw [hsame]
  by_cases hcross : crossesBlock c addr = true
  · rw [hcross, Bool.or_true]
  · have hfit : g.fitsBlock addr = true := by
      rwa [h.crossesBlock_iff, Bool.not_eq_false] at hcross
    rw [Bool.not_eq_true] at hcross
    rw [hcross, Bool.or_false, Option.isNone_eq_false_iff, Option.isSome_iff_ne_none]
    exact h.getLine_of_cacheLoop hfit hloop

end Cache.WellTagged

/-! ## Which calls break -/

/-- Does this outcome break the emulator? -/
def breaks {α : Type} : Except Abort α → Bool
  | .ok _ => false
  | .error e => e.breaks

/-- A step after one that succeeded does not break. -/
theorem breaks_bind {α β : Type} (x : Except Abort α) {f : α → Except Abort β}
    (hf : ∀ a, breaks (f a) = false) : breaks (x >>= f) = breaks x := by
  cases x with
  | error e => rfl
  | ok a => exact hf a

theorem breaks_getWordCache (c : Cache) (addr : Word) :
    breaks (getWordCache c addr) = ((getLine c addr).isNone || crossesBlock c addr) := by
  unfold getWordCache crossesBlock
  cases getLine c addr with
  | none => rfl
  | some j =>
    dsimp only
    split
    · next hle => simpa [breaks] using hle
    · next hlt => simpa [breaks, Abort.breaks] using hlt

theorem breaks_setWordCache (c : Cache) (addr val : Word) :
    breaks (setWordCache c addr val) = ((getLine c addr).isNone || crossesBlock c addr) := by
  unfold setWordCache crossesBlock
  cases getLine c addr with
  | none => rfl
  | some j =>
    dsimp only
    split
    · next hle => simpa [breaks] using hle
    · next hlt => simpa [breaks, Abort.breaks] using hlt

/-- An access that has to wait, or that is done and looks its word up. -/
theorem Cache.WellTagged.crossesBlock_and_getsThrough {c : Cache} {g : Geometry}
    (h : c.WellTagged g) (operation : Operation) (fillBase : Word → Word) (addr : Word)
    (m : Memory) :
    (crossesBlock c addr && getsThrough c m addr) =
      (!(cacheLoop operation fillBase 8 addr c m).1 && crossesBlock c addr) := by
  cases hcross : crossesBlock c addr with
  | false => rw [Bool.false_and, Bool.and_false]
  | true =>
    have hiff := h.cacheLoop_crossing operation fillBase (h.crossesBlock_iff addr |>.1 hcross) m
    rw [Bool.true_and, Bool.and_true, Bool.eq_iff_iff, ← hiff, Bool.not_eq_true']

theorem Cache.WellTagged.breaks_memReadCache {c : Cache} {g : Geometry} (h : c.WellTagged g)
    (m : Memory) (addr : Word) :
    breaks (memReadCache c m addr 8) = (crossesBlock c addr && getsThrough c m addr) := by
  rw [h.crossesBlock_and_getsThrough .read (fun _ => blockAddress c addr), memReadCache]
  rcases hloop : cacheLoop .read (fun _ => blockAddress c addr) 8 addr c m with ⟨_ | _, c', m'⟩
  · dsimp only
    rw [breaks_bind _ fun _ => rfl, breaks_getWordCache, h.breaks_of_cacheLoop hloop]
    rfl
  · rfl

theorem Cache.WellTagged.breaks_memWriteCache {c : Cache} {g : Geometry} (h : c.WellTagged g)
    (m : Memory) (addr data : Word) :
    breaks (memWriteCache c m addr data 8) = (crossesBlock c addr && getsThrough c m addr) := by
  rw [h.crossesBlock_and_getsThrough .write id, memWriteCache]
  rcases hloop : cacheLoop .write id 8 addr c m with ⟨_ | _, c', m'⟩
  · dsimp only
    rw [breaks_bind _ fun _ => rfl, breaks_setWordCache, h.breaks_of_cacheLoop hloop]
    rfl
  · rfl

theorem Memory.overreaches_special {addr : Word} (hs : isSpecialAddr addr = true) (m : Memory) :
    m.overreaches addr = false := by
  unfold overreaches
  split
  · rw [hs]
    rfl
  · rfl

theorem Memory.overreaches_cached {m : Memory} {c : Cache} {addr : Word}
    (hs : isSpecialAddr addr = false) (hc : m.Cached c addr) :
    m.overreaches addr = (crossesBlock c addr && getsThrough c m addr) := by
  rw [overreaches, hc.1]
  dsimp only
  rw [hs, decide_eq_true hc.2, Bool.not_false, Bool.true_and, Bool.true_and]

theorem Memory.overreaches_flat {m : Memory} {addr : Word} (hc : ∀ c, ¬ m.Cached c addr) :
    m.overreaches addr = false := by
  unfold overreaches
  split
  · next c hcache =>
    rw [decide_eq_false fun hle => hc c ⟨hcache, hle⟩, Bool.and_false, Bool.false_and,
      Bool.false_and]
  · rfl

/-- **When a read breaks the emulator.** -/
theorem breaks_memRead {m : Memory} (hm : m.Tagged) (addr : Word) :
    breaks (memRead m addr 8) = m.overreaches addr := by
  cases hs : isSpecialAddr addr with
  | true =>
    rw [Memory.overreaches_special hs, memRead, if_pos hs, memReadSpecial]
    simp only [isSpecialAddr, Bool.or_eq_true, beq_iff_eq] at hs
    split_ifs <;> first | rfl | simp_all
  | false =>
    by_cases hc : ∃ c, m.Cached c addr
    · obtain ⟨c, hc⟩ := hc
      obtain ⟨g, h⟩ := hm c hc.1
      rw [memRead_cached hs hc, h.breaks_memReadCache, Memory.overreaches_cached hs hc]
    · rw [memRead_flat hs (not_exists.1 hc), Memory.overreaches_flat (not_exists.1 hc)]
      rfl

/-- **When a write breaks the emulator.**  `_mem_write_special` has no case for `CHECKPOINT_ADDR`. -/
theorem breaks_memWrite {m : Memory} (hm : m.Tagged) (addr data : Word) :
    breaks (memWrite m addr data 8) = (addr == CHECKPOINT_ADDR || m.overreaches addr) := by
  cases hs : isSpecialAddr addr with
  | true =>
    rw [Memory.overreaches_special hs, Bool.or_false, memWrite, if_pos hs, memWriteSpecial]
    simp only [isSpecialAddr, Bool.or_eq_true, beq_iff_eq] at hs
    rcases hs with ((rfl | rfl) | rfl) | rfl <;> rfl
  | false =>
    have hcheckpoint : (addr == CHECKPOINT_ADDR) = false := by
      rw [beq_eq_false_iff_ne]
      rintro rfl
      cases hs
    rw [hcheckpoint, Bool.false_or]
    by_cases hc : ∃ c, m.Cached c addr
    · obtain ⟨c, hc⟩ := hc
      obtain ⟨g, h⟩ := hm c hc.1
      rw [memWrite_cached hs hc, h.breaks_memWriteCache, Memory.overreaches_cached hs hc]
    · rw [memWrite_flat hs (not_exists.1 hc), Memory.overreaches_flat (not_exists.1 hc)]
      rfl

/-! ## The memory stage -/

/-- Does the access of an instruction in M break the emulator? -/
def Memory.breaksAccess (m : Memory) (i : MInstr) : Bool :=
  match i.op with
  | .ldur => m.overreaches i.valEx
  | .stur => i.valEx == CHECKPOINT_ADDR || m.overreaches i.valEx
  | _ => false

theorem breaks_memoryInstr {ec : Bool} {s : Machine} (hm : s.mem.Tagged) (hi : s.M.out.Ok ec) :
    breaks (memoryInstr s) = s.mem.breaksAccess s.M.out := by
  obtain ⟨hread, hwrite⟩ := hi.access
  unfold memoryInstr Memory.breaksAccess
  dsimp only
  rw [breaks_bind _ fun _ => rfl, hread, hwrite]
  split
  · next hop =>
    rw [hop]
    exact (breaks_bind _ fun _ => rfl).trans (breaks_memRead hm _)
  · next hop =>
    rw [hop]
    have hwrites := breaks_bind (memWrite s.mem s.M.out.valEx s.M.out.valB 8)
      (f := fun m => .ok (s.W.inp.valMem, dmemErr s.mem s.M.out.valEx, m)) fun _ => rfl
    exact hwrites.trans (breaks_memWrite hm _ _)
  · next hload hstore =>
    rw [decide_eq_false hload, decide_eq_false hstore]
    rfl

/-- **When a data access breaks the emulator.**  In every state of every run, with any cache the
emulator can be configured with, a load or a store in M breaks the emulator exactly when it
stores to `CHECKPOINT_ADDR` or gets through to two blocks. -/
theorem memoryInstr_breaks_iff {ec : Bool} {img : Image} {entry : Word} {n : Nat}
    {σ : Nat → Machine} (hc : img.CacheOk) (h : Execution ec img entry n σ) {k : Nat} (hk : k ≤ n)
    {s₁ : Machine} (hf : fetchInstr ec (σ k) = .ok s₁) :
    (∀ e, memoryInstr (executeInstr ec (decodeInstr ec s₁)) = .error e → e.breaks = false) ↔
      s₁.mem.breaksAccess (σ k).M.out = false := by
  obtain ⟨hMout, r, hr, hmem⟩ := fetchInstr_inv hf
  have ht : s₁.mem.Tagged := by
    rw [hmem]
    exact tagged_of_fetch (h.tagged hc hk) hr
  have hok : s₁.M.out.Ok ec := by
    rw [hMout]
    exact (h.wellFormed hk).m
  have hbreaks : breaks (memoryInstr (executeInstr ec (decodeInstr ec s₁))) =
      s₁.mem.breaksAccess s₁.M.out :=
    breaks_memoryInstr (s := executeInstr ec (decodeInstr ec s₁)) ht hok
  rw [← hMout, ← hbreaks]
  cases memoryInstr (executeInstr ec (decodeInstr ec s₁)) with
  | error e => exact ⟨fun hall => hall e rfl, fun hno e' he => Except.error.inj he ▸ hno⟩
  | ok s₂ => exact ⟨fun _ => rfl, nofun⟩

/-- A load from two blocks that waits for the first of them. -/
theorem memoryInstr_breaks_strayLoad :
    ∃ s₁, fetchInstr false
        (stateAt false (.ofWords strayLoad (some Geometry.oneLine.cache)) 0x400000#64 3) = .ok s₁ ∧
      ∀ e, memoryInstr (executeInstr false (decodeInstr false s₁)) = .error e →
        e.breaks = false := by
  obtain ⟨s₁, hf, hkeeps⟩ := exists_of_okAnd (x := fetchInstr false
    (stateAt false (.ofWords strayLoad (some Geometry.oneLine.cache)) 0x400000#64 3))
    (p := fun s₁ => !s₁.mem.breaksAccess (stateAt false
      (.ofWords strayLoad (some Geometry.oneLine.cache)) 0x400000#64 3).M.out) (by decide +kernel)
  have hc := Image.cacheOk_ofWords strayLoad .oneLine
  have hrun : Execution false (.ofWords strayLoad (some Geometry.oneLine.cache)) 0x400000#64 3
      (stateAt false (.ofWords strayLoad (some Geometry.oneLine.cache)) 0x400000#64) :=
    execution_stateAt (by decide +kernel)
  exact ⟨s₁, hf, (memoryInstr_breaks_iff hc hrun le_rfl hf).2 (by simpa using hkeeps)⟩

/-- `movz x1, #8`, `mvn x0, x1`, `stur x1, [x0]`, `ret`: a store to `CHECKPOINT_ADDR`. -/
def checkpointStore : List (BitVec 32) := [0xd2800101#32, 0xaa2103e0#32, 0xf8000001#32, 0xd65f03c0#32]

/-- How a computation failed. -/
def failure {α : Type} : Except Abort α → Option Abort
  | .ok _ => none
  | .error e => some e

theorem eq_error_of_failure {α : Type} {x : Except Abort α} {e : Abort} (h : failure x = some e) :
    x = .error e := by
  cases x with
  | ok a => cases h
  | error e' => rw [Option.some.inj h]

/-- A store to `CHECKPOINT_ADDR` fails an assertion.  A load from two blocks of a cache with a
single line looks up the one that the other has just replaced. -/
theorem not_memoryInstr_safe :
    (∃ s₁, fetchInstr false (stateAt false (.ofWords checkpointStore none) 0x400000#64 5) = .ok s₁ ∧
      memoryInstr (executeInstr false (decodeInstr false s₁)) = .error .assertFailed) ∧
    ∃ s₁, fetchInstr false
        (stateAt false (.ofWords strayLoad (some Geometry.wideLine.cache)) 0x400000#64 3) = .ok s₁ ∧
      memoryInstr (executeInstr false (decodeInstr false s₁)) = .error .nullDeref := by
  obtain ⟨s₁, hf, hstore⟩ := exists_of_okAnd
    (x := fetchInstr false (stateAt false (.ofWords checkpointStore none) 0x400000#64 5))
    (p := fun s₁ => failure (memoryInstr (executeInstr false (decodeInstr false s₁))) ==
      some .assertFailed) (by decide +kernel)
  obtain ⟨t₁, hf', hload⟩ := exists_of_okAnd (x := fetchInstr false
      (stateAt false (.ofWords strayLoad (some Geometry.wideLine.cache)) 0x400000#64 3))
    (p := fun t₁ => failure (memoryInstr (executeInstr false (decodeInstr false t₁))) ==
      some .nullDeref) (by decide +kernel)
  rw [beq_iff_eq] at hstore hload
  exact ⟨⟨s₁, hf, eq_error_of_failure hstore⟩, t₁, hf', eq_error_of_failure hload⟩

end ChArm
