import ChArm.Base.CacheAccess
import ChArm.Base.SegmentScan

/-!
# What an `LDUR` returns

A load repeats its read while the read has to wait.  For an aligned address other than
0 it always returns, however long the miss takes: the doubleword of the line if its
block is resident, else the one in the page table (`Memory.loads_iff`).

* `memReadCache_done` — a read that need not wait.
* `exists_ldurValue_cached` — a load through the cache returns.
* `Memory.loads_iff` — what it returns.
-/

namespace ChArm

open WriteBack

/-- The value of an `LDUR`, after at most `n` reads. -/
def ldurValue : Nat → Memory → Word → Option Word
  | 0, _, _ => none
  | n + 1, m, addr =>
      match memRead m addr 8 with
      | .ok (v, m') => if m'.dmemStatus = .inFlight then ldurValue n m' addr else some v
      | .error _ => none

/-- An `LDUR` that begins in this memory system, with no read of its own pending, returns `v`. -/
def Memory.Loads (m : Memory) (addr v : Word) : Prop :=
  ∃ n, ldurValue n { m with dmemStatus := .ready } addr = some v

/-- The doubleword that a load of the address should see. -/
def Memory.loadedWord (m : Memory) (addr : Word) : Word :=
  match m.cache with
  | some c =>
      if m.segStart .data ≤ addr then
        match getWordCache c addr with
        | .ok v => v
        | .error _ => m.ptable.wordAt addr
      else m.ptable.wordAt addr
  | none => m.ptable.wordAt addr

theorem ldurValue_mono {n p : Nat} (hnp : n ≤ p) {m : Memory} {addr v : Word}
    (h : ldurValue n m addr = some v) : ldurValue p m addr = some v := by
  induction n generalizing p m with
  | zero => cases h
  | succ n ih =>
    obtain ⟨p, rfl⟩ := Nat.exists_eq_succ_of_ne_zero (Nat.ne_zero_of_lt hnp)
    rw [ldurValue] at h ⊢
    cases hr : memRead m addr 8 with
    | error e =>
      rw [hr] at h
      cases h
    | ok r =>
      rw [hr] at h
      dsimp only at h ⊢
      split
      · next hwait =>
        rw [if_pos hwait] at h
        exact ih (Nat.le_of_succ_le_succ hnp) h
      · next hwait =>
        rw [if_neg hwait] at h
        exact h

theorem Memory.Loads.unique {m : Memory} {addr v w : Word} (hv : m.Loads addr v)
    (hw : m.Loads addr w) : v = w := by
  obtain ⟨n, hn⟩ := hv
  obtain ⟨p, hp⟩ := hw
  have h := ldurValue_mono (le_max_left n p) hn
  rw [ldurValue_mono (le_max_right n p) hp] at h
  exact (Option.some.inj h).symm

/-- The null pointer is not loaded from. -/
theorem Memory.not_loads_null (m : Memory) (v : Word) : ¬ m.Loads NULL_ADDR v := by
  rintro ⟨n, hn⟩
  cases n with
  | zero => cases hn
  | succ n =>
    rw [ldurValue] at hn
    cases hn

/-! ## Reads through the cache -/

theorem memReadCache_of_loop {c c' : Cache} {m m' : Memory} {addr v : Word}
    (hloop : cacheLoop .read (fun _ => blockAddress c addr) 8 addr c m = (false, c', m'))
    (hget : getWordCache c' addr = .ok v) :
    memReadCache c m addr 8 = .ok (v, { m' with cache := some c', dmemStatus := .ready }) := by
  rw [memReadCache, hloop]
  dsimp only
  rw [hget]
  rfl

namespace Cache.WellTagged

variable {c : Cache} {g : Geometry} (h : c.WellTagged g)
include h

/-- A line holds the doubleword that loads see. -/
theorem getWordCache_view {addr : Word} (hal : addr.toNat % 8 = 0) (hg : getLine c addr ≠ none)
    (pt : PTable) :
    getWordCache c addr =
      .ok (leValue (fun k => (c.contents pt).view (addr + BitVec.ofNat 64 k)) 8) :=
  h.getWordCache_spec hg (of_decide_eq_true (g.fitsBlock_of_aligned hal)) pt

/-- **A read that need not wait** returns the doubleword of the line or of the page table. -/
theorem memReadCache_done {m : Memory} {addr : Word} (hal : addr.toNat % 8 = 0)
    (hw : m.waits g c addr = 0) :
    ∃ v m', memReadCache c m addr 8 = .ok (v, m') ∧ m'.dmemStatus = .ready ∧
      (getLine c addr ≠ none → getWordCache c addr = .ok v) ∧
      (getLine c addr = none → v = m.ptable.wordAt addr) := by
  have hblock := g.word_in_block hal
  by_cases hg : getLine c addr = none
  · have hdone := Memory.waits_eq_zero_iff.1 hw hg
    obtain ⟨c', k, pt, p, hloop, hw', hl', hs'⟩ :=
      @cacheLoop_fill c g h .read (fun _ => blockAddress c addr) _ _
        (h.fits.blockAddress_eq addr) hblock hg _ hdone
    refine ⟨_, _, memReadCache_of_loop hloop (hw'.getWordCache_view hal hl' pt), rfl,
      fun hne => absurd hg hne, fun _ => leValue_congr fun j hj => ?_⟩
    -- the block comes in from the page table, and the victim is another block
    have hin : g.inBlock (g.blockNum addr) (addr + BitVec.ofNat 64 j) = true := by
      rw [Geometry.inBlock, hblock j hj, beq_self_eq_true]
    have habsent : (c.contents m.ptable).copy (addr + BitVec.ofNat 64 j) = none := by
      rw [copy_eq_none_iff, h.getLine_congr (hblock j hj), hg]
    have hvictim : ∀ v, (c.contents m.ptable).copy (addr + BitVec.ofNat 64 j) = some (true, v) →
        p (addr + BitVec.ofNat 64 j) = false := by
      intro v hv
      rw [habsent] at hv
      cases hv
    rw [hs', dirtied]
    refine (Store.view_of_copy (if_pos hin)).trans ?_
    exact Store.backing_evict_other hvictim
  · obtain ⟨c', k, hloop, hw', hl', hs'⟩ :=
      h.cacheLoop_hit .read (fun _ => blockAddress c addr) hblock hg m
    have hsame : (c'.contents m.ptable).view = (c.contents m.ptable).view := by
      rw [hs', if_neg (by decide), view_dirtied]
    have hget := hw'.getWordCache_view hal (by rwa [hl']) m.ptable
    rw [hsame] at hget
    exact ⟨_, _, memReadCache_of_loop hloop hget, rfl,
      fun _ => h.getWordCache_view hal hg m.ptable, fun hn => absurd hn hg⟩

end Cache.WellTagged

/-! ## Every load returns -/

/-- A load through the cache returns, whatever the countdown of its miss. -/
theorem exists_ldurValue_cached {c : Cache} {g : Geometry} (h : c.WellTagged g) {addr : Word}
    (hal : addr.toNat % 8 = 0) (hs : isSpecialAddr addr = false) {m : Memory}
    (hc : m.Cached c addr) : ∃ n, ldurValue n m addr = some (m.loadedWord addr) := by
  induction hw : m.waits g c addr generalizing m with
  | zero =>
    obtain ⟨v, m', hr, hready, hhit, hmiss⟩ := h.memReadCache_done hal hw
    have hv : m.loadedWord addr = v := by
      rw [Memory.loadedWord, hc.1]
      dsimp only
      rw [if_pos hc.2]
      by_cases hg : getLine c addr = none
      · rw [hmiss hg, getWordCache, hg]
      · rw [hhit hg]
    refine ⟨1, ?_⟩
    rw [ldurValue, memRead_cached hs hc, hr, hv]
    dsimp only
    rw [hready, if_neg (by decide)]
  | succ w ih =>
    have hpos : 0 < m.waits g c addr := by omega
    obtain ⟨-, hcall⟩ := h.call_waits hc.1 (a := .read addr) hpos
    rw [DataAccess.call, hc.1] at hcall
    change memReadCache c m addr 8 = _ at hcall
    have hnext := m.waits_missed hpos
    obtain ⟨n, hn⟩ := ih
      (m := { m.missed c (g.blockStart (g.blockNum addr)) with dmemStatus := .inFlight }) hc
      (by omega)
    refine ⟨n + 1, ?_⟩
    rw [ldurValue, memRead_cached hs hc, hcall]
    exact hn

/-- Past the cache a load reads the page table. -/
theorem ldurValue_flat {m : Memory} {addr : Word} (hs : isSpecialAddr addr = false)
    (hc : ∀ c, ¬ m.Cached c addr) (hready : m.dmemStatus = .ready) :
    ldurValue 1 m addr = some (m.loadedWord addr) := by
  have hword : m.loadedWord addr = m.ptable.wordAt addr := by
    unfold Memory.loadedWord
    split
    · next c hcache => exact if_neg fun hle => hc c ⟨hcache, hle⟩
    · rfl
  rw [ldurValue, memRead_flat hs hc, memReadLE_fst, hword]
  dsimp only
  rw [hready, if_neg nofun]
  rfl

theorem isSpecialAddr_of_aligned {addr : Word} (hal : addr.toNat % 8 = 0) (hne : addr ≠ NULL_ADDR) :
    isSpecialAddr addr = false := by
  have hio : IO_CHAR_ADDR ≠ addr := by
    rintro rfl
    exact absurd hal (by decide)
  have hcheckpoint : CHECKPOINT_ADDR ≠ addr := by
    rintro rfl
    exact absurd hal (by decide)
  have hret : RET_FROM_MAIN_ADDR ≠ addr := hne.symm
  simp only [isSpecialAddr, beq_eq_false_iff_ne.2 hne.symm, beq_eq_false_iff_ne.2 hio,
    beq_eq_false_iff_ne.2 hret, beq_eq_false_iff_ne.2 hcheckpoint, Bool.or_false]

/-- **What loads return.** -/
theorem Memory.loads_iff {m : Memory} (hm : m.Tagged) {addr : Word} (hal : addr.toNat % 8 = 0)
    (v : Word) : m.Loads addr v ↔ addr ≠ NULL_ADDR ∧ v = m.loadedWord addr := by
  have hloads : addr ≠ NULL_ADDR → m.Loads addr (m.loadedWord addr) := by
    intro hne
    have hs := isSpecialAddr_of_aligned hal hne
    by_cases hc : ∃ c, m.Cached c addr
    · obtain ⟨c, hc⟩ := hc
      obtain ⟨g, h⟩ := hm c hc.1
      exact exists_ldurValue_cached h hal hs (m := { m with dmemStatus := .ready }) hc
    · exact ⟨1, ldurValue_flat hs (m := { m with dmemStatus := .ready }) (not_exists.1 hc) rfl⟩
  constructor
  · intro hv
    have hne : addr ≠ NULL_ADDR := by
      rintro rfl
      exact m.not_loads_null v hv
    exact ⟨hne, hv.unique (hloads hne)⟩
  · rintro ⟨hne, rfl⟩
    exact hloads hne

end ChArm
