import ChArm.Lib.A64Cpu
import ChArm.Base.Agree

/-!
# The board

What the memory system is to a program that makes no mistake: flat bytes in the data segments, a
console at `IO_CHAR_ADDR` and two addresses that stand for nothing.  Without a cache a data access
that goes through without an error is an access of the board (`dmem_board`).

* `dmem_board` — what goes through without an error is an access of the board.
* `dmem_of_board` — what the board answers goes through without an error.
-/

namespace ChArm

/-- The bytes, the console, and the doublewords stored so far. -/
structure Board where
  bytes : Word → Byte
  stdin : List Nat → Nat → Word
  scanned : List Nat
  printed : List (Nat × Word)
  stores : List (Word × Word)

/-- Is there a doubleword of data at this address? -/
def isDataWord (segStart : Seg → Word) (a : Word) : Bool :=
  segStart .data ≤ a && a < segStart .kernel && a &&& 0x7#64 == 0

/-- Loads and stores of the board. -/
def boardBus (segStart : Seg → Word) : A64.Bus Board where
  load b a :=
    if a = NULL_ADDR then none
    else if a = IO_CHAR_ADDR then
      some (b.stdin b.scanned 8, { b with scanned := b.scanned ++ [8] })
    else if a = CHECKPOINT_ADDR then some (0, b)
    else if isDataWord segStart a then
      some (leValue (fun k => b.bytes (a + BitVec.ofNat 64 k)) 8, b)
    else none
  store b a v :=
    if a = NULL_ADDR then some b
    else if a = IO_CHAR_ADDR then some { b with printed := b.printed ++ [(8, v)] }
    else if a = CHECKPOINT_ADDR then none
    else if isDataWord segStart a then
      some { b with bytes := writeBytes b.bytes a v 8, stores := b.stores ++ [(a, v)] }
    else none

/-- The board that a memory system is. -/
def Memory.board (m : Memory) : Board := ⟨m.view, m.stdin, m.scanned, m.printed, m.stores⟩

theorem board_of_agree {m m' : Memory} (h : m.Agree (fun _ => False) m') : m'.board = m.board := by
  have hview : m'.view = m.view := funext fun a => h.view a id
  simp only [Memory.board, hview, h.stdin, h.scanned, h.printed, h.stores]

/-- An access that signals no error is at a special address or at a doubleword of data. -/
theorem isDataWord_of_not_err {m : Memory} {a : Word} (hs : isSpecialAddr a = false)
    (he : dmemErr m a = false) : isDataWord m.segStart a = true := by
  rw [dmemErr, hs, Bool.not_false, Bool.true_and, Bool.or_eq_false_iff, Bool.not_eq_false',
    bne_eq_false_iff_eq] at he
  obtain ⟨hin, hal⟩ := he
  rw [isDataWord, show (_ && _) = true from hin, hal]
  rfl

theorem not_err_of_isDataWord {m : Memory} {a : Word} (h : isDataWord m.segStart a = true) :
    dmemErr m a = false := by
  rw [isDataWord, Bool.and_eq_true] at h
  have hin : addrInDmem m a = true := h.1
  have hal : (a &&& 0x7#64 != 0) = false := bne_eq_false_iff_eq.2 (eq_of_beq h.2)
  rw [dmemErr, hin, hal]
  exact Bool.and_false _

/-- Such a doubleword is at no special address. -/
theorem ne_of_not_special {a : Word} (hs : isSpecialAddr a = false) :
    a ≠ NULL_ADDR ∧ a ≠ IO_CHAR_ADDR ∧ a ≠ CHECKPOINT_ADDR := by
  simp only [isSpecialAddr, Bool.or_eq_false_iff, beq_eq_false_iff_ne] at hs
  exact ⟨hs.1.1.1.symm, hs.1.1.2.symm, hs.2.symm⟩

section

variable {m m' : Memory} (h : m.Uncached) {a x v : Word}
include h

theorem load_board (he : dmemErr m a = false) (hr : memRead m a 8 = .ok (v, m')) :
    (boardBus m.segStart).load m.board a = some (v, m'.board) := by
  cases hs : isSpecialAddr a with
  | true =>
    rw [memRead_special hs, memReadSpecial] at hr
    dsimp only [boardBus]
    by_cases h0 : NULL_ADDR = a
    · rw [if_pos h0] at hr
      cases hr
    · rw [if_neg h0] at hr
      rw [if_neg fun hc => h0 hc.symm]
      by_cases hio : IO_CHAR_ADDR = a
      · rw [if_pos hio, if_pos (by decide)] at hr
        rw [if_pos hio.symm]
        cases hr
        have hval : signExtendBytes 8 (m.stdin m.scanned 8) = m.stdin m.scanned 8 := by
          simp [signExtendBytes]
        rw [hval]
        simp only [Memory.board, Memory.view]
      · have hret : ¬ RET_FROM_MAIN_ADDR = a := h0
        rw [if_neg hio, if_neg hret] at hr
        rw [if_neg fun hc => hio hc.symm]
        split_ifs at hr with hcp
        rw [if_pos hcp.symm]
        cases hr
        rfl
  | false =>
    obtain ⟨h0, hio, hcp⟩ := ne_of_not_special hs
    obtain ⟨pt, hpt, heq⟩ := h.memRead_eq hs 8
    rw [heq] at hr
    cases hr
    dsimp only [boardBus]
    rw [if_neg h0, if_neg hio, if_neg hcp, if_pos (isDataWord_of_not_err hs he)]
    have hboard : Memory.board { m with ptable := pt } = m.board := by
      simp only [Memory.board, h.view_ptable, hpt]
    rw [hboard]
    rfl

theorem store_board (he : dmemErr m a = false) (hw : memWrite m a x 8 = .ok m') :
    (boardBus m.segStart).store m.board a x = some m'.board := by
  cases hs : isSpecialAddr a with
  | true =>
    rw [memWrite_special hs, memWriteSpecial] at hw
    dsimp only [boardBus]
    by_cases h0 : NULL_ADDR = a
    · rw [if_pos h0] at hw
      rw [if_pos h0.symm]
      cases hw
      rfl
    · rw [if_neg h0] at hw
      rw [if_neg fun hc => h0 hc.symm]
      by_cases hio : IO_CHAR_ADDR = a
      · rw [if_pos hio, if_pos (by decide)] at hw
        rw [if_pos hio.symm]
        cases hw
        simp only [BitVec.setWidth_eq, Nat.reduceMul]
        rfl
      · rw [if_neg hio] at hw
        cases hw
  | false =>
    obtain ⟨h0, hio, hcp⟩ := ne_of_not_special hs
    rw [h.memWrite_eq hs] at hw
    cases hw
    dsimp only [boardBus]
    rw [if_neg h0, if_neg hio, if_neg hcp, if_pos (isDataWord_of_not_err hs he)]
    have hview : (memWriteFlat m a x 8).view = writeBytes m.view a x 8 := by
      rw [h.view_eq, ← byteAt_memWriteLE _ _ _ (by decide)]
      exact h.view_ptable _
    simp only [Memory.board, hview]
    rfl

/-- **A data access without an error is an access of the board.** -/
theorem dmem_board {read write : Bool} (hrw : (read && write) = false)
    (hd : dmem m a x read write 0 = .ok (v, false, m')) (after : Word → A64.State) :
    (boardBus m.segStart).access m.board
        ⟨if read then some a else none, if write then some (a, x) else none, after⟩ =
      some (v, m'.board) := by
  rcases dmem_inv hrw hd with ⟨rfl, rfl, rfl, rfl, -⟩ | ⟨rfl, rfl, hr, he⟩ | ⟨rfl, rfl, hw, rfl, he⟩
  · rfl
  · have hload := load_board h he.symm hr
    simp only [A64.Bus.access, if_true, hload]
    rfl
  · have hstore := store_board h he.symm hw
    simp only [A64.Bus.access, Bool.false_eq_true, if_true, if_false, Option.bind_eq_bind,
      Option.bind_some, hstore]
    rfl

/-- What the board answers goes through. -/
theorem load_answers (hb : (boardBus m.segStart).load m.board a ≠ none) :
    dmemErr m a = false ∧ ∃ v m', memRead m a 8 = .ok (v, m') := by
  dsimp only [boardBus] at hb
  cases hs : isSpecialAddr a with
  | true =>
    refine ⟨by rw [dmemErr, hs]; rfl, ?_⟩
    rw [memRead_special hs, memReadSpecial]
    have h0 : ¬ NULL_ADDR = a := fun h0 => hb (if_pos h0.symm)
    have hret : ¬ RET_FROM_MAIN_ADDR = a := h0
    rw [if_neg h0, if_neg hret]
    split_ifs with hio hwidth hcp
    · exact ⟨_, _, rfl⟩
    · exact absurd (by decide) hwidth
    · exact ⟨_, _, rfl⟩
    · simp only [isSpecialAddr, Bool.or_eq_true, beq_iff_eq] at hs
      tauto
  | false =>
    obtain ⟨h0, hio, hcp⟩ := ne_of_not_special hs
    rw [if_neg h0, if_neg hio, if_neg hcp] at hb
    obtain ⟨pt, -, heq⟩ := h.memRead_eq hs 8
    refine ⟨?_, _, _, heq⟩
    refine not_err_of_isDataWord ?_
    by_contra hno
    exact hb (if_neg hno)

theorem store_answers (hb : (boardBus m.segStart).store m.board a x ≠ none) :
    dmemErr m a = false ∧ ∃ m', memWrite m a x 8 = .ok m' := by
  dsimp only [boardBus] at hb
  cases hs : isSpecialAddr a with
  | true =>
    refine ⟨by rw [dmemErr, hs]; rfl, ?_⟩
    rw [memWrite_special hs, memWriteSpecial]
    split_ifs with h0 hio hwidth
    · exact ⟨_, rfl⟩
    · exact ⟨_, rfl⟩
    · exact absurd (by decide) hwidth
    · rw [if_neg fun hc => h0 hc.symm, if_neg fun hc => hio hc.symm, if_pos] at hb
      · exact absurd rfl hb
      · simp only [isSpecialAddr, Bool.or_eq_true, beq_iff_eq] at hs
        have hret : ¬ RET_FROM_MAIN_ADDR = a := h0
        tauto
  | false =>
    obtain ⟨h0, hio, hcp⟩ := ne_of_not_special hs
    rw [if_neg h0, if_neg hio, if_neg hcp] at hb
    refine ⟨not_err_of_isDataWord ?_, _, h.memWrite_eq hs x 8⟩
    by_contra hno
    exact hb (if_neg hno)

/-- **An access that the board answers goes through without an error.** -/
theorem dmem_of_board {read write : Bool} (hrw : (read && write) = false) {after : Word → A64.State}
    (hb : (boardBus m.segStart).access m.board
      ⟨if read then some a else none, if write then some (a, x) else none, after⟩ ≠ none) :
    ∃ v m', dmem m a x read write 0 = .ok (v, false, m') := by
  unfold dmem
  cases read with
  | true =>
    cases write with
    | true => cases hrw
    | false =>
      have hload : (boardBus m.segStart).load m.board a ≠ none := fun hno => hb (by
        simp only [A64.Bus.access, if_true, hno]
        rfl)
      obtain ⟨he, v, m', hr⟩ := load_answers h hload
      refine ⟨v, m', ?_⟩
      simp only [Bool.not_true, Bool.false_and, Bool.false_eq_true, if_false, if_true, hr, he]
      rfl
  | false =>
    cases write with
    | true =>
      have hstore : (boardBus m.segStart).store m.board a x ≠ none := fun hno => hb (by
        simp only [A64.Bus.access, Bool.false_eq_true, if_true, if_false, Option.bind_eq_bind,
          Option.bind_some, hno]
        rfl)
      obtain ⟨he, m', hw⟩ := store_answers h hstore
      refine ⟨0, m', ?_⟩
      simp only [Bool.not_true, Bool.not_false, Bool.and_false, Bool.false_eq_true, if_false,
        if_true, Except.bind, bind, hw, he]
    | false => exact ⟨0, m, rfl⟩

end

end ChArm
