import ChArm.Pipe.SingleInstr
import ChArm.Base.Execution

/-!
# Instructions that read their own address

`ADRP`, the branches and the links.  The address of an instruction does not travel down
the pipeline, only its successor does, and execute clears the low twelve bits of that one for
`ADRP`.  In the last word of a page the successor lies in the next page.

* `pcPerforms_adrp_iff` — `ADRP` finds its own page unless it is the last word of one.
* `pcPerforms_iff` — all instructions that read their own address.
-/

namespace ChArm

/-! ## Fetching from an address -/

/-- Fetch reads the word `w` from `pc`. -/
structure Fetches (ec : Bool) (s : Machine) (pc : Word) (w : BitVec 32) (s' : Machine) : Prop where
  pc_eq : fetchPC ec s = pc
  reads : fetchHalts ec s = false
  word : (imem s.mem pc).map (fun r => (r.1, r.2.1)) = .ok (w, false)
  fetch : fetchInstr ec s = .ok s'

section
variable {ec : Bool} {s s' : Machine} {pc : Word} {w : BitVec 32}

/-- A readable word is fetched. -/
theorem exists_fetches (hpc : fetchPC ec s = pc) (hreads : fetchHalts ec s = false)
    (hword : (imem s.mem pc).map (fun r => (r.1, r.2.1)) = .ok (w, false)) :
    ∃ s', Fetches ec s pc w s' := by
  subst hpc
  cases hmem : imem s.mem (fetchPC ec s) with
  | error a =>
      rw [hmem] at hword
      cases hword
  | ok r =>
      have hfetch : ∃ s', fetchInstr ec s = .ok s' := by
        rw [fetchInstr, hreads, if_neg Bool.false_ne_true]
        dsimp only
        rw [hmem]
        exact ⟨_, rfl⟩
      obtain ⟨s', hs'⟩ := hfetch
      exact ⟨s', rfl, hreads, hword, hs'⟩

/-- The first word of a program is fetched. -/
theorem exists_fetches_init (ec : Bool) {img : Image} {entry : Word} (hne : entry ≠ 0)
    (hword : (imem img.memory entry).map (fun r => (r.1, r.2.1)) = .ok (w, false)) :
    ∃ s', Fetches ec (.init img entry) entry w s' := by
  have hpc : fetchPC ec (.init img entry) = entry := by cases ec <;> rfl
  have hreads : fetchHalts ec (.init img entry) = false := by
    rw [fetchHalts, hpc, beq_false_of_ne hne]
    rfl
  exact exists_fetches hpc hreads hword

/-- What is fetched without an error is aligned. -/
theorem Fetches.aligned (h : Fetches ec s pc w s') : pc.toNat % 4 = 0 := by
  have hword := h.word
  have herr : (pc &&& 0x3#64) = 0 := by
    by_contra hne
    unfold imem at hword
    cases hread : memRead s.mem pc 4 with
    | error a =>
        rw [hread] at hword
        cases hword
    | ok r =>
        rw [hread] at hword
        have herr := congrArg Prod.snd (Except.ok.inj hword)
        have htrue : (!addrInImem s.mem pc || (pc &&& 0x3#64) != 0) = false := herr
        rw [Bool.or_eq_false_iff] at htrue
        exact hne (bne_eq_false_iff_eq.mp htrue.2)
  have hand : (pc &&& 0x3#64).toNat = pc.toNat % 4 := by
    rw [BitVec.toNat_and]
    exact Nat.and_two_pow_sub_one_eq_mod pc.toNat 2
  rw [← hand, herr]
  rfl

/-- What fetch leaves for decode and for the next fetch. -/
theorem Fetches.left (h : Fetches ec s pc w s') :
    s'.D.inp = fetchedInstr ec pc w false ∧
      s'.fPC = (predictPC ec pc w (fetchedInstr ec pc w false).op).1 := by
  obtain ⟨hpc, hreads, hword, hfetch⟩ := h
  subst hpc
  rw [fetchInstr, hreads, if_neg Bool.false_ne_true] at hfetch
  dsimp only at hfetch
  cases hmem : imem s.mem (fetchPC ec s) with
  | error a =>
      rw [hmem] at hword
      cases hword
  | ok r =>
      rw [hmem] at hword hfetch
      obtain ⟨bits, err, mem⟩ := r
      obtain ⟨rfl, rfl⟩ := Prod.mk.inj (Except.ok.inj hword)
      cases hfetch
      exact ⟨rfl, rfl⟩

end

/-! ## What is written back -/

/-- The registers after an instruction that execute passed on is written back. -/
def writtenBack (r : Regs) (m : MInstr) (valMem : Word) : Regs :=
  regfileWrite r (if m.wSigs.dstSel then 30#8 else m.dst)
    (if m.wSigs.wvalSel then valMem else m.valEx) m.wSigs.wEnable

/-- The registers after the architecture's write. -/
def archResult (r : Regs) : Option (A64.Dest × Word) → Regs
  | none => r
  | some (d, v) => archWrite r v (some d)

/-- The executed instruction writes the register, and fetch predicts the address, that the
architecture says. -/
structure PcPerforms (m : MInstr) (predicted pc : Word) (i : A64.PcInstr) : Prop where
  writes : ∀ r valMem, writtenBack r m valMem = archResult r (i.written pc)
  target : ∀ t, i.target pc = some t → predicted = t

/-! ## Addresses and offsets -/

theorem shiftLeft_two (x : Word) : x <<< 2 = x * 4#64 := BitVec.shiftLeft_eq_mul_twoPow x 2

theorem shiftLeft_twelve (x : Word) : x <<< 12 = x * 4096#64 := BitVec.shiftLeft_eq_mul_twoPow x 12

/-- The page of an address. -/
theorem and_page (x : Word) : (x &&& ~~~0xFFF#64).toNat = x.toNat / 4096 * 4096 := by
  have hmask : ∀ i < 64, (0xFFF#64).getLsbD i = decide (i < 12) := by decide
  have hshift : x &&& ~~~0xFFF#64 = (x >>> 12) <<< 12 := by
    refine BitVec.eq_of_getLsbD_eq fun i hi => ?_
    rw [BitVec.getLsbD_and, BitVec.getLsbD_not, hmask i hi, BitVec.getLsbD_shiftLeft,
      BitVec.getLsbD_ushiftRight]
    by_cases hlow : i < 12
    · simp [hlow]
    · simp [hlow, hi, show 12 + (i - 12) = i by omega]
  have hx := x.isLt
  rw [hshift, BitVec.toNat_shiftLeft, BitVec.toNat_ushiftRight, Nat.shiftRight_eq_div_pow,
    Nat.shiftLeft_eq, Nat.mod_eq_of_lt]
  omega

/-- The next instruction lies in the same page, except after the last word of one. -/
theorem page_succ_iff {pc : Word} (halign : pc.toNat % 4 = 0) :
    (pc + 4) &&& ~~~0xFFF#64 = pc &&& ~~~0xFFF#64 ↔ pc.toNat % 4096 ≠ 0xFFC := by
  have hpc := pc.isLt
  rw [← BitVec.toNat_inj, and_page, and_page, BitVec.toNat_add]
  show (pc.toNat + 4) % 2 ^ 64 / 4096 * 4096 = _ ↔ _
  omega

theorem or_setWidth_eq_append (hi : BitVec 19) (lo : BitVec 2) :
    (hi.setWidth 64 <<< 2) ||| lo.setWidth 64 = (hi ++ lo).setWidth 64 := by
  refine BitVec.eq_of_getLsbD_eq fun i hi' => ?_
  rw [BitVec.getLsbD_or, BitVec.getLsbD_shiftLeft, BitVec.getLsbD_setWidth, BitVec.getLsbD_setWidth,
    BitVec.getLsbD_setWidth, BitVec.getLsbD_append]
  by_cases hlow : i < 2
  · simp [hlow, hi']
  · simp [hlow, hi', show i - 2 < 64 by omega, BitVec.getLsbD_of_ge lo i (by omega)]

/-- Two shifts extend the sign. -/
theorem sshiftRight_shiftLeft (x : BitVec 21) :
    (x.setWidth 64 <<< 43).sshiftRight 43 = x.signExtend 64 := by
  refine BitVec.eq_of_getLsbD_eq fun i hi => ?_
  rw [BitVec.getLsbD_sshiftRight, BitVec.getLsbD_signExtend, BitVec.msb_eq_getLsbD_last,
    BitVec.msb_eq_getLsbD_last]
  by_cases hin : i < 21
  · simp [hin, hi, show 43 + i < 64 by omega]
  · simp [hin, hi, show ¬ 43 + i < 64 by omega]

/-- The immediate of `ADRP`. -/
theorem extractImmval_adrp (ec : Bool) (w : BitVec 32) :
    extractImmval ec w .adrp =
      (w.extractLsb' 5 19 ++ w.extractLsb' 29 2).signExtend 64 * 4096#64 := by
  rw [← shiftLeft_twelve]
  show (((((bitfieldU32 w 5 19).setWidth 64 <<< 2) ||| (bitfieldU32 w 29 2).setWidth 64 : Word)
    <<< 43).sshiftRight 43) <<< 12 = _
  rw [bitfieldU32_setWidth w (by decide) (by decide), bitfieldU32_setWidth w (by decide) (by decide)]
  rw [or_setWidth_eq_append, sshiftRight_shiftLeft]

/-! ## Instruction by instruction -/

section
variable (ec : Bool) (l : Locals) (rca : Rca) (r : Regs) (nzcv : BitVec 8) (pc : Word)
variable {w : BitVec 32}

/-- A branch writes nothing. -/
theorem writtenBack_branch {op : Opcode} {fmt : Format}
    (hd : fetchedInstr ec pc w false = ⟨w, op, fmt, pc + 4, .aok⟩)
    (hop : op = .b ∨ op = .bCond ∨ op = .cbz ∨ op = .cbnz) (r' : Regs) (valMem : Word) :
    writtenBack r' (executedAlone ec l rca r nzcv pc w) valMem = r' := by
  have hsigs : (generateDXMWControl ec op).2.2 = ⟨false, false, false⟩ := by
    rcases hop with rfl | rfl | rfl | rfl <;> cases ec <;> rfl
  have hx := decodedAlone_eq hd rfl rfl (by rcases hop with rfl | rfl | rfl | rfl <;> decide)
    (l := l) (r := r)
  rw [writtenBack, executedAlone, hx]
  show regfileWrite r' _ _ (generateDXMWControl ec op).2.2.wEnable = r'
  rw [hsigs]
  rfl

/-- What is left to check for a branch without a link. -/
theorem pcPerforms_branch {op : Opcode} {fmt : Format}
    (hd : fetchedInstr ec pc w false = ⟨w, op, fmt, pc + 4, .aok⟩)
    (hop : op = .b ∨ op = .bCond ∨ op = .cbz ∨ op = .cbnz) {i : A64.PcInstr}
    (hwritten : i.written pc = none) (htarget : i.target pc = some (predictPC ec pc w op).1) :
    PcPerforms (executedAlone ec l rca r nzcv pc w)
      (predictPC ec pc w (fetchedInstr ec pc w false).op).1 pc i := by
  refine ⟨fun r' valMem => ?_, fun t ht => ?_⟩
  · rw [writtenBack_branch ec l rca r nzcv pc hd hop, hwritten]
    rfl
  · rw [hd]
    exact Option.some.inj (htarget.symm.trans ht)

/-- The 26-bit offset of `B` and `BL`. -/
theorem offset26 : bitfieldS64 w 0 26 <<< 2 = (w.extractLsb' 0 26).signExtend 64 * 4#64 := by
  rw [shiftLeft_two, bitfieldS64_eq w (by decide) (by decide) (by decide)]

/-- The 19-bit offset of the conditional branches. -/
theorem offset19 : bitfieldS64 w 5 19 <<< 2 = (w.extractLsb' 5 19).signExtend 64 * 4#64 := by
  rw [shiftLeft_two, bitfieldS64_eq w (by decide) (by decide) (by decide)]

theorem fetchedInstr_b (hop : w.extractLsb' 26 6 = 0b000101#6) :
    fetchedInstr ec pc w false = ⟨w, .b, .b1, pc + 4, .aok⟩ := by
  have hmem : (Opcode.b, 0x0a0, 0x0bf) ∈ itableEntries ec := by cases ec <;> decide
  obtain ⟨hlo, hhi⟩ := index_of_opcode (m := 5) rfl hop
  exact fetchedInstr_eq ec pc hmem hlo hhi .b rfl (by decide) (by decide)

theorem pcPerforms_b (hop : w.extractLsb' 26 6 = 0b000101#6) :
    PcPerforms (executedAlone ec l rca r nzcv pc w)
      (predictPC ec pc w (fetchedInstr ec pc w false).op).1 pc (.b (w.extractLsb' 0 26)) := by
  have hd := fetchedInstr_b ec pc hop
  refine pcPerforms_branch ec l rca r nzcv pc hd (by decide) rfl ?_
  show some (pc + _) = some (pc + (bitfieldS64 w 0 26 <<< 2))
  rw [offset26]

theorem fetchedInstr_bCond (hop : w.extractLsb' 24 8 = 0b01010100#8) :
    fetchedInstr ec pc w false = ⟨w, .bCond, .b2, pc + 4, .aok⟩ := by
  have hmem : (Opcode.bCond, 0x2a0, 0x2a7) ∈ itableEntries ec := by cases ec <;> decide
  obtain ⟨hlo, hhi⟩ := index_of_opcode (m := 3) rfl hop
  exact fetchedInstr_eq ec pc hmem hlo hhi .bCond rfl (by decide) (by decide)

theorem pcPerforms_bCond (hop : w.extractLsb' 24 8 = 0b01010100#8) :
    PcPerforms (executedAlone ec l rca r nzcv pc w)
      (predictPC ec pc w (fetchedInstr ec pc w false).op).1 pc
      (.bCond (w.extractLsb' 0 4) (w.extractLsb' 5 19)) := by
  have hd := fetchedInstr_bCond ec pc hop
  refine pcPerforms_branch ec l rca r nzcv pc hd (by decide) rfl ?_
  show some (pc + _) = some (pc + (bitfieldS64 w 5 19 <<< 2))
  rw [offset19]

theorem fetchedInstr_cbz (hop : w.extractLsb' 24 8 = 0b10110100#8) :
    fetchedInstr true pc w false = ⟨w, .cbz, .ec, pc + 4, .aok⟩ := by
  have hmem : (Opcode.cbz, 0x5a0, 0x5a7) ∈ itableEntries true := by decide
  obtain ⟨hlo, hhi⟩ := index_of_opcode (m := 3) rfl hop
  exact fetchedInstr_eq true pc hmem hlo hhi .cbz rfl (by decide) (by decide)

theorem pcPerforms_cbz (hop : w.extractLsb' 24 8 = 0b10110100#8) :
    PcPerforms (executedAlone true l rca r nzcv pc w)
      (predictPC true pc w (fetchedInstr true pc w false).op).1 pc
      (.cbz (A64.rd w) (w.extractLsb' 5 19)) := by
  have hd := fetchedInstr_cbz pc hop
  refine pcPerforms_branch true l rca r nzcv pc hd (by decide) rfl ?_
  show some (pc + _) = some (pc + (bitfieldS64 w 5 19 <<< 2))
  rw [offset19]

theorem fetchedInstr_cbnz (hop : w.extractLsb' 24 8 = 0b10110101#8) :
    fetchedInstr true pc w false = ⟨w, .cbnz, .ec, pc + 4, .aok⟩ := by
  have hmem : (Opcode.cbnz, 0x5a8, 0x5af) ∈ itableEntries true := by decide
  obtain ⟨hlo, hhi⟩ := index_of_opcode (m := 3) rfl hop
  exact fetchedInstr_eq true pc hmem hlo hhi .cbnz rfl (by decide) (by decide)

theorem pcPerforms_cbnz (hop : w.extractLsb' 24 8 = 0b10110101#8) :
    PcPerforms (executedAlone true l rca r nzcv pc w)
      (predictPC true pc w (fetchedInstr true pc w false).op).1 pc
      (.cbnz (A64.rd w) (w.extractLsb' 5 19)) := by
  have hd := fetchedInstr_cbnz pc hop
  refine pcPerforms_branch true l rca r nzcv pc hd (by decide) rfl ?_
  show some (pc + _) = some (pc + (bitfieldS64 w 5 19 <<< 2))
  rw [offset19]

theorem fetchedInstr_bl (hop : w.extractLsb' 26 6 = 0b100101#6) :
    fetchedInstr ec pc w false = ⟨w, .bl, .b1, pc + 4, .aok⟩ := by
  have hmem : (Opcode.bl, 0x4a0, 0x4bf) ∈ itableEntries ec := by cases ec <;> decide
  obtain ⟨hlo, hhi⟩ := index_of_opcode (m := 5) rfl hop
  exact fetchedInstr_eq ec pc hmem hlo hhi .bl rfl (by decide) (by decide)

theorem pcPerforms_bl (hop : w.extractLsb' 26 6 = 0b100101#6) :
    PcPerforms (executedAlone ec l rca r nzcv pc w)
      (predictPC ec pc w (fetchedInstr ec pc w false).op).1 pc (.bl (w.extractLsb' 0 26)) := by
  have hd := fetchedInstr_bl ec pc hop
  have hsigs : generateDXMWControl ec .bl =
      (⟨true, false, false⟩, ⟨false, false⟩, ⟨true, false, true⟩) := by cases ec <;> rfl
  have hx := decodedAlone_eq hd hsigs rfl (by decide) (l := l) (r := r)
  refine ⟨fun r' valMem => ?_, fun t ht => ?_⟩
  · have hvalEx : (executedAlone ec l rca r nzcv pc w).valEx = pc + 4 := by
      rw [executedAlone, hx, execute_valEx (show Opcode.bl ≠ .blr by decide)]
      rfl
    rw [writtenBack, hvalEx, executedAlone, hx]
    rfl
  · rw [← Option.some.inj ht, hd]
    show pc + (bitfieldS64 w 0 26 <<< 2) = _
    rw [offset26]

theorem fetchedInstr_blr (hop : w.extractLsb' 21 11 = 0b11010110001#11) :
    fetchedInstr true pc w false = ⟨w, .blr, .ec, pc + 4, .aok⟩ := by
  have hmem : (Opcode.blr, 0x6b1, 0x6b1) ∈ itableEntries true := by decide
  exact fetchedInstr_eq true pc hmem (by rw [hop]; decide) (by rw [hop]; decide) .blr rfl
    (by decide) (by decide)

theorem pcPerforms_blr (hop : w.extractLsb' 21 11 = 0b11010110001#11) :
    PcPerforms (executedAlone true l rca r nzcv pc w)
      (predictPC true pc w (fetchedInstr true pc w false).op).1 pc (.blr (A64.rn w)) := by
  have hd := fetchedInstr_blr pc hop
  refine ⟨fun r' valMem => ?_, fun t ht => nomatch ht⟩
  rw [executedAlone, decodedAlone, hd]
  rfl

/-- The index of an `ADRP`, whose low immediate stands in the middle of it. -/
theorem fetchedInstr_adrp (hop : w.extractLsb' 31 1 = 1#1) (hop2 : w.extractLsb' 24 5 = 0b10000#5) :
    fetchedInstr ec pc w false = ⟨w, .adrp, .i2, pc + 4, .aok⟩ := by
  have hsplit : (w.extractLsb' 21 11).toNat =
      (w.extractLsb' 31 1).toNat * 2 ^ 10 + (w.extractLsb' 21 10).toNat :=
    extractLsb'_split w 21 10 1
  have hsplit' : (w.extractLsb' 21 10).toNat =
      (w.extractLsb' 29 2).toNat * 2 ^ 8 + (w.extractLsb' 21 8).toNat := extractLsb'_split w 21 8 2
  have hsplit'' : (w.extractLsb' 21 8).toNat =
      (w.extractLsb' 24 5).toNat * 2 ^ 3 + (w.extractLsb' 21 3).toNat := extractLsb'_split w 21 3 5
  have hlow := (w.extractLsb' 21 3).isLt
  have hmid := (w.extractLsb' 29 2).isLt
  rw [hop] at hsplit
  rw [hop2] at hsplit''
  have hmem : ∀ k < 4, (Opcode.adrp, 0x480 + k * 0x100, 0x487 + k * 0x100) ∈ itableEntries ec := by
    cases ec <;> decide
  refine fetchedInstr_eq ec pc (hmem _ hmid) ?_ ?_ .adrp rfl (by decide) (by decide)
  · simp only [BitVec.toNat_ofNat] at hsplit hsplit''
    omega
  · simp only [BitVec.toNat_ofNat] at hsplit hsplit''
    omega

/-- The result of an `ADRP`. -/
theorem executedAlone_adrp (hd : fetchedInstr ec pc w false = ⟨w, .adrp, .i2, pc + 4, .aok⟩)
    (r' : Regs) (valMem : Word) :
    writtenBack r' (executedAlone ec l rca r nzcv pc w) valMem =
      archWrite r' (((pc + 4) &&& ~~~0xFFF#64) +
        (w.extractLsb' 5 19 ++ w.extractLsb' 29 2).signExtend 64 * 4096#64)
        (A64.Dest.ofXzr (A64.rd w)) := by
  have hsigs : generateDXMWControl ec .adrp =
      (⟨true, false, false⟩, ⟨false, false⟩, ⟨false, false, true⟩) := by cases ec <;> rfl
  have hregs : extractRegs ec l w .adrp .i2 =
      ⟨XZR_NUM, XZR_NUM, spToXzr ((A64.rd w).setWidth 8)⟩ := by
    rw [← regField_eq w (by decide : 0 + 5 ≤ 32)]
    rfl
  have hx := decodedAlone_eq hd hsigs hregs (by decide) (l := l) (r := r)
  have hvalEx : (executedAlone ec l rca r nzcv pc w).valEx = ((pc + 4) &&& ~~~0xFFF#64) +
      (w.extractLsb' 5 19 ++ w.extractLsb' 29 2).signExtend 64 * 4096#64 := by
    rw [executedAlone, hx, execute_valEx (show Opcode.adrp ≠ .blr by decide)]
    show (alu rca ((pc + 4) &&& ~~~0xFFF#64) (extractImmval ec w .adrp) _ _ .plus _ _ _).valE = _
    rw [alu_plus, extractImmval_adrp]
  rw [writtenBack, hvalEx, executedAlone, hx]
  exact regfileWrite_spToXzr r' (A64.rd w) _

/-- `ADRP` finds its own page unless it is the last word of one. -/
theorem pcPerforms_adrp_iff (hop : w.extractLsb' 31 1 = 1#1) (hop2 : w.extractLsb' 24 5 = 0b10000#5)
    (halign : pc.toNat % 4 = 0) :
    PcPerforms (executedAlone ec l rca r nzcv pc w)
        (predictPC ec pc w (fetchedInstr ec pc w false).op).1 pc
        (.adrp (A64.rd w) (w.extractLsb' 5 19 ++ w.extractLsb' 29 2)) ↔
      ¬ (A64.rd w ≠ 31#5 ∧ pc.toNat % 4096 = 0xFFC) := by
  have hd := fetchedInstr_adrp ec pc hop hop2
  have hwritten := executedAlone_adrp ec l rca r nzcv pc hd
  by_cases hrd : A64.rd w = 31#5
  · refine ⟨fun _ h => h.1 hrd, fun _ => ⟨fun r' valMem => ?_, fun t ht => nomatch ht⟩⟩
    rw [hwritten, A64.PcInstr.written, A64.Dest.ofXzr, if_pos hrd]
    rfl
  · constructor
    · intro h hlast
      have hsame := h.writes r 0
      rw [hwritten, A64.PcInstr.written, A64.Dest.ofXzr, if_neg hrd] at hsame
      -- the two registers agree, and so do the two pages
      have hreg := congrFun (congrArg Regs.GPR hsame) ((A64.rd w).setWidth 8)
      simp only [archResult, archWrite, Option.map_some, Function.update_self] at hreg
      exact (page_succ_iff halign).mp (add_right_cancel hreg) hlast.2
    · intro hlast
      have hpage := (page_succ_iff halign).mpr fun h => hlast ⟨hrd, h⟩
      refine ⟨fun r' valMem => ?_, fun t ht => nomatch ht⟩
      rw [hwritten, hpage, A64.PcInstr.written, A64.Dest.ofXzr, if_neg hrd]
      rfl

end

/-! ## Every encoding -/

/-- `CBZ`, `CBNZ` and `BLR` are in the extra-credit build only. -/
def PcInBuild (ec : Bool) : A64.PcInstr → Prop
  | .cbz _ _ | .cbnz _ _ | .blr _ => ec = true
  | _ => True

/-- An `ADRP` that writes a register from the last word of a page. -/
def AdrpAtPageEnd (pc : Word) : A64.PcInstr → Prop
  | .adrp rd _ => rd ≠ 31#5 ∧ pc.toNat % 4096 = 0xFFC
  | _ => False

/-- **An instruction that reads its own address writes and predicts what the architecture says,
unless it is an `ADRP` in the last word of a page.** -/
theorem pcPerforms_iff {ec : Bool} {w : BitVec 32} {i : A64.PcInstr} (h : A64.PcEncodes w i)
    (hbuild : PcInBuild ec i) {s s' : Machine} {pc : Word} (hf : Fetches ec s pc w s') (l : Locals)
    (rca : Rca) (r : Regs) (nzcv : BitVec 8) :
    PcPerforms (execute ec rca nzcv (decode ec l r s'.D.inp).1) s'.fPC pc i ↔
      ¬ AdrpAtPageEnd pc i := by
  obtain ⟨hd, hpred⟩ := hf.left
  rw [hd, hpred]
  cases h with
  | adrp hop hop2 => exact pcPerforms_adrp_iff ec l rca r nzcv pc hop hop2 hf.aligned
  | b hop => exact iff_of_true (pcPerforms_b ec l rca r nzcv pc hop) not_false
  | bl hop => exact iff_of_true (pcPerforms_bl ec l rca r nzcv pc hop) not_false
  | bCond hop _ => exact iff_of_true (pcPerforms_bCond ec l rca r nzcv pc hop) not_false
  | cbz hop =>
      cases (show ec = true from hbuild)
      exact iff_of_true (pcPerforms_cbz l rca r nzcv pc hop) not_false
  | cbnz hop =>
      cases (show ec = true from hbuild)
      exact iff_of_true (pcPerforms_cbnz l rca r nzcv pc hop) not_false
  | blr hop _ _ =>
      cases (show ec = true from hbuild)
      exact iff_of_true (pcPerforms_blr l rca r nzcv pc hop) not_false

/-- A page of text with one word, `adrp x0, 0`, at its index. -/
def adrpAt (k : Nat) : Image := .ofWords (List.replicate k 0xD503201F#32 ++ [0x90000000#32]) none

theorem encodes_adrp : A64.PcEncodes 0x90000000#32 (.adrp 0#5 0#21) := .adrp (by decide) (by decide)

/-- `adrp x0, 0` in the first word of a page. -/
theorem pcPerforms_adrpAtStart :
    ∃ s', Fetches false (.init (adrpAt 0) 0x400000) 0x400000 0x90000000#32 s' ∧
      PcPerforms (execute false Rca.zero 0 (decode false sampleLocals sampleRegs s'.D.inp).1) s'.fPC
        0x400000 (.adrp 0#5 0#21) := by
  have hword : (imem (adrpAt 0).memory 0x400000).map (fun r => (r.1, r.2.1)) =
      .ok (0x90000000#32, false) := by decide +kernel
  obtain ⟨s', hf⟩ := exists_fetches_init false (by decide) hword
  exact ⟨s', hf, (pcPerforms_iff encodes_adrp trivial hf _ _ _ _).mpr fun h => absurd h.2 (by decide)⟩

/-- `adrp x0, 0` in the last word of a page writes the address of the next page. -/
theorem not_pcPerforms_adrpAtEnd :
    ∃ s', Fetches false (.init (adrpAt 1023) 0x400FFC) 0x400FFC 0x90000000#32 s' ∧
      ((writtenBack sampleRegs
        (execute false Rca.zero 0 (decode false sampleLocals sampleRegs s'.D.inp).1) 0).GPR 0 =
          0x401000 ∧
        ¬ PcPerforms (execute false Rca.zero 0 (decode false sampleLocals sampleRegs s'.D.inp).1)
          s'.fPC 0x400FFC (.adrp 0#5 0#21)) := by
  have hword : (imem (adrpAt 1023).memory 0x400FFC).map (fun r => (r.1, r.2.1)) =
      .ok (0x90000000#32, false) := by decide +kernel
  obtain ⟨s', hf⟩ := exists_fetches_init false (by decide) hword
  refine ⟨s', hf, ?_⟩
  have hnext : (writtenBack sampleRegs
      (execute false Rca.zero 0 (decode false sampleLocals sampleRegs s'.D.inp).1) 0).GPR 0 =
        0x401000 := by
    rw [hf.left.1]
    decide +kernel
  refine ⟨hnext, fun h => ?_⟩
  rw [h.writes] at hnext
  exact absurd hnext (by decide +kernel)

end ChArm
