import ChArm.Pipe.TakenInst

/-!
# Words executed as another instruction

A word that fetch lets through is executed as one instruction of its group; A64 may mean another
one by it, or none.  The words that fare so are listed group by group (`Misread`), and for all the
others what the pipeline does is what the word means (`decodeSound_iff`).

* `meansTaken_iff_not_misread` — group by group, what a word means and what it is taken for.
* `decodeSound_iff` — all `2 ^ 32` words.
-/

namespace ChArm

/-! ## Words outside the groups -/

/-- The entry of the instruction table for a group. -/
def groupEntry : A64.Group → Opcode
  | .loadStore true => .ldur
  | .loadStore false => .stur
  | .movz => .movz
  | .movk => .movk
  | .adrp => .adrp
  | .addImm => .addRI
  | .subImm => .subRI
  | .shifted op => rrEntry op
  | .bitfield true => .asr
  | .bitfield false => .ubfm
  | .twoSource => .ubfmv
  | .select false => .csel
  | .select true => .csneg
  | .b => .b
  | .bl => .bl
  | .bCond => .bCond
  | .cbz => .cbz
  | .cbnz => .cbnz
  | .br => .br
  | .blr => .blr
  | .ret => .ret
  | .system => .nop
  | .hlt => .hlt

/-- Every index an entry of the table covers is that of a group with this entry. -/
theorem itableEntries_group : ∀ e ∈ itableEntries true, ∀ k < e.2.2 + 1 - e.2.1,
    (A64.Group.all.find? fun g => g.has (BitVec.ofNat 11 (e.2.1 + k))).map groupEntry =
      some e.1 := by
  decide +kernel

section
variable {ec : Bool} {pc : Word} {w : BitVec 32}

/-- What the table knows is a word of a group. -/
theorem ofWord_of_itable (h : itable ec (w >>> 21).toNat ≠ .error) :
    (A64.Group.ofWord w).map groupEntry = some (itable ec (w >>> 21).toNat) := by
  rw [itable_index] at h ⊢
  unfold itable at h ⊢
  cases he : (itableEntries ec).find? fun e =>
      e.2.1 ≤ (w.extractLsb' 21 11).toNat && (w.extractLsb' 21 11).toNat ≤ e.2.2 with
  | none =>
    rw [he] at h
    exact absurd rfl h
  | some e =>
    have hmem : e ∈ itableEntries true := by
      have hmem := List.mem_of_find?_eq_some he
      cases ec with
      | true => exact hmem
      | false => exact List.mem_append_left _ hmem
    have hrange := List.find?_some he
    rw [Bool.and_eq_true, decide_eq_true_eq, decide_eq_true_eq] at hrange
    have hgroup := itableEntries_group e hmem ((w.extractLsb' 21 11).toNat - e.2.1) (by omega)
    rw [Nat.add_sub_cancel' hrange.1, BitVec.ofNat_toNat, BitVec.setWidth_eq] at hgroup
    exact hgroup

theorem fixInstrAliases_ne_error {op : Opcode} (h : op ≠ .error) :
    fixInstrAliases ec w op ≠ .error := by
  unfold fixInstrAliases
  split <;> first | exact h | (split_ifs <;> decide)

/-- Fetch marks exactly the words the table does not know. -/
theorem fetchedInstr_ins_iff :
    (fetchedInstr ec pc w false).status = .ins ↔ itable ec (w >>> 21).toNat = .error := by
  show fetchStatus false (fixInstrAliases ec w (itable ec (w >>> 21).toNat)) = .ins ↔ _
  constructor
  · intro h
    by_contra hne
    have hne' : fixInstrAliases ec w (itable ec (w >>> 21).toNat) ≠ .error :=
      fixInstrAliases_ne_error hne
    rw [fetchStatus, if_neg (not_or.2 ⟨Bool.false_ne_true, hne'⟩)] at h
    split_ifs at h
  · intro h
    rw [h]
    rfl

/-- The groups that are not in a build have the opcodes of the extra-credit build. -/
theorem isEC_groupEntry {g : A64.Group} (h : ¬ GroupInBuild ec g) :
    ec = false ∧ (groupEntry g).isEC = true := by
  revert h
  cases ec <;> rcases g with (_ | _) | _ | _ | _ | _ | _ | _ | (_ | _) | _ | (_ | _) | _ <;>
    simp [GroupInBuild, groupEntry, Opcode.isEC]

/-- A word of no group of this build is marked. -/
theorem fetchedInstr_ins (h : ∀ g, A64.Group.ofWord w = some g → ¬ GroupInBuild ec g) :
    (fetchedInstr ec pc w false).status = .ins := by
  rw [fetchedInstr_ins_iff]
  by_contra hne
  obtain ⟨g, hg, hentry⟩ := Option.map_eq_some_iff.1 (ofWord_of_itable hne)
  obtain ⟨rfl, hec⟩ := isEC_groupEntry (h g hg)
  rw [hentry, itable_ne_ec] at hec
  cases hec

/-! ## Words of a group -/

/-- A word of the group that A64 means something else by, or nothing. -/
def GroupMisread (pc : Word) (w : BitVec 32) : A64.Group → Prop
  | .loadStore _ =>
      w.getLsbD 10 = true ∧ (A64.imm9 w ≠ 0#9 ∨ (A64.rn w = A64.rd w ∧ A64.rn w ≠ 31#5))
  | .adrp => A64.rd w ≠ 31#5 ∧ pc.toNat % 4096 = 0xFFC
  | .shifted op => A64.imm6 w ≠ 0#6 ∧ A64.rm w ≠ 31#5 ∧ ¬ op.Idle (A64.rd w) (A64.rn w)
  | .bitfield true => A64.imms w ≠ 63#6 ∧ A64.rn w ≠ 31#5 ∧ A64.rd w ≠ 31#5
  | .bitfield false =>
      A64.imms w ≠ 63#6 ∧ A64.imms w + 1#6 ≠ A64.immr w ∧ A64.rn w ≠ 31#5 ∧ A64.rd w ≠ 31#5
  | .twoSource =>
      ∀ op ∈ A64.TwoOp.ofBits (w.extractLsb' 10 6), ¬ op.Shifts (A64.rd w) (A64.rn w) (A64.rm w)
  | .select _ => w.getLsbD 11 = true
  | .bCond => w.getLsbD 4 = true
  | .br | .blr | .ret => ¬ A64.BranchBits w
  | .system => ¬ (A64.HintBits w ∨ A64.BarrierBits w ∨ A64.MaintenanceBits w)
  | .hlt => A64.rd w ≠ 0#5
  | .movz | .movk | .addImm | .subImm | .b | .bl | .cbz | .cbnz => False

instance (pc : Word) (w : BitVec 32) (g : A64.Group) : Decidable (GroupMisread pc w g) := by
  rcases g with _ | _ | _ | _ | _ | _ | _ | (_ | _) | _ | _ | _ <;> unfold GroupMisread <;>
    infer_instance

/-- What A64 means by a word of a group is what it is executed as. -/
def MeansTaken (pc : Word) (w : BitVec 32) (g : A64.Group) : Prop :=
  ∀ s, (A64.Inst.ofGroup w g).map (A64.Inst.outcome pc s) =
    some ((takenInst w g).outcome (takenAddr pc g) s)

/-- A word without a meaning is executed all the same. -/
theorem not_meansTaken {g : A64.Group} (h : A64.Inst.ofGroup w g = none) : ¬ MeansTaken pc w g := by
  intro hall
  have hnone := hall (.uniform 0)
  rw [h] at hnone
  cases hnone

theorem meansTaken_iff {g : A64.Group} {i : A64.Inst} (h : A64.Inst.ofGroup w g = some i) :
    MeansTaken pc w g ↔ ∀ s, i.outcome pc s = (takenInst w g).outcome (takenAddr pc g) s := by
  simp only [MeansTaken, h, Option.map_some, Option.some.injEq]

theorem meansTaken_of_eq {g : A64.Group} (h : A64.Inst.ofGroup w g = some (takenInst w g))
    (haddr : takenAddr pc g = pc) : MeansTaken pc w g := by
  rw [meansTaken_iff h, haddr]
  exact fun _ => rfl

/-- The shift of an operation on two source registers whose opcode is allocated. -/
theorem two_shift_of_ofBits {op : A64.TwoOp} (h : A64.TwoOp.ofBits (w.extractLsb' 10 6) = some op) :
    op.shift = if w.getLsbD 10 then .lsrv else .lslv := by
  have hbit : w.getLsbD 10 = (w.extractLsb' 10 6).getLsbD 0 := by simp
  rw [hbit]
  generalize w.extractLsb' 10 6 = bits at h
  revert bits
  cases op <;> decide

/-- **What a word of a group means is what it is executed as, unless it is misread.** -/
theorem meansTaken_iff_not_misread (g : A64.Group) (halign : pc.toNat % 4 = 0) :
    MeansTaken pc w g ↔ ¬ GroupMisread pc w g := by
  cases g with
  | movz | movk | addImm | subImm | b | bl | cbz | cbnz =>
    -- groups whose words all mean what they are taken for
    exact iff_of_true (meansTaken_of_eq rfl rfl) not_false
  | loadStore load =>
    -- bit 10 is set in the indexed forms, which are executed without their write to the base
    by_cases hbit : w.getLsbD 10 = true
    · by_cases hbase : A64.rn w = A64.rd w ∧ A64.rn w ≠ 31#5
      · have hnone : A64.Inst.ofGroup w (.loadStore load) = none := by
          rw [A64.Inst.ofGroup, A64.Inst.ofLoadStore, hbit, if_neg (by decide), if_pos hbase]
        exact iff_of_false (not_meansTaken hnone) (not_not.2 ⟨hbit, .inr hbase⟩)
      · have hsome : A64.Inst.ofGroup w (.loadStore load) = some (.indexed load (!w.getLsbD 11)
            (A64.rd w) (A64.rn w) (A64.imm9 w)) := by
          rw [A64.Inst.ofGroup, A64.Inst.ofLoadStore, hbit, if_neg (by decide), if_neg hbase]
        rw [meansTaken_iff hsome]
        refine (A64.indexed_unscaled_iff pc load _ hbase _).trans ?_
        simp [GroupMisread, hbit, hbase]
    · have hbit := Bool.eq_false_iff.2 hbit
      refine iff_of_true (meansTaken_of_eq ?_ rfl) fun h => ?_
      · rw [A64.Inst.ofGroup, A64.Inst.ofLoadStore, if_pos hbit]
        rfl
      · rw [GroupMisread, hbit] at h
        cases h.1
  | adrp =>
    rw [meansTaken_iff rfl]
    refine (A64.adrp_eq_iff pc (pc + 4) _ _).trans ?_
    -- the page of the next instruction, where that is another one
    have hpage := eq_comm.trans (page_succ_iff halign)
    rw [hpage, GroupMisread]
    tauto
  | shifted op =>
    rw [meansTaken_iff rfl]
    -- executed without the shift
    refine (A64.shifted_eq_iff pc op _ _ _ _).trans ?_
    rw [GroupMisread]
    tauto
  | bitfield signed =>
    rw [meansTaken_iff rfl]
    -- executed as the shift that has the same `immr`
    cases signed with
    | true =>
      refine (A64.sbfm_asr_iff pc _ _ _ _).trans ?_
      rw [GroupMisread]
      tauto
    | false =>
      by_cases himms : A64.imms w = 63#6
      · refine iff_of_true (fun s => ?_) fun h => h.1 himms
        rw [takenInst, if_pos himms, himms]
        exact A64.onRegister_outcome_eq_iff.2 ⟨.inr (A64.ubfm_lsr _ _), rfl⟩
      · rw [takenInst, if_neg himms]
        refine (A64.ubfm_lsl_iff pc _ _ himms).trans ?_
        rw [GroupMisread]
        tauto
  | twoSource =>
    -- of the six opcode bits only bit 10 is looked at, so a division is executed as a shift
    cases hop : A64.TwoOp.ofBits (w.extractLsb' 10 6) with
    | none =>
      refine iff_of_false (not_meansTaken ?_) (not_not.2 ?_)
      · rw [A64.Inst.ofGroup, hop]
        rfl
      · rw [GroupMisread, hop]
        intro op hmem
        cases hmem
    | some op =>
      have hsome : A64.Inst.ofGroup w .twoSource =
          some (.two op (A64.rd w) (A64.rn w) (A64.rm w)) := by
        rw [A64.Inst.ofGroup, hop]
        rfl
      rw [meansTaken_iff hsome, takenInst, ← two_shift_of_ofBits hop]
      refine (A64.two_shift_iff pc op _ _ _).trans ?_
      simp [GroupMisread, hop]
  | select inverting =>
    -- unallocated where this bit is set
    cases hbit : w.getLsbD 11 with
    | true =>
      refine iff_of_false (not_meansTaken ?_) (not_not.2 hbit)
      rw [A64.Inst.ofGroup, A64.Inst.ofSelect, if_pos hbit]
    | false =>
      refine iff_of_true (meansTaken_of_eq ?_ rfl) (by rw [GroupMisread, hbit]; decide)
      rw [A64.Inst.ofGroup, A64.Inst.ofSelect, hbit, if_neg (by decide)]
      rfl
  | bCond =>
    cases hbit : w.getLsbD 4 with
    | true =>
      refine iff_of_false (not_meansTaken ?_) (not_not.2 hbit)
      rw [A64.Inst.ofGroup, if_pos hbit]
    | false =>
      refine iff_of_true (meansTaken_of_eq ?_ rfl) (by rw [GroupMisread, hbit]; decide)
      rw [A64.Inst.ofGroup, hbit, if_neg (by decide)]
      rfl
  | br | blr | ret =>
    -- the fixed bits of a branch to a register are not looked at
    by_cases hbits : A64.BranchBits w
    · exact iff_of_true (meansTaken_of_eq (if_pos hbits) rfl) (not_not.2 hbits)
    · exact iff_of_false (not_meansTaken (if_neg hbits)) (not_not.2 hbits)
  | hlt =>
    by_cases hrd : A64.rd w = 0#5
    · exact iff_of_true (meansTaken_of_eq (if_pos hrd) rfl) (not_not.2 hrd)
    · exact iff_of_false (not_meansTaken (if_neg hrd)) (not_not.2 hrd)
  | system =>
    -- every system instruction is executed as a `NOP`
    by_cases hidle : A64.HintBits w ∨ A64.BarrierBits w ∨ A64.MaintenanceBits w
    · obtain ⟨i, hi, hnothing⟩ := A64.ofSystem_of_idle pc hidle
      exact iff_of_true ((meansTaken_iff (g := .system) hi).2 hnothing) (not_not.2 hidle)
    · refine iff_of_false ?_ (not_not.2 hidle)
      obtain ⟨hhint, hidle⟩ := not_or.1 hidle
      obtain ⟨hbarrier, hmaintenance⟩ := not_or.1 hidle
      have hsystem : A64.Inst.ofGroup w .system = _ :=
        (if_neg hhint).trans ((if_neg hbarrier).trans (if_neg hmaintenance))
      split_ifs at hsystem
      · obtain ⟨s, hs⟩ := A64.msrNzcv_ne_nothing pc (A64.rd w)
        exact fun hall => hs ((meansTaken_iff hsystem).1 hall s)
      · exact not_meansTaken hsystem

/-! ## Words taken for a shift -/

/-- The shift that an opcode and the fields of its word stand for. -/
def shiftOf (w : BitVec 32) : Opcode → Option A64.Instr
  | .lslRI => some (.lslImm (A64.rd w) (A64.rn w) (-A64.immr w))
  | .lsrRI => some (.lsrImm (A64.rd w) (A64.rn w) (A64.immr w))
  | .asr => some (.asrImm (A64.rd w) (A64.rn w) (A64.immr w))
  | .lslRR => some (.shiftv .lslv (A64.rd w) (A64.rn w) (A64.rm w))
  | .lsrRR => some (.shiftv .lsrv (A64.rd w) (A64.rn w) (A64.rm w))
  | _ => none

/-- A word that is given the opcode of a shift is executed as that shift. -/
theorem takenInst_of_shiftOf {g : A64.Group} {i : A64.Instr}
    (hi : shiftOf w (fixInstrAliases ec w (groupEntry g)) = some i) (pc : Word) :
    takenInst w g = .instr i ∧ takenAddr pc g = pc := by
  cases g with
  | bitfield signed =>
    refine ⟨?_, rfl⟩
    cases signed with
    | true => exact congrArg A64.Inst.instr (Option.some.inj hi)
    | false =>
      rw [groupEntry, fixInstrAliases_ubfm] at hi
      rw [takenInst]
      split_ifs at hi ⊢ <;> exact congrArg A64.Inst.instr (Option.some.inj hi)
  | twoSource =>
    refine ⟨?_, rfl⟩
    rw [groupEntry, fixInstrAliases_ubfmv, extractLsb'_one] at hi
    rw [takenInst]
    cases hbit : w.getLsbD 10 with
    | true | false =>
      rw [hbit] at hi
      exact congrArg A64.Inst.instr (Option.some.inj hi)
  | shifted op =>
    rw [groupEntry, fixInstrAliases_rr] at hi
    split_ifs at hi <;> cases op <;> cases hi
  | select inverting =>
    cases inverting <;> cases ec <;> simp only [groupEntry, fixInstrAliases] at hi <;>
      split_ifs at hi <;> cases hi
  | loadStore load => cases load <;> cases hi
  | _ => cases hi

/-! ## Every word -/

/-- What a word at `pc` is executed as is what A64 defines for it; if it has the opcode of a shift,
it is that shift. -/
structure DecodeSound (ec : Bool) (pc : Word) (w : BitVec 32) (d : DInstr) : Prop where
  effect : ∀ l rca r f, A64.meaning w pc (archState r f) = some (outcomeOf ec l rca r f d)
  shift : ∀ i, shiftOf w d.op = some i →
    ∀ s, A64.meaning w pc s = some ((A64.Inst.instr i).outcome pc s)

/-- A word of a group that A64 means something else by, or nothing. -/
def Misread (ec : Bool) (pc : Word) (w : BitVec 32) : Prop :=
  ∃ g ∈ A64.Group.ofWord w, GroupInBuild ec g ∧ GroupMisread pc w g

instance (ec : Bool) (pc : Word) (w : BitVec 32) : Decidable (Misread ec pc w) := by
  unfold Misread
  infer_instance

/-- A word of a group of this build is decoded as it is meant exactly when what it means is what it
is executed as. -/
theorem decodeSound_iff_meansTaken {g : A64.Group} (hg : A64.Group.ofWord w = some g)
    (hb : GroupInBuild ec g) :
    DecodeSound ec pc w (fetchedInstr ec pc w false) ↔ MeansTaken pc w g := by
  have htaken : TakenFor ec pc w (takenAddr pc g) (takenInst w g) := takenFor_group hg hb
  have hmeaning : ∀ s, A64.meaning w pc s =
      (A64.Inst.ofGroup w g).map (A64.Inst.outcome pc s) := by
    intro s
    rw [A64.meaning, hg]
    rfl
  constructor
  · intro h s
    obtain ⟨r, f, rfl⟩ := archState_surjective s
    rw [← hmeaning, h.effect sampleLocals .zero, htaken.outcome]
  · intro h
    refine ⟨fun l rca r f => ?_, fun i hi s => ?_⟩
    · rw [htaken.outcome, hmeaning]
      exact h _
    · have hne := (not_congr fetchedInstr_ins_iff).1 htaken.status
      have hentry := ofWord_of_itable hne
      rw [hg] at hentry
      have hop : (fetchedInstr ec pc w false).op = fixInstrAliases ec w (groupEntry g) :=
        congrArg (fixInstrAliases ec w) (Option.some.inj hentry).symm
      rw [hop] at hi
      obtain ⟨hinst, haddr⟩ := takenInst_of_shiftOf hi pc
      rw [hmeaning, ← hinst]
      exact (h s).trans (by rw [haddr])

/-- **Every word that is fetched is marked, or is executed as the instruction A64 defines for it,
unless it is misread.** -/
theorem decodeSound_iff {s s' : Machine} (hf : Fetches ec s pc w s') :
    s'.D.inp.status = .ins ∨ DecodeSound ec pc w s'.D.inp ↔ ¬ Misread ec pc w := by
  rw [hf.left.1]
  by_cases hin : ∃ g ∈ A64.Group.ofWord w, GroupInBuild ec g
  · obtain ⟨g, hg, hb⟩ := hin
    have hmis : Misread ec pc w ↔ GroupMisread pc w g := by
      refine ⟨?_, fun h => ⟨g, hg, hb, h⟩⟩
      rintro ⟨g', hg', -, h⟩
      cases hg.symm.trans hg'
      exact h
    rw [or_iff_right (takenFor_group hg hb).status, decodeSound_iff_meansTaken hg hb, hmis]
    exact meansTaken_iff_not_misread g hf.aligned
  · have hmark : (fetchedInstr ec pc w false).status = .ins :=
      fetchedInstr_ins fun g hg hb => hin ⟨g, hg, hb⟩
    exact iff_of_true (.inl hmark) fun ⟨g, hg, hb, _⟩ => hin ⟨g, hg, hb⟩

end

/-- `lsl x0, x1, #3`, which is `ubfm x0, x1, #61, #60`. -/
theorem decodeSound_lsl :
    ∃ s', Fetches false (.init (.ofWords [0xD37DF020#32] none) 0x400000) 0x400000 0xD37DF020#32 s' ∧
      s'.D.inp.op = .lslRI ∧ DecodeSound false 0x400000 0xD37DF020#32 s'.D.inp := by
  have hword : (imem (Image.ofWords [0xD37DF020#32] none).memory 0x400000).map
      (fun r => (r.1, r.2.1)) = .ok (0xD37DF020#32, false) := by decide +kernel
  obtain ⟨s', hf⟩ := exists_fetches_init false (by decide) hword
  have hop : s'.D.inp.op = .lslRI := by
    rw [hf.left.1]
    decide +kernel
  have hst : s'.D.inp.status ≠ .ins := by
    rw [hf.left.1]
    decide +kernel
  exact ⟨s', hf, hop, ((decodeSound_iff hf).2 (by decide +kernel)).resolve_left hst⟩

/-- `ubfm x0, x1, #4, #11` is executed as `lsl x0, x1, #60`: with 5 in `X1` it leaves
`0x5000000000000000` in `X0` and not 0. -/
theorem not_decodeSound_ubfx :
    ∃ s', Fetches false (.init (.ofWords [0xD3442C20#32] none) 0x400000) 0x400000 0xD3442C20#32 s' ∧
      s'.D.inp.op = .lslRI ∧
        ¬ (s'.D.inp.status = .ins ∨ DecodeSound false 0x400000 0xD3442C20#32 s'.D.inp) := by
  have hword : (imem (Image.ofWords [0xD3442C20#32] none).memory 0x400000).map
      (fun r => (r.1, r.2.1)) = .ok (0xD3442C20#32, false) := by decide +kernel
  obtain ⟨s', hf⟩ := exists_fetches_init false (by decide) hword
  have hst : s'.D.inp.status = .aok := by
    rw [hf.left.1]
    decide +kernel
  have hop : s'.D.inp.op = .lslRI := by
    rw [hf.left.1]
    decide +kernel
  refine ⟨s', hf, hop, ?_⟩
  rintro (hins | h)
  · rw [hst] at hins
    cases hins
  · have heffect := h.effect sampleLocals .zero sampleRegs ⟨false, false, false, false⟩
    rw [hf.left.1] at heffect
    have hx0 := congrArg (Option.map fun o : A64.Outcome => (o.after 0).x 0) heffect
    have hmeant : ((A64.meaning 0xD3442C20#32 0x400000
        (archState sampleRegs ⟨false, false, false, false⟩)).map fun o => (o.after 0).x 0) =
          some 0 := by decide +kernel
    have hdone : ((outcomeOf false sampleLocals .zero sampleRegs ⟨false, false, false, false⟩
        (fetchedInstr false 0x400000 0xD3442C20#32 false)).after 0).x 0 =
          0x5000000000000000#64 := by decide +kernel
    rw [hmeant, Option.map_some, hdone] at hx0
    exact absurd hx0 (by decide)

end ChArm
