import ChArm.Lib.A64Groups

/-!
# Instructions that do the same

Two instructions that differ in a field may do the same in every state.  When they do is worked out
here for the fields in which the instructions of a group differ: the amount by which an operand is
shifted (`shifted_eq_iff`), the fields of a bit-field move (`ubfm_lsl_iff`, `sbfm_asr_iff`), the
opcode of an operation on two source registers (`two_shift_iff`), the index mode of an access
(`indexed_unscaled_iff`) and the address of an `ADRP` (`adrp_eq_iff`).
-/

namespace A64

/-- All general registers hold `v`. -/
def State.uniform (v : BitVec 64) : State := ⟨fun _ => v, 0, ⟨false, false, false, false⟩⟩

/-- One general register holds `v`, the others 0. -/
def State.single (n : BitVec 5) (v : BitVec 64) : State :=
  ⟨fun m => if m = n then v else 0, 0, ⟨false, false, false, false⟩⟩

theorem State.xzr_31 (s : State) : s.xzr 31#5 = 0#64 := if_pos rfl

theorem State.xzr_uniform {n : BitVec 5} (h : n ≠ 31#5) (v : BitVec 64) :
    (State.uniform v).xzr n = v := if_neg h

theorem State.xzr_single {n : BitVec 5} (h : n ≠ 31#5) (v : BitVec 64) :
    (State.single n v).xzr n = v := by
  rw [xzr, if_neg h]
  exact if_pos rfl

theorem State.xzr_single_of_ne {m n : BitVec 5} (h : m ≠ n) (v : BitVec 64) :
    (State.single n v).xzr m = 0 := by
  rw [xzr]
  split_ifs
  · rfl
  · exact if_neg h

/-- Two effects on one register do the same if nothing is written or the same value is, and the
flags are the same. -/
theorem onRegister_outcome_eq_iff {rd : BitVec 5} {a b : BitVec 64} {f g : Flags} {s : State} :
    (Effect.onRegister rd a f).outcome s = (Effect.onRegister rd b g).outcome s ↔
      (rd = 31#5 ∨ a = b) ∧ f = g := by
  constructor
  · intro h
    have hafter : { s.write a (Dest.ofXzr rd) with flags := f } =
        { s.write b (Dest.ofXzr rd) with flags := g } := congrFun (congrArg Outcome.after h) 0
    refine ⟨or_iff_not_imp_left.2 fun hrd => ?_, congrArg State.flags hafter⟩
    have hx := congrFun (congrArg State.x hafter) rd
    simpa [Dest.ofXzr, hrd, State.write] using hx
  · rintro ⟨rfl | rfl, rfl⟩ <;> rfl

/-! ### Operations with and without a shift -/

/-- Does an operation do the same whatever its second operand? -/
def RROp.Idle (rd rn : BitVec 5) : RROp → Prop
  | .adds | .subs => False
  | .ands => rn = 31#5
  | .orr | .eor | .orn => rd = 31#5

instance (rd rn : BitVec 5) (op : RROp) : Decidable (op.Idle rd rn) := by
  cases op <;> unfold RROp.Idle <;> infer_instance

theorem RROp.Idle.apply_eq {op : RROp} {rd rn : BitVec 5} (h : op.Idle rd rn) (s : State)
    (b b' : BitVec 64) :
    (rd = 31#5 ∨ (op.apply (s.xzr rn) b s.flags).1 = (op.apply (s.xzr rn) b' s.flags).1) ∧
      (op.apply (s.xzr rn) b s.flags).2 = (op.apply (s.xzr rn) b' s.flags).2 := by
  cases op with
  | adds | subs => exact h.elim
  | ands =>
    cases (show rn = 31#5 from h)
    rw [State.xzr_31]
    simp [RROp.apply]
  | orr | eor | orn => exact ⟨.inl h, rfl⟩

/-- The uppermost bit is shifted out. -/
theorem top_shiftLeft {k : BitVec 6} (h : k ≠ 0#6) : 0x8000000000000000#64 <<< k.toNat = 0#64 := by
  revert k
  decide

/-- An operation that leaves its result in the flags, or in a register that is written, tells a
shifted operand from one that is not. -/
theorem RROp.exists_apply_ne {op : RROp} {rd rn rm : BitVec 5} {k : BitVec 6} (hk : k ≠ 0#6)
    (hrm : rm ≠ 31#5) (hop : ¬ op.Idle rd rn) :
    ∃ s : State, ¬ ((rd = 31#5 ∨ (op.apply (s.xzr rn) (s.xzr rm <<< k.toNat) s.flags).1 =
        (op.apply (s.xzr rn) (s.xzr rm) s.flags).1) ∧
      (op.apply (s.xzr rn) (s.xzr rm <<< k.toNat) s.flags).2 =
        (op.apply (s.xzr rn) (s.xzr rm) s.flags).2) := by
  cases op with
  | adds | subs =>
    refine ⟨.uniform 0x8000000000000000#64, fun h => ?_⟩
    have hflags := congrArg Flags.n h.2
    rw [State.xzr_uniform hrm, top_shiftLeft hk] at hflags
    by_cases hrn : rn = 31#5
    · rw [hrn, State.xzr_31] at hflags
      exact absurd hflags (by decide)
    · rw [State.xzr_uniform hrn] at hflags
      exact absurd hflags (by decide)
  | ands =>
    refine ⟨.uniform 0x8000000000000000#64, fun h => ?_⟩
    have hflags := congrArg Flags.n h.2
    rw [State.xzr_uniform hrm, State.xzr_uniform hop, top_shiftLeft hk] at hflags
    exact absurd hflags (by decide)
  | orr | eor | orn =>
    refine ⟨.single rm 1, fun h => ?_⟩
    have hval := h.1.resolve_left hop
    rw [State.xzr_single hrm] at hval
    by_cases hrn : rn = rm
    · rw [hrn, State.xzr_single hrm] at hval
      simp only [RROp.apply] at hval
      clear h hop
      revert k
      decide
    · rw [State.xzr_single_of_ne hrn] at hval
      simp only [RROp.apply] at hval
      clear h hop
      revert k
      decide

/-- When a shift makes no difference. -/
theorem shifted_eq_iff (pc : BitVec 64) (op : RROp) (k : BitVec 6) (rd rn rm : BitVec 5) :
    (∀ s, (Inst.shifted op k rd rn rm).outcome pc s =
        (Inst.instr (.rr op 0#2 rd rn rm)).outcome pc s) ↔
      k = 0#6 ∨ rm = 31#5 ∨ op.Idle rd rn := by
  have hsame : ∀ s : State, ((Inst.shifted op k rd rn rm).outcome pc s =
      (Inst.instr (.rr op 0#2 rd rn rm)).outcome pc s) ↔ _ :=
    fun s => onRegister_outcome_eq_iff
  simp only [hsame]
  constructor
  · intro h
    by_contra hnot
    obtain ⟨hk, hnot⟩ := not_or.1 hnot
    obtain ⟨hrm, hop⟩ := not_or.1 hnot
    obtain ⟨s, hs⟩ := RROp.exists_apply_ne hk hrm hop
    exact hs (h s)
  · rintro (rfl | rfl | hop) s
    · rw [BitVec.toNat_zero, BitVec.shiftLeft_zero]
      exact ⟨.inr rfl, rfl⟩
    · rw [State.xzr_31, BitVec.zero_shiftLeft]
      exact ⟨.inr rfl, rfl⟩
    · exact hop.apply_eq s _ _

/-! ### Bit fields and shifts -/

section
variable {lo hi : BitVec 6} {x : BitVec 64}

/-- The bits of an `UBFM`. -/
theorem getLsbD_ubfm {i : Nat} (hi' : i < 64) :
    (bitfieldMove false lo hi x).getLsbD i =
      if lo ≤ hi then decide (i ≤ hi.toNat - lo.toNat) && x.getLsbD (lo.toNat + i)
      else decide (64 - lo.toNat ≤ i ∧ i - (64 - lo.toNat) ≤ hi.toNat) &&
        x.getLsbD (i - (64 - lo.toNat)) := by
  unfold bitfieldMove
  by_cases h : lo ≤ hi
  · simp only [if_pos h, Bool.false_eq_true, if_false, BitVec.getLsbD_setWidth,
      BitVec.getLsbD_extractLsb', hi', decide_true, Bool.true_and, Nat.lt_succ_iff]
  · simp only [if_neg h, Bool.false_eq_true, if_false, BitVec.getLsbD_shiftLeft,
      BitVec.getLsbD_setWidth, BitVec.getLsbD_extractLsb', hi', decide_true, Bool.true_and,
      Nat.lt_succ_iff, Nat.sub_zero, Nat.zero_add]
    by_cases hle : 64 - lo.toNat ≤ i
    · simp [hle, Nat.not_lt.2 hle]
      omega
    · simp [hle, Nat.not_le.1 hle]

/-- The bits of an `SBFM`. -/
theorem getLsbD_sbfm {i : Nat} (hi' : i < 64) :
    (bitfieldMove true lo hi x).getLsbD i =
      if lo ≤ hi then x.getLsbD (if i ≤ hi.toNat - lo.toNat then lo.toNat + i else hi.toNat)
      else decide (64 - lo.toNat ≤ i) &&
        x.getLsbD (if i - (64 - lo.toNat) ≤ hi.toNat then i - (64 - lo.toNat) else hi.toNat) := by
  have hmsb : ∀ k n, (x.extractLsb' k (n + 1)).msb = x.getLsbD (k + n) := by
    intro k n
    rw [BitVec.msb_eq_getLsbD_last, BitVec.getLsbD_extractLsb']
    simp
  unfold bitfieldMove
  by_cases h : lo ≤ hi
  · have hle : lo.toNat ≤ hi.toNat := h
    simp only [if_pos h, if_true, BitVec.getLsbD_signExtend, BitVec.getLsbD_extractLsb', hmsb, hi',
      decide_true, Bool.true_and, Nat.lt_succ_iff]
    by_cases hin : i ≤ hi.toNat - lo.toNat
    · simp [hin]
    · simp [hin, show lo.toNat + (hi.toNat - lo.toNat) = hi.toNat by omega]
  · simp only [if_neg h, if_true, BitVec.getLsbD_shiftLeft, BitVec.getLsbD_signExtend,
      BitVec.getLsbD_extractLsb', hmsb, hi', decide_true, Bool.true_and, Nat.lt_succ_iff,
      Nat.sub_zero, Nat.zero_add]
    by_cases hle : 64 - lo.toNat ≤ i
    · by_cases hin : i - (64 - lo.toNat) ≤ hi.toNat
      · simp [hle, hin, Nat.not_lt.2 hle]
        omega
      · simp [hle, hin, Nat.not_lt.2 hle]
        omega
    · simp [hle, Nat.not_le.1 hle]

theorem ubfm_lsr (lo : BitVec 6) (x : BitVec 64) :
    bitfieldMove false lo 63#6 x = x >>> lo.toNat := by
  refine BitVec.eq_of_getLsbD_eq fun i hi => ?_
  have hle : lo ≤ 63#6 := by bv_omega
  rw [getLsbD_ubfm hi, if_pos hle, BitVec.getLsbD_ushiftRight]
  show (decide (i ≤ 63 - lo.toNat) && _) = _
  by_cases hin : i ≤ 63 - lo.toNat
  · simp [hin]
  · simp [hin, BitVec.getLsbD_of_ge x (lo.toNat + i) (by omega)]

theorem sbfm_asr (lo : BitVec 6) (x : BitVec 64) :
    bitfieldMove true lo 63#6 x = x.sshiftRight lo.toNat := by
  refine BitVec.eq_of_getLsbD_eq fun i hi => ?_
  have hle : lo ≤ 63#6 := by bv_omega
  rw [getLsbD_sbfm hi, if_pos hle, BitVec.getLsbD_sshiftRight, BitVec.msb_eq_getLsbD_last]
  show x.getLsbD (if i ≤ 63 - lo.toNat then lo.toNat + i else 63) = _
  have hlo := lo.isLt
  by_cases hin : i ≤ 63 - lo.toNat
  · simp [hin, hi, show lo.toNat + i < 64 by omega]
  · simp [hin, hi, show ¬ lo.toNat + i < 64 by omega]

/-- The bits from 0 to just below the amount, moved up, are a shift to the left. -/
theorem ubfm_lsl (h : hi + 1#6 = lo) (hne : hi ≠ 63#6) (x : BitVec 64) :
    bitfieldMove false lo hi x = x <<< (-lo).toNat := by
  have hlt : lo.toNat = hi.toNat + 1 := by bv_omega
  have hneg : (-lo).toNat = 64 - lo.toNat := by bv_omega
  have hnot : ¬ lo ≤ hi := by bv_omega
  refine BitVec.eq_of_getLsbD_eq fun i hi' => ?_
  rw [getLsbD_ubfm hi', if_neg hnot, hneg, BitVec.getLsbD_shiftLeft]
  by_cases hle : 64 - lo.toNat ≤ i
  · simp [hle, hi', Nat.not_lt.2 hle, show i - (64 - lo.toNat) ≤ hi.toNat by omega]
  · simp [hle, Nat.not_le.1 hle]

/-- The bit a shift of a single bit leaves. -/
theorem getLsbD_one_shiftLeft {n i : Nat} (hn : n < 64) :
    (1#64 <<< n).getLsbD i = decide (i = n) := by
  rw [BitVec.getLsbD_shiftLeft, BitVec.getLsbD_one]
  by_cases h : i = n
  · subst h
    simp [hn]
  · by_cases hlt : i < n <;> simp [h, hlt]
    omega

/-- Any other `UBFM` is no shift to the left. -/
theorem exists_ubfm_ne_lsl (h : hi + 1#6 ≠ lo) (hne : hi ≠ 63#6) :
    ∃ x : BitVec 64, bitfieldMove false lo hi x ≠ x <<< (-lo).toNat := by
  have hlo := lo.isLt
  have hhi := hi.isLt
  have hlt : hi.toNat < 63 := by bv_omega
  by_cases hzero : lo = 0#6
  · -- the bits above the field are lost
    refine ⟨1#64 <<< (hi.toNat + 1), fun heq => ?_⟩
    have hbit := congrArg (fun y => y.getLsbD (hi.toNat + 1)) heq
    have hle : lo ≤ hi := by bv_omega
    rw [getLsbD_ubfm (by omega), if_pos hle, hzero, BitVec.neg_zero, BitVec.toNat_zero,
      BitVec.shiftLeft_zero, getLsbD_one_shiftLeft (by omega)] at hbit
    simp at hbit
    omega
  · have hneg : (-lo).toNat = 64 - lo.toNat := by bv_omega
    by_cases hle : lo ≤ hi
    · -- a field further up comes down
      refine ⟨1#64, fun heq => ?_⟩
      have hbit := congrArg (fun y => y.getLsbD (64 - lo.toNat)) heq
      have hpos : 0 < lo.toNat := by bv_omega
      rw [getLsbD_ubfm (by omega), if_pos hle, hneg, getLsbD_one_shiftLeft (by omega),
        BitVec.getLsbD_one] at hbit
      simp at hbit
      omega
    · -- the field is too short
      refine ⟨1#64 <<< (hi.toNat + 1), fun heq => ?_⟩
      have hbit := congrArg (fun y => y.getLsbD (hi.toNat + 1 + (64 - lo.toNat))) heq
      have hshort : hi.toNat + 1 < lo.toNat := by bv_omega
      rw [getLsbD_ubfm (by omega), if_neg hle, hneg, ← BitVec.shiftLeft_add,
        getLsbD_one_shiftLeft (by omega)] at hbit
      simp at hbit
      omega

/-- An `SBFM` that stops short of the sign is no shift to the right. -/
theorem exists_sbfm_ne_asr (hne : hi ≠ 63#6) :
    ∃ x : BitVec 64, bitfieldMove true lo hi x ≠ x.sshiftRight lo.toNat := by
  have hlo := lo.isLt
  have hlt : hi.toNat < 63 := by bv_omega
  by_cases hle : lo ≤ hi
  · have hle' : lo.toNat ≤ hi.toNat := hle
    refine ⟨1#64 <<< (hi.toNat + 1), fun heq => ?_⟩
    have hbit := congrArg (fun y => y.getLsbD (hi.toNat + 1 - lo.toNat)) heq
    rw [getLsbD_sbfm (by omega), if_pos hle, BitVec.getLsbD_sshiftRight,
      if_neg (by omega), if_pos (by omega), getLsbD_one_shiftLeft (by omega),
      getLsbD_one_shiftLeft (by omega)] at hbit
    simp at hbit
    omega
  · have hpos : hi.toNat < lo.toNat := by bv_omega
    refine ⟨1#64, fun heq => ?_⟩
    have hbit := congrArg (fun y => y.getLsbD (64 - lo.toNat)) heq
    rw [getLsbD_sbfm (by omega), if_neg hle, BitVec.getLsbD_sshiftRight, if_pos (by omega)] at hbit
    simp [BitVec.getLsbD_one] at hbit
    omega

end

/-- When an `UBFM` that is no shift to the right does what a shift to the left does. -/
theorem ubfm_lsl_iff (pc : BitVec 64) {immr imms : BitVec 6} (rd rn : BitVec 5)
    (hne : imms ≠ 63#6) :
    (∀ s, (Inst.bitfield false immr imms rd rn).outcome pc s =
        (Inst.instr (.lslImm rd rn (-immr))).outcome pc s) ↔
      imms + 1#6 = immr ∨ rn = 31#5 ∨ rd = 31#5 := by
  have hsame : ∀ s : State, ((Inst.bitfield false immr imms rd rn).outcome pc s =
      (Inst.instr (.lslImm rd rn (-immr))).outcome pc s) ↔ _ :=
    fun s => onRegister_outcome_eq_iff
  simp only [hsame, and_true]
  constructor
  · intro h
    by_contra hnot
    obtain ⟨hshift, hnot⟩ := not_or.1 hnot
    obtain ⟨hrn, hrd⟩ := not_or.1 hnot
    obtain ⟨x, hx⟩ := exists_ubfm_ne_lsl hshift hne
    have heq := (h (.uniform x)).resolve_left hrd
    rw [State.xzr_uniform hrn] at heq
    exact hx heq
  · rintro (hshift | rfl | hrd) s
    · exact .inr (ubfm_lsl hshift hne _)
    · rw [State.xzr_31]
      refine .inr ?_
      rw [BitVec.zero_shiftLeft]
      refine BitVec.eq_of_getLsbD_eq fun i hi => ?_
      rw [getLsbD_ubfm hi]
      simp
    · exact .inl hrd

/-- When an `SBFM` does what a shift to the right does. -/
theorem sbfm_asr_iff (pc : BitVec 64) (immr imms : BitVec 6) (rd rn : BitVec 5) :
    (∀ s, (Inst.bitfield true immr imms rd rn).outcome pc s =
        (Inst.instr (.asrImm rd rn immr)).outcome pc s) ↔
      imms = 63#6 ∨ rn = 31#5 ∨ rd = 31#5 := by
  have hsame : ∀ s : State, ((Inst.bitfield true immr imms rd rn).outcome pc s =
      (Inst.instr (.asrImm rd rn immr)).outcome pc s) ↔ _ :=
    fun s => onRegister_outcome_eq_iff
  simp only [hsame, and_true]
  constructor
  · intro h
    by_contra hnot
    obtain ⟨hne, hnot⟩ := not_or.1 hnot
    obtain ⟨hrn, hrd⟩ := not_or.1 hnot
    obtain ⟨x, hx⟩ := exists_sbfm_ne_asr hne
    have heq := (h (.uniform x)).resolve_left hrd
    rw [State.xzr_uniform hrn] at heq
    exact hx heq
  · rintro (rfl | rfl | hrd) s
    · exact .inr (sbfm_asr _ _)
    · rw [State.xzr_31]
      refine .inr (BitVec.eq_of_getLsbD_eq fun i hi => ?_)
      rw [getLsbD_sbfm hi, BitVec.getLsbD_sshiftRight]
      simp
    · exact .inl hrd

/-! ### Operations on two source registers -/

/-- The shift whose opcode has the same last bit. -/
def TwoOp.shift : TwoOp → ShiftOp
  | .udiv | .lslv | .asrv => .lslv
  | .sdiv | .lsrv | .rorv => .lsrv

/-- Does an operation on these registers do what that shift does? -/
def TwoOp.Shifts (rd rn rm : BitVec 5) : TwoOp → Prop
  | .lslv | .lsrv => True
  | .asrv | .rorv => rd = 31#5 ∨ rn = 31#5 ∨ rm = 31#5
  | .udiv | .sdiv => rd = 31#5 ∨ rn = 31#5

instance (rd rn rm : BitVec 5) (op : TwoOp) : Decidable (op.Shifts rd rn rm) := by
  cases op <;> unfold TwoOp.Shifts <;> infer_instance

/-- Zero stays zero. -/
theorem TwoOp.apply_zero (op : TwoOp) (b : BitVec 64) :
    op.apply 0#64 b = op.shift.apply 0#64 b := by
  have hrot : ∀ k, (0#64).rotateRight k = 0#64 := by
    intro k
    refine BitVec.eq_of_getLsbD_eq fun i hi => ?_
    rw [BitVec.getLsbD_rotateRight]
    simp
  cases op <;> simp [apply, shift, ShiftOp.apply, hrot]

/-- Without a distance no shift moves anything. -/
theorem TwoOp.shift_by_zero {op : TwoOp} (h : op = .asrv ∨ op = .rorv) (a : BitVec 64) :
    op.apply a 0#64 = op.shift.apply a 0#64 := by
  have hrot : a.rotateRight 0 = a := by
    refine BitVec.eq_of_getLsbD_eq fun i hi => ?_
    rw [BitVec.getLsbD_rotateRight]
    simp [hi]
  rcases h with rfl | rfl <;> simp [apply, shift, ShiftOp.apply, hrot]

/-- Any other operation on registers that are written and read is told from the shift by ones. -/
theorem TwoOp.apply_one_ne {op : TwoOp} {rd rn rm : BitVec 5} (h : ¬ op.Shifts rd rn rm) :
    op.apply ((State.uniform 1#64).xzr rn) ((State.uniform 1#64).xzr rm) ≠
      op.shift.apply ((State.uniform 1#64).xzr rn) ((State.uniform 1#64).xzr rm) := by
  cases op with
  | lslv | lsrv => exact absurd trivial h
  | asrv | rorv =>
    obtain ⟨-, hrn, hrm⟩ := (not_or.trans (and_congr_right fun _ => not_or)).1 h
    rw [State.xzr_uniform hrn, State.xzr_uniform hrm]
    decide
  | udiv | sdiv =>
    have hrn := (not_or.1 h).2
    rw [State.xzr_uniform hrn]
    by_cases hrm : rm = 31#5
    · rw [hrm, State.xzr_31]
      decide
    · rw [State.xzr_uniform hrm]
      decide

theorem two_shift_iff (pc : BitVec 64) (op : TwoOp) (rd rn rm : BitVec 5) :
    (∀ s, (Inst.two op rd rn rm).outcome pc s =
        (Inst.instr (.shiftv op.shift rd rn rm)).outcome pc s) ↔ op.Shifts rd rn rm := by
  have hsame : ∀ s : State, ((Inst.two op rd rn rm).outcome pc s =
      (Inst.instr (.shiftv op.shift rd rn rm)).outcome pc s) ↔ _ :=
    fun s => onRegister_outcome_eq_iff
  simp only [hsame, and_true]
  constructor
  · intro h
    by_contra hnot
    have hrd : rd ≠ 31#5 := by
      rintro rfl
      cases op <;> simp [TwoOp.Shifts] at hnot
    exact TwoOp.apply_one_ne hnot ((h _).resolve_left hrd)
  · intro h s
    have hzero : rn = 31#5 → op.apply (s.xzr rn) (s.xzr rm) =
        op.shift.apply (s.xzr rn) (s.xzr rm) := by
      rintro rfl
      rw [State.xzr_31, TwoOp.apply_zero]
    have hstay : rm = 31#5 → op = .asrv ∨ op = .rorv → op.apply (s.xzr rn) (s.xzr rm) =
        op.shift.apply (s.xzr rn) (s.xzr rm) := by
      rintro rfl hop
      rw [State.xzr_31, TwoOp.shift_by_zero hop]
    cases op with
    | lslv | lsrv => exact .inr rfl
    | udiv | sdiv => exact h.imp_right hzero
    | asrv => exact h.imp_right fun h => h.elim hzero fun hrm => hstay hrm (.inl rfl)
    | rorv => exact h.imp_right fun h => h.elim hzero fun hrm => hstay hrm (.inr rfl)

/-! ### Accesses that move their base -/

/-- Writing a register with what it holds changes nothing. -/
theorem State.write_xsp_self (s : State) (rn : BitVec 5) :
    s.write (s.xsp rn) (Dest.ofXsp rn) = s := by
  unfold Dest.ofXsp xsp
  by_cases hrn : rn = 31#5
  · rw [if_pos hrn, if_pos hrn]
    rfl
  · rw [if_neg hrn, if_neg hrn]
    show State.mk (Function.update s.x rn (s.x rn)) s.sp s.flags = s
    rw [Function.update_eq_self]

/-- What the base holds after an access that moves it, and after a load that does not. -/
theorem State.xsp_write (s : State) (rn : BitVec 5) (v : BitVec 64) :
    (s.write v (Dest.ofXsp rn)).xsp rn = v := by
  unfold Dest.ofXsp xsp
  by_cases hrn : rn = 31#5
  · rw [if_pos hrn, if_pos hrn]
    rfl
  · rw [if_neg hrn, if_neg hrn]
    exact Function.update_self _ _ _

theorem State.xsp_write_of_ne (s : State) {rn rt : BitVec 5} (h : ¬ (rn = rt ∧ rn ≠ 31#5))
    (v : BitVec 64) : (s.write v (Dest.ofXzr rt)).xsp rn = s.xsp rn := by
  unfold Dest.ofXzr xsp
  by_cases hrn : rn = 31#5
  · rw [if_pos hrn, if_pos hrn]
    split_ifs <;> rfl
  · have hne : rn ≠ rt := fun he => h ⟨he, hrn⟩
    rw [if_neg hrn, if_neg hrn]
    split_ifs
    · rfl
    · exact Function.update_of_ne hne _ _

/-- Where the base and the register that is loaded or stored are not one, an access that moves its
base by nothing is a plain one. -/
theorem indexed_unscaled_iff (pc : BitVec 64) (load post : Bool) {rt rn : BitVec 5}
    (h : ¬ (rn = rt ∧ rn ≠ 31#5)) (imm9 : BitVec 9) :
    (∀ s, (Inst.indexed load post rt rn imm9).outcome pc s =
        (Inst.instr (unscaled load rt rn imm9)).outcome pc s) ↔ imm9 = 0#9 := by
  constructor
  · intro hall
    have hsame := hall (.uniform 0)
    have hafter := congrFun (congrArg Outcome.after hsame) 0
    have hbase : (State.uniform 0).xsp rn + imm9.signExtend 64 = (State.uniform 0).xsp rn := by
      cases load with
      | true =>
        have hx := congrArg (fun t => t.xsp rn) hafter
        exact (State.xsp_write _ rn _).symm.trans (hx.trans (State.xsp_write_of_ne _ h 0))
      | false =>
        have hx := congrArg (fun t => t.xsp rn) hafter
        exact (State.xsp_write _ rn _).symm.trans hx
    have hzero : imm9.signExtend 64 = 0#64 := by
      generalize imm9.signExtend 64 = offset at hbase
      generalize (State.uniform 0).xsp rn = base at hbase
      bv_omega
    clear * - hzero
    revert imm9
    decide
  · rintro rfl s
    have hmoved : s.xsp rn + (0#9).signExtend 64 = s.xsp rn := BitVec.add_zero _
    have hback : ∀ v, (s.write v (Dest.ofXzr rt)).write (s.xsp rn) (Dest.ofXsp rn) =
        s.write v (Dest.ofXzr rt) := by
      intro v
      rw [← s.xsp_write_of_ne h v, State.write_xsp_self]
    cases load with
    | true =>
      simp only [Inst.outcome, unscaled, Instr.effect, Effect.outcome, hmoved, ite_self, if_true,
        hback, State.write_flags]
      rfl
    | false =>
      simp only [Inst.outcome, unscaled, Instr.effect, Effect.outcome, hmoved, ite_self, if_false,
        Bool.false_eq_true, State.write_xsp_self]
      rfl

/-! ### Addresses of pages -/

theorem adrp_outcome (pc : BitVec 64) (rd : BitVec 5) (imm21 : BitVec 21) (s : State) :
    (Inst.pcRel (.adrp rd imm21)).outcome pc s =
      (Effect.onRegister rd ((pc &&& ~~~0xFFF#64) + imm21.signExtend 64 * 4096#64)
        s.flags).outcome s := by
  refine Eq.trans ?_ (congrArg (fun t => Outcome.mk none none fun _ => t)
    (s.write_flags _ (Dest.ofXzr rd))).symm
  simp only [Inst.outcome, PcInstr.written]
  cases Dest.ofXzr rd <;> rfl

/-- `ADRP` does the same at two addresses in one page. -/
theorem adrp_eq_iff (pc pc' : BitVec 64) (rd : BitVec 5) (imm21 : BitVec 21) :
    (∀ s, (Inst.pcRel (.adrp rd imm21)).outcome pc s =
        (Inst.pcRel (.adrp rd imm21)).outcome pc' s) ↔
      rd = 31#5 ∨ pc &&& ~~~0xFFF#64 = pc' &&& ~~~0xFFF#64 := by
  simp only [adrp_outcome, onRegister_outcome_eq_iff, and_true, BitVec.add_left_inj]
  exact ⟨fun h => h (.uniform 0), fun h _ => h⟩

/-! ### Words that do nothing, and writes of the flags -/

theorem ofSystem_of_idle {w : BitVec 32} (pc : BitVec 64)
    (h : HintBits w ∨ BarrierBits w ∨ MaintenanceBits w) :
    ∃ i, Inst.ofSystem w = some i ∧ ∀ s, i.outcome pc s = .nothing s := by
  unfold Inst.ofSystem
  by_cases hhint : HintBits w
  · exact ⟨.hint, if_pos hhint, fun _ => rfl⟩
  rw [if_neg hhint]
  by_cases hbarrier : BarrierBits w
  · exact ⟨.barrier, if_pos hbarrier, fun _ => rfl⟩
  rw [if_neg hbarrier]
  have hmaintenance := (h.resolve_left hhint).resolve_left hbarrier
  exact ⟨.maintenance, if_pos hmaintenance, fun _ => rfl⟩

/-- Writing the flags is not doing nothing. -/
theorem msrNzcv_ne_nothing (pc : BitVec 64) (rt : BitVec 5) :
    ∃ s, (Inst.msrNzcv rt).outcome pc s ≠ .nothing s := by
  refine ⟨⟨fun _ => 0, 0, ⟨true, true, true, true⟩⟩, fun h => ?_⟩
  have hflags := congrArg State.flags (congrFun (congrArg Outcome.after h) 0)
  have hzero : State.xzr ⟨fun _ => 0, 0, ⟨true, true, true, true⟩⟩ rt = 0#64 := ite_self _
  simp only [Inst.outcome, hzero, Outcome.nothing] at hflags
  exact absurd hflags (by decide)

end A64
