import ChArm.Base.HwElts

/-!
# The adder adds, and the flags compare

The chain of full adders carries what binary addition carries (`rippleFrom_eq`), so the sum of
`ripple_carry_add` is the sum modulo `2 ^ 64` and its last two carries are the unsigned and the
signed overflow (`alu_addWithCarry`).  Every condition code of `cond_holds` then means the
comparison it is named after (`condHolds_cmp`).

* `rippleFrom_eq` — the induction over the chain, from any bit on.
* `alu_addWithCarry` — sum and flags of every addition and subtraction of the ALU, whatever the
  adders hold from earlier ones.
* `condHolds_cmp` — each of the sixteen conditions after a comparison, signed or unsigned.
-/

namespace ChArm

/-- `PACK_CC`. -/
def PACK_CC (n z c v : Bool) : BitVec 8 :=
  (BitVec.ofBool n).setWidth 8 <<< 3 ||| (BitVec.ofBool z).setWidth 8 <<< 2 |||
    (BitVec.ofBool c).setWidth 8 <<< 1 ||| (BitVec.ofBool v).setWidth 8

/-- Is an integer the value of a 64-bit two's-complement number? -/
def Representable (i : Int) : Prop := -2 ^ 63 ≤ i ∧ i < 2 ^ 63

instance (i : Int) : Decidable (Representable i) :=
  inferInstanceAs (Decidable (-2 ^ 63 ≤ i ∧ i < 2 ^ 63))

/-! ## The carry chain -/

theorem FullAdder.add_cOut (x : FullAdder) (c : Bool) :
    (x.add c).cOut = Bool.atLeastTwo x.bitA x.bitB c := by
  simp only [FullAdder.add, Bool.atLeastTwo]

/-- From the carry into bit `k`, the chain computes the carries of binary addition. -/
theorem rippleFrom_eq (a b : Word) (c : Bool) (x : Nat → FullAdder)
    (hx : ∀ i, (x i).bitA = a.getLsbD i ∧ (x i).bitB = b.getLsbD i) (k n : Nat) :
    rippleFrom (BitVec.carry k a b c) ((List.range' k n).map x) =
      (List.range' k n).map fun i => (x i).add (BitVec.carry i a b c) := by
  induction n generalizing k with
  | zero => rfl
  | succ n ih =>
    have hc : ((x k).add (BitVec.carry k a b c)).cOut = BitVec.carry (k + 1) a b c := by
      rw [FullAdder.add_cOut, (hx k).1, (hx k).2, BitVec.carry_succ]
    rw [List.range'_succ, List.map_cons, List.map_cons, rippleFrom, hc, ih]

/-- The adders after an addition. -/
theorem rippleCarryAdd_snd (rca : Rca) (a b : Word) (c : Bool) :
    (rippleCarryAdd (initRca rca a b c)).2 = (List.range 64).map fun i =>
      { bitA := a.getLsbD i
        bitB := b.getLsbD i
        cIn := BitVec.carry i a b c
        cOut := BitVec.carry (i + 1) a b c
        s := (a.getLsbD i ^^ b.getLsbD i) ^^ BitVec.carry i a b c : FullAdder } := by
  have h := rippleFrom_eq a b c (fun i =>
    { rca.getD i .zero with
      bitA := a.getLsbD i
      bitB := b.getLsbD i
      cIn := if i = 0 then c else (rca.getD i .zero).cIn }) (fun _ => ⟨rfl, rfl⟩) 0 64
  rw [BitVec.carry_zero, ← List.range_eq_range'] at h
  refine h.trans (List.map_congr_left fun i _ => ?_)
  simp only [FullAdder.add, BitVec.carry_succ, Bool.atLeastTwo]

/-! ## The sum bits -/

theorem getLsbD_sumStep (acc : Word) (s : Bool) (k j : Nat) (hj : j < 64) :
    (acc ||| (BitVec.ofBool s).setWidth 64 <<< k).getLsbD j =
      (acc.getLsbD j || (decide (j = k) && s)) := by
  rw [BitVec.getLsbD_or, BitVec.getLsbD_shiftLeft, BitVec.getLsbD_setWidth, BitVec.getLsbD_ofBool]
  by_cases hk : j = k
  · simp [hk, show k < 64 by omega]
  · rcases Nat.lt_or_ge j k with h | h
    · simp [hk, h]
    · have : j - k ≠ 0 := by omega
      simp [hk, this]

/-- Bit `j` of the assembled sum is the sum bit of adder `j`. -/
theorem getLsbD_sumBits (xs : Rca) (k : Nat) (acc : Word) (j : Nat) (hj : j < 64) :
    ((xs.zipIdx k).foldl
        (fun (sum : Word) x => sum ||| (BitVec.ofBool x.1.s).setWidth 64 <<< x.2) acc).getLsbD j =
      (acc.getLsbD j || (decide (k ≤ j) && (xs.getD (j - k) .zero).s)) := by
  induction xs generalizing k acc with
  | nil => simp [FullAdder.zero]
  | cons x xs ih =>
    rw [List.zipIdx_cons, List.foldl_cons, ih, getLsbD_sumStep _ _ _ _ hj, Bool.or_assoc]
    congr 1
    rcases Nat.lt_trichotomy j k with h | rfl | h
    · simp [show ¬ j = k by omega, show ¬ k + 1 ≤ j by omega, show ¬ k ≤ j by omega]
    · simp
    · obtain ⟨d, rfl⟩ : ∃ d, j = k + 1 + d := ⟨j - (k + 1), by omega⟩
      simp [show ¬ k + 1 + d = k by omega, show k ≤ k + 1 + d by omega,
        show k + 1 + d - k = d + 1 by omega]

/-- **The adder adds.** -/
theorem rippleCarryAdd_fst (rca : Rca) (a b : Word) (c : Bool) :
    (rippleCarryAdd (initRca rca a b c)).1 = a + b + (BitVec.ofBool c).setWidth 64 := by
  have hsum : (rippleCarryAdd (initRca rca a b c)).1 =
      sumBits (rippleCarryAdd (initRca rca a b c)).2 := rfl
  rw [hsum, rippleCarryAdd_snd]
  refine BitVec.eq_of_getLsbD_eq fun j hj => ?_
  rw [sumBits, getLsbD_sumBits _ _ _ _ hj, BitVec.getLsbD_add_add_bool hj]
  simp [hj]

/-! ## Carries and overflows -/

/-- The last two carries differ exactly when the signed sum overflows. -/
theorem carry_xor (a b : Word) (c : Bool) :
    (BitVec.carry 64 a b c ^^ BitVec.carry 63 a b c) =
      decide (¬ Representable (a.toInt + b.toInt + c.toNat)) := by
  have ha := a.isLt
  have hb := b.isLt
  have hc : c.toNat ≤ 1 := by cases c <;> decide
  have hov : ¬ Representable (a.toInt + b.toInt + c.toNat) ↔
      ¬ (2 ^ 64 ≤ a.toNat % 2 ^ 64 + b.toNat % 2 ^ 64 + c.toNat ↔
        2 ^ 63 ≤ a.toNat % 2 ^ 63 + b.toNat % 2 ^ 63 + c.toNat) := by
    unfold Representable
    rw [BitVec.toInt_eq_toNat_cond, BitVec.toInt_eq_toNat_cond]
    split_ifs <;> omega
  rw [Bool.eq_iff_iff, decide_eq_true_eq, hov, Bool.xor_iff_ne, Ne, Bool.eq_iff_iff]
  simp only [BitVec.carry, ge_iff_le, decide_eq_true_eq]

/-- The four flag bits, as `PACK_CC` packs them. -/
theorem PACK_CC_eq (n z c v : Bool) :
    (if n then 0x8#8 else 0) ||| (if z then 0x4#8 else 0) ||| (if c then 0x2#8 else 0) |||
      (if v then 0x1#8 else 0) = PACK_CC n z c v := by
  cases n <;> cases z <;> cases c <;> cases v <;> rfl

theorem msb_iff (x : Word) : x >>> 63 = 1 ↔ x.msb = true := by
  rw [BitVec.msb_eq_decide, decide_eq_true_eq, ← BitVec.toNat_inj, BitVec.toNat_ushiftRight,
    Nat.shiftRight_eq_div_pow]
  have := x.isLt
  change x.toNat / 2 ^ 63 = 1 ↔ _
  omega

theorem aluFlags_eq (valE : Word) (op : AluOp) (rca : Rca) :
    aluFlags valE op rca = PACK_CC valE.msb (decide (valE = 0))
      ((op == .plus || op == .minus) && (rca.getD 63 .zero).cOut)
      ((op == .plus || op == .minus) && ((rca.getD 63 .zero).cOut ^^ (rca.getD 63 .zero).cIn)) := by
  simp only [← PACK_CC_eq, aluFlags, msb_iff, decide_eq_true_eq]

/-- The flags of an addition, from the operands of the adder and its carry in. -/
theorem aluFlags_add (rca : Rca) (a b : Word) (c : Bool) {op : AluOp} (hop : op = .plus ∨ op = .minus) :
    aluFlags (rippleCarryAdd (initRca rca a b c)).1 op (rippleCarryAdd (initRca rca a b c)).2 =
      PACK_CC (rippleCarryAdd (initRca rca a b c)).1.msb
        (decide ((rippleCarryAdd (initRca rca a b c)).1 = 0))
        (decide (2 ^ 64 ≤ a.toNat + b.toNat + c.toNat))
        (decide (¬ Representable (a.toInt + b.toInt + c.toNat))) := by
  have hop' : (op == .plus || op == .minus) = true := by
    rcases hop with rfl | rfl <;> rfl
  have htop : (rippleCarryAdd (initRca rca a b c)).2.getD 63 .zero =
      ⟨a.getLsbD 63, b.getLsbD 63, BitVec.carry 63 a b c, BitVec.carry 64 a b c,
        (a.getLsbD 63 ^^ b.getLsbD 63) ^^ BitVec.carry 63 a b c⟩ := by
    rw [rippleCarryAdd_snd]
    rfl
  rw [aluFlags_eq, hop', htop, Bool.true_and, Bool.true_and, carry_xor, BitVec.carry_width]

/-! ## The ALU -/

theorem alu_plus (rca : Rca) (a b : Word) (hw nzcv : BitVec 8) (set : Bool) (cond : Cond)
    (dst : BitVec 8) : (alu rca a b hw nzcv .plus set cond dst).valE = a + b := by
  change (rippleCarryAdd (initRca rca a b false)).1 = a + b
  rw [rippleCarryAdd_fst]
  exact BitVec.add_zero _

theorem alu_minus (rca : Rca) (a b : Word) (hw nzcv : BitVec 8) (set : Bool) (cond : Cond)
    (dst : BitVec 8) : (alu rca a b hw nzcv .minus set cond dst).valE = a - b := by
  change (rippleCarryAdd (initRca rca a (~~~b) true)).1 = a - b
  rw [rippleCarryAdd_fst, BitVec.sub_eq_add_neg, BitVec.neg_eq_not_add, ← BitVec.add_assoc]
  rfl

theorem alu_plus_nzcv (rca : Rca) (a b : Word) (hw nzcv : BitVec 8) (cond : Cond) (dst : BitVec 8) :
    (alu rca a b hw nzcv .plus true cond dst).nzcv =
      PACK_CC (a + b).msb (decide (a + b = 0)) (decide (2 ^ 64 ≤ a.toNat + b.toNat))
        (decide (¬ Representable (a.toInt + b.toInt))) := by
  have hval : (rippleCarryAdd (initRca rca a b false)).1 = a + b := alu_plus rca a b 0 0 true .al 0
  change aluFlags (rippleCarryAdd (initRca rca a b false)).1 .plus _ = _
  rw [aluFlags_add rca a b false (Or.inl rfl), hval]
  simp only [Bool.toNat_false, Nat.add_zero, Int.ofNat_zero, Int.add_zero]

theorem alu_minus_nzcv (rca : Rca) (a b : Word) (hw nzcv : BitVec 8) (cond : Cond) (dst : BitVec 8) :
    (alu rca a b hw nzcv .minus true cond dst).nzcv =
      PACK_CC (a - b).msb (decide (a - b = 0)) (decide (2 ^ 64 ≤ a.toNat + (~~~b).toNat + 1))
        (decide (¬ Representable (a.toInt - b.toInt))) := by
  have hval : (rippleCarryAdd (initRca rca a (~~~b) true)).1 = a - b :=
    alu_minus rca a b 0 0 true .al 0
  have hint : a.toInt + (~~~b).toInt + ((true : Bool).toNat : Int) = a.toInt - b.toInt := by
    have hb := b.isLt
    have hnot : (~~~b).toNat = 2 ^ 64 - 1 - b.toNat := BitVec.toNat_not
    rw [BitVec.toInt_eq_toNat_cond b, BitVec.toInt_eq_toNat_cond (~~~b), hnot, Bool.toNat_true]
    split_ifs <;> omega
  change aluFlags (rippleCarryAdd (initRca rca a (~~~b) true)).1 .minus _ = _
  rw [aluFlags_add rca a (~~~b) true (Or.inr rfl), hval, hint]
  rfl

theorem alu_and_nzcv (rca : Rca) (a b : Word) (hw nzcv : BitVec 8) (cond : Cond) (dst : BitVec 8) :
    (alu rca a b hw nzcv .and true cond dst).nzcv =
      PACK_CC (a &&& b).msb (decide (a &&& b = 0)) false false :=
  aluFlags_eq (a &&& b) .and rca

/-- Without `set_flags` the flags are left alone. -/
theorem alu_keeps_nzcv (rca : Rca) (a b : Word) (hw nzcv : BitVec 8) (op : AluOp) (cond : Cond)
    (dst : BitVec 8) : (alu rca a b hw nzcv op false cond dst).nzcv = dst := rfl

/-- **The ALU implements `AddWithCarry`**, whatever the adders hold. -/
theorem alu_addWithCarry (rca : Rca) (a b : Word) (hw nzcv : BitVec 8) (cond : Cond)
    (dst : BitVec 8) :
    (∀ set, (alu rca a b hw nzcv .plus set cond dst).valE = a + b) ∧
      (∀ set, (alu rca a b hw nzcv .minus set cond dst).valE = a - b) ∧
      (alu rca a b hw nzcv .plus true cond dst).nzcv =
        PACK_CC (a + b).msb (decide (a + b = 0)) (decide (2 ^ 64 ≤ a.toNat + b.toNat))
          (decide (¬ Representable (a.toInt + b.toInt))) ∧
      (alu rca a b hw nzcv .minus true cond dst).nzcv =
        PACK_CC (a - b).msb (decide (a - b = 0)) (decide (2 ^ 64 ≤ a.toNat + (~~~b).toNat + 1))
          (decide (¬ Representable (a.toInt - b.toInt))) ∧
      (alu rca a b hw nzcv .and true cond dst).nzcv =
        PACK_CC (a &&& b).msb (decide (a &&& b = 0)) false false ∧
      ∀ op, (alu rca a b hw nzcv op false cond dst).nzcv = dst :=
  ⟨fun set => alu_plus rca a b hw nzcv set cond dst,
    fun set => alu_minus rca a b hw nzcv set cond dst, alu_plus_nzcv rca a b hw nzcv cond dst,
    alu_minus_nzcv rca a b hw nzcv cond dst, alu_and_nzcv rca a b hw nzcv cond dst,
    fun op => alu_keeps_nzcv rca a b hw nzcv op cond dst⟩

/-! ## Conditions -/

/-- The conditions, from the four flags. -/
theorem condHolds_PACK_CC (n z c v : Bool) :
    condHolds .eq (PACK_CC n z c v) = z ∧ condHolds .cs (PACK_CC n z c v) = c ∧
      condHolds .mi (PACK_CC n z c v) = n ∧ condHolds .vs (PACK_CC n z c v) = v ∧
      condHolds .hi (PACK_CC n z c v) = (c && !z) ∧ condHolds .ge (PACK_CC n z c v) = (n == v) ∧
      condHolds .gt (PACK_CC n z c v) = (!z && (n == v)) := by
  cases n <;> cases z <;> cases c <;> cases v <;> decide

/-- The condition that tests the opposite, `cond ^ 1`. -/
def Cond.opposite : Cond → Cond
  | .eq => .ne | .ne => .eq | .cs => .cc | .cc => .cs | .mi => .pl | .pl => .mi | .vs => .vc
  | .vc => .vs | .hi => .ls | .ls => .hi | .ge => .lt | .lt => .ge | .gt => .le | .le => .gt
  | .al => .nv | .nv => .al

theorem condHolds_opposite {c : Cond} (h : c ≠ .al) (h' : c ≠ .nv) (flags : BitVec 8) :
    condHolds c.opposite flags = !condHolds c flags := by
  cases c <;> first | exact absurd rfl h | exact absurd rfl h' | simp [condHolds, Cond.opposite]

/-- The carry of a subtraction is the unsigned comparison. -/
theorem carry_minus (x y : Word) : 2 ^ 64 ≤ x.toNat + (~~~y).toNat + 1 ↔ y.toNat ≤ x.toNat := by
  have hnot : (~~~y).toNat = 2 ^ 64 - 1 - y.toNat := BitVec.toNat_not
  have := y.isLt
  omega

/-- The sign of a wrapped difference and its overflow make the signed comparison. -/
theorem sign_minus (x y : Word) :
    (x - y).msb = decide (¬ Representable (x.toInt - y.toInt)) ↔ y.toInt ≤ x.toInt := by
  have hx := x.isLt
  have hy := y.isLt
  rw [BitVec.msb_eq_decide, decide_eq_decide, BitVec.toNat_sub, Representable,
    BitVec.toInt_eq_toNat_cond, BitVec.toInt_eq_toNat_cond]
  split_ifs <;> omega

/-- **Compare and branch.**  After a subtraction that sets the flags, every condition is the
comparison it names; each one but `AL` and `NV` is the negation of its opposite. -/
theorem condHolds_cmp (rca : Rca) (x y : Word) (hw nzcv : BitVec 8) (cond : Cond) (dst : BitVec 8) :
    (let f := (alu rca x y hw nzcv .minus true cond dst).nzcv;
      (condHolds .eq f = true ↔ x = y) ∧ (condHolds .ne f = true ↔ x ≠ y) ∧
      (condHolds .cs f = true ↔ y.toNat ≤ x.toNat) ∧ (condHolds .cc f = true ↔ x.toNat < y.toNat) ∧
      (condHolds .hi f = true ↔ y.toNat < x.toNat) ∧ (condHolds .ls f = true ↔ x.toNat ≤ y.toNat) ∧
      (condHolds .ge f = true ↔ y.toInt ≤ x.toInt) ∧ (condHolds .lt f = true ↔ x.toInt < y.toInt) ∧
      (condHolds .gt f = true ↔ y.toInt < x.toInt) ∧ (condHolds .le f = true ↔ x.toInt ≤ y.toInt) ∧
      (condHolds .mi f = true ↔ (x - y).toInt < 0) ∧ (condHolds .pl f = true ↔ 0 ≤ (x - y).toInt)) ∧
    ∀ c f, c ≠ .al → c ≠ .nv → condHolds c.opposite f = !condHolds c f := by
  refine ⟨?_, fun c f h h' => condHolds_opposite h h' f⟩
  have hzero : x - y = 0 ↔ x = y := sub_eq_zero
  have hnat : x = y ↔ x.toNat = y.toNat := BitVec.toNat_inj.symm
  have hint : x = y ↔ x.toInt = y.toInt := BitVec.toInt_inj.symm
  obtain ⟨heq, hcs, hmi, -, hhi, hge, hgt⟩ := condHolds_PACK_CC (x - y).msb (decide (x - y = 0))
    (decide (2 ^ 64 ≤ x.toNat + (~~~y).toNat + 1)) (decide (¬ Representable (x.toInt - y.toInt)))
  rw [← alu_minus_nzcv rca x y hw nzcv cond dst] at heq hcs hmi hhi hge hgt
  intro f
  have hEQ : condHolds .eq f = true ↔ x = y := by
    rw [heq, decide_eq_true_eq, hzero]
  have hCS : condHolds .cs f = true ↔ y.toNat ≤ x.toNat := by
    rw [hcs, decide_eq_true_eq, carry_minus]
  have hMI : condHolds .mi f = true ↔ (x - y).toInt < 0 := by
    rw [hmi, BitVec.msb_eq_toInt, decide_eq_true_eq]
  have hHI : condHolds .hi f = true ↔ y.toNat < x.toNat := by
    rw [hhi, Bool.and_eq_true, decide_eq_true_eq, carry_minus, Bool.not_eq_true',
      decide_eq_false_iff_not, hzero, hnat]
    omega
  have hGE : condHolds .ge f = true ↔ y.toInt ≤ x.toInt := by
    rw [hge, beq_iff_eq, sign_minus]
  have hGT : condHolds .gt f = true ↔ y.toInt < x.toInt := by
    rw [hgt, Bool.and_eq_true, beq_iff_eq, sign_minus, Bool.not_eq_true', decide_eq_false_iff_not,
      hzero, hint]
    omega
  have hnot : ∀ c : Cond, c ≠ .al → c ≠ .nv →
      (condHolds c.opposite f = true ↔ ¬ condHolds c f = true) := by
    intro c h h'
    rw [condHolds_opposite h h', Bool.not_eq_true', Bool.not_eq_true]
  refine ⟨hEQ, ?_, hCS, ?_, hHI, ?_, hGE, ?_, hGT, ?_, hMI, ?_⟩
  · exact (hnot .eq nofun nofun).trans (not_congr hEQ)
  · exact (hnot .cs nofun nofun).trans ((not_congr hCS).trans not_le)
  · exact (hnot .hi nofun nofun).trans ((not_congr hHI).trans not_lt)
  · exact (hnot .ge nofun nofun).trans ((not_congr hGE).trans not_le)
  · exact (hnot .gt nofun nofun).trans ((not_congr hGT).trans not_lt)
  · exact (hnot .mi nofun nofun).trans ((not_congr hMI).trans not_lt)

end ChArm
