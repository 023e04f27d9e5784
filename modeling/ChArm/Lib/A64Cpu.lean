import ChArm.Lib.A64Groups
import ChArm.Lib.Runs

/-!
# A processor that executes A64

The machine the architecture describes: it reads the word at the program counter, does what the
word means to the registers, the flags and the memory, and goes on where the instruction says.
The memory is whatever answers loads and stores of a doubleword (`Bus`).
-/

namespace A64

/-! ## Where an instruction goes on -/

/-- The address of the instruction after one at `pc`. -/
def PcInstr.next (pc : BitVec 64) (s : State) : PcInstr → BitVec 64
  | .adrp _ _ => pc + 4#64
  | .b imm26 | .bl imm26 => pc + imm26.signExtend 64 * 4#64
  | .bCond cond imm19 =>
      if conditionHolds cond s.flags then pc + imm19.signExtend 64 * 4#64 else pc + 4#64
  | .cbz rt imm19 => if s.xzr rt = 0 then pc + imm19.signExtend 64 * 4#64 else pc + 4#64
  | .cbnz rt imm19 => if s.xzr rt = 0 then pc + 4#64 else pc + imm19.signExtend 64 * 4#64
  | .blr rn => s.xzr rn

def Inst.next (pc : BitVec 64) (s : State) : Inst → BitVec 64
  | .pcRel i => i.next pc s
  | .br rn | .ret rn => s.xzr rn
  | _ => pc + 4#64

/-- The instruction a word encodes. -/
def Inst.ofWord (w : BitVec 32) : Option Inst := (Group.ofWord w).bind (Inst.ofGroup w)

theorem meaning_eq (w : BitVec 32) (pc : BitVec 64) (s : State) :
    meaning w pc s = (Inst.ofWord w).map (Inst.outcome pc s) := rfl

/-- The groups whose instructions may go on elsewhere. -/
def Group.branches : Group → Bool
  | .b | .bl | .bCond | .cbz | .cbnz | .br | .blr | .ret => true
  | _ => false

/-- All others go on with the next word. -/
theorem next_of_not_branches {w : BitVec 32} {g : Group} {i : Inst} (hg : g.branches = false)
    (hi : Inst.ofGroup w g = some i) (pc : BitVec 64) (s : State) : i.next pc s = pc + 4#64 := by
  cases g with
  | loadStore load =>
    dsimp only [Inst.ofGroup, Inst.ofLoadStore] at hi
    split_ifs at hi <;> cases hi <;> rfl
  | twoSource =>
    obtain ⟨op, -, rfl⟩ := Option.map_eq_some_iff.1 hi
    rfl
  | select inverting =>
    dsimp only [Inst.ofGroup, Inst.ofSelect] at hi
    split_ifs at hi
    cases hi
    rfl
  | system =>
    dsimp only [Inst.ofGroup, Inst.ofSystem] at hi
    split_ifs at hi <;> cases hi <;> rfl
  | hlt =>
    dsimp only [Inst.ofGroup] at hi
    split_ifs at hi
    cases hi
    rfl
  | movz | movk | adrp | addImm | subImm | shifted | bitfield => cases hi; rfl
  | _ => cases hg

/-- Only a word of its own group means `HLT`. -/
theorem ofWord_eq_hlt {w : BitVec 32} (h : Inst.ofWord w = some .hlt) :
    Group.ofWord w = some .hlt ∧ rd w = 0#5 := by
  obtain ⟨g, hg, hi⟩ := Option.bind_eq_some_iff.1 h
  cases g with
  | hlt =>
    dsimp only [Inst.ofGroup] at hi
    split_ifs at hi with hrd
    exact ⟨hg, hrd⟩
  | twoSource =>
    obtain ⟨op, -, hi⟩ := Option.map_eq_some_iff.1 hi
    cases hi
  | loadStore | select | bCond | br | blr | ret | system =>
    dsimp only [Inst.ofGroup, Inst.ofLoadStore, Inst.ofSelect, Inst.ofSystem] at hi
    split_ifs at hi <;> cases hi
  | _ => cases hi

theorem ofWord_hlt {w : BitVec 32} (hg : Group.ofWord w = some .hlt) (hrd : rd w = 0#5) :
    Inst.ofWord w = some .hlt := by
  rw [Inst.ofWord, hg]
  exact if_pos hrd

/-! ## The processor -/

/-- A memory that answers loads and stores of a doubleword, or does not. -/
structure Bus (μ : Type) where
  load : μ → BitVec 64 → Option (BitVec 64 × μ)
  store : μ → BitVec 64 → BitVec 64 → Option μ

/-- The access an outcome asks for, and what is loaded. -/
def Bus.access {μ : Type} (bus : Bus μ) (m : μ) (o : Outcome) : Option (BitVec 64 × μ) := do
  let (v, m) ← match o.load with
    | some a => bus.load m a
    | none => some (0, m)
  match o.store with
  | some (a, x) => (bus.store m a x).map fun m => (v, m)
  | none => some (v, m)

/-- The program counter, the registers and flags, and the memory. -/
structure Cpu (μ : Type) where
  pc : BitVec 64
  state : State
  mem : μ

/-- Why there is no next step. -/
inductive Stop where
  /-- There is no instruction at the program counter. -/
  | noWord
  /-- The word there has no meaning. -/
  | undefined
  /-- The memory does not answer. -/
  | access
  deriving DecidableEq, Repr

section

variable {μ : Type} (bus : Bus μ) (code : BitVec 64 → Option (BitVec 32))

/-- The instruction at the program counter. -/
def Cpu.fetched (c : Cpu μ) : Option Inst := (code c.pc).bind Inst.ofWord

/-- Is it the one that ends the program? -/
def Cpu.halted (c : Cpu μ) : Bool := c.fetched code == some .hlt

/-- What the instruction at the program counter asks for. -/
def Cpu.outcome (c : Cpu μ) : Option Outcome := (c.fetched code).map (Inst.outcome c.pc c.state)

/-- The address it asks the memory for. -/
def Cpu.accessed (c : Cpu μ) : Option (BitVec 64) :=
  (c.outcome code).bind fun o => o.load.or (o.store.map Prod.fst)

/-- Does it store? -/
def Cpu.stores (c : Cpu μ) : Bool := ((c.outcome code).bind Outcome.store).isSome

/-- One instruction. -/
def Cpu.step (c : Cpu μ) : Except Stop (Cpu μ) :=
  match code c.pc with
  | none => .error .noWord
  | some w =>
    match Inst.ofWord w with
    | none => .error .undefined
    | some i =>
      match bus.access c.mem (i.outcome c.pc c.state) with
      | none => .error .access
      | some (v, m) => .ok ⟨i.next c.pc c.state, (i.outcome c.pc c.state).after v, m⟩

/-- The states of the processor from `c₀` on, for `n` instructions. -/
abbrev Cpu.Run (c₀ : Cpu μ) (n : Nat) (γ : Nat → Cpu μ) : Prop :=
  Runs.Trace (Cpu.step bus code) (fun c => !c.halted code) c₀ n γ

variable {bus code}

theorem Cpu.step_eq {c : Cpu μ} {w : BitVec 32} {i : Inst} {v : BitVec 64} {m : μ}
    (hw : code c.pc = some w) (hi : Inst.ofWord w = some i)
    (ha : bus.access c.mem (i.outcome c.pc c.state) = some (v, m)) :
    c.step bus code = .ok ⟨i.next c.pc c.state, (i.outcome c.pc c.state).after v, m⟩ := by
  simp only [Cpu.step, hw, hi, ha]

/-- What a step has found. -/
theorem Cpu.step_inv {c c' : Cpu μ} (h : c.step bus code = .ok c') :
    ∃ w i, code c.pc = some w ∧ Inst.ofWord w = some i ∧
      bus.access c.mem (i.outcome c.pc c.state) ≠ none := by
  unfold Cpu.step at h
  split at h
  · cases h
  · rename_i w hw
    split at h
    · cases h
    · rename_i i hi
      refine ⟨w, i, hw, hi, fun hno => ?_⟩
      rw [hno] at h
      cases h

end

end A64
