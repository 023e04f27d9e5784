import ChArm.Base.Proc

/-!
# One cycle at a glance

`runElf` computes a cycle by updating `proc_t` piece by piece.  Here the same
cycle is read as a circuit: `Wires` holds what the fetch stage and the data
memory deliver, every other signal is a function of the old state and these
(`xIn`, `mIn`, `wIn`, `cycleCtls`), and `next` clocks them into the new state.
`cycle_eq` says that this is what `cycle` computes.
-/

namespace ChArm

/-! ## The signals of a cycle -/

/-- What fetch and the data memory deliver in a cycle. -/
structure Wires where
  d : DInstr
  fStatus : Stat
  fPC : Word
  fMem : Memory
  valMem : Word
  memErr : Bool
  mem : Memory

/-- The outputs of the fetch stage. -/
def fetchWires (ec : Bool) (s : Machine) : Except Abort (DInstr × Stat × Word × Memory) :=
  if fetchHalts ec s then .ok (haltInstr ec s.D.inp, .hlt, s.fPC, s.mem)
  else do
    let (insnbits, imemErr, mem) ← imem s.mem (fetchPC ec s)
    let d := fetchedInstr ec (fetchPC ec s) insnbits imemErr
    .ok (d, d.status, (predictPC ec (fetchPC ec s) insnbits d.op).1, mem)

/-- The outputs of the fetch stage and of the data memory. -/
def wires (ec : Bool) (s : Machine) : Except Abort Wires := do
  let (d, fStatus, fPC, fMem) ← fetchWires ec s
  let i := s.M.out
  let (valMem, memErr, mem) ←
    dmem fMem i.valEx i.valB i.mSigs.dmemRead i.mSigs.dmemWrite s.W.inp.valMem
  .ok { d := d, fStatus := fStatus, fPC := fPC, fMem := fMem, valMem := valMem, memErr := memErr,
        mem := mem }

/-- `M_in`. -/
def mIn (ec : Bool) (s : Machine) : MInstr := execute ec s.rca s.xNzcvval s.X.out

/-- `W_in`. -/
def wIn (s : Machine) (v : Wires) : WInstr where
  op := s.M.out.op
  wSigs := s.M.out.wSigs
  dst := s.M.out.dst
  valEx := s.M.out.valEx
  valMem := v.valMem
  status := if v.memErr then .adr else s.M.out.status

/-- `W_out` once write-back has chosen the destination. -/
def wOut (s : Machine) : WInstr :=
  if s.W.out.wSigs.dstSel then { s.W.out with dst := 30#8 } else s.W.out

/-- `W_wval`. -/
def wVal (s : Machine) : Word :=
  if (wOut s).wSigs.wvalSel then (wOut s).valMem else (wOut s).valEx

/-- The producers forwarding chooses from. -/
def forwardX (ec : Bool) (s : Machine) : Producer :=
  ⟨s.X.out.wSigs.wEnable, s.X.out.dst, (mIn ec s).valEx⟩

def forwardM (s : Machine) (v : Wires) : Producer :=
  ⟨s.M.out.wSigs.wEnable, s.M.out.dst,
    if s.M.out.wSigs.wvalSel then v.valMem else s.M.out.valEx⟩

def forwardW (s : Machine) : Producer := ⟨(wOut s).wSigs.wEnable, (wOut s).dst, wVal s⟩

/-- What decode hands on before forwarding, with the two source registers. -/
def decoded (ec : Bool) (s : Machine) : XInstr × RegNum × RegNum :=
  decode ec (s.locals s.numInstr) s.regs s.D.out

/-- A source operand after forwarding. -/
def operand (ec : Bool) (s : Machine) (v : Wires) (src : RegNum) (val : Word) : Word :=
  forwardOne (forwardX ec s) (forwardM s v) (forwardW s) src val

/-- `X_in`. -/
def xIn (ec : Bool) (s : Machine) (v : Wires) : XInstr :=
  { (decoded ec s).1 with
    valA := operand ec s v (decoded ec s).2.1 (decoded ec s).1.valA
    valB := operand ec s v (decoded ec s).2.2 (decoded ec s).1.valB }

/-- What hazard control sees. -/
def hazards (ec : Bool) (s : Machine) (v : Wires) : HazardIn where
  dmemStatus := v.mem.dmemStatus
  dOpcode := s.D.out.op
  dSrc1 := (decoded ec s).2.1
  dSrc2 := (decoded ec s).2.2
  xOpcode := s.X.out.op
  xDst := s.X.out.dst
  xCondval := (mIn ec s).condHolds
  mInStatus := s.X.out.status
  wInStatus := (wIn s v).status
  wOutStatus := (wOut s).status

/-- The control signals of the cycle. -/
def cycleCtls (ec : Bool) (s : Machine) (v : Wires) : Ctls :=
  hazardCtls ec (hazards ec s v) s.ctls

/-- The flags as the execute stage leaves them in `X_nzcvval`. -/
def xNzcv (s : Machine) : BitVec 8 := (executeAlu s.rca s.xNzcvval s.X.out).nzcv

/-- `deassert_flags` at the end of the cycle. -/
def flagsDeasserted (ec : Bool) (s : Machine) (v : Wires) : Bool :=
  s.deassertFlags || hazardDeasserts (hazards ec s v)

/-- Are the flags updated in this cycle? -/
def flagsLatch (ec : Bool) (s : Machine) (v : Wires) : Bool :=
  !flagsDeasserted ec s v && s.X.out.xSigs.setFlags

/-- The PC of the instruction in M if it signals an error, else the old `M_PC`. -/
def mPCNext (s : Machine) (v : Wires) : Word :=
  if (wIn s v).status.isError then s.M.out.seqSuccPC - 4#64 else s.mPC

/-- `guest.proc->PC` and `F_in->pred_PC` at the end of the cycle. -/
def pcNext (s : Machine) (v : Wires) : Word :=
  if (wIn s v).status.isError then mPCNext s v else v.fPC

/-- `guest.proc->status` at the end of the cycle. -/
def statusNext (ec : Bool) (s : Machine) (v : Wires) : Stat :=
  let c := cycleCtls ec s v
  if PipeCtl.error ∈ [c.f, c.d, c.x, c.m, c.w] then .hlt else (wOut s).status

/-! ## The clock edge -/

/-- The output side of a pipeline register after the clock edge. -/
def clocked {α : Type} (ctl : PipeCtl) (zero inp out : α) : α :=
  match ctl with
  | .load => inp
  | .error | .bubble => zero
  | .stall => out

theorem PipeReg.latch_eq {α : Type} (zero : α) (r : PipeReg α) :
    r.latch zero = { inp := r.inp, out := clocked r.ctl zero r.inp r.out, ctl := r.ctl } := by
  unfold PipeReg.latch clocked
  cases r with
  | mk inp out ctl => cases ctl <;> rfl

/-- The state after the clock edge. -/
def next (ec : Bool) (s : Machine) (v : Wires) : Machine :=
  let c := cycleCtls ec s v
  let f : FInstr := { predPC := pcNext s v, status := v.fStatus }
  { regs := regfileWrite s.regs (wOut s).dst (wVal s) (writeEnable (wOut s))
    PC := pcNext s v
    NZCV := if flagsLatch ec s v then xNzcv s else s.NZCV
    status := statusNext ec s v
    F := ⟨f, clocked c.f .zero f { s.F.out with status := v.fStatus }, c.f⟩
    D := ⟨v.d, clocked c.d .zero v.d s.D.out, c.d⟩
    X := ⟨xIn ec s v, clocked c.x .zero (xIn ec s v) s.X.out, c.x⟩
    M := ⟨mIn ec s, clocked c.m .zero (mIn ec s) s.M.out, c.m⟩
    W := ⟨wIn s v, clocked c.w .zero (wIn s v) (wOut s), c.w⟩
    fPC := v.fPC
    dSrc1 := (decoded ec s).2.1
    dSrc2 := (decoded ec s).2.2
    xNzcvval := xNzcv s
    xSetFlags := s.X.out.xSigs.setFlags
    mPC := mPCNext s v
    wWval := wVal s
    deassertFlags := flagsDeasserted ec s v
    rca := (executeAlu s.rca s.xNzcvval s.X.out).rca
    mem := v.mem
    numInstr := s.numInstr + 1
    locals := s.locals
    regWrites := s.regWrites ++ regWriteOf (wOut s).dst (wVal s) (writeEnable (wOut s))
    nzcvWrites := if flagsLatch ec s v then s.nzcvWrites ++ [xNzcv s] else s.nzcvWrites }

theorem fetchInstr_eq (ec : Bool) (s : Machine) :
    fetchInstr ec s = (fetchWires ec s).map fun r =>
      { s with
        D := { s.D with inp := r.1 }
        F := { s.F with
          inp := { s.F.inp with status := r.2.1 }, out := { s.F.out with status := r.2.1 } }
        fPC := r.2.2.1
        mem := r.2.2.2 } := by
  unfold fetchInstr fetchWires
  by_cases h : fetchHalts ec s = true
  · rw [if_pos h, if_pos h]
    rfl
  · rw [if_neg h, if_neg h]
    dsimp only
    cases imem s.mem (fetchPC ec s) <;> rfl

/-- The clocked logic, from the signals the five stages have left. -/
theorem clock_eq (ec : Bool) (t : Machine) :
    clock ec t =
      let c := hazardCtls ec (hazardIn t) t.ctls
      let deassert := t.deassertFlags || hazardDeasserts (hazardIn t)
      let pc := if t.W.inp.status.isError then t.mPC else t.fPC
      let f : FInstr := { predPC := pc, status := t.F.inp.status }
      let x := (forwardReg t).X.inp
      { t with
        regs := regfileWrite t.regs t.W.out.dst t.wWval (writeEnable t.W.out)
        PC := pc
        NZCV := if !deassert && t.xSetFlags then t.xNzcvval else t.NZCV
        status := if PipeCtl.error ∈ [c.f, c.d, c.x, c.m, c.w] then .hlt else t.W.out.status
        F := ⟨f, clocked c.f .zero f t.F.out, c.f⟩
        D := ⟨t.D.inp, clocked c.d .zero t.D.inp t.D.out, c.d⟩
        X := ⟨x, clocked c.x .zero x t.X.out, c.x⟩
        M := ⟨t.M.inp, clocked c.m .zero t.M.inp t.M.out, c.m⟩
        W := ⟨t.W.inp, clocked c.w .zero t.W.inp t.W.out, c.w⟩
        deassertFlags := deassert
        numInstr := t.numInstr + 1
        regWrites := t.regWrites ++ regWriteOf t.W.out.dst t.wWval (writeEnable t.W.out)
        nzcvWrites :=
          if !deassert && t.xSetFlags then t.nzcvWrites ++ [t.xNzcvval] else t.nzcvWrites } := by
  have hstatus : (if (hazardIn t).wOutStatus.isError then (hazardIn t).wOutStatus
      else t.W.out.status) = t.W.out.status := by
    by_cases h : (hazardIn t).wOutStatus.isError = true
    · rw [if_pos h]
      rfl
    · rw [if_neg h]
  simp only [clock, latchAll, PipeReg.latch_eq]
  by_cases h : (!(t.deassertFlags || hazardDeasserts (hazardIn t)) && t.xSetFlags) = true
  · have hu : updateFlags (handleHazards ec (setStatus (forwardReg t))) = _ := if_pos h
    simp only [hu, if_pos h]
    rw [← hstatus]
    rfl
  · have hu : updateFlags (handleHazards ec (setStatus (forwardReg t))) = _ := if_neg h
    simp only [hu, if_neg h]
    rw [← hstatus]
    rfl

/-- **A cycle computes the circuit.** -/
theorem cycle_eq (ec : Bool) (s : Machine) : cycle ec s = (wires ec s).map (next ec s) := by
  rw [cycle, stages, fetchInstr_eq, wires]
  cases fetchWires ec s with
  | error e => rfl
  | ok r =>
    obtain ⟨d, fStatus, fPC, fMem⟩ := r
    simp only [Except.map, bind, Except.bind, memoryInstr, executeInstr, decodeInstr]
    cases dmem fMem s.M.out.valEx s.M.out.valB s.M.out.mSigs.dmemRead s.M.out.mSigs.dmemWrite
        s.W.inp.valMem with
    | error e => rfl
    | ok r =>
      obtain ⟨valMem, memErr, mem⟩ := r
      dsimp only
      rw [clock_eq]
      rfl

end ChArm
