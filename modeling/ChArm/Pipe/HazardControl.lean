import ChArm.Pipe.MemoryStage

/-!
# Forwarding and hazard control

`src/pipe/forward.c` and `src/pipe/hazard_control.c`.
-/

namespace ChArm

/-! ## Forwarding -/

/-- A stage that may forward: its `w_enable`, its destination and its value. -/
structure Producer where
  wEnable : Bool
  dst : RegNum
  value : Word

/-- The test every producer of `forward_reg` has to pass. -/
def Producer.forwards (p : Producer) (src : RegNum) : Bool :=
  p.wEnable && p.dst == src && p.dst != 0x1F#8

/-- One operand of `forward_reg`: the value of the youngest producer, else the
value read from the register file. -/
def forwardOne (x m w : Producer) (src : RegNum) (val : Word) : Word :=
  if x.forwards src then x.value
  else if m.forwards src then m.value
  else if w.forwards src then w.value
  else val

/-- The producer in X. -/
def producerX (s : Machine) : Producer := ⟨s.X.out.wSigs.wEnable, s.X.out.dst, s.M.inp.valEx⟩

/-- The producer in M. -/
def producerM (s : Machine) : Producer :=
  ⟨s.M.out.wSigs.wEnable, s.M.out.dst,
    if s.M.out.wSigs.wvalSel then s.W.inp.valMem else s.M.out.valEx⟩

/-- The producer in W. -/
def producerW (s : Machine) : Producer :=
  ⟨s.W.out.wSigs.wEnable, s.W.out.dst,
    if s.W.out.wSigs.wvalSel then s.W.out.valMem else s.W.out.valEx⟩

/-- `forward_reg` as `runElf` calls it. -/
def forwardReg (s : Machine) : Machine :=
  let fwd := forwardOne (producerX s) (producerM s) (producerW s)
  { s with X := { s.X with inp := { s.X.inp with
      valA := fwd s.dSrc1 s.X.inp.valA
      valB := fwd s.dSrc2 s.X.inp.valB } } }

/-! ## Hazards -/

/-- The control signals of the five pipeline registers. -/
structure Ctls where
  f : PipeCtl
  d : PipeCtl
  x : PipeCtl
  m : PipeCtl
  w : PipeCtl
  deriving DecidableEq, Repr

/-- The new value of one control signal in `pipe_control_stage`. -/
def pipeControl (old : PipeCtl) (bubble stall : Bool) : PipeCtl :=
  let old := if bubble && stall then .error else old
  if old = .error then .error
  else if bubble then .bubble
  else if stall then .stall
  else .load

/-- `pipe_control_stage`. -/
def pipeControlStage (stage : ProcStage) (bubble stall : Bool) (c : Ctls) : Ctls :=
  match stage with
  | .fetch => { c with f := pipeControl c.f bubble stall }
  | .decode => { c with d := pipeControl c.d bubble stall }
  | .execute => { c with x := pipeControl c.x bubble stall }
  | .memory => { c with m := pipeControl c.m bubble stall }
  | .wback => { c with w := pipeControl c.w bubble stall }

/-- The five calls most blocks of `handle_hazards` make: for every stage, does it
bubble, does it stall? -/
def controlAll (f d x m w : Bool × Bool) (c : Ctls) : Ctls :=
  pipeControlStage .wback w.1 w.2 (pipeControlStage .memory m.1 m.2
    (pipeControlStage .execute x.1 x.2 (pipeControlStage .decode d.1 d.2
      (pipeControlStage .fetch f.1 f.2 c))))

/-- `check_ret_hazard`. -/
def checkRetHazard (dOpcode : Opcode) : Bool := dOpcode = .ret

/-- `check_br_hazard`. -/
def checkBrHazard (dOpcode : Opcode) : Bool := dOpcode = .br ∨ dOpcode = .blr

/-- `check_cb_hazard`. -/
def checkCbHazard (xOpcode : Opcode) (xCondval : Bool) : Bool :=
  (xOpcode = .cbz ∨ xOpcode = .cbnz) ∧ xCondval = false

/-- `check_mispred_branch_hazard`. -/
def checkMispredBranchHazard (xOpcode : Opcode) (xCondval : Bool) : Bool :=
  xOpcode = .bCond ∧ xCondval = false

/-- `check_load_use_hazard`. -/
def checkLoadUseHazard (dOpcode : Opcode) (dSrc1 dSrc2 : RegNum) (xOpcode : Opcode)
    (xDst : RegNum) : Bool :=
  if dOpcode ∈ [Opcode.nop, .hlt, .movz, .adrp, .b, .bl] then false
  else xOpcode = .ldur ∧ (dSrc1 = xDst ∨ dSrc2 = xDst)

/-- What `handle_hazards` looks at. -/
structure HazardIn where
  dmemStatus : MemStatus
  dOpcode : Opcode
  dSrc1 : RegNum
  dSrc2 : RegNum
  xOpcode : Opcode
  xDst : RegNum
  xCondval : Bool
  mInStatus : Stat
  wInStatus : Stat
  wOutStatus : Stat

/-- The `else if` chain of `handle_hazards`. -/
def hazardChain (ec : Bool) (h : HazardIn) (c : Ctls) : Ctls :=
  if h.dmemStatus = .inFlight then
    controlAll (false, true) (false, true) (false, true) (false, true) (true, false) c
  else if checkLoadUseHazard h.dOpcode h.dSrc1 h.dSrc2 h.xOpcode h.xDst then
    pipeControlStage .execute true false (pipeControlStage .decode false true
      (pipeControlStage .fetch false true c))
  else if checkMispredBranchHazard h.xOpcode h.xCondval then
    pipeControlStage .execute true false (pipeControlStage .decode true false c)
  else if checkRetHazard h.dOpcode then pipeControlStage .decode true false c
  else if ec ∧ checkCbHazard h.xOpcode h.xCondval then
    pipeControlStage .execute true false (pipeControlStage .decode true false c)
  else if ec ∧ checkBrHazard h.dOpcode then
    pipeControlStage .decode true false (pipeControlStage .fetch false true c)
  else c

/-- The control signals `handle_hazards` leaves behind. -/
def hazardCtls (ec : Bool) (h : HazardIn) (c : Ctls) : Ctls :=
  let c := controlAll (false, false) (false, false) (false, false) (false, false) (false, false) c
  let c := hazardChain ec h c
  let c := if h.mInStatus.isError then
      controlAll (false, true) (false, true) (false, true) (false, false) (false, false) c
    else c
  let c := if h.wInStatus.isError then
      controlAll (false, true) (false, true) (false, true) (false, true) (false, false) c
    else c
  if h.wOutStatus.isError then
    controlAll (false, true) (false, true) (false, true) (false, true) (false, true) c
  else c

/-- Does `handle_hazards` set `deassert_flags`? -/
def hazardDeasserts (h : HazardIn) : Bool :=
  h.mInStatus.isError || h.wInStatus.isError || h.wOutStatus.isError

/-- The arguments and globals `handle_hazards` reads in this state. -/
def hazardIn (s : Machine) : HazardIn where
  dmemStatus := s.mem.dmemStatus
  dOpcode := s.D.out.op
  dSrc1 := s.dSrc1
  dSrc2 := s.dSrc2
  xOpcode := s.X.out.op
  xDst := s.X.out.dst
  xCondval := s.M.inp.condHolds
  mInStatus := s.M.inp.status
  wInStatus := s.W.inp.status
  wOutStatus := s.W.out.status

/-- The current control signals. -/
def Machine.ctls (s : Machine) : Ctls := ⟨s.F.ctl, s.D.ctl, s.X.ctl, s.M.ctl, s.W.ctl⟩

/-- Set the control signals. -/
def Machine.setCtls (s : Machine) (c : Ctls) : Machine :=
  { s with
    F := { s.F with ctl := c.f }
    D := { s.D with ctl := c.d }
    X := { s.X with ctl := c.x }
    M := { s.M with ctl := c.m }
    W := { s.W with ctl := c.w } }

/-- `handle_hazards` as `runElf` calls it. -/
def handleHazards (ec : Bool) (s : Machine) : Machine :=
  let h := hazardIn s
  let s := s.setCtls (hazardCtls ec h s.ctls)
  { s with
    deassertFlags := s.deassertFlags || hazardDeasserts h
    status := if h.wOutStatus.isError then h.wOutStatus else s.status }

end ChArm
