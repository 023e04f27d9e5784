import Mathlib
import ChArm.Lib.Reorder

/-!
# Workers that meet at two barriers

A main thread and its workers take turns.  All of them meet at the start barrier, then every worker
does its work on the shared state, then all meet at the end barrier, and the main thread
alone takes the clocked step and decides whether there is another round.  When there is none it
lowers a flag and opens the start barrier a last time; the workers see the flag and exit, and
the main thread joins them.

The threads are scheduled in any way (`System.Schedule`).  Still, what the main thread finds after a
round is what its workers leave one after the other, each having worked once
(`System.Schedule.rounds`), and no schedule gets stuck (`System.Schedule.progress`).
-/

namespace Barriers

open Reorder

variable {ι σ ε : Type}

/-- The program the threads run: the workers in the order of their creation, what each does to the
shared state, and what the main thread does between rounds. -/
structure System (ι σ ε : Type) where
  workers : List ι
  work : ι → σ → Except ε σ
  clock : σ → σ
  go : σ → Bool
  mem_workers : ∀ i, i ∈ workers
  nodup : workers.Nodup

/-- Where a worker is.  At a barrier it is about to wait, or it waits (`true`). -/
inductive WorkerAt where
  | unborn
  | enter (waits : Bool)
  | work
  | leave (waits : Bool)
  | again (waits : Bool)
  | test
  | exited
  deriving DecidableEq

/-- Where the main thread is. -/
inductive MainAt (ι : Type) where
  | create (rest : List ι)
  | start (waits : Bool)
  | finish (waits : Bool)
  | clock
  | shut (waits : Bool)
  | join (rest : List ι)
  | done
  deriving DecidableEq

/-- The threads, the flag and the shared state. -/
structure State (ι σ : Type) where
  main : MainAt ι
  worker : ι → WorkerAt
  running : Bool
  shared : σ

/-! ## The barriers -/

def WorkerAt.atStart : WorkerAt → Bool
  | .enter true | .again true => true
  | _ => false

def WorkerAt.atEnd : WorkerAt → Bool
  | .leave true => true
  | _ => false

def MainAt.atStart : MainAt ι → Bool
  | .start true | .shut true => true
  | _ => false

def MainAt.atEnd : MainAt ι → Bool
  | .finish true => true
  | _ => false

def WorkerAt.passStart : WorkerAt → WorkerAt
  | .enter true => .work
  | .again true => .test
  | w => w

def WorkerAt.passEnd : WorkerAt → WorkerAt
  | .leave true => .again false
  | w => w

def MainAt.passStart (workers : List ι) : MainAt ι → MainAt ι
  | .start true => .finish false
  | .shut true => .join workers
  | m => m

def MainAt.passEnd : MainAt ι → MainAt ι
  | .finish true => .clock
  | m => m

/-- A worker goes to another place. -/
def State.goTo [DecidableEq ι] (c : State ι σ) (i : ι) (w : WorkerAt) : State ι σ :=
  { c with worker := Function.update c.worker i w }

namespace System

section

variable (sys : System ι σ ε)

/-- Do all threads wait at the start barrier? -/
def opensStart (c : State ι σ) : Bool :=
  c.main.atStart && sys.workers.all fun i => (c.worker i).atStart

def opensEnd (c : State ι σ) : Bool :=
  c.main.atEnd && sys.workers.all fun i => (c.worker i).atEnd

/-- The last thread to arrive lets all of them pass. -/
def passStart (c : State ι σ) : State ι σ :=
  if sys.opensStart c then
    { c with main := c.main.passStart sys.workers, worker := fun i => (c.worker i).passStart }
  else c

def passEnd (c : State ι σ) : State ι σ :=
  if sys.opensEnd c then
    { c with main := c.main.passEnd, worker := fun i => (c.worker i).passEnd }
  else c

/-! ## Rounds -/

/-- After `n` rounds in which the workers work one after the other, each round in some order. -/
inductive Rounds (s₀ : σ) : Nat → σ → Prop where
  | zero : Rounds s₀ 0 s₀
  | succ {n : Nat} {s t : σ} {order : List ι} (h : Rounds s₀ n s) (hgo : 0 < n → sys.go s = true)
      (horder : order.Perm sys.workers) (hrun : runSteps sys.work order s = .ok t) :
      Rounds s₀ (n + 1) (sys.clock t)

end

/-! ## The threads -/

variable [DecidableEq ι] (sys : System ι σ ε)

/-- Before the main thread has created a worker. -/
def init (s : σ) : State ι σ := ⟨.create sys.workers, fun _ => .unborn, true, s⟩

/-- The next step of the main thread, unless it waits or has returned. -/
def stepMain (c : State ι σ) : Option (State ι σ) :=
  match c.main with
  | .create [] => some { c with main := .start false }
  | .create (i :: rest) =>
      some { c with main := .create rest, worker := Function.update c.worker i (.enter false) }
  | .start false => some (sys.passStart { c with main := .start true })
  | .finish false => some (sys.passEnd { c with main := .finish true })
  | .clock =>
      let s := sys.clock c.shared
      if sys.go s then some { c with main := .start false, shared := s }
      else some { c with main := .shut false, running := false, shared := s }
  | .shut false => some (sys.passStart { c with main := .shut true })
  | .join [] => some { c with main := .done }
  | .join (i :: rest) => if c.worker i = .exited then some { c with main := .join rest } else none
  | .start true | .finish true | .shut true | .done => none

/-- The next step of a worker.  Its work is one step; work that fails ends the whole process. -/
def stepWorker (i : ι) (c : State ι σ) : Option (Except ε (State ι σ)) :=
  match c.worker i with
  | .enter false => some (.ok (sys.passStart (c.goTo i (.enter true))))
  | .work => some ((sys.work i c.shared).map fun s => { c.goTo i (.leave false) with shared := s })
  | .leave false => some (.ok (sys.passEnd (c.goTo i (.leave true))))
  | .again false => some (.ok (sys.passStart (c.goTo i (.again true))))
  | .test => some (.ok (c.goTo i (if c.running then .work else .exited)))
  | .unborn | .enter true | .leave true | .again true | .exited => none

/-- Some schedule leads to this state in `k` steps, `n` of them clocked steps of the main thread. -/
inductive Schedule (s₀ : σ) : Nat → Nat → State ι σ → Prop where
  | init : Schedule s₀ 0 0 (sys.init s₀)
  | main {k n : Nat} {c c' : State ι σ} (h : Schedule s₀ k n c) (hstep : sys.stepMain c = some c') :
      Schedule s₀ (k + 1) (n + if c.main = .clock then 1 else 0) c'
  | worker {k n : Nat} {c c' : State ι σ} (h : Schedule s₀ k n c) (i : ι)
      (hstep : sys.stepWorker i c = some (.ok c')) : Schedule s₀ (k + 1) n c'

end System

/-! ## What holds of every schedule -/

/-- Where a worker can be while the main thread is at a place. -/
def Fits (m : MainAt ι) (w : WorkerAt) : Bool :=
  match m with
  | .create _ => match w with
    | .unborn | .enter _ => true
    | _ => false
  | .start _ => match w with
    | .enter _ | .again _ => true
    | _ => false
  | .finish _ => match w with
    | .test | .work | .leave _ => true
    | _ => false
  | .clock | .shut _ => match w with
    | .again _ => true
    | _ => false
  | .join _ => match w with
    | .test | .exited => true
    | _ => false
  | .done => w = .exited

/-- Has the worker worked in this round? -/
def WorkerAt.worked : WorkerAt → Bool
  | .leave _ => true
  | _ => false

/-- The workers the main thread still has to create or to join. -/
def MainAt.pending : MainAt ι → List ι
  | .create rest | .join rest => rest
  | _ => []

/-- Has the main thread not lowered the flag yet? -/
def MainAt.flag : MainAt ι → Bool
  | .shut _ | .join _ | .done => false
  | _ => true

/-- Can the worker go on by itself? -/
def WorkerAt.ready : WorkerAt → Bool
  | .enter false | .work | .leave false | .again false | .test => true
  | _ => false

/-- What the shared state is made of after `n` clocked steps. -/
def Made (sys : System ι σ ε) (s₀ : σ) (n : Nat) (c : State ι σ) : Prop :=
  match c.main with
  | .create _ | .start _ => sys.Rounds s₀ n c.shared ∧ (0 < n → sys.go c.shared = true)
  | .finish _ => ∃ s order, sys.Rounds s₀ n s ∧ (0 < n → sys.go s = true) ∧ order.Nodup ∧
      (∀ i, i ∈ order ↔ (c.worker i).worked = true) ∧ runSteps sys.work order s = .ok c.shared
  | .clock => ∃ s order, sys.Rounds s₀ n s ∧ (0 < n → sys.go s = true) ∧
      order.Perm sys.workers ∧ runSteps sys.work order s = .ok c.shared
  | .shut _ | .join _ | .done => 0 < n ∧ sys.Rounds s₀ n c.shared ∧ sys.go c.shared = false

/-- What holds whether or not a barrier is about to open. -/
structure Core (sys : System ι σ ε) (s₀ : σ) (n : Nat) (c : State ι σ) : Prop where
  fits : ∀ i, Fits c.main (c.worker i) = true
  unborn : ∀ i, c.worker i = .unborn → i ∈ c.main.pending
  joined : ∀ rest, c.main = .join rest → ∀ i ∉ rest, c.worker i = .exited
  running : c.running = c.main.flag
  made : Made sys s₀ n c

/-- The invariant: no barrier stays closed when all threads wait at it. -/
structure Inv (sys : System ι σ ε) (s₀ : σ) (n : Nat) (c : State ι σ) : Prop extends
    Core sys s₀ n c where
  start : sys.opensStart c = false
  finish : sys.opensEnd c = false

section

variable {sys : System ι σ ε} {s₀ : σ} {c c' : State ι σ} {k n : Nat}

theorem WorkerAt.atStart_iff {w : WorkerAt} :
    w.atStart = true ↔ w = .enter true ∨ w = .again true := by
  rcases w with _ | (_ | _) | _ | (_ | _) | (_ | _) | _ | _ <;> decide

theorem WorkerAt.atEnd_iff {w : WorkerAt} : w.atEnd = true ↔ w = .leave true := by
  rcases w with _ | (_ | _) | _ | (_ | _) | (_ | _) | _ | _ <;> decide

theorem opensStart_iff : sys.opensStart c = true ↔
    c.main.atStart = true ∧ ∀ i, (c.worker i).atStart = true := by
  rw [System.opensStart, Bool.and_eq_true, List.all_eq_true]
  exact and_congr_right fun _ => ⟨fun h i => h i (sys.mem_workers i), fun h i _ => h i⟩

theorem opensEnd_iff : sys.opensEnd c = true ↔
    c.main.atEnd = true ∧ ∀ i, (c.worker i).atEnd = true := by
  rw [System.opensEnd, Bool.and_eq_true, List.all_eq_true]
  exact and_congr_right fun _ => ⟨fun h i => h i (sys.mem_workers i), fun h i _ => h i⟩

theorem opensStart_of_worker {i : ι} (h : (c.worker i).atStart = false) :
    sys.opensStart c = false := by
  refine Bool.eq_false_iff.2 fun ho => ?_
  rw [(opensStart_iff.1 ho).2 i] at h
  cases h

theorem opensEnd_of_worker {i : ι} (h : (c.worker i).atEnd = false) : sys.opensEnd c = false := by
  refine Bool.eq_false_iff.2 fun ho => ?_
  rw [(opensEnd_iff.1 ho).2 i] at h
  cases h

/-- A barrier at which the main thread waits stays closed for a worker that has not arrived. -/
theorem exists_not_atStart (hm : c.main.atStart = true) (ho : sys.opensStart c = false) :
    ∃ i, (c.worker i).atStart = false := by
  by_contra hall
  refine Bool.eq_false_iff.1 ho (opensStart_iff.2 ⟨hm, fun i => ?_⟩)
  exact Bool.not_eq_false _ ▸ fun hi => hall ⟨i, hi⟩

theorem exists_not_atEnd (hm : c.main.atEnd = true) (ho : sys.opensEnd c = false) :
    ∃ i, (c.worker i).atEnd = false := by
  by_contra hall
  refine Bool.eq_false_iff.1 ho (opensEnd_iff.2 ⟨hm, fun i => ?_⟩)
  exact Bool.not_eq_false _ ▸ fun hi => hall ⟨i, hi⟩

/-- Then it can go on. -/
theorem ready_of_start {m : MainAt ι} {w : WorkerAt} (hm : m = .start true ∨ m = .shut true)
    (hf : Fits m w = true) (hw : w.atStart = false) : w.ready = true := by
  rcases hm with rfl | rfl <;> rcases w with _ | (_ | _) | _ | (_ | _) | (_ | _) | _ | _ <;>
    first | rfl | exact absurd hf Bool.false_ne_true | exact absurd hw.symm Bool.false_ne_true

theorem ready_of_finish {w : WorkerAt} (hf : Fits (.finish true : MainAt ι) w = true)
    (hw : w.atEnd = false) : w.ready = true := by
  rcases w with _ | (_ | _) | _ | (_ | _) | (_ | _) | _ | _ <;>
    first | rfl | exact absurd hf Bool.false_ne_true | exact absurd hw.symm Bool.false_ne_true

theorem ready_of_join {rest : List ι} {w : WorkerAt} (hf : Fits (.join rest) w = true)
    (hw : w ≠ .exited) : w.ready = true := by
  rcases w with _ | (_ | _) | _ | (_ | _) | (_ | _) | _ | _ <;>
    first | rfl | exact absurd rfl hw | exact absurd hf Bool.false_ne_true

/-! ## The barriers open -/

/-- Through the start barrier the workers go to work, or to see that the flag is down. -/
theorem Core.passStart (h : Core sys s₀ n c) (hend : sys.opensEnd c = false) :
    Inv sys s₀ n (sys.passStart c) := by
  rw [System.passStart]
  cases ho : sys.opensStart c with
  | false => exact ⟨h, ho, hend⟩
  | true =>
    rw [if_pos rfl]
    obtain ⟨hm, hw⟩ := opensStart_iff.1 ho
    obtain ⟨m, worker, running, shared⟩ := c
    replace hw : ∀ i, worker i = .enter true ∨ worker i = .again true :=
      fun i => WorkerAt.atStart_iff.1 (hw i)
    have hunborn : ∀ i, (worker i).passStart ≠ .unborn := by
      intro i
      rcases hw i with hi | hi <;> rw [hi] <;> decide
    -- a round begins, or the flag is down and the workers are let go
    cases m with
    | start waits =>
      obtain rfl : waits = true := by
        cases waits
        · cases hm
        · rfl
      refine ⟨⟨fun i => ?_, fun i hi => absurd hi (hunborn i), fun rest hr => ?_, h.running, ?_⟩,
        rfl, rfl⟩
      · dsimp only
        rcases hw i with hi | hi <;> rw [hi] <;> rfl
      · cases hr
      · obtain ⟨hn, hgo⟩ := h.made
        -- nobody has worked in this round yet
        refine ⟨shared, [], hn, hgo, List.nodup_nil, fun i => ?_, rfl⟩
        dsimp only
        rcases hw i with hi | hi <;> rw [hi] <;> simp [WorkerAt.passStart, WorkerAt.worked]
    | shut waits =>
      obtain rfl : waits = true := by
        cases waits
        · cases hm
        · rfl
      refine ⟨⟨fun i => ?_, fun i hi => absurd hi (hunborn i), fun rest hr i hi => ?_, h.running,
        h.made⟩, rfl, rfl⟩
      · have hf : Fits (.shut true : MainAt ι) (worker i) = true := h.fits i
        dsimp only
        rcases hw i with hi | hi <;> rw [hi] at hf ⊢
        · cases hf
        · rfl
      · cases hr
        exact absurd (sys.mem_workers i) hi
    | _ => cases hm

/-- Through the end barrier the round is complete. -/
theorem Core.passEnd (h : Core sys s₀ n c) (hstart : sys.opensStart c = false) :
    Inv sys s₀ n (sys.passEnd c) := by
  rw [System.passEnd]
  cases ho : sys.opensEnd c with
  | false => exact ⟨h, hstart, ho⟩
  | true =>
    rw [if_pos rfl]
    obtain ⟨hm, hw⟩ := opensEnd_iff.1 ho
    obtain ⟨m, worker, running, shared⟩ := c
    replace hw : ∀ i, worker i = .leave true := fun i => WorkerAt.atEnd_iff.1 (hw i)
    cases m with
    | finish waits =>
      obtain rfl : waits = true := by
        cases waits
        · cases hm
        · rfl
      refine ⟨⟨fun i => ?_, fun i hi => ?_, fun rest hr => ?_, h.running, ?_⟩, rfl, rfl⟩
      · dsimp only
        rw [hw i]
        rfl
      · dsimp only at hi
        rw [hw i] at hi
        cases hi
      · cases hr
      · obtain ⟨s, order, hn, hgo, hnodup, horder, hrun⟩ := h.made
        -- those that have worked are now all workers
        refine ⟨s, order, hn, hgo, (List.perm_ext_iff_of_nodup hnodup sys.nodup).2 fun i => ?_, hrun⟩
        rw [horder]
        dsimp only
        rw [hw i]
        exact ⟨fun _ => sys.mem_workers i, fun _ => rfl⟩
    | _ => cases hm

/-! ## Every step keeps the invariant -/

/-- While a worker is at work the main thread waits for the round to finish. -/
theorem Core.finish_of_work (h : Core sys s₀ n c) {i : ι} (hw : c.worker i = .work) :
    ∃ waits, c.main = .finish waits := by
  have hf := h.fits i
  rw [hw] at hf
  cases hm : c.main <;> rw [hm] at hf <;> first | exact ⟨_, rfl⟩ | cases hf

/-- A worker that arrives at a barrier fits where it was about to wait. -/
theorem fits_waits (m : MainAt ι) : Fits m (.enter true) = Fits m (.enter false) ∧
    Fits m (.leave true) = Fits m (.leave false) ∧ Fits m (.again true) = Fits m (.again false) := by
  cases m <;> exact ⟨rfl, rfl, rfl⟩

theorem Inv.init (sys : System ι σ ε) (s₀ : σ) : Inv sys s₀ 0 (sys.init s₀) := by
  refine ⟨⟨fun _ => rfl, fun i _ => sys.mem_workers i, fun rest hr => ?_, rfl,
    ⟨.zero, fun h => absurd h (lt_irrefl 0)⟩⟩, rfl, rfl⟩
  cases hr

variable [DecidableEq ι]

theorem Inv.stepMain (h : Inv sys s₀ n c) (hstep : sys.stepMain c = some c') :
    Inv sys s₀ (n + if c.main = .clock then 1 else 0) c' := by
  obtain ⟨⟨hfits, hunborn, hjoined, hrunning, hmade⟩, -, -⟩ := h
  obtain ⟨m, worker, running, shared⟩ := c
  -- where the main thread is tells what `Made` says and where the workers can be
  cases m with
  | create rest =>
    cases rest with
    | nil =>
      obtain rfl := Option.some.inj hstep
      -- all workers have been created: none is unborn, so each fits the start of the first round
      refine ⟨⟨fun i => ?_, fun i hi => absurd (hunborn i hi) List.not_mem_nil, fun rest hr => ?_,
        hrunning, hmade⟩, rfl, rfl⟩
      · have hf := hfits i
        dsimp only at hf ⊢
        cases hi : worker i with
        | unborn => exact absurd (hunborn i hi) List.not_mem_nil
        | enter waits => rfl
        | _ =>
          rw [hi] at hf
          cases hf
      · cases hr
    | cons j rest =>
      obtain rfl := Option.some.inj hstep
      -- only the worker that is created moves, and it is no longer among those to come
      refine ⟨⟨fun i => ?_, fun i hi => ?_, fun rest hr => ?_, hrunning, hmade⟩, rfl, rfl⟩
      · by_cases hij : i = j
        · subst hij
          dsimp only
          rw [Function.update_self]
          rfl
        · dsimp only
          rw [Function.update_of_ne hij]
          exact hfits i
      · have hij : i ≠ j := by
          rintro rfl
          dsimp only at hi
          rw [Function.update_self] at hi
          cases hi
        dsimp only at hi
        rw [Function.update_of_ne hij] at hi
        exact (List.mem_cons.1 (hunborn i hi)).resolve_left hij
      · cases hr
  | start waits =>
    cases waits with
    | true => cases hstep
    | false =>
      obtain rfl := Option.some.inj hstep
      refine Core.passStart ⟨fun i => ?_, hunborn, fun rest hr => ?_, hrunning, hmade⟩ rfl
      · exact hfits i
      · cases hr
  | finish waits =>
    cases waits with
    | true => cases hstep
    | false =>
      obtain rfl := Option.some.inj hstep
      refine Core.passEnd ⟨fun i => hfits i, hunborn, fun rest hr => ?_, hrunning, hmade⟩ rfl
      cases hr
  | clock =>
    -- all workers have worked, so the clocked step makes one more round of `Rounds`
    obtain ⟨s, order, hn, hgo, horder, hrun⟩ := hmade
    have hround := hn.succ hgo horder hrun
    have hagain : ∀ i, ∃ waits, worker i = .again waits := by
      intro i
      have hf := hfits i
      dsimp only at hf
      cases hwi : worker i <;> rw [hwi] at hf <;> first | exact ⟨_, rfl⟩ | cases hf
    dsimp only [System.stepMain] at hstep
    cases hgo' : sys.go (sys.clock shared) with
    | true =>
      rw [hgo', if_pos rfl] at hstep
      obtain rfl := Option.some.inj hstep
      refine ⟨⟨fun i => ?_, hunborn, fun rest hr => ?_, hrunning, ⟨hround, fun _ => hgo'⟩⟩,
        rfl, rfl⟩
      · obtain ⟨waits, hi⟩ := hagain i
        dsimp only
        rw [hi]
        rfl
      · cases hr
    | false =>
      -- the last round: the flag is lowered before the start barrier opens again
      rw [hgo', if_neg Bool.false_ne_true] at hstep
      obtain rfl := Option.some.inj hstep
      refine ⟨⟨fun i => ?_, hunborn, fun rest hr => ?_, rfl, ⟨Nat.succ_pos n, hround, hgo'⟩⟩,
        rfl, rfl⟩
      · obtain ⟨waits, hi⟩ := hagain i
        dsimp only
        rw [hi]
        rfl
      · cases hr
  | shut waits =>
    cases waits with
    | true => cases hstep
    | false =>
      obtain rfl := Option.some.inj hstep
      refine Core.passStart ⟨fun i => hfits i, hunborn, fun rest hr => ?_, hrunning, hmade⟩ rfl
      cases hr
  | join rest =>
    cases rest with
    | nil =>
      obtain rfl := Option.some.inj hstep
      refine ⟨⟨fun i => ?_, fun i hi => ?_, fun rest hr => ?_, hrunning, hmade⟩, rfl, rfl⟩
      · -- nobody is left to join, so every worker has exited
        have hi := hjoined [] rfl i List.not_mem_nil
        dsimp only at hi ⊢
        rw [hi]
        rfl
      · exact absurd (hunborn i hi) List.not_mem_nil
      · cases hr
    | cons j rest =>
      dsimp only [System.stepMain] at hstep
      -- joining waits until the worker has exited
      split_ifs at hstep with hj
      obtain rfl := Option.some.inj hstep
      refine ⟨⟨fun i => hfits i, fun i hi => ?_, fun rest' hr i hi => ?_, hrunning, hmade⟩,
        rfl, rfl⟩
      · have hf := hfits i
        dsimp only at hf hi
        rw [hi] at hf
        cases hf
      · cases hr
        by_cases hij : i = j
        · subst hij
          exact hj
        · exact hjoined _ rfl i fun hmem => (List.mem_cons.1 hmem).elim hij hi
  | done => cases hstep

/-- What a step of a worker does. -/
inductive WorkerStep (sys : System ι σ ε) (i : ι) (c : State ι σ) : State ι σ → Prop where
  | enter (h : c.worker i = .enter false) :
      WorkerStep sys i c (sys.passStart (c.goTo i (.enter true)))
  | work {s : σ} (h : c.worker i = .work) (hrun : sys.work i c.shared = .ok s) :
      WorkerStep sys i c { c.goTo i (.leave false) with shared := s }
  | leave (h : c.worker i = .leave false) :
      WorkerStep sys i c (sys.passEnd (c.goTo i (.leave true)))
  | again (h : c.worker i = .again false) :
      WorkerStep sys i c (sys.passStart (c.goTo i (.again true)))
  | test (h : c.worker i = .test) :
      WorkerStep sys i c (c.goTo i (if c.running then .work else .exited))

theorem workerStep {i : ι} (hstep : sys.stepWorker i c = some (.ok c')) : WorkerStep sys i c c' := by
  unfold System.stepWorker at hstep
  cases hw : c.worker i with
  | enter waits =>
    rw [hw] at hstep
    cases waits with
    | true => cases hstep
    | false =>
      obtain rfl := Except.ok.inj (Option.some.inj hstep)
      exact .enter hw
  | work =>
    rw [hw] at hstep
    dsimp only at hstep
    cases hrun : sys.work i c.shared with
    | error e =>
      rw [hrun] at hstep
      cases hstep
    | ok s =>
      rw [hrun] at hstep
      obtain rfl := Except.ok.inj (Option.some.inj hstep)
      exact .work hw hrun
  | leave waits =>
    rw [hw] at hstep
    cases waits with
    | true => cases hstep
    | false =>
      obtain rfl := Except.ok.inj (Option.some.inj hstep)
      exact .leave hw
  | again waits =>
    rw [hw] at hstep
    cases waits with
    | true => cases hstep
    | false =>
      obtain rfl := Except.ok.inj (Option.some.inj hstep)
      exact .again hw
  | test =>
    rw [hw] at hstep
    obtain rfl := Except.ok.inj (Option.some.inj hstep)
    exact .test hw
  | unborn =>
    rw [hw] at hstep
    cases hstep
  | exited =>
    rw [hw] at hstep
    cases hstep

theorem goTo_worker_self (i : ι) (w : WorkerAt) : (c.goTo i w).worker i = w := by
  dsimp only [State.goTo]
  rw [Function.update_self]

theorem goTo_worker_of_ne {i j : ι} (w : WorkerAt) (h : j ≠ i) :
    (c.goTo i w).worker j = c.worker j := by
  dsimp only [State.goTo]
  rw [Function.update_of_ne h]

/-- A worker that goes on by itself, without touching the shared state. -/
theorem Core.goTo (h : Core sys s₀ n c) {i : ι} {w : WorkerAt} (hfits : Fits c.main w = true)
    (hborn : w ≠ .unborn) (hi : c.worker i ≠ .exited ∨ w = .exited)
    (hworked : w.worked = (c.worker i).worked) : Core sys s₀ n (c.goTo i w) := by
  refine ⟨fun j => ?_, fun j hj => ?_, fun rest hr j hj => ?_, h.running, ?_⟩
  · by_cases hji : j = i
    · rw [hji, goTo_worker_self]
      exact hfits
    · rw [goTo_worker_of_ne w hji]
      exact h.fits j
  · by_cases hji : j = i
    · rw [hji, goTo_worker_self] at hj
      exact absurd hj hborn
    · rw [goTo_worker_of_ne w hji] at hj
      exact h.unborn j hj
  · by_cases hji : j = i
    · subst hji
      rw [goTo_worker_self]
      exact hi.resolve_left fun hne => hne (h.joined rest hr j hj)
    · rw [goTo_worker_of_ne w hji]
      exact h.joined rest hr j hj
  · have hsame : ∀ j, ((c.goTo i w).worker j).worked = (c.worker j).worked := by
      intro j
      by_cases hji : j = i
      · rw [hji, goTo_worker_self, hworked]
      · rw [goTo_worker_of_ne w hji]
    have hmade := h.made
    unfold Made at hmade ⊢
    rw [show (c.goTo i w).main = c.main from rfl]
    cases hm : c.main <;> rw [hm] at hmade <;> simp only at hmade ⊢ <;> try exact hmade
    obtain ⟨s, order, hn, hgo, hnodup, horder, hrun⟩ := hmade
    exact ⟨s, order, hn, hgo, hnodup, fun j => by rw [horder, hsame], hrun⟩

/-- A worker that has worked joins those that did before it. -/
theorem Core.worked (h : Core sys s₀ n c) {i : ι} (hw : c.worker i = .work) {s : σ}
    (hrun : sys.work i c.shared = .ok s) :
    Core sys s₀ n { c.goTo i (.leave false) with shared := s } := by
  obtain ⟨waits, hm⟩ := h.finish_of_work hw
  have hmade := h.made
  rw [Made, hm] at hmade
  obtain ⟨base, order, hn, hgo, hnodup, horder, hruns⟩ := hmade
  have hnew : i ∉ order := fun hi => by
    have hworked := (horder i).1 hi
    rw [hw] at hworked
    cases hworked
  refine ⟨fun j => ?_, fun j hj => ?_, fun rest hr => ?_, h.running, ?_⟩
  · dsimp only
    by_cases hji : j = i
    · rw [hji, goTo_worker_self, show (c.goTo i (.leave false)).main = c.main from rfl, hm]
      rfl
    · rw [goTo_worker_of_ne _ hji]
      exact h.fits j
  · dsimp only at hj
    by_cases hji : j = i
    · rw [hji, goTo_worker_self] at hj
      cases hj
    · rw [goTo_worker_of_ne _ hji] at hj
      exact h.unborn j hj
  · cases hm.symm.trans hr
  · rw [Made]
    dsimp only
    rw [show (c.goTo i (.leave false)).main = c.main from rfl, hm]
    -- the order in which they worked grows at its end
    refine ⟨base, order ++ [i], hn, hgo, ?_, fun j => ?_, ?_⟩
    · exact hnodup.append (List.nodup_singleton i) (List.disjoint_singleton.2 hnew)
    · rw [List.mem_append, List.mem_singleton]
      by_cases hji : j = i
      · rw [hji, goTo_worker_self]
        exact ⟨fun _ => rfl, fun _ => Or.inr rfl⟩
      · rw [goTo_worker_of_ne _ hji, horder]
        exact ⟨fun hj => hj.resolve_right hji, Or.inl⟩
    · rw [runSteps_concat, hruns]
      exact hrun

theorem Inv.stepWorker (h : Inv sys s₀ n c) {i : ι} (hstep : sys.stepWorker i c = some (.ok c')) :
    Inv sys s₀ n c' := by
  have hf := h.fits i
  obtain ⟨henter, hleave, hagain⟩ := fits_waits c.main
  cases workerStep hstep with
  | enter hw =>
    rw [hw] at hf
    -- arriving is a step of its own; the barrier may open with it
    refine Core.passStart (h.goTo (henter.trans hf) (by decide) (Or.inl ?_) ?_) ?_
    · rw [hw]
      decide
    · rw [hw]
      rfl
    · exact opensEnd_of_worker (i := i) (by rw [goTo_worker_self]; rfl)
  | work hw hrun =>
    -- a worker at work keeps both barriers closed
    refine ⟨h.worked hw hrun, ?_, ?_⟩
    · exact opensStart_of_worker (i := i) (by dsimp only; rw [goTo_worker_self]; rfl)
    · exact opensEnd_of_worker (i := i) (by dsimp only; rw [goTo_worker_self]; rfl)
  | leave hw =>
    rw [hw] at hf
    refine Core.passEnd (h.goTo (hleave.trans hf) (by decide) (Or.inl ?_) ?_) ?_
    · rw [hw]
      decide
    · rw [hw]
      rfl
    · exact opensStart_of_worker (i := i) (by rw [goTo_worker_self]; rfl)
  | again hw =>
    rw [hw] at hf
    refine Core.passStart (h.goTo (hagain.trans hf) (by decide) (Or.inl ?_) ?_) ?_
    · rw [hw]
      decide
    · rw [hw]
      rfl
    · exact opensEnd_of_worker (i := i) (by rw [goTo_worker_self]; rfl)
  | test hw =>
    rw [hw] at hf
    have hrunning := h.running
    refine ⟨h.goTo ?_ ?_ ?_ ?_, ?_, ?_⟩
    · cases hm : c.main <;> rw [hm] at hf hrunning <;> try cases hf
      · rw [hrunning]
        rfl
      · rw [hrunning]
        rfl
    · cases c.running <;> decide
    · rw [hw]
      exact Or.inl (by decide)
    · rw [hw]
      cases c.running <;> rfl
    · exact opensStart_of_worker (i := i) (by rw [goTo_worker_self]; cases c.running <;> rfl)
    · exact opensEnd_of_worker (i := i) (by rw [goTo_worker_self]; cases c.running <;> rfl)

theorem System.Schedule.inv (h : sys.Schedule s₀ k n c) : Inv sys s₀ n c := by
  induction h with
  | init => exact .init sys s₀
  | main _ hstep ih => exact ih.stepMain hstep
  | worker _ i hstep ih => exact ih.stepWorker hstep

/-- **When the main thread returns**, every worker has exited, and what is left is what the rounds
leave in which the workers work one after the other. -/
theorem System.Schedule.rounds (h : sys.Schedule s₀ k n c) (hdone : c.main = .done) :
    0 < n ∧ sys.Rounds s₀ n c.shared ∧ sys.go c.shared = false ∧ ∀ i, c.worker i = .exited := by
  have hmade := h.inv.made
  rw [Made, hdone] at hmade
  obtain ⟨hn, hrounds, hgo⟩ := hmade
  refine ⟨hn, hrounds, hgo, fun i => ?_⟩
  have hf := h.inv.fits i
  rw [hdone] at hf
  exact of_decide_eq_true hf

/-- Each clocked step ends a round. -/
theorem System.Schedule.exists_rounds (h : sys.Schedule s₀ k n c) : ∃ s, sys.Rounds s₀ n s := by
  have hmade := h.inv.made
  unfold Made at hmade
  cases hm : c.main <;> rw [hm] at hmade
  case create | start => exact ⟨_, hmade.1⟩
  case finish | clock =>
    obtain ⟨s, order, hn, -⟩ := hmade
    exact ⟨s, hn⟩
  case shut | join | done => exact ⟨_, hmade.2.1⟩

/-- Work that fails would have failed with the workers one after the other. -/
theorem System.Schedule.error (h : sys.Schedule s₀ k n c) {i : ι} {e : ε}
    (hstep : sys.stepWorker i c = some (.error e)) :
    ∃ s order, sys.Rounds s₀ n s ∧ (0 < n → sys.go s = true) ∧ (order ++ [i]).Nodup ∧
      runSteps sys.work (order ++ [i]) s = .error e := by
  have hw : c.worker i = .work ∧ sys.work i c.shared = .error e := by
    unfold System.stepWorker at hstep
    cases hw : c.worker i with
    | work =>
      rw [hw] at hstep
      dsimp only at hstep
      cases hrun : sys.work i c.shared with
      | error e' =>
        rw [hrun] at hstep
        cases hstep
        exact ⟨rfl, rfl⟩
      | ok s =>
        rw [hrun] at hstep
        cases hstep
    | enter waits => rw [hw] at hstep; cases waits <;> cases hstep
    | leave waits => rw [hw] at hstep; cases waits <;> cases hstep
    | again waits => rw [hw] at hstep; cases waits <;> cases hstep
    | _ => rw [hw] at hstep; cases hstep
  obtain ⟨waits, hm⟩ := h.inv.finish_of_work hw.1
  have hmade := h.inv.made
  rw [Made, hm] at hmade
  obtain ⟨s, order, hn, hgo, hnodup, horder, hruns⟩ := hmade
  have hnew : i ∉ order := fun hi => by
    have hworked := (horder i).1 hi
    rw [hw.1] at hworked
    cases hworked
  refine ⟨s, order, hn, hgo, hnodup.append (List.nodup_singleton i) (List.disjoint_singleton.2 hnew),
    ?_⟩
  rw [runSteps_concat, hruns]
  exact hw.2

/-- A worker takes its next step unless it waits, is not there yet or is gone. -/
theorem stepWorker_isSome {i : ι} (h : (c.worker i).ready = true) :
    (sys.stepWorker i c).isSome = true := by
  unfold System.stepWorker
  cases hw : c.worker i with
  | enter waits => rw [hw] at h; cases waits <;> first | rfl | cases h
  | leave waits => rw [hw] at h; cases waits <;> first | rfl | cases h
  | again waits => rw [hw] at h; cases waits <;> first | rfl | cases h
  | unborn => rw [hw] at h; cases h
  | exited => rw [hw] at h; cases h
  | _ => rfl

/-- **No schedule gets stuck**: until the main thread has returned some thread can take a step. -/
theorem System.Schedule.progress (h : sys.Schedule s₀ k n c) (hdone : c.main ≠ .done) :
    (sys.stepMain c).isSome = true ∨ ∃ i, (sys.stepWorker i c).isSome = true := by
  obtain ⟨⟨hfits, -, -, -, -⟩, hstart, hfinish⟩ := h.inv
  unfold System.stepMain
  cases hm : c.main with
  | create rest => cases rest <;> exact Or.inl rfl
  | start waits =>
    cases waits with
    | false => exact Or.inl rfl
    | true =>
      -- the barrier is closed, so some worker has not arrived, and that one can go on
      obtain ⟨i, hi⟩ := exists_not_atStart (by rw [hm]; rfl) hstart
      have hf := hfits i
      rw [hm] at hf
      exact Or.inr ⟨i, stepWorker_isSome (ready_of_start (Or.inl rfl) hf hi)⟩
  | finish waits =>
    cases waits with
    | false => exact Or.inl rfl
    | true =>
      obtain ⟨i, hi⟩ := exists_not_atEnd (by rw [hm]; rfl) hfinish
      have hf := hfits i
      rw [hm] at hf
      exact Or.inr ⟨i, stepWorker_isSome (ready_of_finish hf hi)⟩
  | clock =>
    left
    dsimp only
    split_ifs <;> rfl
  | shut waits =>
    cases waits with
    | false => exact Or.inl rfl
    | true =>
      obtain ⟨i, hi⟩ := exists_not_atStart (by rw [hm]; rfl) hstart
      have hf := hfits i
      rw [hm] at hf
      exact Or.inr ⟨i, stepWorker_isSome (ready_of_start (Or.inr rfl) hf hi)⟩
  | join rest =>
    cases rest with
    | nil => exact Or.inl rfl
    | cons j rest =>
      by_cases hj : c.worker j = .exited
      · left
        dsimp only
        rw [if_pos hj]
        rfl
      · have hf := hfits j
        rw [hm] at hf
        exact Or.inr ⟨j, stepWorker_isSome (ready_of_join hf hj)⟩
  | done => exact absurd hm hdone

theorem System.Schedule.exists_next (h : sys.Schedule s₀ k n c) (hdone : c.main ≠ .done)
    (herr : ∀ i e, sys.stepWorker i c ≠ some (.error e)) :
    ∃ n' c', sys.Schedule s₀ (k + 1) n' c' := by
  rcases h.progress hdone with hmain | ⟨i, hi⟩
  · obtain ⟨c', hc'⟩ := Option.isSome_iff_exists.1 hmain
    exact ⟨_, c', h.main hc'⟩
  · obtain ⟨r, hr⟩ := Option.isSome_iff_exists.1 hi
    cases r with
    | error e => exact absurd hr (herr i e)
    | ok c' => exact ⟨n, c', h.worker i hr⟩

/-- Where nothing fails and no schedule is longer than `K`, every schedule can be carried on until the
main thread returns. -/
theorem System.Schedule.exists_done {K : Nat}
    (hle : ∀ {k n c}, sys.Schedule s₀ k n c → k ≤ K)
    (herr : ∀ {k n c}, sys.Schedule s₀ k n c → ∀ i e, sys.stepWorker i c ≠ some (.error e))
    (h : sys.Schedule s₀ k n c) :
    ∃ k' n' c', k ≤ k' ∧ sys.Schedule s₀ k' n' c' ∧ c'.main = .done := by
  obtain ⟨d, hd⟩ : ∃ d, d = K - k := ⟨_, rfl⟩
  induction d generalizing k n c with
  | zero =>
    by_cases hdone : c.main = .done
    · exact ⟨k, n, c, le_rfl, h, hdone⟩
    · obtain ⟨n', c', h'⟩ := h.exists_next hdone (herr h)
      have hk := hle h'
      omega
  | succ d ih =>
    by_cases hdone : c.main = .done
    · exact ⟨k, n, c, le_rfl, h, hdone⟩
    · obtain ⟨n', c', h'⟩ := h.exists_next hdone (herr h)
      obtain ⟨k', n', c', hk, h', hdone'⟩ := ih h' (by omega)
      exact ⟨k', n', c', by omega, h', hdone'⟩

end

end Barriers
