import Mathlib
import ChArm.Lib.Barriers

/-!
# How many steps a schedule of the barriers takes

Whatever the schedule, where the threads are tells how many steps they have taken so far.  So two
schedules with the same number of rounds have the same length, and there is no infinite schedule
with finitely many rounds.
-/

namespace Barriers

variable {ι σ ε : Type}

/-- Four more than the steps a worker has taken when it is here after `n` clocked steps. -/
def WorkerAt.taken (m : MainAt ι) (n : Nat) : WorkerAt → Nat
  | .unborn => 4 * n + 4
  | .enter waits => 4 * n + 4 + waits.toNat
  | .test => 4 * n + 4
  | .work | .exited => 4 * n + 5
  | .leave waits => 4 * n + 6 + waits.toNat
  | .again waits => match m with
    | .clock => 4 * n + 7 + waits.toNat
    | _ => 4 * n + 3 + waits.toNat

/-- The steps the main thread has taken, were there no thread left to create or to join. -/
def MainAt.taken (threads n : Nat) : MainAt ι → Nat
  | .create _ => threads + 3 * n
  | .start waits => threads + 3 * n + 1 + waits.toNat
  | .finish waits => threads + 3 * n + 2 + waits.toNat
  | .clock => threads + 3 * n + 3
  | .shut waits => threads + 3 * n + 1 + waits.toNat
  | .join _ => 2 * threads + 3 * n + 2
  | .done => 2 * threads + 3 * n + 3

section

variable {sys : System ι σ ε} {s₀ : σ} {c c' : State ι σ} {k n : Nat}

/-- The steps of all workers. -/
def allTaken (sys : System ι σ ε) (n : Nat) (c : State ι σ) : Nat :=
  (sys.workers.map fun i => (c.worker i).taken c.main n).sum

/-- The places of the threads tell how many steps there were. -/
def Counted (sys : System ι σ ε) (k n : Nat) (c : State ι σ) : Prop :=
  k + 4 * sys.workers.length + c.main.pending.length =
    c.main.taken sys.workers.length n + allTaken sys n c

theorem allTaken_congr {n n' : Nat} (h : ∀ i, (c.worker i).taken c.main n =
    (c'.worker i).taken c'.main n') : allTaken sys n c = allTaken sys n' c' :=
  congrArg List.sum (List.map_congr_left fun i _ => h i)

/-! ## The barriers move no thread by itself -/

theorem Counted.passStart (h : Counted sys k n c) : Counted sys k n (sys.passStart c) := by
  rw [System.passStart]
  cases ho : sys.opensStart c with
  | false => exact h
  | true =>
    rw [if_pos rfl]
    obtain ⟨hm, hw⟩ := opensStart_iff.1 ho
    have hsame : allTaken sys n { c with
        main := c.main.passStart sys.workers, worker := fun i => (c.worker i).passStart } =
        allTaken sys n c := by
      refine allTaken_congr fun i => ?_
      dsimp only
      obtain ⟨m, worker, running, shared⟩ := c
      rcases m with _ | (_ | _) | _ | _ | (_ | _) | _ | _ <;>
        first
          | exact absurd hm Bool.false_ne_true
          | rcases WorkerAt.atStart_iff.1 (hw i) with hi | hi <;> dsimp only at hi ⊢ <;> rw [hi] <;> rfl
    unfold Counted at h ⊢
    rw [hsame]
    obtain ⟨m, worker, running, shared⟩ := c
    rcases m with _ | (_ | _) | _ | _ | (_ | _) | _ | _ <;>
      first
        | exact absurd hm Bool.false_ne_true
        | simp only [MainAt.passStart, MainAt.taken, MainAt.pending, List.length_nil,
            Bool.toNat_true, Bool.toNat_false] at h ⊢; omega

theorem Counted.passEnd (h : Counted sys k n c) : Counted sys k n (sys.passEnd c) := by
  rw [System.passEnd]
  cases ho : sys.opensEnd c with
  | false => exact h
  | true =>
    rw [if_pos rfl]
    obtain ⟨hm, hw⟩ := opensEnd_iff.1 ho
    have hsame : allTaken sys n { c with
        main := c.main.passEnd, worker := fun i => (c.worker i).passEnd } = allTaken sys n c := by
      refine allTaken_congr fun i => ?_
      have hi := WorkerAt.atEnd_iff.1 (hw i)
      obtain ⟨m, worker, running, shared⟩ := c
      rcases m with _ | _ | (_ | _) | _ | _ | _ | _ <;>
        first
          | exact absurd hm Bool.false_ne_true
          | dsimp only at hi ⊢; rw [hi]; rfl
    unfold Counted at h ⊢
    rw [hsame]
    obtain ⟨m, worker, running, shared⟩ := c
    rcases m with _ | _ | (_ | _) | _ | _ | _ | _ <;>
      first
        | exact absurd hm Bool.false_ne_true
        | simp only [MainAt.passEnd, MainAt.taken, MainAt.pending, List.length_nil,
            Bool.toNat_true] at h ⊢; omega

/-! ## Every step counts -/

/-- While there are threads to create no barrier opens. -/
theorem passStart_of_create {rest : List ι} (h : (sys.passStart c).main = .create rest) :
    sys.passStart c = c := by
  rw [System.passStart] at h ⊢
  split_ifs at h ⊢ with ho
  · have hm := (opensStart_iff.1 ho).1
    obtain ⟨m, worker, running, shared⟩ := c
    rcases m with _ | (_ | _) | _ | _ | (_ | _) | _ | _ <;>
      first
        | exact absurd hm Bool.false_ne_true
        | cases h
  · rfl

theorem passEnd_of_create {rest : List ι} (h : (sys.passEnd c).main = .create rest) :
    sys.passEnd c = c := by
  rw [System.passEnd] at h ⊢
  split_ifs at h ⊢ with ho
  · have hm := (opensEnd_iff.1 ho).1
    obtain ⟨m, worker, running, shared⟩ := c
    rcases m with _ | _ | (_ | _) | _ | _ | _ | _ <;>
      first
        | exact absurd hm Bool.false_ne_true
        | cases h
  · rfl

/-- Only whether the main thread is in its clocked step matters. -/
theorem taken_congr {m m' : MainAt ι} (hm : m ≠ .clock) (hm' : m' ≠ .clock) (w : WorkerAt) :
    w.taken m n = w.taken m' n := by
  cases w with
  | again waits => cases m <;> cases m' <;> first | rfl | exact absurd rfl hm | exact absurd rfl hm'
  | _ => rfl

/-- Away from the clocked step the main thread moves no worker. -/
theorem allTaken_main (sys : System ι σ ε) (n : Nat) (m m' : MainAt ι) (hm : m ≠ .clock)
    (hm' : m' ≠ .clock) (worker : ι → WorkerAt) (running : Bool) (s : σ) :
    allTaken sys n ⟨m', worker, running, s⟩ = allTaken sys n ⟨m, worker, running, s⟩ :=
  allTaken_congr fun i => taken_congr hm' hm (worker i)

/-- The clocked step begins a new round for each of them. -/
theorem allTaken_clock (sys : System ι σ ε) (n : Nat) {worker : ι → WorkerAt} {m : MainAt ι}
    (hm : m ≠ .clock) (hworker : ∀ i, ∃ waits, worker i = .again waits) (running running' : Bool)
    (s s' : σ) : allTaken sys (n + 1) ⟨m, worker, running, s⟩ =
      allTaken sys n ⟨.clock, worker, running', s'⟩ := by
  refine allTaken_congr fun i => ?_
  obtain ⟨waits, hi⟩ := hworker i
  dsimp only
  rw [hi]
  cases m <;> first | rfl | exact absurd rfl hm

/-- The workers still to be created have not started. -/
def Fresh (c : State ι σ) : Prop :=
  ∀ rest, c.main = .create rest → rest.Nodup ∧ ∀ i ∈ rest, c.worker i = .unborn

theorem Fresh.passStart (h : Fresh c) : Fresh (sys.passStart c) := by
  intro rest hm
  have hpass := passStart_of_create hm
  rw [hpass] at hm ⊢
  exact h rest hm

theorem Fresh.passEnd (h : Fresh c) : Fresh (sys.passEnd c) := by
  intro rest hm
  have hpass := passEnd_of_create hm
  rw [hpass] at hm ⊢
  exact h rest hm

theorem allTaken_le (sys : System ι σ ε) (n : Nat) (c : State ι σ) :
    allTaken sys n c ≤ sys.workers.length * (4 * n + 8) := by
  have hle : ∀ w : WorkerAt, w.taken c.main n ≤ 4 * n + 8 := by
    intro w
    cases w with
    | again waits =>
      have hw := Bool.toNat_le waits
      cases c.main <;> dsimp only [WorkerAt.taken] <;> omega
    | enter waits | leave waits =>
      have hw := Bool.toNat_le waits
      dsimp only [WorkerAt.taken]
      omega
    | _ => dsimp only [WorkerAt.taken]; omega
  unfold allTaken
  have hsum := List.sum_le_card_nsmul (sys.workers.map fun i => (c.worker i).taken c.main n)
    (4 * n + 8) fun x hx => by
      obtain ⟨i, -, rfl⟩ := List.mem_map.1 hx
      exact hle (c.worker i)
  rw [List.length_map] at hsum
  exact hsum

theorem allTaken_const {d : Nat} (h : ∀ i, (c.worker i).taken c.main n = d) :
    allTaken sys n c = sys.workers.length * d := by
  unfold allTaken
  rw [List.map_congr_left fun i _ => h i, List.map_const', List.sum_replicate, smul_eq_mul]

theorem main_taken_le (m : MainAt ι) (threads n : Nat) :
    m.taken threads n ≤ 2 * threads + 3 * n + 3 := by
  cases m with
  | start waits | finish waits | shut waits =>
    have hw := Bool.toNat_le waits
    dsimp only [MainAt.taken]
    omega
  | _ => dsimp only [MainAt.taken]; omega

variable [DecidableEq ι]

/-- A worker that moves by `d` steps. -/
theorem allTaken_goTo {i : ι} {w : WorkerAt} {d : Nat}
    (h : w.taken c.main n = (c.worker i).taken c.main n + d) :
    allTaken sys n (c.goTo i w) = allTaken sys n c + d := by
  have hsum : ∀ f : ι → Nat, (sys.workers.map f).sum = ∑ j ∈ sys.workers.toFinset, f j :=
    fun f => (List.sum_toFinset f sys.nodup).symm
  have hi : i ∈ sys.workers.toFinset := List.mem_toFinset.2 (sys.mem_workers i)
  have hrest : ∀ j ∈ sys.workers.toFinset.erase i,
      ((c.goTo i w).worker j).taken c.main n = (c.worker j).taken c.main n := by
    intro j hj
    rw [goTo_worker_of_ne w (Finset.ne_of_mem_erase hj)]
  unfold allTaken
  rw [hsum, hsum, ← Finset.sum_erase_add _ _ hi, ← Finset.sum_erase_add _ _ hi, Nat.add_assoc, ← h]
  exact congrArg₂ (· + ·) (Finset.sum_congr rfl hrest) (by rw [goTo_worker_self]; rfl)

theorem Fresh.stepMain (h : Fresh c) (hstep : sys.stepMain c = some c') : Fresh c' := by
  obtain ⟨m, worker, running, shared⟩ := c
  intro rest' hm
  -- nothing but `create` leads to a `create`
  cases m with
  | create rest =>
    obtain ⟨hnodup, hunborn⟩ := h rest rfl
    cases rest with
    | nil =>
      obtain rfl := Option.some.inj hstep
      cases hm
    | cons j rest =>
      obtain rfl := Option.some.inj hstep
      cases hm
      obtain ⟨hj, hrest⟩ := List.nodup_cons.1 hnodup
      refine ⟨hrest, fun i hi => ?_⟩
      dsimp only
      rw [Function.update_of_ne (by rintro rfl; exact hj hi)]
      exact hunborn i (List.mem_cons_of_mem j hi)
  | start waits =>
    cases waits with
    | true => cases hstep
    | false =>
      obtain rfl := Option.some.inj hstep
      rw [passStart_of_create hm] at hm
      cases hm
  | finish waits =>
    cases waits with
    | true => cases hstep
    | false =>
      obtain rfl := Option.some.inj hstep
      rw [passEnd_of_create hm] at hm
      cases hm
  | clock =>
    dsimp only [System.stepMain] at hstep
    split_ifs at hstep <;> obtain rfl := Option.some.inj hstep <;> cases hm
  | shut waits =>
    cases waits with
    | true => cases hstep
    | false =>
      obtain rfl := Option.some.inj hstep
      rw [passStart_of_create hm] at hm
      cases hm
  | join rest =>
    cases rest with
    | nil =>
      obtain rfl := Option.some.inj hstep
      cases hm
    | cons j rest =>
      dsimp only [System.stepMain] at hstep
      split_ifs at hstep
      obtain rfl := Option.some.inj hstep
      cases hm
  | done => cases hstep

/-- A worker that has been created is none of those still to be created. -/
theorem Fresh.goTo (h : Fresh c) {i : ι} (hi : c.worker i ≠ .unborn) (w : WorkerAt) :
    Fresh (c.goTo i w) := by
  intro rest hm
  obtain ⟨hnodup, hunborn⟩ := h rest hm
  refine ⟨hnodup, fun j hj => ?_⟩
  rw [goTo_worker_of_ne w (by rintro rfl; exact hi (hunborn j hj))]
  exact hunborn j hj

theorem Fresh.stepWorker (h : Fresh c) {i : ι} (hstep : sys.stepWorker i c = some (.ok c')) :
    Fresh c' := by
  cases workerStep hstep with
  | enter hw => exact (h.goTo (by rw [hw]; decide) _).passStart
  | work hw hrun => exact h.goTo (by rw [hw]; decide) _
  | leave hw => exact (h.goTo (by rw [hw]; decide) _).passEnd
  | again hw => exact (h.goTo (by rw [hw]; decide) _).passStart
  | test hw => exact h.goTo (by rw [hw]; decide) _

theorem Counted.stepMain (h : Counted sys k n c) (hfresh : Fresh c)
    (hfits : ∀ i, Fits c.main (c.worker i) = true) (hstep : sys.stepMain c = some c') :
    Counted sys (k + 1) (n + if c.main = .clock then 1 else 0) c' := by
  obtain ⟨m, worker, running, shared⟩ := c
  have hcount := h
  unfold Counted at hcount
  -- the count of the main thread goes up by one, and those of the workers stay as they are
  cases m with
  | create rest =>
    cases rest with
    | nil =>
      obtain rfl := Option.some.inj hstep
      have hsame := allTaken_main sys n (.create []) (.start false) (by rintro ⟨⟩)
        (by rintro ⟨⟩) worker running shared
      simp only [Counted, MainAt.taken, MainAt.pending, List.length_nil, Bool.toNat_false,
        reduceCtorEq, if_false, Nat.add_zero] at hcount ⊢
      omega
    | cons j rest =>
      obtain rfl := Option.some.inj hstep
      -- creating a worker takes it from one count of no steps to another
      have hj : worker j = .unborn := (hfresh _ rfl).2 j List.mem_cons_self
      have hsame := allTaken_main sys n (.create (j :: rest)) (.create rest)
        (by rintro ⟨⟩) (by rintro ⟨⟩) (Function.update worker j (.enter false)) running shared
      have hgo : allTaken sys n _ = _ := allTaken_goTo (i := j) (w := .enter false) (d := 0)
        (c := ⟨.create (j :: rest), worker, running, shared⟩) (by dsimp only; rw [hj]; rfl)
      dsimp only [State.goTo] at hgo
      simp only [Counted, MainAt.taken, MainAt.pending, List.length_cons, reduceCtorEq,
        if_false, Nat.add_zero] at hcount ⊢
      omega
  | start waits =>
    cases waits with
    | true => cases hstep
    | false =>
      obtain rfl := Option.some.inj hstep
      refine Counted.passStart ?_
      have hsame := allTaken_main sys n (.start false) (.start true) (by rintro ⟨⟩)
        (by rintro ⟨⟩) worker running shared
      simp only [Counted, MainAt.taken, MainAt.pending, List.length_nil, Bool.toNat_false,
        Bool.toNat_true, reduceCtorEq, if_false, Nat.add_zero] at hcount ⊢
      omega
  | finish waits =>
    cases waits with
    | true => cases hstep
    | false =>
      obtain rfl := Option.some.inj hstep
      refine Counted.passEnd ?_
      have hsame := allTaken_main sys n (.finish false) (.finish true) (by rintro ⟨⟩)
        (by rintro ⟨⟩) worker running shared
      simp only [Counted, MainAt.taken, MainAt.pending, List.length_nil, Bool.toNat_false,
        Bool.toNat_true, reduceCtorEq, if_false, Nat.add_zero] at hcount ⊢
      omega
  | clock =>
    -- the round number goes up, so the steps of a worker are counted from the next round
    have hworker : ∀ i, ∃ waits, worker i = .again waits := by
      intro i
      have hf := hfits i
      dsimp only at hf
      cases hwi : worker i <;> rw [hwi] at hf <;> first | exact ⟨_, rfl⟩ | cases hf
    dsimp only [System.stepMain] at hstep
    split_ifs at hstep
    · obtain rfl := Option.some.inj hstep
      have hclock := allTaken_clock sys n (m := .start false) (by rintro ⟨⟩) hworker running
        running (sys.clock shared) shared
      simp only [Counted, MainAt.taken, MainAt.pending, List.length_nil, Bool.toNat_false,
        if_true] at hcount ⊢
      omega
    · obtain rfl := Option.some.inj hstep
      have hclock := allTaken_clock sys n (m := .shut false) (by rintro ⟨⟩) hworker false
        running (sys.clock shared) shared
      simp only [Counted, MainAt.taken, MainAt.pending, List.length_nil, Bool.toNat_false,
        if_true] at hcount ⊢
      omega
  | shut waits =>
    cases waits with
    | true => cases hstep
    | false =>
      obtain rfl := Option.some.inj hstep
      refine Counted.passStart ?_
      have hsame := allTaken_main sys n (.shut false) (.shut true) (by rintro ⟨⟩)
        (by rintro ⟨⟩) worker running shared
      simp only [Counted, MainAt.taken, MainAt.pending, List.length_nil, Bool.toNat_false,
        Bool.toNat_true, reduceCtorEq, if_false, Nat.add_zero] at hcount ⊢
      omega
  | join rest =>
    cases rest with
    | nil =>
      obtain rfl := Option.some.inj hstep
      have hsame := allTaken_main sys n (.join []) .done (by rintro ⟨⟩)
        (by rintro ⟨⟩) worker running shared
      simp only [Counted, MainAt.taken, MainAt.pending, List.length_nil, reduceCtorEq,
        if_false, Nat.add_zero] at hcount ⊢
      omega
    | cons j rest =>
      dsimp only [System.stepMain] at hstep
      split_ifs at hstep
      obtain rfl := Option.some.inj hstep
      have hsame := allTaken_main sys n (.join (j :: rest)) (.join rest)
        (by rintro ⟨⟩) (by rintro ⟨⟩) worker running shared
      simp only [Counted, MainAt.taken, MainAt.pending, List.length_cons, reduceCtorEq,
        if_false, Nat.add_zero] at hcount ⊢
      omega
  | done => cases hstep

/-- A worker that goes on takes one step. -/
theorem Counted.goTo (h : Counted sys k n c) {i : ι} {w : WorkerAt}
    (hw : w.taken c.main n = (c.worker i).taken c.main n + 1) :
    Counted sys (k + 1) n (c.goTo i w) := by
  have hall : allTaken sys n (c.goTo i w) = _ := allTaken_goTo hw
  unfold Counted at h ⊢
  rw [hall, show (c.goTo i w).main = c.main from rfl]
  omega

theorem Counted.stepWorker (h : Counted sys k n c) {i : ι}
    (hstep : sys.stepWorker i c = some (.ok c')) : Counted sys (k + 1) n c' := by
  cases workerStep hstep with
  | enter hw => exact (h.goTo (by rw [hw]; rfl)).passStart
  | work hw hrun => exact h.goTo (by rw [hw]; rfl)
  | leave hw => exact (h.goTo (by rw [hw]; rfl)).passEnd
  | again hw => exact (h.goTo (by rw [hw]; cases c.main <;> rfl)).passStart
  | test hw => exact h.goTo (by rw [hw]; cases c.running <;> rfl)

/-! ## How long a schedule is -/

theorem System.Schedule.counted (h : sys.Schedule s₀ k n c) : Counted sys k n c ∧ Fresh c := by
  induction h with
  | init =>
    refine ⟨?_, fun rest hm => ?_⟩
    · have hall : allTaken sys 0 (sys.init s₀) = sys.workers.length * 4 :=
        allTaken_const fun _ => rfl
      unfold Counted
      rw [hall]
      dsimp only [System.init, MainAt.taken, MainAt.pending]
      omega
    · cases hm
      exact ⟨sys.nodup, fun _ _ => rfl⟩
  | main h hstep ih => exact ⟨ih.1.stepMain ih.2 h.inv.fits hstep, ih.2.stepMain hstep⟩
  | worker _ i hstep ih => exact ⟨ih.1.stepWorker hstep, ih.2.stepWorker hstep⟩

/-- No schedule is longer than its rounds allow. -/
theorem System.Schedule.length_le (h : sys.Schedule s₀ k n c) :
    k ≤ sys.workers.length * (4 * n + 6) + 3 * n + 3 := by
  have hcount : Counted sys k n c := h.counted.1
  have hmain := main_taken_le c.main sys.workers.length n
  have hall := allTaken_le sys n c
  unfold Counted at hcount
  rw [Nat.mul_add] at hall ⊢
  omega

/-- **Every schedule that returns is equally long** for its number of rounds. -/
theorem System.Schedule.length_eq (h : sys.Schedule s₀ k n c) (hdone : c.main = .done) :
    k = sys.workers.length * (4 * n + 3) + 3 * n + 3 := by
  have hcount : Counted sys k n c := h.counted.1
  have hall : allTaken sys n c = sys.workers.length * (4 * n + 5) := by
    obtain ⟨-, -, -, hexited⟩ := h.rounds hdone
    exact allTaken_const fun i => by rw [hexited i]; rfl
  unfold Counted at hcount
  rw [hall, hdone] at hcount
  dsimp only [MainAt.taken, MainAt.pending, List.length_nil] at hcount
  rw [Nat.mul_add] at hcount ⊢
  omega

end

end Barriers
