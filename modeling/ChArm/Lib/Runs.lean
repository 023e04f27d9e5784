import Mathlib

/-!
# Runs of a machine that may stop or fail

A machine is a partial step function together with a test that says whether it
goes on.  `iter` takes at most `n` steps; a `Trace` is the sequence of states it
goes through.  What one step preserves holds along every trace
(`Trace.invariant`).
-/

namespace Runs

variable {σ ε : Type} (step : σ → Except ε σ) (go : σ → Bool)

/-- At most `n` steps, stopping where the test fails. -/
def iter : Nat → σ → Except ε σ
  | 0, s => .ok s
  | n + 1, s => if go s then step s >>= iter n else .ok s

/-- One step of a machine that goes on. -/
def Step (s s' : σ) : Prop := go s = true ∧ step s = .ok s'

/-- The states of a run, from `s₀` for `n` steps. -/
structure Trace (s₀ : σ) (n : Nat) (tr : Nat → σ) : Prop where
  start : tr 0 = s₀
  next : ∀ k < n, Step step go (tr k) (tr (k + 1))

variable {step go} {s₀ s s' : σ} {n m : Nat} {tr : Nat → σ}

theorem iter_succ_of_step (h : Step step go s s') (n : Nat) :
    iter step go (n + 1) s = iter step go n s' := by
  rw [iter, if_pos h.1, h.2]
  rfl

/-- A step function is deterministic. -/
theorem Step.unique {t : σ} (h : Step step go s s') (ht : Step step go s t) : s' = t :=
  Except.ok.inj (h.2.symm.trans ht.2)

namespace Trace

theorem mono (h : Trace step go s₀ n tr) (hm : m ≤ n) : Trace step go s₀ m tr :=
  ⟨h.start, fun k hk => h.next k (by omega)⟩

/-- The rest of a trace after its first `m` steps. -/
theorem shift (h : Trace step go s₀ n tr) (hm : m ≤ n) :
    Trace step go (tr m) (n - m) fun k => tr (m + k) :=
  ⟨rfl, fun k hk => h.next (m + k) (by omega)⟩

/-- **What every step preserves holds along the trace.** -/
theorem invariant {P : σ → Prop} (h : Trace step go s₀ n tr) (h₀ : P s₀)
    (hstep : ∀ s s', P s → Step step go s s' → P s') : ∀ k ≤ n, P (tr k) := by
  intro k
  induction k with
  | zero => exact fun _ => h.start ▸ h₀
  | succ k ih => exact fun hk => hstep _ _ (ih (by omega)) (h.next k hk)

theorem iter_add (h : Trace step go s₀ n tr) (m : Nat) :
    iter step go (n + m) s₀ = iter step go m (tr n) := by
  induction n generalizing m with
  | zero => rw [Nat.zero_add, h.start]
  | succ n ih =>
    rw [Nat.add_assoc, Nat.add_comm 1 m, ih (h.mono (Nat.le_succ n)) (m + 1),
      iter_succ_of_step (h.next n (Nat.lt_succ_self n))]

/-- Two traces from one state agree as far as both go. -/
theorem unique {tr' : Nat → σ} (h : Trace step go s₀ n tr) (h' : Trace step go s₀ m tr') :
    ∀ k ≤ n, k ≤ m → tr k = tr' k := by
  intro k
  induction k with
  | zero => exact fun _ _ => h.start.trans h'.start.symm
  | succ k ih =>
    intro hn hm
    have hk := h.next k hn
    rw [ih (by omega) (by omega)] at hk
    exact hk.unique (h'.next k hm)

/-- A machine that stops stops in one place. -/
theorem end_unique {tr' : Nat → σ} (h : Trace step go s₀ n tr) (h' : Trace step go s₀ m tr')
    (hn : go (tr n) = false) (hm : go (tr' m) = false) : tr n = tr' m := by
  rcases Nat.lt_trichotomy n m with hlt | rfl | hlt
  · have hgo := (h'.next n hlt).1
    rw [← h.unique h' n le_rfl hlt.le, hn] at hgo
    cases hgo
  · exact h.unique h' n le_rfl le_rfl
  · have hgo := (h.next m hlt).1
    rw [h.unique h' m hlt.le le_rfl, hm] at hgo
    cases hgo

/-- A trace whose last state goes on is one step longer. -/
theorem snoc (h : Trace step go s₀ n tr) (hs : Step step go (tr n) s') :
    ∃ tr', Trace step go s₀ (n + 1) tr' ∧ (∀ k ≤ n, tr' k = tr k) ∧ tr' (n + 1) = s' := by
  have hold : ∀ k ≤ n, Function.update tr (n + 1) s' k = tr k :=
    fun k hk => Function.update_of_ne (by omega) _ _
  have hnew : Function.update tr (n + 1) s' (n + 1) = s' := Function.update_self _ _ _
  refine ⟨Function.update tr (n + 1) s', ⟨(hold 0 (by omega)).trans h.start, ?_⟩, hold, hnew⟩
  intro k hk
  rcases Nat.lt_succ_iff_lt_or_eq.1 hk with hk | rfl
  · rw [hold k (by omega), hold (k + 1) (by omega)]
    exact h.next k hk
  · rw [hold k le_rfl, hnew]
    exact hs

/-- **Simulation.**  A second machine that can follow every step of a trace, from any run that has
followed it so far, follows the whole trace. -/
theorem simulate {τ ε' : Type} {step' : τ → Except ε' τ} {go' : τ → Bool} {t₀ : τ}
    {R : Nat → σ → τ → Prop} (h : Trace step go s₀ n tr) (h₀ : R 0 s₀ t₀)
    (hstep : ∀ k < n, ∀ tr', Trace step' go' t₀ k tr' → R k (tr k) (tr' k) →
      ∃ t, Step step' go' (tr' k) t ∧ R (k + 1) (tr (k + 1)) t) :
    ∃ tr', Trace step' go' t₀ n tr' ∧ ∀ k ≤ n, R k (tr k) (tr' k) := by
  induction n with
  | zero =>
    refine ⟨fun _ => t₀, ⟨rfl, fun k hk => absurd hk (Nat.not_lt_zero k)⟩, fun k hk => ?_⟩
    rw [Nat.le_zero.1 hk, h.start]
    exact h₀
  | succ n ih =>
    obtain ⟨tr', htr', hR⟩ := ih (h.mono (Nat.le_succ n)) fun k hk => hstep k (by omega)
    obtain ⟨t, ht, hRt⟩ := hstep n (Nat.lt_succ_self n) tr' htr' (hR n le_rfl)
    obtain ⟨tr'', htr'', hold, hnew⟩ := htr'.snoc ht
    refine ⟨tr'', htr'', fun k hk => ?_⟩
    rcases Nat.le_succ_iff.1 hk with hk | rfl
    · rw [hold k hk]
      exact hR k hk
    · rw [hnew]
      exact hRt

/-- **Stuttering simulation.**  A second machine that answers every step of a run with one step of
its own, or with none, has a run that ends where the first one does. -/
theorem of_stutter {R : Nat → σ → Prop} (h₀ : R 0 s₀)
    (hstep : ∀ k < n, ∀ s, R k s → ∃ s', (s' = s ∨ Step step go s s') ∧ R (k + 1) s') :
    ∃ m tr, Trace step go s₀ m tr ∧ R n (tr m) := by
  induction n with
  | zero => exact ⟨0, fun _ => s₀, ⟨rfl, fun k hk => absurd hk (Nat.not_lt_zero k)⟩, h₀⟩
  | succ n ih =>
    obtain ⟨m, tr, htr, hR⟩ := ih fun k hk => hstep k (by omega)
    obtain ⟨s', hs | hs, hR'⟩ := hstep n (Nat.lt_succ_self n) (tr m) hR
    · exact ⟨m, tr, htr, hs ▸ hR'⟩
    · obtain ⟨tr', htr', -, hnew⟩ := htr.snoc hs
      exact ⟨m + 1, tr', htr', hnew.symm ▸ hR'⟩

end Trace

/-! ## Ending alike -/

section Ends

variable {τ ε' : Type} (step : σ → Except ε σ) (go : σ → Bool) (step' : τ → Except ε' τ)
  (go' : τ → Bool) (fits : τ → Prop) (same : σ → τ → Prop)

/-- Wherever the machine goes on from, the state fits. -/
def Always (t : τ) : Prop := ∀ m tr, Trace step' go' t m tr → go' (tr m) = true → fits (tr m)

/-- If the first machine stops after `n` steps, so does the second after some, in the same state;
all that is known of the states the second goes on from is that they fit. -/
def EndsLike (n : Nat) (s : σ) (t : τ) : Prop :=
  ∀ tr, Trace step go s n tr → go (tr n) = false → Always step' go' fits t →
    ∃ m tr', Trace step' go' t m tr' ∧ go' (tr' m) = false ∧ same (tr n) (tr' m)

variable {step go step' go' fits same} {t t' : τ} {n : Nat} {s s' : σ}

/-- A state in front of others. -/
def cons (t : τ) (tr : Nat → τ) : Nat → τ
  | 0 => t
  | k + 1 => tr k

theorem Trace.cons {tr : Nat → τ} {m : Nat} (h : Step step' go' t t') (htr : Trace step' go' t' m tr) :
    Trace step' go' t (m + 1) (cons t tr) := by
  refine ⟨rfl, fun k hk => ?_⟩
  cases k with
  | zero =>
    rw [Runs.cons, Runs.cons, htr.start]
    exact h
  | succ k => exact htr.next k (by omega)

theorem Trace.nil (t : τ) : Trace step' go' t 0 fun _ => t :=
  ⟨rfl, fun k hk => absurd hk (Nat.not_lt_zero k)⟩

theorem Always.next (h : Always step' go' fits t) (ht : Step step' go' t t') :
    Always step' go' fits t' :=
  fun m tr htr hgo => h (m + 1) (cons t tr) (Trace.cons ht htr) hgo

theorem Always.now (h : Always step' go' fits t) (hgo : go' t = true) : fits t :=
  h 0 _ (.nil t) hgo

/-- A machine that stops has gone on from the states before only. -/
theorem Trace.always {tr : Nat → τ} {m : Nat} (h : Trace step' go' t m tr) (hstop : go' (tr m) = false)
    (hfits : ∀ k < m, fits (tr k)) : Always step' go' fits t := by
  intro k tr' htr' hgo
  rcases Nat.lt_or_ge k m with hk | hk
  · rw [htr'.unique h k le_rfl hk.le]
    exact hfits k hk
  · rcases hk.eq_or_lt with rfl | hlt
    · rw [htr'.unique h m le_rfl le_rfl, hstop] at hgo
      cases hgo
    · have hgo' := (htr'.next m hlt).1
      rw [htr'.unique h m hlt.le le_rfl, hstop] at hgo'
      cases hgo'

/-- A machine that fails has gone on from the states up to there only. -/
theorem Trace.always_of_error {tr : Nat → τ} {m : Nat} {e : ε'} (h : Trace step' go' t m tr)
    (hfail : step' (tr m) = .error e) (hfits : ∀ k ≤ m, fits (tr k)) : Always step' go' fits t := by
  intro k tr' htr' hgo
  rcases Nat.lt_or_ge m k with hk | hk
  · have hstep := (htr'.next m hk).2
    rw [htr'.unique h m hk.le le_rfl, hfail] at hstep
    cases hstep
  · rw [htr'.unique h k le_rfl hk]
    exact hfits k hk

/-- **Termination by rank.**  A machine that gets to a lower rank with every step gets to rank 0
within as many steps as its rank. -/
theorem Always.exists_of_rank {P : Nat → τ → Prop} {k : Nat} (hall : Always step' go' fits t)
    (h : P k t)
    (hstep : ∀ k t, P (k + 1) t → Always step' go' fits t →
      ∃ t', Step step' go' t t' ∧ ∃ j ≤ k, P j t') :
    ∃ n tr, n ≤ k ∧ Trace step' go' t n tr ∧ P 0 (tr n) := by
  induction k using Nat.strong_induction_on generalizing t with
  | _ k ih =>
    cases k with
    | zero => exact ⟨0, fun _ => t, le_rfl, .nil t, h⟩
    | succ k =>
      obtain ⟨t', ht, j, hj, hP⟩ := hstep k t h hall
      obtain ⟨n, tr, hn, htr, hend⟩ := ih j (by omega) (hall.next ht) hP
      exact ⟨n + 1, cons t tr, by omega, .cons ht htr, hend⟩

namespace EndsLike

/-- Both have stopped. -/
theorem stopped (hs : go s = false) (ht : go' t = false) (h : same s t) :
    EndsLike step go step' go' fits same n s t := by
  intro tr htr _ _
  have h0 : n = 0 := by
    by_contra hn
    have hgo := (htr.next 0 (by omega)).1
    rw [htr.start, hs] at hgo
    cases hgo
  rw [h0, htr.start]
  exact ⟨0, _, .nil t, ht, h⟩

/-- The first machine takes a step. -/
theorem left (hs : go s = true)
    (h : ∀ m, n = m + 1 → ∀ s', Step step go s s' → EndsLike step go step' go' fits same m s' t) :
    EndsLike step go step' go' fits same n s t := by
  intro tr htr hend hall
  cases n with
  | zero =>
    rw [htr.start, hs] at hend
    cases hend
  | succ n =>
    have hstep := htr.next 0 (Nat.succ_pos n)
    rw [htr.start] at hstep
    have hrest := htr.shift (show 1 ≤ n + 1 by omega)
    have hsum : n + 1 = 1 + n := Nat.add_comm n 1
    rw [hsum] at hend ⊢
    exact h n rfl _ hstep _ hrest hend hall

/-- The second machine takes a step. -/
theorem right (ht : go' t = true)
    (h : fits t → ∃ t', step' t = .ok t' ∧ EndsLike step go step' go' fits same n s t') :
    EndsLike step go step' go' fits same n s t := by
  intro tr htr hend hall
  obtain ⟨t', hstep, h'⟩ := h (hall.now ht)
  obtain ⟨m, tr', htr', hend', hsame⟩ := h' tr htr hend (hall.next ⟨ht, hstep⟩)
  exact ⟨m + 1, cons t tr', Trace.cons ⟨ht, hstep⟩ htr', hend', hsame⟩

end EndsLike

/-! With the number of steps -/

section Timed

variable (step go step' go' fits same) (slow : τ → Bool) (exact : σ → Bool)

/-- The machines end alike, and at an end that is exact the second one has taken one step for each
step of the first one and its slow ones. -/
def EndsTimed (n : Nat) (s : σ) (t : τ) : Prop :=
  ∀ tr, Trace step go s n tr → go (tr n) = false → Always step' go' fits t →
    ∃ m tr', Trace step' go' t m tr' ∧ go' (tr' m) = false ∧ same (tr n) (tr' m) ∧
      (exact (tr n) = true → m = n + Nat.count (fun k => slow (tr' k) = true) m)

variable {step go step' go' fits same slow exact}

theorem count_cons (t : τ) (tr : Nat → τ) (m : Nat) :
    Nat.count (fun k => slow (cons t tr k) = true) (m + 1) =
      Nat.count (fun k => slow (tr k) = true) m + if slow t = true then 1 else 0 :=
  Nat.count_succ' _ m

namespace EndsTimed

/-- Where no exact end is reached, steps need not be counted. -/
theorem of_endsLike (h : EndsLike step go step' go' fits (fun s t => same s t ∧ exact s = false) n s t) :
    EndsTimed step go step' go' fits same slow exact n s t := by
  intro tr htr hend hall
  obtain ⟨m, tr', htr', hend', hsame, hno⟩ := h tr htr hend hall
  exact ⟨m, tr', htr', hend', hsame, fun he => absurd (hno.symm.trans he) Bool.false_ne_true⟩

theorem stopped (hs : go s = false) (ht : go' t = false) (h : same s t) :
    EndsTimed step go step' go' fits same slow exact n s t := by
  intro tr htr _ _
  obtain rfl : n = 0 := by
    by_contra hn
    have hgo := (htr.next 0 (by omega)).1
    rw [htr.start, hs] at hgo
    cases hgo
  rw [htr.start]
  exact ⟨0, fun _ => t, .nil t, ht, h, fun _ => rfl⟩

/-- What is known of the states both machines go on from. -/
theorem peek (hs : go s = true) (ht : go' t = true)
    (h : fits t → ∀ s', Step step go s s' → EndsTimed step go step' go' fits same slow exact n s t) :
    EndsTimed step go step' go' fits same slow exact n s t := by
  intro tr htr hend hall
  cases n with
  | zero =>
    rw [htr.start, hs] at hend
    cases hend
  | succ n =>
    have hstep := htr.next 0 (Nat.succ_pos n)
    rw [htr.start] at hstep
    exact h (hall.now ht) _ hstep tr htr hend hall

/-- A slow step of the second machine. -/
theorem wait (ht : Step step' go' t t') (hslow : slow t = true)
    (h : EndsTimed step go step' go' fits same slow exact n s t') :
    EndsTimed step go step' go' fits same slow exact n s t := by
  intro tr htr hend hall
  obtain ⟨m, tr', htr', hend', hsame, hm⟩ := h tr htr hend (hall.next ht)
  refine ⟨m + 1, cons t tr', Trace.cons ht htr', hend', hsame, fun he => ?_⟩
  have hcount := hm he
  rw [count_cons, if_pos hslow]
  omega

/-- Both machines take a step. -/
theorem both (ht : Step step' go' t t') (hslow : slow t = false) (hs : Step step go s s')
    (h : ∀ m, n = m + 1 → EndsTimed step go step' go' fits same slow exact m s' t') :
    EndsTimed step go step' go' fits same slow exact n s t := by
  intro tr htr hend hall
  cases n with
  | zero =>
    rw [htr.start, hs.1] at hend
    cases hend
  | succ n =>
    have hstep := htr.next 0 (Nat.succ_pos n)
    rw [htr.start] at hstep
    have hrest := htr.shift (show 1 ≤ n + 1 by omega)
    rw [hstep.unique hs] at hrest
    have hsum : n + 1 = 1 + n := Nat.add_comm n 1
    rw [hsum] at hend ⊢
    obtain ⟨m, tr', htr', hend', hsame, hm⟩ := h n rfl _ hrest hend (hall.next ht)
    refine ⟨m + 1, cons t tr', Trace.cons ht htr', hend', hsame, fun he => ?_⟩
    have hcount := hm he
    rw [count_cons, hslow, if_neg Bool.false_ne_true]
    omega

end EndsTimed

end Timed

end Ends

/-- The states a run goes through, as far as it does not fail. -/
def states (step : σ → Except ε σ) (go : σ → Bool) (s₀ : σ) (k : Nat) : σ :=
  match iter step go k s₀ with
  | .ok s => s
  | .error _ => s₀

/-- A run that does not fail in `n` steps and goes on before each goes through a trace. -/
theorem trace_states
    (h : ∀ k < n, ∃ s s', iter step go k s₀ = .ok s ∧ go s = true ∧ step s = .ok s') :
    Trace step go s₀ n (states step go s₀) := by
  have key : ∀ k ≤ n, Trace step go s₀ k (states step go s₀) := by
    intro k
    induction k with
    | zero => exact fun _ => ⟨rfl, fun j hj => absurd hj (Nat.not_lt_zero j)⟩
    | succ k ih =>
      intro hk
      have htr := ih (by omega)
      obtain ⟨s, s', hs, hgo, hstep⟩ := h k hk
      have hst : states step go s₀ k = s := by rw [states, hs]
      have hnext : iter step go (k + 1) s₀ = .ok s' := by
        rw [htr.iter_add 1, hst, iter_succ_of_step ⟨hgo, hstep⟩]
        rfl
      refine ⟨rfl, fun j hj => ?_⟩
      rcases Nat.lt_succ_iff_lt_or_eq.1 hj with hj | rfl
      · exact htr.next j hj
      · rw [hst, states, hnext]
        exact ⟨hgo, hstep⟩
  exact key n le_rfl

end Runs
