import Mathlib

/-!
# Sessions with a machine that replies

A machine answers calls: a call fails, and that ends the session, or it gives a
reply and a new state.  Related states that every call answers alike and keeps
related answer whole sessions alike (`session_related`), across two machines as
well as within one.  States of one machine that no session tells apart are
`Indistinguishable`; a call two such states answer leaves two such states.
-/

namespace Sessions

variable {σ τ ι ο ε : Type*}

/-- The replies to a list of calls and the state they leave; a call that fails is the last. -/
def session (step : σ → ι → Except ε (ο × σ)) : σ → List ι → List (Except ε ο) × σ
  | s, [] => ([], s)
  | s, i :: is =>
      match step s i with
      | .error e => ([.error e], s)
      | .ok (o, s') => (.ok o :: (session step s' is).1, (session step s' is).2)

/-- One call answered alike: the same failure, or the same reply and related states. -/
inductive Alike (R : σ → τ → Prop) : Except ε (ο × σ) → Except ε (ο × τ) → Prop where
  | error (e : ε) : Alike R (.error e) (.error e)
  | ok (o : ο) {s : σ} {t : τ} (h : R s t) : Alike R (.ok (o, s)) (.ok (o, t))

section

variable {step : σ → ι → Except ε (ο × σ)} {step' : τ → ι → Except ε (ο × τ)} {s s' t t' : σ}

theorem session_cons_ok {i : ι} {o : ο} (h : step s i = .ok (o, s')) (is : List ι) :
    session step s (i :: is) = (.ok o :: (session step s' is).1, (session step s' is).2) := by
  rw [session, h]

theorem session_cons_error {i : ι} {e : ε} (h : step s i = .error e) (is : List ι) :
    session step s (i :: is) = ([.error e], s) := by
  rw [session, h]

/-- **Simulation.**  Calls that related states answer alike make sessions they answer alike. -/
theorem session_related {R : σ → τ → Prop}
    (hstep : ∀ s t, R s t → ∀ i, Alike R (step s i) (step' t i)) {s : σ} {t : τ} (h : R s t)
    (is : List ι) :
    (session step s is).1 = (session step' t is).1 ∧
      R (session step s is).2 (session step' t is).2 := by
  induction is generalizing s t with
  | nil => exact ⟨rfl, h⟩
  | cons i is ih =>
    have hcall := hstep s t h i
    generalize hs : step s i = out at hcall
    generalize ht : step' t i = out' at hcall
    cases hcall with
    | error e =>
      rw [session_cons_error hs, session_cons_error ht]
      exact ⟨rfl, h⟩
    | ok o hst =>
      rw [session_cons_ok hs, session_cons_ok ht]
      exact ⟨congrArg _ (ih hst).1, (ih hst).2⟩

/-- **Invariants.**  What every answered call preserves, sessions preserve. -/
theorem session_preserves {P : σ → Prop}
    (hstep : ∀ s i o s', P s → step s i = .ok (o, s') → P s') (h : P s) (is : List ι) :
    P (session step s is).2 := by
  induction is generalizing s with
  | nil => exact h
  | cons i is ih =>
    cases hs : step s i with
    | error e =>
      rw [session_cons_error hs]
      exact h
    | ok out =>
      rw [session_cons_ok hs]
      exact ih (hstep s i out.1 out.2 h hs)

/-- No session tells the two states apart. -/
def Indistinguishable (step : σ → ι → Except ε (ο × σ)) (s t : σ) : Prop :=
  ∀ is, (session step s is).1 = (session step t is).1

/-- Related states are indistinguishable. -/
theorem indistinguishable_of_related {R : σ → σ → Prop}
    (hstep : ∀ s t, R s t → ∀ i, Alike R (step s i) (step t i)) (h : R s t) :
    Indistinguishable step s t :=
  fun is => (session_related hstep h is).1

/-- What indistinguishable states answer to a call, and become by it. -/
theorem Indistinguishable.answer (h : Indistinguishable step s t) {i : ι} {o o' : ο}
    (hs : step s i = .ok (o, s')) (ht : step t i = .ok (o', t')) :
    o = o' ∧ Indistinguishable step s' t' := by
  have hcall : ∀ is, (.ok o :: (session step s' is).1 : List (Except ε ο)) =
      .ok o' :: (session step t' is).1 := by
    intro is
    have := h (i :: is)
    rwa [session_cons_ok hs, session_cons_ok ht] at this
  constructor
  · exact Except.ok.inj (List.cons.inj (hcall [])).1
  · intro is
    exact (List.cons.inj (hcall is)).2

end

end Sessions
