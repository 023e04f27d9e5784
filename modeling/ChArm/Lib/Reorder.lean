import Mathlib

/-!
# Steps that may be taken in any order

A list of names is executed by taking the step each name stands for, one after
the other, in a monad.  A name whose step commutes with every other can be moved
to the front of the list (`runSteps_erase`), so orders of the same names differ
at most in the order of the steps that do not commute.
-/

namespace Reorder

variable {ι σ : Type} {m : Type → Type} [Monad m]

/-- Take the steps of a list of names, first name first. -/
def runSteps (step : ι → σ → m σ) : List ι → σ → m σ
  | [], s => pure s
  | i :: is, s => step i s >>= runSteps step is

/-- Taking the steps of `i` and `j` in either order is the same. -/
def Commutes (step : ι → σ → m σ) (i j : ι) : Prop :=
  ∀ s, (step i s >>= step j) = (step j s >>= step i)

variable {step : ι → σ → m σ}

/-- A step that commutes with every other can be taken first. -/
theorem runSteps_erase [LawfulMonad m] [DecidableEq ι] {i : ι} (hi : ∀ j, Commutes step i j)
    {is : List ι} (hmem : i ∈ is) (s : σ) :
    runSteps step is s = runSteps step (i :: is.erase i) s := by
  induction is generalizing s with
  | nil => cases hmem
  | cons j is ih =>
    by_cases hji : j = i
    · rw [hji, List.erase_cons_head]
    · have hmem' : i ∈ is := (List.mem_cons.1 hmem).resolve_left fun h => hji h.symm
      rw [List.erase_cons_tail (by simpa using hji)]
      calc runSteps step (j :: is) s
          = (step j s >>= fun t => step i t >>= runSteps step (is.erase i)) := by
            rw [runSteps]
            exact congrArg _ (funext fun t => ih hmem' t)
        _ = ((step j s >>= step i) >>= runSteps step (is.erase i)) := (bind_assoc _ _ _).symm
        _ = ((step i s >>= step j) >>= runSteps step (is.erase i)) := by rw [hi j s]
        _ = runSteps step (i :: j :: is.erase i) s := bind_assoc _ _ _

theorem runSteps_append [LawfulMonad m] (is js : List ι) (s : σ) :
    runSteps step (is ++ js) s = runSteps step is s >>= runSteps step js := by
  induction is generalizing s with
  | nil => rw [List.nil_append, runSteps, pure_bind]
  | cons i is ih =>
    rw [List.cons_append, runSteps, runSteps, bind_assoc]
    exact congrArg _ (funext ih)

/-- A step at the end of the list. -/
theorem runSteps_concat [LawfulMonad m] (is : List ι) (i : ι) (s : σ) :
    runSteps step (is ++ [i]) s = runSteps step is s >>= step i := by
  rw [runSteps_append]
  exact congrArg _ (funext fun t => bind_pure (step i t))

/-- What follows a first step depends on the rest of the list only through its effect. -/
theorem runSteps_cons_congr {is js : List ι} (h : ∀ s, runSteps step is s = runSteps step js s)
    (i : ι) (s : σ) : runSteps step (i :: is) s = runSteps step (i :: js) s := by
  rw [runSteps, runSteps]
  exact congrArg _ (funext h)

/-- **Only the order of the steps that do not commute matters.**  The names `free` commute with all
others; whatever the order, they can be taken first. -/
theorem runSteps_free_first [LawfulMonad m] [DecidableEq ι] {free : List ι}
    (hfree : ∀ i ∈ free, ∀ j, Commutes step i j) {is : List ι} (hsub : free.Subperm is) (s : σ) :
    runSteps step is s = runSteps step (free ++ is.diff free) s := by
  induction free generalizing is s with
  | nil => rw [List.nil_append, List.diff_nil]
  | cons i free ih =>
    have hmem : i ∈ is := hsub.subset List.mem_cons_self
    have hsub' : free.Subperm (is.erase i) := by
      have herase := hsub.erase i
      rwa [List.erase_cons_head] at herase
    rw [runSteps_erase (hfree i List.mem_cons_self) hmem, List.cons_append, List.diff_cons]
    refine runSteps_cons_congr (fun t => ?_) i s
    exact ih (fun j hj => hfree j (List.mem_cons_of_mem i hj)) hsub' t

end Reorder
