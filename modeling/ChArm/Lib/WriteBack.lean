import Mathlib

/-!
# Write-back stores

A write-back store keeps copies of some cells of a backing store.  A copy that
was changed is marked dirty; a clean copy agrees with the cell behind it
(`Clean`).  `view` is what a reader sees.  Bringing cells in, dropping them with
write-back and marking them dirty leave the view alone, in any order and for any
choice of cells; writing cells that are present changes exactly those.

Cells that nobody writes stay `Settled`: their copies, dirty or not, equal the
cells behind them, and no operation changes the latter.
-/

namespace WriteBack

/-- Copies of some cells, each with its dirty mark, over a backing store. -/
structure Store (α υ : Type) where
  copy : α → Option (Bool × υ)
  backing : α → υ

namespace Store

variable {α υ : Type}

/-- What a reader sees of a cell. -/
def view (s : Store α υ) (a : α) : υ :=
  match s.copy a with
  | some e => e.2
  | none => s.backing a

/-- Every clean copy agrees with the backing store. -/
def Clean (s : Store α υ) : Prop :=
  ∀ a v, s.copy a = some (false, v) → v = s.backing a

/-- Drop the copies of the cells `p`, writing the dirty ones back. -/
def evict (p : α → Bool) (s : Store α υ) : Store α υ where
  copy := fun a => if p a then none else s.copy a
  backing := fun a =>
    match s.copy a with
    | some (true, v) => if p a then v else s.backing a
    | _ => s.backing a

/-- Bring in the cells `p`, with the dirty mark `w`. -/
def fill (p : α → Bool) (w : Bool) (s : Store α υ) : Store α υ :=
  { s with copy := fun a => if p a then some (w, s.backing a) else s.copy a }

/-- Mark the copies of the cells `p` dirty. -/
def markDirty (p : α → Bool) (s : Store α υ) : Store α υ :=
  { s with copy := fun a => if p a then (s.copy a).map fun e => (true, e.2) else s.copy a }

/-- Write `f` into the copies of the cells `p`. -/
def write (p : α → Bool) (f : α → υ) (s : Store α υ) : Store α υ :=
  { s with copy := fun a => if p a then (s.copy a).map fun _ => (true, f a) else s.copy a }

variable {s : Store α υ}

theorem view_of_copy {a : α} {e : Bool × υ} (h : s.copy a = some e) : s.view a = e.2 := by
  simp [view, h]

theorem view_of_absent {a : α} (h : s.copy a = none) : s.view a = s.backing a := by
  simp [view, h]

theorem Clean.view_eq (h : s.Clean) {a : α} (ha : ∀ v, s.copy a ≠ some (true, v)) :
    s.view a = s.backing a := by
  rcases hc : s.copy a with _ | ⟨_ | _, v⟩
  · exact view_of_absent hc
  · exact (view_of_copy hc).trans (h a v hc)
  · exact absurd hc (ha v)

theorem backing_evict_dirty {p : α → Bool} {a : α} {v : υ} (h : s.copy a = some (true, v))
    (hp : p a = true) : (s.evict p).backing a = v := by
  simp [evict, h, hp]

theorem backing_evict_other {p : α → Bool} {a : α}
    (h : ∀ v, s.copy a = some (true, v) → p a = false) :
    (s.evict p).backing a = s.backing a := by
  rcases hc : s.copy a with _ | ⟨_ | _, v⟩
  · simp [evict, hc]
  · simp [evict, hc]
  · simp [evict, hc, h v hc]

/-- **Evicting leaves the view alone.** -/
theorem Clean.view_evict (h : s.Clean) (p : α → Bool) : (s.evict p).view = s.view := by
  funext a
  by_cases hp : p a = true
  · rw [view_of_absent (by simp [evict, hp])]
    by_cases hd : ∃ v, s.copy a = some (true, v)
    · obtain ⟨v, hv⟩ := hd
      rw [backing_evict_dirty hv hp, view_of_copy hv]
    · rw [backing_evict_other (fun v hv => absurd ⟨v, hv⟩ hd), h.view_eq fun v hv => hd ⟨v, hv⟩]
  · have hb := backing_evict_other (s := s) (p := p) (a := a) fun _ _ => by simpa using hp
    have hc : (s.evict p).copy a = s.copy a := by simp [evict, hp]
    simp only [view, hb, hc]

theorem Clean.evict (h : s.Clean) (p : α → Bool) : (s.evict p).Clean := by
  intro a v hv
  by_cases hp : p a = true
  · simp [Store.evict, hp] at hv
  · have hc : s.copy a = some (false, v) := by simpa [Store.evict, hp] using hv
    rw [h a v hc]
    simp [Store.evict, hc]

/-- **Bringing in absent cells leaves the view alone.** -/
theorem view_fill {p : α → Bool} (h : ∀ a, p a = true → s.copy a = none) (w : Bool) :
    (s.fill p w).view = s.view := by
  funext a
  by_cases hp : p a = true
  · rw [view_of_absent (h a hp)]
    simp [view, fill, hp]
  · simp [view, fill, hp]

theorem Clean.fill (h : s.Clean) (p : α → Bool) (w : Bool) : (s.fill p w).Clean := by
  intro a v hv
  by_cases hp : p a = true
  · have : w = false ∧ s.backing a = v := by simpa [Store.fill, hp] using hv
    exact this.2.symm
  · exact h a v (by simpa [Store.fill, hp] using hv)

/-- **Marking copies dirty leaves the view alone.** -/
theorem view_markDirty (s : Store α υ) (p : α → Bool) : (s.markDirty p).view = s.view := by
  funext a
  by_cases hp : p a = true
  · cases hc : s.copy a <;> simp [view, markDirty, hp, hc]
  · simp [view, markDirty, hp]

theorem Clean.markDirty (h : s.Clean) (p : α → Bool) : (s.markDirty p).Clean := by
  intro a v hv
  by_cases hp : p a = true
  · cases hc : s.copy a <;> simp [Store.markDirty, hp, hc] at hv
  · exact h a v (by simpa [Store.markDirty, hp] using hv)

theorem markDirty_markDirty (s : Store α υ) (p : α → Bool) :
    (s.markDirty p).markDirty p = s.markDirty p := by
  refine congrArg₂ Store.mk (funext fun a => ?_) rfl
  by_cases hp : p a = true
  · simp [markDirty, hp, Function.comp_def]
  · simp [markDirty, hp]

theorem markDirty_fill (s : Store α υ) (p : α → Bool) :
    (s.fill p true).markDirty p = s.fill p true := by
  refine congrArg₂ Store.mk (funext fun a => ?_) rfl
  by_cases hp : p a = true
  · simp [fill, hp]
  · simp [fill, hp]

theorem copy_write_present {p : α → Bool} {f : α → υ} {a : α} {e : Bool × υ}
    (hp : p a = true) (hc : s.copy a = some e) : (s.write p f).copy a = some (true, f a) := by
  simp [write, hp, hc]

theorem copy_write_other {p : α → Bool} {f : α → υ} {a : α} (hp : p a = false) :
    (s.write p f).copy a = s.copy a := by
  simp [write, hp]

/-- **Writing cells that are present changes exactly those.** -/
theorem view_write {p : α → Bool} (h : ∀ a, p a = true → s.copy a ≠ none) (f : α → υ) :
    (s.write p f).view = fun a => if p a then f a else s.view a := by
  funext a
  by_cases hp : p a = true
  · obtain ⟨e, he⟩ := Option.ne_none_iff_exists'.1 (h a hp)
    simp [view, write, hp, he]
  · simp [view, write, hp]

theorem Clean.write (h : s.Clean) (p : α → Bool) (f : α → υ) : (s.write p f).Clean := by
  intro a v hv
  by_cases hp : p a = true
  · cases hc : s.copy a <;> simp [Store.write, hp, hc] at hv
  · exact h a v (by simpa [Store.write, hp] using hv)

/-! ## Cells nobody writes -/

/-- The store is clean, and every copy of a cell of `q` agrees with the cell behind it. -/
structure Settled (q : α → Prop) (s : Store α υ) : Prop where
  clean : s.Clean
  view_eq : ∀ a, q a → s.view a = s.backing a

namespace Settled

variable {q : α → Prop} (h : s.Settled q)
include h

/-- Evicting writes back what is there already. -/
theorem backing_evict (p : α → Bool) {a : α} (ha : q a) : (s.evict p).backing a = s.backing a := by
  by_cases hd : ∃ v, s.copy a = some (true, v)
  · obtain ⟨v, hv⟩ := hd
    have hview := h.view_eq a ha
    rw [view_of_copy hv] at hview
    simp only [Store.evict, hv]
    exact ite_eq_right_iff.2 fun _ => hview
  · exact backing_evict_other fun v hv => absurd ⟨v, hv⟩ hd

theorem evict (p : α → Bool) : (s.evict p).Settled q where
  clean := h.clean.evict p
  view_eq := by
    intro a ha
    rw [h.clean.view_evict, h.view_eq a ha, h.backing_evict p ha]

theorem fill {p : α → Bool} (hp : ∀ a, p a = true → s.copy a = none) (w : Bool) :
    (s.fill p w).Settled q where
  clean := h.clean.fill p w
  view_eq := by
    intro a ha
    rw [view_fill hp]
    exact h.view_eq a ha

theorem markDirty (p : α → Bool) : (s.markDirty p).Settled q where
  clean := h.clean.markDirty p
  view_eq := by
    intro a ha
    rw [view_markDirty]
    exact h.view_eq a ha

theorem write {p : α → Bool} (hp : ∀ a, q a → p a = false) (f : α → υ) :
    (s.write p f).Settled q where
  clean := h.clean.write p f
  view_eq := by
    intro a ha
    have hcopy : (s.write p f).copy a = s.copy a := copy_write_other (hp a ha)
    have hback : (s.write p f).backing a = s.backing a := rfl
    have hview := h.view_eq a ha
    simp only [view, hcopy, hback] at hview ⊢
    exact hview

end Settled

end Store

end WriteBack
