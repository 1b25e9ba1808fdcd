import Mathlib

/-! Finite runs of a labelled step relation. A label carries the call and what it returned, so that a
simulation between two step relations on the same labels also equates the returned values. -/

namespace UnixOs

variable {σ τ ε : Type}

/-- The states reached from `start`, each with the labels of the steps that led there. -/
inductive Run (step : σ → ε → σ → Prop) (start : σ) : List ε → σ → Prop
  | nil : Run step start [] start
  | snoc {es : List ε} {s s' : σ} {e : ε} (before : Run step start es s) (last : step s e s') :
      Run step start (es ++ [e]) s'

namespace Run

variable {step : σ → ε → σ → Prop} {start : σ} {es : List ε} {s : σ}

/-- What holds at the start and is kept by every step holds after every run. -/
theorem invariant {Inv : σ → Prop} (hrun : Run step start es s) (hstart : Inv start)
    (hstep : ∀ s e s', Inv s → step s e s' → Inv s') : Inv s := by
  induction hrun with
  | nil => exact hstart
  | snoc _ hlast ih => exact hstep _ _ _ ih hlast

/-- A relation that every step can follow in a second system maps runs to runs with the same labels. -/
theorem simulation {other : τ → ε → τ → Prop} {R : σ → τ → Prop} {first : τ}
    (hrun : Run step start es s) (hstart : R start first)
    (hstep : ∀ s t e s', R s t → step s e s' → ∃ t', other t e t' ∧ R s' t') :
    ∃ t, Run other first es t ∧ R s t := by
  induction hrun with
  | nil => exact ⟨first, .nil, hstart⟩
  | snoc _ hlast ih =>
      obtain ⟨t, hbefore, hrel⟩ := ih
      obtain ⟨t', hother, hrel'⟩ := hstep _ _ _ _ hrel hlast
      exact ⟨t', .snoc hbefore hother, hrel'⟩

/-- The last step of a run. -/
theorem last (es : List ε) {e : ε} (hrun : Run step start (es ++ [e]) s) :
    ∃ mid, Run step start es mid ∧ step mid e s := by
  generalize hlabels : es ++ [e] = labels at hrun
  cases hrun with
  | nil => exact absurd hlabels (by simp)
  | snoc hbefore hlast =>
      obtain ⟨rfl, hlabel⟩ := List.append_inj' hlabels rfl
      cases hlabel
      exact ⟨_, hbefore, hlast⟩

theorem mono {weaker : σ → ε → σ → Prop} (hrun : Run step start es s)
    (hstep : ∀ s e s', step s e s' → weaker s e s') : Run weaker start es s := by
  induction hrun with
  | nil => exact .nil
  | snoc _ hlast ih => exact .snoc ih (hstep _ _ _ hlast)

end Run

end UnixOs
