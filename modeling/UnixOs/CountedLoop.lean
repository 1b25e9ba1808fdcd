import Mathlib

/-! The loop `for (i = 0; i < n; i++)` on an explicit state. -/

namespace UnixOs

variable {σ : Type}

/-- `body 0`, then `body 1`, up to `body (n - 1)`. -/
def forUpTo (body : Nat → σ → σ) : Nat → σ → σ
  | 0, s => s
  | n + 1, s => body n (forUpTo body n s)

/-- The invariant rule: what holds before the loop and is carried from each index to the next holds
after it. -/
theorem forUpTo_invariant (body : Nat → σ → σ) {n : Nat} {s : σ} (Inv : Nat → σ → Prop)
    (hstart : Inv 0 s) (hbody : ∀ i t, i < n → Inv i t → Inv (i + 1) (body i t)) :
    Inv n (forUpTo body n s) := by
  induction n with
  | zero => exact hstart
  | succ n ih =>
      exact hbody n _ (Nat.lt_succ_self n) (ih (fun i t hi => hbody i t (Nat.lt_succ_of_lt hi)))

end UnixOs
