import Mathlib

/-! Circular windows. A window of `count` cells of a ring of `cap` cells, read from `front`, is a
list; storing into a cell outside the window does not change it, and moving `front` or extending
`count` by one adds or removes one end of the list. Full and empty windows have the same two ends,
so the count is a parameter of its own. -/

namespace UnixOs.Ring

variable {α : Type}

/-- The `count` cells read cyclically from `front`. -/
def window (cap : Nat) (cells : Nat → α) (front count : Nat) : List α :=
  (List.range count).map fun i => cells ((front + i) % cap)

@[simp] theorem window_zero (cap : Nat) (cells : Nat → α) (front : Nat) :
    window cap cells front 0 = [] := rfl

@[simp] theorem length_window (cap : Nat) (cells : Nat → α) (front count : Nat) :
    (window cap cells front count).length = count := by
  simp [window]

/-- Distinct places of a window that is not longer than the ring are distinct cells. -/
theorem place_ne {cap front i j : Nat} (hij : i < j) (hj : j < cap + i) :
    (front + i) % cap ≠ (front + j) % cap := by
  intro heq
  have hcancel : i ≡ j [MOD cap] := Nat.ModEq.add_left_cancel' front heq
  have hle := Nat.le_of_dvd (by omega) ((Nat.modEq_iff_dvd' hij.le).mp hcancel)
  omega

theorem window_congr {cap : Nat} {cells cells' : Nat → α} {front count : Nat}
    (h : ∀ i < count, cells ((front + i) % cap) = cells' ((front + i) % cap)) :
    window cap cells front count = window cap cells' front count := by
  apply List.map_congr_left
  intro i hi
  exact h i (List.mem_range.mp hi)

theorem window_front_mod (cap : Nat) (cells : Nat → α) (front count : Nat) :
    window cap cells (front % cap) count = window cap cells front count := by
  apply List.map_congr_left
  intro i _
  rw [Nat.mod_add_mod]

/-- Reading one cell more appends it at the back. -/
theorem window_succ_back (cap : Nat) (cells : Nat → α) (front count : Nat) :
    window cap cells front (count + 1) =
      window cap cells front count ++ [cells ((front + count) % cap)] := by
  simp [window, List.range_succ]

/-- A non-empty window is its front cell and the window one place further. -/
theorem window_succ_front (cap : Nat) (cells : Nat → α) (front count : Nat) :
    window cap cells front (count + 1) =
      cells (front % cap) :: window cap cells (front + 1) count := by
  simp only [window, List.range_succ_eq_map, List.map_cons, List.map_map, Nat.add_zero]
  congr 1
  apply List.map_congr_left
  intro i _
  simp only [Function.comp_apply, Nat.succ_eq_add_one]
  rw [Nat.add_assoc, Nat.add_comm 1 i]

/-- A store outside the window leaves the window as it is. -/
theorem window_update_of_ne {cap : Nat} (cells : Nat → α) {front count slot : Nat} (v : α)
    (h : ∀ i < count, (front + i) % cap ≠ slot) :
    window cap (Function.update cells slot v) front count = window cap cells front count := by
  apply window_congr
  intro i hi
  exact Function.update_of_ne (h i hi) _ _

theorem window_push_back {cap : Nat} (cells : Nat → α) {front count : Nat} (v : α)
    (hroom : count < cap) :
    window cap (Function.update cells ((front + count) % cap) v) front (count + 1) =
      window cap cells front count ++ [v] := by
  rw [window_succ_back, Function.update_self, window_update_of_ne]
  intro i hi
  exact place_ne hi (by omega)

/-- Storing at the cell before the front and reading from there pushes at the front. -/
theorem window_push_front {cap : Nat} (cells : Nat → α) {front count : Nat} (v : α)
    (hroom : count < cap) :
    window cap (Function.update cells ((front + (cap - 1)) % cap) v) (front + (cap - 1)) (count + 1) =
      v :: window cap cells front count := by
  have hnext : front + (cap - 1) + 1 = front + cap := by omega
  rw [window_succ_front, Function.update_self, hnext, ← window_front_mod, Nat.add_mod_right,
    window_front_mod, window_update_of_ne]
  intro i hi
  rcases Nat.lt_or_ge i (cap - 1) with hlt | hge
  · exact place_ne hlt (by omega)
  · omega

end UnixOs.Ring
