import Mathlib

/-! Singly linked lists in a heap: the elements that following `next` from a pointer visits before it
reaches the null pointer. -/

namespace UnixOs

variable {P : Type} {next next' : P → P} {null p : P} {xs ys : List P}

/-- Following `next` from `p` visits `xs` and then reaches `null`. -/
def Chain (next : P → P) (null : P) : P → List P → Prop
  | p, [] => p = null
  | p, x :: xs => p = x ∧ x ≠ null ∧ Chain next null (next x) xs

namespace Chain

theorem unique (h : Chain next null p xs) (h' : Chain next null p ys) : xs = ys := by
  induction xs generalizing p ys with
  | nil =>
      cases ys with
      | nil => rfl
      | cons y ys =>
          obtain ⟨rfl, hne, -⟩ := h'
          exact absurd h hne
  | cons x xs ih =>
      obtain ⟨rfl, hne, hrest⟩ := h
      cases ys with
      | nil => exact absurd h' hne
      | cons y ys =>
          obtain ⟨rfl, -, hrest'⟩ := h'
          rw [ih hrest hrest']

theorem suffix {x : P} (h : Chain next null p (xs ++ x :: ys)) : Chain next null x (x :: ys) := by
  induction xs generalizing p with
  | nil =>
      obtain ⟨-, hne, hrest⟩ := h
      exact ⟨rfl, hne, hrest⟩
  | cons y xs ih => exact ih h.2.2

/-- No element is visited twice: from its second visit the chain would go on as from its first. -/
theorem nodup (h : Chain next null p xs) : xs.Nodup := by
  induction xs generalizing p with
  | nil => exact List.nodup_nil
  | cons x xs ih =>
      refine List.nodup_cons.mpr ⟨fun hmem => ?_, ih h.2.2⟩
      obtain ⟨before, after, rfl⟩ := List.append_of_mem hmem
      have hfirst : Chain next null x (x :: (before ++ x :: after)) := ⟨rfl, h.2.1, h.2.2⟩
      have hsecond : Chain next null x (x :: after) := h.2.2.suffix
      have hlength := congrArg List.length (hfirst.unique hsecond)
      simp only [List.length_cons, List.length_append] at hlength
      omega

theorem ne_null (h : Chain next null p xs) {x : P} (hx : x ∈ xs) : x ≠ null := by
  obtain ⟨before, after, rfl⟩ := List.append_of_mem hx
  exact h.suffix.2.1

theorem congr (h : Chain next null p xs) (hsame : ∀ x ∈ xs, next' x = next x) : Chain next' null p xs := by
  induction xs generalizing p with
  | nil => exact h
  | cons x xs ih =>
      obtain ⟨rfl, hne, hrest⟩ := h
      refine ⟨rfl, hne, ?_⟩
      rw [hsame _ List.mem_cons_self]
      exact ih hrest fun y hy => hsame y (List.mem_cons_of_mem _ hy)

theorem push {q : P} (h : Chain next null p xs) (hnull : q ≠ null) (hlink : next' q = p)
    (hsame : ∀ x ∈ xs, next' x = next x) : Chain next' null q (q :: xs) := by
  refine ⟨rfl, hnull, ?_⟩
  rw [hlink]
  exact h.congr hsame

/-- The element behind `q` is taken out by linking `q` to the one behind it. -/
theorem unlink {q x : P} (h : Chain next null p (xs ++ q :: x :: ys)) (hlink : next' q = next x)
    (hsame : ∀ y ∈ xs ++ ys, next' y = next y) : Chain next' null p (xs ++ q :: ys) := by
  induction xs generalizing p with
  | nil =>
      obtain ⟨rfl, hne, rfl, -, hrest⟩ := h
      refine ⟨rfl, hne, ?_⟩
      rw [hlink]
      exact hrest.congr hsame
  | cons y xs ih =>
      obtain ⟨rfl, hne, hrest⟩ := h
      refine ⟨rfl, hne, ?_⟩
      rw [hsame _ List.mem_cons_self]
      exact ih hrest fun z hz => hsame z (List.mem_cons_of_mem _ hz)

end Chain

end UnixOs
