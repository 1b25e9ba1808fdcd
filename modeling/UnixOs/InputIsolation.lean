import UnixOs.LabelledRun
import UnixOs.TerminalIndependence

/-! Whose input a `term_read` returns. The buffers are one for each terminal, but the read takes the
displayed terminal's, whoever calls, and clears all of them. -/

namespace UnixOs

/-- The console, with the bytes that were typed on each terminal while it was displayed. -/
structure InputState where
  console : Console
  typed : Term → List UInt8

/-- The byte that a scan code puts into the displayed terminal's buffer. -/
def keyedBytes (s : Console) (pressed : Nat) : List UInt8 :=
  if s.ctrlOn = true ∧ pressed = lKey then [] else echo s pressed

/-- A scan code handled. -/
def InputState.press (x : InputState) (pressed : Nat) : InputState :=
  ⟨(keyboardStep x.console pressed).1, Function.update x.typed x.console.displayTerminal
    (x.typed x.console.displayTerminal ++ keyedBytes x.console pressed)⟩

/-- A scan code, or a `term_read` by a process of a terminal with what it returned and stored. -/
inductive InputEvent where
  | key (pressed : Nat)
  | read (t : Term) (nbytes n : Int) (bytes : List UInt8)

inductive InputStep : InputState → InputEvent → InputState → Prop
  | key (x : InputState) (pressed : Nat) : InputStep x (.key pressed) (x.press pressed)
  | read {x : InputState} {s' : Console} {nbytes n : Int} {bytes : List UInt8} (t : Term)
      (hread : termRead x.console nbytes = some (s', n, bytes)) :
      InputStep x (.read t nbytes n bytes) ⟨s', x.typed⟩

/-! ### What a scan code does to the buffers -/

/-- Only the displayed terminal's buffer changed, and what it holds was there before or is new. -/
structure BufferFrom (s s' : Console) (bytes : List UInt8) : Prop where
  others : ∀ t, t ≠ s.displayTerminal → s'.kbBuf t = s.kbBuf t ∧ s'.kbBufIndex t = s.kbBufIndex t
  own : ∀ i, i < s'.kbBufIndex s.displayTerminal →
    (i < s.kbBufIndex s.displayTerminal ∧
      s'.kbBuf s.displayTerminal i = s.kbBuf s.displayTerminal i) ∨
    s'.kbBuf s.displayTerminal i ∈ bytes

theorem BufferFrom.of_same {s s' : Console} (hbuf : s'.kbBuf = s.kbBuf) (hindex : s'.kbBufIndex = s.kbBufIndex)
    (bytes : List UInt8) : BufferFrom s s' bytes := by
  refine ⟨fun t _ => ⟨by rw [hbuf], by rw [hindex]⟩, fun i hi => .inl ?_⟩
  rw [hindex] at hi
  exact ⟨hi, by rw [hbuf]⟩

theorem bufferFrom_resetFull {s s' : Console} {bytes : List UInt8} (h : BufferFrom (resetFull s) s' bytes) :
    BufferFrom s s' bytes := by
  unfold resetFull at h
  split_ifs at h with hfull
  · refine ⟨fun t ht => ?_, fun i hi => ?_⟩
    · have hother := h.others t ht
      simp only [Function.update_of_ne ht] at hother
      exact hother
    · rcases h.own i hi with ⟨hlt, heq⟩ | hnew
      · simp only [Function.update_self] at hlt
        refine .inl ⟨?_, heq⟩
        rw [hfull, maxKbBuf]
        omega
      · exact .inr hnew
  · exact h

theorem bufferFrom_kbAppend (s : Console) (value : UInt8) : BufferFrom s (kbAppend s value) [value] := by
  refine ⟨fun t ht => ⟨Function.update_of_ne ht _ _, Function.update_of_ne ht _ _⟩, fun i hi => ?_⟩
  simp only [kbAppend, Function.update_self] at hi ⊢
  by_cases hlast : i = s.kbBufIndex s.displayTerminal
  · right
    rw [hlast, Function.update_self]
    exact List.mem_singleton_self _
  · left
    rw [Function.update_of_ne hlast]
    exact ⟨by omega, rfl⟩

theorem bufferFrom_backspace (s : Console) : BufferFrom s (backspace s) [] := by
  simp only [backspace]
  split_ifs
  · refine ⟨fun t ht => ⟨rfl, Function.update_of_ne ht _ _⟩, fun i hi => .inl ⟨?_, rfl⟩⟩
    simp only [putc, Function.update_self] at hi
    omega
  · exact .of_same (by rfl) (by rfl) []
  · exact .of_same (by rfl) (by rfl) []

theorem bufferFrom_otherKey {s : Console} {pressed : Nat} (henter : pressed ≠ enterKey) :
    BufferFrom s (otherKey s pressed).1 (keyedBytes s pressed) := by
  have hswitch : (switchTerminal s pressed).kbBuf = s.kbBuf ∧
      (switchTerminal s pressed).kbBufIndex = s.kbBufIndex := by
    simp only [switchTerminal]
    split_ifs <;> exact ⟨rfl, rfl⟩
  rcases otherKey_cases s pressed with ⟨-, -, heq | heq⟩ | ⟨-, -, heq⟩ | ⟨-, heq | heq⟩ |
    ⟨hclear, hfull, hvalue, heq⟩
  · rw [heq]
    exact .of_same (by exact hswitch.1) (by exact hswitch.2) _
  · rw [heq]
    exact .of_same (by exact hswitch.1) (by exact hswitch.2) _
  · rw [heq]
    exact .of_same (by rfl) (by rfl) _
  · rw [heq]
    exact .of_same (by rfl) (by rfl) _
  · rw [heq]
    exact .of_same (by rfl) (by rfl) _
  · have hkeyed : keyedBytes s pressed = [(keyTable s).getD pressed 0] := by
      rw [keyedBytes, if_neg hclear, echo, if_neg henter, if_neg hfull, if_neg hvalue]
    rw [heq, hkeyed]
    have happend := bufferFrom_kbAppend s ((keyTable s).getD pressed 0)
    exact ⟨happend.others, happend.own⟩

theorem keyedBytes_resetFull (s : Console) (pressed : Nat) :
    keyedBytes (resetFull s) pressed = keyedBytes s pressed := by
  rw [keyedBytes, keyedBytes, ctrlOn_resetFull, echo_resetFull]

theorem bufferFrom_keyboardStep (s : Console) (pressed : Nat) :
    BufferFrom s (keyboardStep s pressed).1 (keyedBytes s pressed) := by
  apply bufferFrom_resetFull
  rcases keyboardStep_cases s pressed with ⟨-, _, _, _, _, heq⟩ | ⟨-, heq⟩ | ⟨henter, heq⟩ | ⟨henter, -, heq⟩
  · rw [heq]
    exact .of_same (by rfl) (by rfl) _
  · rw [heq]
    have hback := bufferFrom_backspace (resetFull s)
    exact ⟨hback.others, fun i hi => (hback.own i hi).imp_right fun hnew => absurd hnew List.not_mem_nil⟩
  · have hkeyed : keyedBytes s pressed = [0x0A] := by
      have hl : ¬ (s.ctrlOn = true ∧ pressed = lKey) := by
        rintro ⟨-, hl⟩
        rw [henter] at hl
        exact absurd hl (by decide)
      rw [keyedBytes, if_neg hl, echo, if_pos henter]
    rw [heq, hkeyed]
    have happend := bufferFrom_kbAppend (resetFull s) 0x0A
    exact ⟨happend.others, happend.own⟩
  · rw [heq, ← keyedBytes_resetFull]
    exact bufferFrom_otherKey henter

/-! ### Reads -/

/-- Every buffer holds bytes that were typed on its own terminal. -/
def BuffersTyped (x : InputState) : Prop :=
  ∀ t i, 0 ≤ i → i < x.console.kbBufIndex t → x.console.kbBuf t i ∈ x.typed t

theorem BuffersTyped.step {x x' : InputState} {e : InputEvent} (h : BuffersTyped x) (hstep : InputStep x e x') :
    BuffersTyped x' := by
  intro t i hi hlt
  cases hstep with
  | key pressed =>
      have hfrom := bufferFrom_keyboardStep x.console pressed
      by_cases ht : t = x.console.displayTerminal
      · subst ht
        simp only [InputState.press, Function.update_self, List.mem_append]
        rcases hfrom.own i hlt with ⟨hold, heq⟩ | hnew
        · rw [heq]
          exact .inl (h _ i hi hold)
        · exact .inr hnew
      · obtain ⟨hbuf, hindex⟩ := hfrom.others t ht
        simp only [InputState.press, Function.update_of_ne ht, hbuf]
        simp only [InputState.press, hindex] at hlt
        exact h t i hi hlt
  | @read s' nbytes n bytes _ hread =>
      have hcleared : s' = clearKeyboardBuf x.console := by
        simp only [termRead] at hread
        split_ifs at hread
        · cases hread
          rfl
        · cases hread
          rfl
      subst hcleared
      simp only [clearKeyboardBuf] at hlt
      omega

/-- The pending input of a terminal is the same in two states. -/
structure SamePending (s s' : Console) (t : Term) : Prop where
  kbBuf : s'.kbBuf t = s.kbBuf t
  kbBufIndex : s'.kbBufIndex t = s.kbBufIndex t
  readyToRead : s'.readyToRead t = s.readyToRead t

/-- A read by a process of a terminal returns only bytes that were typed there (and the zeros it fills up
with) and leaves the other terminals' input alone. -/
def Isolated (x : InputState) (t : Term) (nbytes : Int) : Prop :=
  ∀ s' n bytes, termRead x.console nbytes = some (s', n, bytes) →
    (∀ b ∈ bytes, b = 0 ∨ b ∈ x.typed t) ∧ ∀ u, u ≠ t → SamePending x.console s' u

theorem termRead_bytes {s s' : Console} {nbytes n : Int} {bytes : List UInt8} (hn : 0 ≤ nbytes)
    (h : termRead s nbytes = some (s', n, bytes)) {b : UInt8} (hb : b ∈ bytes) :
    b = 0 ∨ ∃ i, 0 ≤ i ∧ i < s.kbBufIndex s.displayTerminal ∧ s.kbBuf s.displayTerminal i = b := by
  simp only [termRead] at h
  split_ifs at h with hready hmore
  · cases h
    rw [List.mem_append] at hb
    rcases hb with hb | hb
    · obtain ⟨i, hi, rfl⟩ := List.mem_map.mp hb
      rw [List.mem_range] at hi
      exact .inr ⟨i, by omega, by omega, rfl⟩
    · exact .inl (List.eq_of_mem_replicate hb)
  · cases h
    obtain ⟨i, hi, rfl⟩ := List.mem_map.mp hb
    rw [List.mem_range] at hi
    have hmod : nbytes % 2 ^ 32 ≤ nbytes := by omega
    exact .inr ⟨i, by omega, by omega, rfl⟩

/-- Nothing typed yet. -/
def noInput : InputState := ⟨blankConsole, fun _ => []⟩

/-- `a` and Enter typed on terminal 0. -/
def typedLine : InputState := (noInput.press 0x1E).press enterKey

theorem run_typedLine : Run InputStep noInput [.key 0x1E, .key enterKey] typedLine :=
  .snoc (.snoc .nil (.key _ _)) (.key _ _)

end UnixOs
