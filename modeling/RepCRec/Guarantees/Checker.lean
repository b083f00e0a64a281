import RepCRec.Engine.Checker

/-!
What a passed test says. The verdict is taken from the strings that the loop over the lines leaves
behind, not from how far it came: files with the same lines pass only if the expected one ends
without a line end or with an empty line, and files of different length may pass
(`check_iff_conclusive`).
-/

namespace RepCRec

open Container IStream

variable {R O : List (List Char)} {b c : Bool} {a : List Char}

/-- The last line of a text, empty if there is none. -/
def lastLine (s : List Char) : List Char := (lines s).getLastD []

/-- The string after the reading of a text to its end. -/
def leftover (s : List Char) : List Char := if terminated s then [] else lastLine s

/-- The strings after the loop tell the files apart. -/
structure Conclusive (resultText outputText : List Char) : Prop where
  /-- Equal files pass: the last line of the expected one is not terminated, or empty. -/
  same : lines resultText = lines outputText →
    terminated resultText = false ∨ lastLine resultText = []
  /-- A longer output does not pass: the last expected line is terminated, and not empty. -/
  longer : lines resultText <+: lines outputText → lines resultText ≠ lines outputText →
    terminated resultText = true ∧ lastLine resultText ≠ []
  /-- A shorter output does not pass: the first line that it misses is not what it leaves behind. -/
  shorter : ∀ l, lines outputText ++ [l] <+: lines resultText → l ≠ leftover outputText

/-- The loop ends with equal strings where the expected file ends, or at a line that the output
misses. -/
lemma verdict_iff : Verdict b c R O a ↔ (R <+: O ∧ (b = true → R.getLastD a = [])) ∨
    ∃ l, O ++ [l] <+: R ∧ l = if c then [] else O.getLastD a := by
  induction R generalizing O a with
  | nil => simp [Verdict]
  | cons l R ih =>
      cases O with
      | nil =>
          rw [Verdict]
          refine ⟨fun h => Or.inr ⟨l, ⟨R, rfl⟩, h⟩, ?_⟩
          rintro (⟨hp, -⟩ | ⟨x, hp, hx⟩)
          · exact absurd (List.prefix_nil.mp hp) (List.cons_ne_nil l R)
          · rw [List.nil_append, List.cons_prefix_cons] at hp
            exact hp.1 ▸ hx
      | cons l' O =>
          rw [Verdict, ih]
          simp only [List.cons_append, List.cons_prefix_cons, List.getLastD_cons]
          constructor
          · rintro ⟨rfl, ⟨hp, hb⟩ | ⟨x, hp, hx⟩⟩
            · exact Or.inl ⟨⟨rfl, hp⟩, hb⟩
            · exact Or.inr ⟨x, ⟨rfl, hp⟩, hx⟩
          · rintro (⟨⟨rfl, hp⟩, hb⟩ | ⟨x, ⟨rfl, hp⟩, hx⟩)
            · exact ⟨rfl, Or.inl ⟨hp, hb⟩⟩
            · exact ⟨rfl, Or.inr ⟨x, hp, hx⟩⟩

/-- **When a test passes.** -/
theorem executeTestCaseCheck_eq_true {s t : List Char} : executeTestCaseCheck s t = true ↔
    (lines s <+: lines t ∧ (terminated s = false ∨ lastLine s = [])) ∨
      ∃ l, lines t ++ [l] <+: lines s ∧ l = leftover t := by
  have hs : Reads { rest := s } (lines s) (terminated s) := .start s
  have ht : Reads { rest := t } (lines t) (terminated t) := .start t
  rw [executeTestCaseCheck, beq_iff_eq, compareLines_iff hs ht, verdict_iff]
  refine or_congr (and_congr_right fun _ => ?_) Iff.rfl
  rw [lastLine]
  cases terminated s <;> simp

/-- **A test passes for equal files alone** exactly when the strings after the loop tell the files
apart. -/
theorem check_iff_conclusive (resultText outputText : List Char) :
    (executeTestCaseCheck resultText outputText = true ↔ lines resultText = lines outputText) ↔
      Conclusive resultText outputText := by
  rw [executeTestCaseCheck_eq_true]
  have hlong : ∀ {l}, lines outputText ++ [l] <+: lines resultText →
      lines resultText ≠ lines outputText := by
    intro l hl heq
    have hlen := hl.length_le
    rw [heq, List.length_append, List.length_singleton] at hlen
    omega
  constructor
  · refine fun h => ⟨fun heq => ?_, fun hp hne => ?_, fun l hl hleft => ?_⟩
    · rcases h.mpr heq with ⟨-, hend⟩ | ⟨l, hl, -⟩
      · exact hend
      · exact absurd heq (hlong hl)
    · by_contra hno
      refine hne (h.mp (Or.inl ⟨hp, ?_⟩))
      rw [not_and_or, Bool.not_eq_true, not_not] at hno
      exact hno
    · exact hlong hl (h.mp (Or.inr ⟨l, hl, hleft⟩))
  · intro h
    constructor
    · rintro (⟨hp, hend⟩ | ⟨l, hl, hleft⟩)
      · by_contra hne
        obtain ⟨hterm, hlast⟩ := h.longer hp hne
        rcases hend with hend | hend
        · rw [hterm] at hend
          cases hend
        · exact hlast hend
      · exact absurd hleft (h.shorter l hl)
    · exact fun heq => Or.inl ⟨heq ▸ List.prefix_rfl, h.same heq⟩

/-- **Wrong verdicts**: two equal files with a line end do not pass, and an output with a line too
many does. -/
theorem check_misjudges :
    ¬(executeTestCaseCheck ['a', '\n'] ['a', '\n'] = true ↔
      lines ['a', '\n'] = lines ['a', '\n']) ∧
    ¬(executeTestCaseCheck ['a'] ['a', '\n', 'b', '\n'] = true ↔
      lines ['a'] = lines ['a', '\n', 'b', '\n']) := by
  decide +kernel

end RepCRec
