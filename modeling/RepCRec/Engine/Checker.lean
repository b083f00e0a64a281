import RepCRec.Container.IStream

/-!
The checker of the test cases (`execute_test_case_check` in `main.cpp`): the expected file and the
output are read line by line as long as both have a line and the lines are equal, and the test
passes when the two strings are equal after the loop.
-/

namespace RepCRec

open Container IStream

/-- The loop over the lines of the two files: the strings after it. -/
def compareLines (resultFile outputFile : IStream) (resultLine outputLine : List Char) :
    List Char × List Char :=
  match _hl : resultFile.getline resultLine with
  | (false, _, resultLine') => (resultLine', outputLine)
  | (true, resultFile', resultLine') =>
      match outputFile.getline outputLine with
      | (false, _, outputLine') => (resultLine', outputLine')
      | (true, outputFile', outputLine') =>
          if resultLine' ≠ outputLine' then (resultLine', outputLine')
          else compareLines resultFile' outputFile' resultLine' outputLine'
termination_by resultFile.left
decreasing_by
  have hread : (resultFile.getline resultLine).1 = true := by rw [_hl]
  have hlt := left_getline hread
  rwa [_hl] at hlt

/-- Whether one test is reported as passed. -/
def executeTestCaseCheck (resultText outputText : List Char) : Bool :=
  let e := compareLines { rest := resultText } { rest := outputText } [] []
  e.1 == e.2

variable {r o : IStream} {R O : List (List Char)} {b c : Bool} {a l l' : List Char}

/-- The expected file has no line left. -/
lemma compareLines_nil (hr : Reads r [] b) : compareLines r o a l = (if b then [] else a, l) := by
  obtain ⟨r', h⟩ := hr.getline_nil a
  rw [compareLines]
  split
  · next h' =>
    rw [h] at h'
    cases h'
    rfl
  · next h' =>
    rw [h] at h'
    cases h'

/-- The expected file has a line left. -/
lemma compareLines_cons (hr : Reads r (l :: R) b) : ∃ r', Reads r' R b ∧
    compareLines r o a l' = match o.getline l' with
      | (false, _, l') => (l, l')
      | (true, o', l') => if l ≠ l' then (l, l') else compareLines r' o' l l' := by
  obtain ⟨r', h, hr'⟩ := hr.getline_cons a
  refine ⟨r', hr', ?_⟩
  rw [compareLines]
  split
  · next h' =>
    rw [h] at h'
    cases h'
  · next h' =>
    rw [h] at h'
    cases h'
    rfl

/-- What the loop compares at its end: the strings are equal when it begins, and after each line
that is equal. -/
def Verdict (b c : Bool) : List (List Char) → List (List Char) → List Char → Prop
  | [], _, a => b = true → a = []
  | l :: _, [], a => l = if c then [] else a
  | l :: R, l' :: O, _ => l = l' ∧ Verdict b c R O l

/-- **The loop compares the lines** as long as both files have one. -/
theorem compareLines_iff (hr : Reads r R b) (ho : Reads o O c) :
    (compareLines r o a a).1 = (compareLines r o a a).2 ↔ Verdict b c R O a := by
  induction R generalizing r o O a with
  | nil =>
      rw [compareLines_nil hr, Verdict]
      cases b with
      | false => simp
      | true => simp [eq_comm]
  | cons l R ih =>
      obtain ⟨r', hr', h⟩ := compareLines_cons hr
      rw [h]
      cases O with
      | nil =>
          obtain ⟨o', hl⟩ := ho.getline_nil a
          rw [hl, Verdict]
      | cons l' O =>
          obtain ⟨o', hl, ho'⟩ := ho.getline_cons a
          rw [hl, Verdict]
          dsimp only
          by_cases heq : l = l'
          · subst heq
            rw [if_neg (not_not_intro rfl), ih hr' ho', and_iff_right rfl]
          · rw [if_pos heq]
            exact iff_of_false heq fun hv => heq hv.1

end RepCRec
