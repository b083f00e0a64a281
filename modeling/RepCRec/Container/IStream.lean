import Mathlib.Data.List.Basic
import Mathlib.Data.List.TakeWhile

/-!
Input streams that are read line by line. `getline` reads a line into a string; what it leaves in
the string when there is none depends on how the text ends. The lines of a text (`lines`) do not
tell whether the last one is terminated; a stream that has lines to read (`Reads`) delivers them one
after the other (`Reads.getline_cons`), and then clears the string, when the text is terminated, or
leaves it as it is (`Reads.getline_nil`).
-/

namespace Container

/-- The lines of a text, the last of which may be terminated or not. -/
def lines (s : List Char) : List (List Char) :=
  if (s.splitOn '\n').getLast? = some [] then (s.splitOn '\n').dropLast else s.splitOn '\n'

/-- The last line is terminated, if there is one. -/
def terminated (s : List Char) : Bool := s.isEmpty || s.getLast? == some '\n'

section Lines

variable {s l : List Char}

lemma lines_of_notMem (hl : '\n' ∉ l) (hne : l ≠ []) : lines l = [l] := by
  rw [lines, List.splitOn_eq_singleton hl, if_neg (by simpa using hne)]

lemma lines_append (hl : '\n' ∉ l) : lines (l ++ '\n' :: s) = l :: lines s := by
  rw [lines, lines, List.splitOn_append_cons_self_of_not_mem hl]
  obtain ⟨t, ts, ht⟩ := List.exists_cons_of_ne_nil (List.splitOn_ne_nil '\n' s)
  rw [ht, List.getLast?_cons_cons]
  split_ifs
  · rfl
  · rfl

lemma terminated_append : terminated (l ++ '\n' :: s) = terminated s := by
  cases s with
  | nil => simp [terminated]
  | cons c s =>
      rw [terminated, terminated, List.getLast?_append, List.getLast?_cons_cons]
      simp [List.getLast?_cons]

lemma terminated_of_notMem (hl : '\n' ∉ l) (hne : l ≠ []) : terminated l = false := by
  have hlast : l.getLast? ≠ some '\n' := fun h => hl (List.mem_of_getLast? h)
  simpa [terminated, hne] using hlast

end Lines

/-- An input stream: what is left to read, whether the end was met and whether a read has failed. -/
structure IStream where
  rest : List Char
  eof : Bool := false
  fail : Bool := false

namespace IStream

variable {st : IStream} {l s buf : List Char} {L : List (List Char)} {b : Bool}

/-- `std::getline`: whether a line is read, the stream and the string after it. -/
def getline (st : IStream) (buf : List Char) : Bool × IStream × List Char :=
  if st.eof || st.fail then (false, { st with fail := true }, buf)
  else
    let line := st.rest.takeWhile (· != '\n')
    match st.rest.dropWhile (· != '\n') with
    | _ :: rest => (true, { st with rest := rest }, line)
    | [] => (!line.isEmpty, { rest := [], eof := true, fail := line.isEmpty }, line)

/-- The calls of `getline` that may still read a line. -/
def left (st : IStream) : ℕ := if st.eof || st.fail then 0 else st.rest.length + 1

lemma left_getline (h : (st.getline buf).1 = true) : (st.getline buf).2.1.left < st.left := by
  rw [getline] at h ⊢
  split_ifs at h ⊢ with hbad
  have hlen : (st.rest.dropWhile (· != '\n')).length ≤ st.rest.length :=
    List.length_dropWhile_le _ _
  rw [Bool.not_eq_true, Bool.or_eq_false_iff] at hbad
  cases hd : st.rest.dropWhile (· != '\n') with
  | nil => simp [left, hbad]
  | cons c rest =>
      rw [hd, List.length_cons] at hlen
      simp only [left, hbad.1, hbad.2, Bool.or_self, Bool.false_eq_true, if_false]
      omega

/-- The stream has the lines `L` to read, and `b` tells whether the last one is terminated. -/
inductive Reads : IStream → List (List Char) → Bool → Prop where
  | start (s : List Char) : Reads { rest := s } (lines s) (terminated s)
  | done {st : IStream} : st.eof = true → Reads st [] false

lemma newline_ne (hl : '\n' ∉ l) : ∀ c ∈ l, (c != '\n') = true := by
  intro c hc
  rw [bne_iff_ne]
  rintro rfl
  exact hl hc

/-- The reading of a line up to its end. -/
lemma getline_append (hl : '\n' ∉ l) : getline { rest := l ++ '\n' :: s } buf =
    (true, { rest := s }, l) := by
  have hall := newline_ne hl
  have htake : (l ++ '\n' :: s).takeWhile (· != '\n') = l := by
    rw [List.takeWhile_append_of_pos hall, List.takeWhile_cons_of_neg (by simp), List.append_nil]
  have hdrop : (l ++ '\n' :: s).dropWhile (· != '\n') = '\n' :: s := by
    rw [List.dropWhile_append_of_pos hall, List.dropWhile_cons_of_neg (by simp)]
  rw [getline, if_neg (by simp), htake, hdrop]

/-- The reading of the text after the last end of a line. -/
lemma getline_of_notMem (hl : '\n' ∉ l) : getline { rest := l } buf =
    (!l.isEmpty, { rest := [], eof := true, fail := l.isEmpty }, l) := by
  have hall := newline_ne hl
  have htake : l.takeWhile (· != '\n') = l := List.takeWhile_eq_self_iff.mpr hall
  have hdrop : l.dropWhile (· != '\n') = [] := List.dropWhile_eq_nil_iff.mpr hall
  rw [getline, if_neg (by simp), htake, hdrop]

namespace Reads

/-- **A line is read** while there is one. -/
lemma getline_cons (h : Reads st (l :: L) b) (buf : List Char) :
    ∃ st', st.getline buf = (true, st', l) ∧ Reads st' L b := by
  generalize hL : l :: L = L' at h
  cases h with
  | start s =>
      by_cases hmem : '\n' ∈ s
      · obtain ⟨l', s', rfl, hl'⟩ := List.eq_append_cons_of_mem hmem
        rw [lines_append hl', List.cons.injEq] at hL
        obtain ⟨rfl, rfl⟩ := hL
        rw [terminated_append]
        exact ⟨_, getline_append hl', .start s'⟩
      · have hne : s ≠ [] := by
          rintro rfl
          cases hL
        rw [lines_of_notMem hmem hne, List.cons.injEq] at hL
        obtain ⟨rfl, rfl⟩ := hL
        rw [terminated_of_notMem hmem hne]
        refine ⟨{ rest := [], eof := true }, (getline_of_notMem hmem).trans ?_, .done rfl⟩
        simp [hne]
  | done => cases hL

/-- **The string after the last line** is cleared if the line was terminated. -/
lemma getline_nil (h : Reads st [] b) (buf : List Char) :
    ∃ st', st.getline buf = (false, st', if b then [] else buf) := by
  generalize hL : ([] : List (List Char)) = L' at h
  cases h with
  | start s =>
      have hs : s = [] := by
        by_contra hne
        by_cases hmem : '\n' ∈ s
        · obtain ⟨l', s', rfl, hl'⟩ := List.eq_append_cons_of_mem hmem
          rw [lines_append hl'] at hL
          cases hL
        · rw [lines_of_notMem hmem hne] at hL
          cases hL
      subst hs
      exact ⟨_, getline_of_notMem List.not_mem_nil⟩
  | done heof => exact ⟨_, by rw [getline, heof]; rfl⟩

end Reads

end IStream

end Container
