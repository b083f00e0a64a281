import RepCRec.Container.IStream

/-!
Texts that are written to an output stream. A field is filled up with blanks to a width (`setw`),
which loses nothing of a text without blanks (`setw_inj`). Lines that are written one after the
other are read back (`lines_unlines_append`), and words that end with a separator can be told from
the whole text (`flatMap_eq_iff`).
-/

namespace Container

/-! ### Fields -/

/-- A field of at least `n` characters (`std::setw`): blanks stand before a shorter text. -/
def setw (n : ℕ) (s : List Char) : List Char := s.leftpad n ' '

section Fields

variable {n : ℕ} {s t : List Char} {c : Char}

/-- The padding consists of blanks. -/
lemma mem_setw (h : c ∈ setw n s) : c = ' ' ∨ c ∈ s := by
  rw [setw, List.leftpad, List.mem_append] at h
  exact h.imp List.eq_of_mem_replicate id

/-- A field without blanks can be read off its padded form. -/
lemma filter_setw (hs : ' ' ∉ s) : (setw n s).filter (· ≠ ' ') = s := by
  rw [setw, List.leftpad, List.filter_append, List.filter_replicate_of_neg (by simp),
    List.nil_append, List.filter_eq_self]
  intro c hc
  exact decide_eq_true fun heq => hs (heq ▸ hc)

/-- The text in a field is known from the field. -/
lemma setw_inj (hs : ' ' ∉ s) (ht : ' ' ∉ t) : setw n s = setw n t ↔ s = t := by
  refine ⟨fun h => ?_, fun h => by rw [h]⟩
  rw [← filter_setw (n := n) hs, h, filter_setw ht]

end Fields

/-! ### Lines -/

/-- Lines that are written one after the other. -/
def unlines (L : List (List Char)) : List Char := L.flatMap (· ++ ['\n'])

section Lines

variable {L : List (List Char)} {l : List Char}

lemma unlines_cons_append (s : List Char) :
    unlines (l :: L) ++ s = l ++ '\n' :: (unlines L ++ s) := by
  simp [unlines]

/-- Lines are read as they were written. -/
lemma lines_unlines_append (hL : ∀ l ∈ L, '\n' ∉ l) (s : List Char) :
    lines (unlines L ++ s) = L ++ lines s := by
  induction L with
  | nil => rfl
  | cons l L ih =>
      rw [unlines_cons_append, lines_append (hL l List.mem_cons_self),
        ih fun l' hl' => hL l' (List.mem_cons_of_mem l hl'), List.cons_append]

lemma lines_unlines (hL : ∀ l ∈ L, '\n' ∉ l) : lines (unlines L) = L := by
  have h := lines_unlines_append hL []
  rwa [List.append_nil, show lines [] = [] from rfl, List.append_nil] at h

/-- Written lines leave no line unfinished. -/
lemma terminated_unlines_append (L : List (List Char)) (s : List Char) :
    terminated (unlines L ++ s) = terminated s := by
  induction L with
  | nil => rfl
  | cons l L ih => rw [unlines_cons_append, terminated_append, ih]

lemma terminated_unlines (L : List (List Char)) : terminated (unlines L) = true := by
  have h := terminated_unlines_append L []
  rwa [List.append_nil] at h

end Lines

/-! ### Words -/

section Words

variable {α β : Type*} {f g : α → List β} {l : List α}

/-- The parts before and after the first separator. -/
lemma append_cons_inj {b b' u u' : List β} {c : β} (hb : c ∉ b) (hb' : c ∉ b')
    (h : b ++ c :: u = b' ++ c :: u') : b = b' ∧ u = u' := by
  rcases List.append_eq_append_iff.mp h with ⟨n, rfl, h1⟩ | ⟨n, rfl, h1⟩
  · cases n with
    | nil => exact ⟨(List.append_nil b).symm, (List.cons.inj h1).2⟩
    | cons d n =>
        obtain ⟨rfl, -⟩ := List.cons.inj h1
        simp at hb'
  · cases n with
    | nil => exact ⟨List.append_nil b', (List.cons.inj h1).2.symm⟩
    | cons d n =>
        obtain ⟨rfl, -⟩ := List.cons.inj h1
        simp at hb

/-- Words that end with a separator are known from the text that they are put together to. -/
lemma flatMap_eq_iff (h : ∀ a ∈ l, ∃ c b b', c ∉ b ∧ c ∉ b' ∧ f a = b ++ [c] ∧ g a = b' ++ [c]) :
    l.flatMap f = l.flatMap g ↔ ∀ a ∈ l, f a = g a := by
  refine ⟨fun heq => ?_, List.flatMap_congr⟩
  induction l with
  | nil => simp
  | cons a l ih =>
      obtain ⟨c, b, b', hb, hb', hf, hg⟩ := h a List.mem_cons_self
      rw [List.flatMap_cons, List.flatMap_cons, hf, hg, List.append_assoc, List.append_assoc,
        List.singleton_append, List.singleton_append] at heq
      obtain ⟨hword, hrest⟩ := append_cons_inj hb hb' heq
      rw [List.forall_mem_cons, hf, hg, hword]
      exact ⟨rfl, ih (fun a' ha' => h a' (List.mem_cons_of_mem a ha')) hrest⟩

end Words

end Container
