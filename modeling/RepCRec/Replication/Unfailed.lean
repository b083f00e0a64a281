import RepCRec.Replication.Invariant

/-!
Steps without site failures. All copies stay readable, and because a lock on a variable is taken at
all of its copies, at most one transaction holds a lock on it (`Unfailed.steps`).
-/

namespace AvailableCopies

universe u

variable {Site Var Tran Val : Type u} {copies : Var → Set Site} {c c' : Config Site Var Tran Val}
  {a : Action Site Var Tran Val} {as : List (Action Site Var Tran Val)} {T T' : Tran} {s : Site}
  {v : Var}

/-- No site has failed: all copies are readable, and a variable is locked by one transaction at
most. -/
structure Unfailed (c : Config Site Var Tran Val) : Prop where
  up : ∀ s, c.up s
  readable : ∀ s v, c.readable s v
  holder : ∀ {T T' s s' v}, c.Holds T s v → c.Holds T' s' v → T = T'

lemma Inv.mem_copies (hi : Inv copies c) (h : c.Holds T s v) : s ∈ copies v :=
  h.elim hi.excl_copies hi.shared_copies

namespace Unfailed

lemma of_initial (h : Initial copies c) : Unfailed c :=
  ⟨h.up, h.readable, fun hl _ => absurd hl (not_or.mpr ⟨h.not_excl _ _ _, h.not_shared _ _ _⟩)⟩

/-- A transaction locks a variable only if no other transaction holds a lock on it. -/
lemma sole (hi : Inv copies c) (h : Unfailed c) (hs : Step copies c a c') (ha : a.Locks T v)
    (hl : c.Holds T' s v) : T' = T := by
  have hmem := hi.mem_copies hl
  rcases ha with ⟨L, rfl⟩ | ⟨L, x, rfl⟩
  · cases hs with
    | lockShared _ hfree _ =>
        obtain ⟨hx, hsh⟩ := hfree s hmem (h.up s) T'
        exact absurd hl (not_or.mpr ⟨hx, hsh⟩)
  · cases hs with
    | lockExcl _ hfree _ =>
        obtain ⟨hx, hsh⟩ := hfree s hmem (h.up s) T'
        exact hl.elim (fun h => absurd h hx) hsh

theorem step (hi : Inv copies c) (h : Unfailed c) (hs : Step copies c a c')
    (ha : ∀ s, a ≠ .fail s) : Unfailed c' := by
  have hup : (∀ s, c'.up s) ∧ ∀ s v, c'.readable s v := by
    cases hs with
    | commit => exact ⟨h.up, fun s v => Or.inl (h.readable s v)⟩
    | @fail s => exact absurd rfl (ha s)
    | recover => exact ⟨fun s => Or.inl (h.up s), fun s v => Or.inl (h.readable s v)⟩
    | _ => exact ⟨h.up, h.readable⟩
  refine ⟨hup.1, hup.2, fun {T T' s s' v} hl hl' => ?_⟩
  rcases hs.held hl with hold | hnew
  · rcases hs.held hl' with hold' | hnew'
    · exact h.holder hold hold'
    · exact h.sole hi hs hnew' hold
  · rcases hs.held hl' with hold' | hnew'
    · exact (h.sole hi hs hnew hold').symm
    · exact Action.Locks.unique hnew hnew'

/-- **Without failures a variable is locked by one transaction at most.** -/
theorem steps (hi : Inv copies c) (h : Unfailed c) (hs : Steps copies c as c')
    (ha : ∀ s, .fail s ∉ as) : Unfailed c' := by
  induction hs with
  | nil => exact h
  | @cons c c₁ c' a as hs _ ih =>
      refine ih (hi.step hs) (h.step hi hs fun s heq => ha s ?_) fun s hmem => ha s ?_
      · rw [heq]
        exact List.mem_cons_self
      · exact List.mem_cons_of_mem a hmem

end Unfailed

end AvailableCopies
