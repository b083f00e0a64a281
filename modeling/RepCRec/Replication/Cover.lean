import RepCRec.Replication.Isolation

/-!
Locks that cover a variable. As long as one of the copies that a transaction has locked is up
whenever some copy of the variable is, nobody else gets an exclusive lock on the variable, at any
copy (`sole_writer`); it does not matter whether the sites of the locked copies fail meanwhile.
What is pending for a live transaction changes only by its own writes (`pending_iff`).
-/

namespace AvailableCopies

universe u

variable {Site Var Tran Val : Type u} {copies : Var → Set Site} {c c' : Config Site Var Tran Val}
  {a : Action Site Var Tran Val} {as : List (Action Site Var Tran Val)} {T : Tran} {s : Site}
  {v : Var} {x : Val} {L : Set Site}

/-! ### Availability -/

/-- The sites that are up after the action. -/
def Action.ups (a : Action Site Var Tran Val) (up : Site → Prop) : Site → Prop :=
  match a with
  | .fail s => fun s' => up s' ∧ s' ≠ s
  | .recover s => fun s' => up s' ∨ s' = s
  | _ => up

/-- The sites that are up after the actions. -/
def upsAfter (up : Site → Prop) (as : List (Action Site Var Tran Val)) : Site → Prop :=
  as.foldl (fun up a => a.ups up) up

lemma Step.up (h : Step copies c a c') : c'.up = a.ups c.up := by
  cases h <;> rfl

lemma Steps.up (h : Steps copies c as c') : c'.up = upsAfter c.up as := by
  induction h with
  | nil => rfl
  | cons hs _ ih => rw [ih, hs.up, upsAfter, upsAfter, List.foldl_cons]

/-! ### Covers -/

/-- If some copy of `v` is up, one of the copies in `L` is. -/
def Covers (copies : Var → Set Site) (up : Site → Prop) (L : Set Site) (v : Var) : Prop :=
  (∃ s ∈ copies v, up s) → ∃ s ∈ L, up s

/-- The transaction `T` holds locks on the copies of `v` in `L`, and nobody else has an exclusive
lock on a copy of `v`. -/
structure Covering (c : Config Site Var Tran Val) (T : Tran) (v : Var) (L : Set Site) : Prop where
  holds : ∀ s ∈ L, c.Holds T s v
  sole : ∀ T' s, c.excl T' s v → T' = T

lemma Covering.step (h : Covering c T v L) (hi : Inv copies c) (hc : Covers copies c.up L v)
    (hs : Step copies c a c') (hend : ¬a.Ends T) : Covering c' T v L where
  holds s hsL := hs.holds (h.holds s hsL) (fun ha => hend (Or.inl ha)) fun ha => hend (Or.inr ha)
  sole T' s' hx := by
    cases hs with
    | @lockExcl T₁ w L₁ x _ hfree hL =>
        rcases hx with hx | ⟨rfl, hs', rfl⟩
        · exact h.sole T' s' hx
        · -- a copy that `T` has locked is up, and stands in the way of everybody else
          obtain ⟨hmem, hup⟩ := (hL s').mp hs'
          obtain ⟨s, hsL, hsup⟩ := hc ⟨s', hmem, hup⟩
          have hsmem : s ∈ copies v := (h.holds s hsL).elim hi.excl_copies hi.shared_copies
          obtain ⟨hno, hsh⟩ := hfree s hsmem hsup T
          exact (hsh ((h.holds s hsL).resolve_left hno)).symm
    | commit _ _ => exact h.sole T' s' hx.1
    | abort => exact h.sole T' s' hx.1
    | _ => exact h.sole T' s' hx

/-- **A covered variable has a sole writer**: until `T` ends nobody else has a pending write of
`v`. -/
theorem sole_writer (h : Covering c T v L) (hi : Inv copies c) (hs : Steps copies c as c')
    (hend : ∀ a ∈ as, ¬a.Ends T)
    (hc : ∀ bs cs, as = bs ++ cs → Covers copies (upsAfter c.up bs) L v) :
    ∀ T' s, c'.pending T' s v ≠ none → T' = T := by
  have hcov : Covering c' T v L := by
    induction hs with
    | nil => exact h
    | @cons c c₁ c' a as hstep _ ih =>
        refine ih (h.step hi (hc [] (a :: as) rfl) hstep (hend a List.mem_cons_self))
          (hi.step hstep) (fun b hb => hend b (List.mem_cons_of_mem a hb)) fun bs cs heq => ?_
        rw [hstep.up]
        exact hc (a :: bs) cs (by rw [heq, List.cons_append])
  exact fun T' s hp => hcov.sole T' s ((Inv.steps hs hi).pending_iff.mp hp)

/-- A shared lock covers the variable when it is granted. -/
lemma Step.covering_of_lockShared (hi : Inv copies c) (hs : Step copies c (.lockShared T v L) c') :
    Covering c' T v L := by
  cases hs with
  | lockShared _ hfree _ =>
      refine ⟨fun s hs => Or.inr (Or.inr ⟨rfl, hs, rfl⟩), fun T' s' hx => ?_⟩
      exact absurd hx (hfree s' (hi.excl_copies hx) (hi.excl_up hx) T').1

/-- A transaction that is live at the end, and not created on the way, does not end on the way. -/
lemma Steps.not_ends (h : Steps copies c as c') (hT : c'.live T) (hcr : .create T ∉ as) :
    ∀ a ∈ as, ¬a.Ends T := by
  intro a ha hend
  obtain ⟨bs, cs, rfl⟩ := List.append_of_mem ha
  obtain ⟨d, -, h2⟩ := h.of_append
  cases h2 with
  | cons hs hrest =>
      have hlive := (hrest.pending_of_live (fun hc => hcr (by simp [hc])) hT).1
      rcases hend with rfl | rfl
      · cases hs with
        | commit => exact hlive.2 rfl
      · cases hs with
        | abort => exact hlive.2 rfl

/-! ### Pending writes -/

/-- Where a live transaction does not write `v` its pending values of `v` stay as they are. -/
lemma Steps.pending_iff (h : Steps copies c as c') (hT : c'.live T) (hcr : .create T ∉ as)
    (hw : ∀ a ∈ as, ∀ y, ¬a.Writes T v y) :
    c'.pending T s v = some x ↔ c.pending T s v = some x := by
  have hback : ∀ {y}, c'.pending T s v = some y → c.pending T s v = some y := fun {y} hp =>
    (h.pending_cases hp).resolve_right fun ⟨a, ha, hwr⟩ => hw a ha y hwr
  refine ⟨hback, fun hp => ?_⟩
  have hne := (h.pending_of_live hcr hT).2 s v (by rw [hp]; exact Option.some_ne_none x)
  obtain ⟨y, hy⟩ := Option.ne_none_iff_exists'.mp hne
  rw [hy, ← hback hy, hp]

end AvailableCopies
