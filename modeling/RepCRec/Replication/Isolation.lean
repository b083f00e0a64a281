import RepCRec.Replication.Invariant

/-!
Isolation under available copies: a lock that its transaction holds on a copy of `v` that has
not failed since the lock was granted (`Config.Guards`) keeps all other transactions from
committing a write of `v`, at any copy.

* `Guards.steps`: a guard lasts until its transaction ends or the site of the copy fails.
* `pending_of_granted`: the pending writes of a transaction last as long as it is live.
* `isolation`: in a run that grants a lock on `v` at the copies in `L`, another transaction
  commits a write of `v` only after the lock holder has ended or all sites in `L` have failed.
-/

namespace AvailableCopies

universe u

variable {Site Var Tran Val : Type u} {copies : Var → Set Site} {c c' : Config Site Var Tran Val}

/-- `T` holds a lock on the copy of `v` at `s` that excludes other writers of `v`. -/
def Config.Guards (c : Config Site Var Tran Val) (T : Tran) (s : Site) (v : Var) : Prop :=
  c.excl T s v ∨ (c.shared T s v ∧ c.readable s v)

lemma Config.Guards.live {T : Tran} {s : Site} {v : Var} (hg : c.Guards T s v)
    (h : Inv copies c) : c.live T := by
  rcases hg with hx | ⟨hs, -⟩
  · exact h.excl_live hx
  · exact h.shared_live hs

/-- A guard excludes the pending writes of all other transactions. -/
lemma Config.Guards.eq_of_pending {T T' : Tran} {s s' : Site} {v : Var} (hg : c.Guards T s v)
    (h : Inv copies c) (hp : c.pending T' s' v ≠ none) : T = T' :=
  h.writer_excl hg (h.pending_iff.mp hp)

/-- The action ends the transaction, other than by a failure. -/
def Action.Ends (a : Action Site Var Tran Val) (T : Tran) : Prop :=
  a = .commit T ∨ a = .abort T

/-- The action grants `T` a lock on the copies of `v` in `L`. -/
def Action.Grants (a : Action Site Var Tran Val) (T : Tran) (v : Var) (L : Set Site) : Prop :=
  a = .lockShared T v L ∨ ∃ x, a = .lockExcl T v L x

/-- A granted lock is a guard at every copy where it was granted. -/
lemma Step.guards {a : Action Site Var Tran Val} (hs : Step copies c a c') {T : Tran} {v : Var}
    {L : Set Site} (ha : a.Grants T v L) {s : Site} (hsL : s ∈ L) : c'.Guards T s v := by
  rcases ha with rfl | ⟨x, rfl⟩
  · cases hs with
    | lockShared _ _ hL => exact Or.inr ⟨Or.inr ⟨rfl, hsL, rfl⟩, ((hL s).mp hsL).2.2⟩
  · cases hs with
    | lockExcl _ _ _ => exact Or.inl (Or.inr ⟨rfl, hsL, rfl⟩)

/-- A guard lasts through a step that neither ends its transaction nor fails its site. -/
lemma Config.Guards.step {a : Action Site Var Tran Val} {T : Tran} {s : Site} {v : Var}
    (hg : c.Guards T s v) (hs : Step copies c a c') (hend : ¬a.Ends T) (hfail : a ≠ .fail s) :
    c'.Guards T s v := by
  cases hs with
  | create _ => exact hg
  | lockShared _ _ _ => exact hg.imp id fun h => ⟨Or.inl h.1, h.2⟩
  | @lockExcl T' w L x _ _ _ =>
      rcases hg with hx | ⟨hsh, hr⟩
      · exact Or.inl (Or.inl hx)
      · by_cases hw : T = T' ∧ s ∈ L ∧ v = w
        · exact Or.inl (Or.inr hw)
        · exact Or.inr ⟨⟨hsh, hw⟩, hr⟩
  | overwrite _ => exact hg
  | @commit T' _ _ _ =>
      have hT : T ≠ T' := fun h => hend (Or.inl (h ▸ rfl))
      exact hg.imp (fun hx => ⟨hx, hT⟩) fun h => ⟨⟨h.1, hT⟩, Or.inl h.2⟩
  | @abort T' =>
      have hT : T ≠ T' := fun h => hend (Or.inr (h ▸ rfl))
      exact hg.imp (fun hx => ⟨hx, hT⟩) fun h => ⟨⟨h.1, hT⟩, h.2⟩
  | @fail s' _ =>
      have hs : s ≠ s' := fun h => hfail (h ▸ rfl)
      exact hg.imp id fun h => ⟨h.1, h.2, hs⟩
  | recover => exact hg.imp id fun h => ⟨h.1, Or.inl h.2⟩

lemma Config.Guards.steps {as : List (Action Site Var Tran Val)} {T : Tran} {s : Site} {v : Var}
    (hg : c.Guards T s v) (hs : Steps copies c as c') (hend : ∀ a ∈ as, ¬a.Ends T)
    (hfail : .fail s ∉ as) : c'.Guards T s v := by
  induction hs with
  | nil => exact hg
  | @cons _ _ _ a as hstep _ ih =>
      refine ih (hg.step hstep (hend a (by simp)) ?_) (fun b hb => hend b (by simp [hb])) ?_
      · rintro rfl
        exact hfail (by simp)
      · exact fun h => hfail (by simp [h])

lemma Steps.of_append {as bs : List (Action Site Var Tran Val)} (h : Steps copies c (as ++ bs) c') :
    ∃ d, Steps copies c as d ∧ Steps copies d bs c' := by
  induction as generalizing c with
  | nil => exact ⟨c, .nil, h⟩
  | cons a as ih =>
      cases h with
      | cons ha h' =>
          obtain ⟨d, h1, h2⟩ := ih h'
          exact ⟨d, .cons ha h1, h2⟩

/-! ### Pending writes -/

/-- A transaction that is live after a step, and was not created by it, was live before and has
kept its pending writes. -/
lemma Step.pending_of_live {a : Action Site Var Tran Val} {T : Tran} (hs : Step copies c a c')
    (ha : a ≠ .create T) (hT : c'.live T) :
    c.live T ∧ ∀ s v, c.pending T s v ≠ none → c'.pending T s v ≠ none := by
  have hset : ∀ {T' v' L x} s v, c.pending T s v ≠ none →
      (c.setPending T' v' L x).pending T s v ≠ none := by
    intro T' v' L x s v hp
    by_cases hw : T = T' ∧ s ∈ L ∧ v = v'
    · simp [Config.setPending, hw]
    · simpa [Config.setPending, hw] using hp
  cases hs with
  | @create T' _ =>
      refine ⟨hT.resolve_right ?_, fun _ _ => id⟩
      rintro rfl
      exact ha rfl
  | lockShared _ _ _ => exact ⟨hT, fun _ _ => id⟩
  | lockExcl _ _ _ => exact ⟨hT, hset⟩
  | overwrite _ => exact ⟨hT, hset⟩
  | commit _ _ =>
      refine ⟨hT.1, fun s v hp => ?_⟩
      simpa [Config.finish, Config.forget, Config.release, Config.install, hT.2] using hp
  | abort =>
      refine ⟨hT.1, fun s v hp => ?_⟩
      simpa [Config.finish, Config.forget, Config.release, Config.install, hT.2] using hp
  | fail _ => exact ⟨hT, fun _ _ => id⟩
  | recover => exact ⟨hT, fun _ _ => id⟩

lemma Steps.pending_of_live {as : List (Action Site Var Tran Val)} {T : Tran}
    (hs : Steps copies c as c') (ha : .create T ∉ as) (hT : c'.live T) :
    c.live T ∧ ∀ s v, c.pending T s v ≠ none → c'.pending T s v ≠ none := by
  induction hs with
  | nil => exact ⟨hT, fun _ _ => id⟩
  | @cons _ _ _ a as hstep _ ih =>
      obtain ⟨h1, h2⟩ := ih (fun h => ha (List.mem_cons_of_mem _ h)) hT
      obtain ⟨h3, h4⟩ := hstep.pending_of_live (fun h => ha (h ▸ List.mem_cons_self)) h1
      exact ⟨h3, fun s v hp => h2 s v (h4 s v hp)⟩

/-- A grant is to a transaction that was live or has been created. -/
lemma Steps.created_of_granted {as bs : List (Action Site Var Tran Val)} {T : Tran} {v : Var}
    {L : Set Site} {x : Val} (hrun : Steps copies c (as ++ .lockExcl T v L x :: bs) c')
    (hT : ¬c.live T) : .create T ∈ as := by
  obtain ⟨d, h1, h2⟩ := Steps.of_append hrun
  by_contra ha
  cases h2 with
  | cons hstep _ =>
      cases hstep with
      | lockExcl hlive _ _ => exact hT (h1.pending_of_live ha hlive).1

/-- **Pending writes.** A write that was granted is pending at its copies as long as its
transaction is live. -/
theorem pending_of_granted {as bs : List (Action Site Var Tran Val)} {T : Tran} {v : Var}
    {L : Set Site} {x : Val} {s : Site} (hrun : Steps copies c (as ++ .lockExcl T v L x :: bs) c')
    (hb : .create T ∉ bs) (hT : c'.live T) (hs : s ∈ L) : c'.pending T s v ≠ none := by
  obtain ⟨d, -, h2⟩ := Steps.of_append hrun
  cases h2 with
  | cons hstep hrest =>
      refine (hrest.pending_of_live hb hT).2 s v ?_
      cases hstep with
      | lockExcl _ _ _ => simp [Config.lockExcl, Config.takeExcl, Config.setPending, hs]

/-- The action writes the value `x` to `v` for `T`. -/
def Action.Writes (T : Tran) (v : Var) (x : Val) (a : Action Site Var Tran Val) : Prop :=
  (∃ L, a = .lockExcl T v L x) ∨ ∃ L, a = .overwrite T v L x

/-- A pending write was pending before, or the step writes it. -/
lemma Step.pending_cases {a : Action Site Var Tran Val} {T : Tran} {s : Site} {v : Var} {x : Val}
    (h : Step copies c a c') (hp : c'.pending T s v = some x) :
    c.pending T s v = some x ∨ a.Writes T v x := by
  have hset : ∀ {T' v' L y}, (c.setPending T' v' L y).pending T s v = some x →
      c.pending T s v = some x ∨ (T = T' ∧ v = v' ∧ y = x) := by
    intro T' v' L y h
    by_cases hw : T = T' ∧ s ∈ L ∧ v = v'
    · exact Or.inr ⟨hw.1, hw.2.2, by simpa [Config.setPending, hw] using h⟩
    · exact Or.inl (by simpa [Config.setPending, hw] using h)
  have hforget : ∀ {d : Config Site Var Tran Val} {T'}, d.pending = c.pending →
      (d.finish T').pending T s v = some x → c.pending T s v = some x := by
    intro d T' hd h
    by_cases hT : T = T'
    · simp [Config.finish, Config.forget, hT] at h
    · simpa [Config.finish, Config.forget, Config.release, hT, hd] using h
  cases h with
  | lockExcl =>
      refine (hset hp).imp id ?_
      rintro ⟨rfl, rfl, rfl⟩
      exact Or.inl ⟨_, rfl⟩
  | overwrite =>
      refine (hset hp).imp id ?_
      rintro ⟨rfl, rfl, rfl⟩
      exact Or.inr ⟨_, rfl⟩
  | commit => exact Or.inl (hforget rfl hp)
  | abort => exact Or.inl (hforget rfl hp)
  | _ => exact Or.inl hp

lemma Steps.pending_cases {as : List (Action Site Var Tran Val)} {T : Tran} {s : Site} {v : Var}
    {x : Val} (h : Steps copies c as c') (hp : c'.pending T s v = some x) :
    c.pending T s v = some x ∨ ∃ a ∈ as, a.Writes T v x := by
  induction h with
  | nil => exact Or.inl hp
  | @cons _ _ _ a as hs _ ih =>
      rcases ih hp with h | ⟨b, hb, h⟩
      · exact (hs.pending_cases h).imp id fun h => ⟨a, List.mem_cons_self, h⟩
      · exact Or.inr ⟨b, List.mem_cons_of_mem a hb, h⟩

/-! ### Isolation -/

/-- **Isolation.** After a run that grants `T` a lock on `v` at the copies in `L` and does not
end `T`, only `T` has pending writes of `v`, unless all sites in `L` have failed meanwhile. -/
theorem isolation {as bs : List (Action Site Var Tran Val)} {a : Action Site Var Tran Val}
    {T T' : Tran} {v : Var} {L : Set Site} {s' : Site} (h : Inv copies c)
    (hrun : Steps copies c (as ++ a :: bs) c') (ha : a.Grants T v L)
    (hend : ∀ b ∈ bs, ¬b.Ends T) (hp : c'.pending T' s' v ≠ none) (hT : T' ≠ T) :
    ∀ s ∈ L, .fail s ∈ bs := by
  intro s hsL
  by_contra hfail
  obtain ⟨d, h1, h2⟩ := Steps.of_append hrun
  cases h2 with
  | cons hs hrest =>
      have hd : Inv copies d := Inv.steps h1 h
      have hg : c'.Guards T s v := (hs.guards ha hsL).steps hrest hend hfail
      exact hT (hg.eq_of_pending (Inv.steps hrest (hd.step hs)) hp).symm

end AvailableCopies
