import RepCRec.Replication.Config

/-!
The invariant of available copies (`Inv`), preserved by every step (`Inv.step`).

* A copy is locked by one transaction at a time (`excl_excl`, `excl_shared`, `shared_shared`),
  and the pending writes are exactly the exclusive locks (`pending_iff`), at sites that are up.
* **Exclusion across copies** (`writer_excl`): a transaction with an exclusive lock on some
  copy of `v`, or with a shared lock on a copy that is still readable, excludes the exclusive
  locks of all others on all copies of `v`.
* **Coverage** (`pending_covers`): the pending writes of `v` reach every readable copy of `v`,
  although sites may have come back since the lock was granted.
* **One copy** (`one_copy`): the readable copies hold the value of the database.
-/

namespace AvailableCopies

universe u

variable {Site Var Tran Val : Type u} {copies : Var → Set Site} {c c' : Config Site Var Tran Val}

structure Inv (copies : Var → Set Site) (c : Config Site Var Tran Val) : Prop where
  excl_live : ∀ {T s v}, c.excl T s v → c.live T
  shared_live : ∀ {T s v}, c.shared T s v → c.live T
  excl_copies : ∀ {T s v}, c.excl T s v → s ∈ copies v
  shared_copies : ∀ {T s v}, c.shared T s v → s ∈ copies v
  excl_excl : ∀ {T T' s v}, c.excl T s v → c.excl T' s v → T = T'
  excl_shared : ∀ {T T' s v}, c.excl T s v → ¬c.shared T' s v
  shared_shared : ∀ {T T' s v}, c.shared T s v → c.shared T' s v → T = T'
  pending_iff : ∀ {T s v}, c.pending T s v ≠ none ↔ c.excl T s v
  excl_up : ∀ {T s v}, c.excl T s v → c.up s
  readable_up : ∀ {s v}, c.readable s v → c.up s
  sole_readable : ∀ {s v}, copies v = {s} → c.up s → c.readable s v
  writer_excl : ∀ {T T' s s' v}, c.excl T s v ∨ (c.shared T s v ∧ c.readable s v) →
    c.excl T' s' v → T = T'
  pending_covers : ∀ {T s s' v x}, c.pending T s v = some x → s' ∈ copies v → c.readable s' v →
    c.pending T s' v = some x
  pending_same : ∀ {T s s' v x y}, c.pending T s v = some x → c.pending T s' v = some y → x = y
  one_copy : ∀ {s v}, s ∈ copies v → c.readable s v → c.value s v = c.db v
  sole_copy : ∀ {s v}, copies v = {s} → c.value s v = c.db v

namespace Inv

lemma excl_of_pending (h : Inv copies c) {T : Tran} {s : Site} {v : Var} {x : Val}
    (hp : c.pending T s v = some x) : c.excl T s v :=
  h.pending_iff.mp (by simp [hp])

/-- Where `T` has no exclusive lock on `v` it has no pending write of `v`. -/
lemma pending_eq_none (h : Inv copies c) {T : Tran} {s : Site} {v : Var}
    (hn : ¬c.excl T s v) : c.pending T s v = none := by
  by_contra hp
  exact hn (h.pending_iff.mp hp)

/-! ### The steps -/

lemma create (h : Inv copies c) (T : Tran) : Inv copies (c.create T) where
  excl_live hx := Or.inl (h.excl_live hx)
  shared_live hs := Or.inl (h.shared_live hs)
  excl_copies := h.excl_copies
  shared_copies := h.shared_copies
  excl_excl := h.excl_excl
  excl_shared := h.excl_shared
  shared_shared := h.shared_shared
  pending_iff := h.pending_iff
  excl_up := h.excl_up
  readable_up := h.readable_up
  sole_readable := h.sole_readable
  writer_excl := h.writer_excl
  pending_covers := h.pending_covers
  pending_same := h.pending_same
  one_copy := h.one_copy
  sole_copy := h.sole_copy

/-- An exclusive lock on any copy of `v` is on a copy that is up, so it stands in the way of a
new lock on `v`. -/
lemma not_excl_of_free (h : Inv copies c) {v : Var}
    (hfree : ∀ s ∈ copies v, c.up s → ∀ T', ¬c.excl T' s v) (T : Tran) (s : Site) :
    ¬c.excl T s v :=
  fun hx => hfree s (h.excl_copies hx) (h.excl_up hx) T hx

lemma lockShared (h : Inv copies c) {T : Tran} {v : Var} {L : Set Site} (hT : c.live T)
    (hfree : ∀ s ∈ copies v, c.up s → ∀ T', ¬c.excl T' s v ∧ ¬c.shared T' s v)
    (hL : ∀ s, s ∈ L ↔ s ∈ copies v ∧ c.up s ∧ c.readable s v) :
    Inv copies (c.lockShared T v L) := by
  have hno : ∀ T' s, ¬c.excl T' s v :=
    h.not_excl_of_free fun s hs hup T' => (hfree s hs hup T').1
  have hnos : ∀ s ∈ L, ∀ T', ¬c.shared T' s v := fun s hs T' =>
    (hfree s ((hL s).mp hs).1 ((hL s).mp hs).2.1 T').2
  constructor
  case excl_live => exact h.excl_live
  case shared_live =>
    rintro T' s w (hs | ⟨rfl, -, -⟩)
    · exact h.shared_live hs
    · exact hT
  case excl_copies => exact h.excl_copies
  case shared_copies =>
    rintro T' s w (hs | ⟨rfl, hs, rfl⟩)
    · exact h.shared_copies hs
    · exact ((hL s).mp hs).1
  case excl_excl => exact h.excl_excl
  case excl_shared =>
    rintro T₁ T₂ s w hx (hs | ⟨-, -, rfl⟩)
    · exact h.excl_shared hx hs
    · exact hno T₁ s hx
  case shared_shared =>
    rintro T₁ T₂ s w (h1 | ⟨rfl, h1, rfl⟩) (h2 | ⟨rfl, h2, hw⟩)
    · exact h.shared_shared h1 h2
    · exact absurd (hw ▸ h1) (hnos s h2 T₁)
    · exact absurd h2 (hnos s h1 T₂)
    · rfl
  case pending_iff => exact h.pending_iff
  case excl_up => exact h.excl_up
  case readable_up => exact h.readable_up
  case sole_readable => exact h.sole_readable
  case writer_excl =>
    rintro T₁ T₂ s s' w (hx | ⟨hs | ⟨-, -, rfl⟩, hr⟩) h2
    · exact h.writer_excl (Or.inl hx) h2
    · exact h.writer_excl (Or.inr ⟨hs, hr⟩) h2
    · exact absurd h2 (hno T₂ s')
  case pending_covers => exact h.pending_covers
  case pending_same => exact h.pending_same
  case one_copy => exact h.one_copy
  case sole_copy => exact h.sole_copy

lemma lockExcl (h : Inv copies c) {T : Tran} {v : Var} {L : Set Site} {x : Val} (hT : c.live T)
    (hfree : ∀ s ∈ copies v, c.up s → ∀ T', ¬c.excl T' s v ∧ (c.shared T' s v → T' = T))
    (hL : ∀ s, s ∈ L ↔ s ∈ copies v ∧ c.up s) :
    Inv copies (c.lockExcl T v L x) := by
  have hno : ∀ T' s, ¬c.excl T' s v :=
    h.not_excl_of_free fun s hs hup T' => (hfree s hs hup T').1
  have hpn : ∀ T' s, c.pending T' s v = none := fun T' s => h.pending_eq_none (hno T' s)
  have hsh : ∀ s ∈ L, ∀ T', c.shared T' s v → T' = T := fun s hs T' =>
    (hfree s ((hL s).mp hs).1 ((hL s).mp hs).2 T').2
  constructor
  case excl_live =>
    rintro T' s w (hx | ⟨rfl, -, -⟩)
    · exact h.excl_live hx
    · exact hT
  case shared_live => exact fun hs => h.shared_live hs.1
  case excl_copies =>
    rintro T' s w (hx | ⟨rfl, hs, rfl⟩)
    · exact h.excl_copies hx
    · exact ((hL s).mp hs).1
  case shared_copies => exact fun hs => h.shared_copies hs.1
  case excl_excl =>
    rintro T₁ T₂ s w (h1 | ⟨rfl, h1, rfl⟩) (h2 | ⟨rfl, h2, hw⟩)
    · exact h.excl_excl h1 h2
    · exact absurd (hw ▸ h1) (hno T₁ s)
    · exact absurd h2 (hno T₂ s)
    · rfl
  case excl_shared =>
    rintro T₁ T₂ s w (h1 | ⟨rfl, h1, rfl⟩) ⟨h2, hn⟩
    · exact h.excl_shared h1 h2
    · exact hn ⟨hsh s h1 T₂ h2, h1, rfl⟩
  case shared_shared => exact fun h1 h2 => h.shared_shared h1.1 h2.1
  case pending_iff =>
    intro T' s w
    by_cases hw : T' = T ∧ s ∈ L ∧ w = v
    · simp [Config.lockExcl, Config.takeExcl, Config.setPending, hw]
    · simpa [Config.lockExcl, Config.takeExcl, Config.setPending, hw] using h.pending_iff
  case excl_up =>
    rintro T' s w (hx | ⟨rfl, hs, rfl⟩)
    · exact h.excl_up hx
    · exact ((hL s).mp hs).2
  case readable_up => exact h.readable_up
  case sole_readable => exact h.sole_readable
  case writer_excl =>
    rintro T₁ T₂ s s' w h1 (h2 | ⟨rfl, h2, rfl⟩)
    · rcases h1 with (h1 | ⟨rfl, -, rfl⟩) | ⟨⟨h1, -⟩, hr⟩
      · exact h.writer_excl (Or.inl h1) h2
      · exact absurd h2 (hno T₂ s')
      · exact h.writer_excl (Or.inr ⟨h1, hr⟩) h2
    · rcases h1 with (h1 | ⟨rfl, -, -⟩) | ⟨⟨h1, -⟩, hr⟩
      · exact absurd h1 (hno T₁ s)
      · rfl
      -- a shared lock of another transaction on a readable copy is on a copy that is up
      · exact (hfree s (h.shared_copies h1) (h.readable_up hr) T₁).2 h1
  case pending_covers =>
    intro T' s s' w y hp hs' hr
    by_cases hw : w = v
    · subst hw
      by_cases hTs : T' = T ∧ s ∈ L
      · have hs'L : s' ∈ L := (hL s').mpr ⟨hs', h.readable_up hr⟩
        simpa [Config.lockExcl, Config.takeExcl, Config.setPending, hTs, hs'L] using hp
      · have : T' = T → s ∉ L := fun hT' hs => hTs ⟨hT', hs⟩
        simp [Config.lockExcl, Config.takeExcl, Config.setPending, hpn] at hp
        exact absurd hp.1.2 (this hp.1.1)
    · simp only [Config.lockExcl, Config.takeExcl, Config.setPending, hw, and_false,
        if_false] at hp ⊢
      exact h.pending_covers hp hs' hr
  case pending_same =>
    intro T' s s' w y z hy hz
    by_cases hw : w = v
    · subst hw
      simp [Config.lockExcl, Config.takeExcl, Config.setPending, hpn] at hy hz
      exact hy.2.symm.trans hz.2
    · simp only [Config.lockExcl, Config.takeExcl, Config.setPending, hw, and_false,
        if_false] at hy hz
      exact h.pending_same hy hz
  case one_copy => exact h.one_copy
  case sole_copy => exact h.sole_copy

/-- Overwriting replaces a pending value at all copies where one is pending. -/
lemma overwrite (h : Inv copies c) {T : Tran} {v : Var} {L : Set Site} {x : Val}
    (hL : ∀ s, s ∈ L ↔ c.excl T s v) : Inv copies (c.setPending T v L x) := by
  have hp : ∀ T' s w, (T' = T ∧ s ∈ L ∧ w = v) → c.excl T' s w := by
    rintro T' s w ⟨rfl, hs, rfl⟩
    exact (hL s).mp hs
  constructor
  case excl_live => exact h.excl_live
  case shared_live => exact h.shared_live
  case excl_copies => exact h.excl_copies
  case shared_copies => exact h.shared_copies
  case excl_excl => exact h.excl_excl
  case excl_shared => exact h.excl_shared
  case shared_shared => exact h.shared_shared
  case pending_iff =>
    intro T' s w
    by_cases hw : T' = T ∧ s ∈ L ∧ w = v
    · simpa [Config.setPending, hw] using hp _ _ _ hw
    · simpa [Config.setPending, hw] using h.pending_iff
  case excl_up => exact h.excl_up
  case readable_up => exact h.readable_up
  case sole_readable => exact h.sole_readable
  case writer_excl => exact h.writer_excl
  case pending_covers =>
    intro T' s s' w y hy hs' hr
    by_cases hw : T' = T ∧ w = v
    · obtain ⟨rfl, rfl⟩ := hw
      by_cases hs : s ∈ L
      · obtain ⟨z, hz⟩ := Option.ne_none_iff_exists'.mp (h.pending_iff.mpr ((hL s).mp hs))
        have hs'L : s' ∈ L := (hL s').mpr (h.excl_of_pending (h.pending_covers hz hs' hr))
        simpa [Config.setPending, hs, hs'L] using hy
      · have hn : c.pending T' s w = none := h.pending_eq_none fun hx => hs ((hL s).mpr hx)
        simp [Config.setPending, hs, hn] at hy
    · have hw' : ∀ s, ¬(T' = T ∧ s ∈ L ∧ w = v) := fun s h' => hw ⟨h'.1, h'.2.2⟩
      simp only [Config.setPending, if_neg (hw' s), if_neg (hw' s')] at hy ⊢
      exact h.pending_covers hy hs' hr
  case pending_same =>
    intro T' s s' w y z hy hz
    by_cases hw : T' = T ∧ w = v
    · obtain ⟨rfl, rfl⟩ := hw
      have hpL : ∀ s, s ∉ L → c.pending T' s w = none := fun s hs =>
        h.pending_eq_none fun hx => hs ((hL s).mpr hx)
      have key : ∀ s a, (c.setPending T' w L x).pending T' s w = some a → x = a := by
        intro s a ha
        by_cases hs : s ∈ L
        · simpa [Config.setPending, hs] using ha
        · simp [Config.setPending, hs, hpL s hs] at ha
      exact (key s y hy).symm.trans (key s' z hz)
    · have hw' : ∀ s, ¬(T' = T ∧ s ∈ L ∧ w = v) := fun s h' => hw ⟨h'.1, h'.2.2⟩
      simp only [Config.setPending, if_neg (hw' s), if_neg (hw' s')] at hy hz
      exact h.pending_same hy hz
  case one_copy => exact h.one_copy
  case sole_copy => exact h.sole_copy

/-- Ending a transaction keeps the invariant. -/
lemma finish (h : Inv copies c) (T : Tran) : Inv copies (c.finish T) := by
  have hpd : ∀ {T' s v x}, (c.finish T).pending T' s v = some x →
      T' ≠ T ∧ c.pending T' s v = some x := by
    intro T' s v x hp
    by_cases hT : T' = T
    · simp [Config.finish, Config.release, Config.forget, hT] at hp
    · exact ⟨hT, by
        simpa [Config.finish, Config.release, Config.forget, hT] using hp⟩
  constructor
  case excl_live => exact fun hx => ⟨h.excl_live hx.1, hx.2⟩
  case shared_live => exact fun hs => ⟨h.shared_live hs.1, hs.2⟩
  case excl_copies => exact fun hx => h.excl_copies hx.1
  case shared_copies => exact fun hs => h.shared_copies hs.1
  case excl_excl => exact fun h1 h2 => h.excl_excl h1.1 h2.1
  case excl_shared => exact fun h1 h2 => h.excl_shared h1.1 h2.1
  case shared_shared => exact fun h1 h2 => h.shared_shared h1.1 h2.1
  case pending_iff =>
    intro T' s v
    by_cases hT : T' = T
    · simp [Config.finish, Config.release, Config.forget, hT]
    · simpa [Config.finish, Config.release, Config.forget, hT] using h.pending_iff
  case excl_up => exact fun hx => h.excl_up hx.1
  case readable_up => exact h.readable_up
  case sole_readable => exact h.sole_readable
  case writer_excl =>
    rintro T₁ T₂ s s' v (h1 | ⟨h1, h1r⟩) h2
    · exact h.writer_excl (Or.inl h1.1) h2.1
    · exact h.writer_excl (Or.inr ⟨h1.1, h1r⟩) h2.1
  case pending_covers =>
    intro T' s s' v x hp hs' hr'
    obtain ⟨hT, hp'⟩ := hpd hp
    simpa [Config.finish, Config.release, Config.forget, hT] using h.pending_covers hp' hs' hr'
  case pending_same => exact fun h1 h2 => h.pending_same (hpd h1).2 (hpd h2).2
  case one_copy => exact h.one_copy
  case sole_copy => exact h.sole_copy

/-- Storing the pending writes of a transaction, which covers all readable copies of the
variables it writes. -/
lemma install (h : Inv copies c) {T : Tran} {db : Var → Val} (hdb : c.DbAfter T db) :
    Inv copies (c.install T db) := by
  constructor
  case excl_live => exact h.excl_live
  case shared_live => exact h.shared_live
  case excl_copies => exact h.excl_copies
  case shared_copies => exact h.shared_copies
  case excl_excl => exact h.excl_excl
  case excl_shared => exact h.excl_shared
  case shared_shared => exact h.shared_shared
  case pending_iff => exact h.pending_iff
  case excl_up => exact h.excl_up
  case readable_up =>
    rintro s v (hr | hp)
    · exact h.readable_up hr
    · exact h.excl_up (h.pending_iff.mp hp)
  case sole_readable => exact fun hc hup => Or.inl (h.sole_readable hc hup)
  case writer_excl =>
    rintro T₁ T₂ s s' v (h1 | ⟨h1, hr | hp⟩) h2
    · exact h.writer_excl (Or.inl h1) h2
    · exact h.writer_excl (Or.inr ⟨h1, hr⟩) h2
    -- a copy that becomes readable is exclusively locked, so nobody shares it
    · exact absurd h1 (h.excl_shared (h.pending_iff.mp hp))
  case pending_covers =>
    rintro T' s s' v x hp hs' (hr | hp')
    · exact h.pending_covers hp hs' hr
    · obtain ⟨y, hy⟩ := Option.ne_none_iff_exists'.mp hp'
      have hT : T = T' :=
        h.writer_excl (Or.inl (h.excl_of_pending hy)) (h.excl_of_pending hp)
      subst hT
      exact (h.pending_same hp hy) ▸ hy
  case pending_same => exact h.pending_same
  case one_copy =>
    intro s v hs hr
    cases hp : c.pending T s v with
    | some x =>
        have : db v = x := (hdb v).1 s x hp
        simp [Config.install, hp, this]
    | none =>
        have hr' : c.readable s v := hr.resolve_right fun h' => h' hp
        -- a write of `v` at another copy would be pending at this one too
        have hall : ∀ s', c.pending T s' v = none := by
          intro s'
          cases hp' : c.pending T s' v with
          | none => rfl
          | some y => exact absurd (h.pending_covers hp' hs hr') (by simp [hp])
        have hv : db v = c.db v := (hdb v).2 hall
        simpa [Config.install, hp, hv] using h.one_copy hs hr'
  case sole_copy =>
    intro s v hc
    cases hp : c.pending T s v with
    | some x =>
        have : db v = x := (hdb v).1 s x hp
        simp [Config.install, hp, this]
    | none =>
        have hall : ∀ s', c.pending T s' v = none := by
          intro s'
          refine h.pending_eq_none fun hx => ?_
          have hs' : s' ∈ copies v := h.excl_copies hx
          rw [hc, Set.mem_singleton_iff] at hs'
          exact h.pending_iff.mpr (hs' ▸ hx) hp
        have hv : db v = c.db v := (hdb v).2 hall
        simpa [Config.install, hp, hv] using h.sole_copy hc

/-- A site fails at which no transaction has a pending write. -/
lemma failSite (h : Inv copies c) {s : Site} (hno : ∀ T v, c.pending T s v = none) :
    Inv copies (c.failSite s) where
  excl_live := h.excl_live
  shared_live := h.shared_live
  excl_copies := h.excl_copies
  shared_copies := h.shared_copies
  excl_excl := h.excl_excl
  excl_shared := h.excl_shared
  shared_shared := h.shared_shared
  pending_iff := h.pending_iff
  excl_up := fun {T s' v} hx => ⟨h.excl_up hx, fun hs => h.pending_iff.mpr (hs ▸ hx) (hno T v)⟩
  readable_up := fun hr => ⟨h.readable_up hr.1, hr.2⟩
  sole_readable := fun hc hup => ⟨h.sole_readable hc hup.1, hup.2⟩
  writer_excl := by
    rintro T T' s₁ s₂ v (h1 | ⟨h1, hr⟩) h2
    · exact h.writer_excl (Or.inl h1) h2
    · exact h.writer_excl (Or.inr ⟨h1, hr.1⟩) h2
  pending_covers := fun hp hs hr => h.pending_covers hp hs hr.1
  pending_same := h.pending_same
  one_copy := fun hs hr => h.one_copy hs hr.1
  sole_copy := h.sole_copy

/-- A site that recovers brings back the variables whose only copy it holds, with the values
that they had. -/
lemma recoverSite (h : Inv copies c) (s : Site) : Inv copies (c.recoverSite copies s) := by
  constructor
  case excl_live => exact h.excl_live
  case shared_live => exact h.shared_live
  case excl_copies => exact h.excl_copies
  case shared_copies => exact h.shared_copies
  case excl_excl => exact h.excl_excl
  case excl_shared => exact h.excl_shared
  case shared_shared => exact h.shared_shared
  case pending_iff => exact h.pending_iff
  case excl_up => exact fun hx => Or.inl (h.excl_up hx)
  case readable_up =>
    rintro s' v (hr | ⟨rfl, -⟩)
    · exact Or.inl (h.readable_up hr)
    · exact Or.inr rfl
  case sole_readable =>
    rintro s' v hc (hup | rfl)
    · exact Or.inl (h.sole_readable hc hup)
    · exact Or.inr ⟨rfl, hc⟩
  case writer_excl =>
    rintro T T' s₁ s₂ v (h1 | ⟨h1, hr | ⟨rfl, hc⟩⟩) h2
    · exact h.writer_excl (Or.inl h1) h2
    · exact h.writer_excl (Or.inr ⟨h1, hr⟩) h2
    -- both locks are on the only copy of `v`
    · have hs₂ : s₂ ∈ copies v := h.excl_copies h2
      rw [hc, Set.mem_singleton_iff] at hs₂
      exact absurd h1 (h.excl_shared (hs₂ ▸ h2))
  case pending_covers =>
    rintro T s₁ s₂ v x hp hs₂ (hr | ⟨rfl, hc⟩)
    · exact h.pending_covers hp hs₂ hr
    · have hs₁ : s₁ ∈ copies v := h.excl_copies (h.excl_of_pending hp)
      rw [hc, Set.mem_singleton_iff] at hs₁
      exact hs₁ ▸ hp
  case pending_same => exact h.pending_same
  case one_copy =>
    rintro s' v hs' (hr | ⟨rfl, hc⟩)
    · exact h.one_copy hs' hr
    · exact h.sole_copy hc
  case sole_copy => exact h.sole_copy

/-- **Every step keeps the invariant.** -/
theorem step {a : Action Site Var Tran Val} (h : Inv copies c) (hs : Step copies c a c') :
    Inv copies c' := by
  cases hs with
  | create _ => exact h.create _
  | lockShared hT hfree hL => exact h.lockShared hT hfree hL
  | lockExcl hT hfree hL => exact h.lockExcl hT hfree hL
  | overwrite hL => exact h.overwrite hL
  | commit _ hdb => exact (h.install hdb).finish _
  | abort => exact h.finish _
  | fail hno => exact h.failSite hno
  | recover => exact h.recoverSite _

theorem steps {as : List (Action Site Var Tran Val)} (hs : Steps copies c as c')
    (h : Inv copies c) : Inv copies c' := by
  induction hs with
  | nil => exact h
  | cons ha _ ih => exact ih (h.step ha)

end Inv

/-- Nobody is live, and everything is up and readable and holds its value of the database. -/
structure Initial (copies : Var → Set Site) (c : Config Site Var Tran Val) : Prop where
  not_excl : ∀ T s v, ¬c.excl T s v
  not_shared : ∀ T s v, ¬c.shared T s v
  not_pending : ∀ T s v, c.pending T s v = none
  up : ∀ s, c.up s
  readable : ∀ s v, c.readable s v
  value : ∀ s v, c.value s v = c.db v

lemma Initial.inv (h : Initial copies c) : Inv copies c where
  excl_live hx := absurd hx (h.not_excl _ _ _)
  shared_live hs := absurd hs (h.not_shared _ _ _)
  excl_copies hx := absurd hx (h.not_excl _ _ _)
  shared_copies hs := absurd hs (h.not_shared _ _ _)
  excl_excl hx := absurd hx (h.not_excl _ _ _)
  excl_shared hx := absurd hx (h.not_excl _ _ _)
  shared_shared hs := absurd hs (h.not_shared _ _ _)
  pending_iff := ⟨fun hp => absurd (h.not_pending _ _ _) hp, fun hx => absurd hx (h.not_excl _ _ _)⟩
  excl_up hx := absurd hx (h.not_excl _ _ _)
  readable_up _ := h.up _
  sole_readable _ _ := h.readable _ _
  writer_excl _ hx := absurd hx (h.not_excl _ _ _)
  pending_covers hp := absurd hp (by simp [h.not_pending])
  pending_same hp := absurd hp (by simp [h.not_pending])
  one_copy _ _ := h.value _ _
  sole_copy _ := h.value _ _

end AvailableCopies
