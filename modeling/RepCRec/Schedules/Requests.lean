import RepCRec.Schedules.History
import RepCRec.Schedules.Redo

/-!
The entries of a trace and the requests that added them, with the state in which each request was
executed (`placed_reaches`). Between a shared lock and the commit of its transaction, no other
transaction commits a write of the variable, as long as one of the locked copies is at a site that
is up whenever some copy of the variable is (`sole_committer`).
-/

namespace RepCRec

open AvailableCopies (Config Action Step Steps Covers upsAfter)
open Container (IterOrder)
open Serial (Op lastWrite)

namespace State

variable {C : Request → State → Prop} {o : IterOrder} {σ σ' τ : State} {r : Request}
  {es es₁ es₂ : List Event} {T T' : TranId} {s : SiteId} {v : VarId} {x : Value} {l : List Feed}

/-- The entry `e` between `tr₁` and `tr₂` was added, with those of `es₁` and `es₂` around it, by the
request `r` when the state was `τ`. -/
structure PlacedBy (C : Request → State → Prop) (tr₁ : List Event) (e : Event) (tr₂ : List Event)
    (r : Request) (τ : State) (es₁ es₂ : List Event) : Prop where
  assumed : C r τ
  outcome : ∃ o τ', τ.exec o r = .ok τ' ∧ Outcome o τ r (es₁ ++ e :: es₂) τ'
  before : tr₁ = τ.trace ++ es₁
  after : ∃ tr₃, tr₂ = es₂ ++ tr₃

/-- Every entry that is no abort was added by a request. -/
def Placed (C : Request → State → Prop) (σ : State) : Prop :=
  ∀ tr₁ e tr₂, σ.trace = tr₁ ++ e :: tr₂ →
    (∃ T, e = .aborted T) ∨ ∃ r τ es₁ es₂, PlacedBy C tr₁ e tr₂ r τ es₁ es₂

lemma Placed.extend (h : Placed C σ) (htr : σ'.trace = σ.trace ++ es)
    (hnew : ∀ tr₁ e tr₂, es = tr₁ ++ e :: tr₂ → (∃ T, e = .aborted T) ∨
      ∃ r τ es₁ es₂, PlacedBy C (σ.trace ++ tr₁) e tr₂ r τ es₁ es₂) : Placed C σ' := by
  intro tr₁ e tr₂ h'
  rw [htr] at h'
  rcases append_cons_eq_append h' with ⟨n, h1, rfl⟩ | ⟨n, h1, rfl⟩
  · refine (h tr₁ e n h1).imp id ?_
    rintro ⟨r, τ, es₁, es₂, hp⟩
    obtain ⟨tr₃, rfl⟩ := hp.after
    exact ⟨r, τ, es₁, es₂, hp.assumed, hp.outcome, hp.before, tr₃ ++ es, by simp⟩
  · exact hnew n e tr₂ h1

end State

/-- **Where the entries of the trace come from.** -/
theorem placed_invariant (C : Request → State → Prop) :
    HistoryInvariant C fun _ => State.Placed C where
  initial := by
    intro tr₁ e tr₂ h
    simp [State.initial] at h
  congr h _ _ htr tr₁ e tr₂ h' := h tr₁ e tr₂ (htr ▸ h')
  abort _ h ha := h.extend (State.gone_abortTransaction ha).2.2 fun tr₁ e tr₂ heq => Or.inl (by
    obtain ⟨-, h2⟩ | ⟨-, h2⟩ := List.singleton_eq_append_iff.mp heq
    · exact ⟨_, (List.cons.inj h2).1⟩
    · cases h2)
  exec _ _ _ h hC hx hout := h.extend hout.trace fun tr₁ e tr₂ heq => Or.inr
    ⟨_, _, tr₁, tr₂, hC, ⟨_, _, hx, heq ▸ hout⟩, rfl, [], (List.append_nil tr₂).symm⟩
  mono _ h := h

section Runs

variable {l : List Feed} {σ τ : State} {r : Request}

lemma placed_reaches (ha : Admissible l) (hr : Reaches l σ) :
    State.Placed (CalledDuring l) σ :=
  (placed_invariant (CalledDuring l)).reaches ha (fun _ _ => id) hr

/-- What is known of a state in which a request is executed. -/
structure Met (l : List Feed) (τ : State) : Prop where
  reached : State.Reached l τ
  created : State.Created (Begun l) τ
  accessing : State.Accessing τ
  pending : State.WritesPending τ
  stored : State.HistoryStored τ
  sites : τ.sites = redo τ.trace

lemma met_called (ha : Admissible l) (hc : CalledDuring l r τ) : ∃ l', Met l' τ := by
  obtain ⟨l', hR, ⟨h1, h2, h3⟩, h4⟩ :=
    (stored_invariant fun _ _ => True).called ha (by simp) hc
  exact ⟨l', hR, h1, h2, h3, h4, sites_of_meets ha (Or.inr ⟨r, hc⟩)⟩

end Runs

/-! ### The entries of a request -/

namespace State

variable {o : IterOrder} {σ σ' : State} {r : Request} {es₁ es₂ : List Event} {T : TranId}
  {s : SiteId} {v : VarId} {x : Value}

/-- The read of a transaction that is not read-only, and the lock that it gets with it. -/
lemma Outcome.read_shares (h : Outcome o σ r (es₁ ++ .reads T s v x :: es₂) σ') {t : Transaction}
    (ht : σ.transactions.lookup T = some t) (hro : t.isReadOnly = false) :
    ∃ L, (es₁ = [] ∧ es₂ = [.sharedLock T v L]) ∨ (es₁ = [.sharedLock T v L] ∧ es₂ = []) := by
  generalize heq : es₁ ++ Event.reads T s v x :: es₂ = es at h
  have hmem : Event.reads T s v x ∈ es := heq ▸ by simp
  obtain ⟨ts, t', rfl, -, -⟩ := h.reads_mem hmem
  cases h with
  | readsVersion ht' hro' =>
      rw [ht] at ht'
      cases ht'
      rw [hro] at hro'
      cases hro'
  | sharesOdd =>
      have heq' : [_] ++ [_] = es₁ ++ Event.reads T s v x :: es₂ := heq.symm
      rcases append_cons_eq_append heq' with ⟨n, h1, -⟩ | ⟨n, h1, rfl⟩
      · obtain ⟨-, h2⟩ | ⟨-, h2⟩ := List.singleton_eq_append_iff.mp h1 <;> cases h2
      · obtain ⟨rfl, h2⟩ | ⟨-, h2⟩ := List.singleton_eq_append_iff.mp h1
        · exact ⟨_, Or.inr ⟨rfl, (List.cons.inj h2).2⟩⟩
        · cases h2
  | sharesEven =>
      revert heq
      generalize o.visit _ = l
      intro heq
      rcases append_cons_eq_append heq.symm with ⟨n, h1, rfl⟩ | ⟨n, h1, -⟩
      · cases l with
        | nil => simp [firstRead] at h1
        | cons s' l =>
            obtain ⟨rfl, h2⟩ | ⟨-, h2⟩ := List.singleton_eq_append_iff.mp h1
            · obtain rfl := (List.cons.inj h2).2
              exact ⟨_, Or.inl ⟨rfl, rfl⟩⟩
            · cases h2
      · obtain ⟨-, h2⟩ | ⟨-, h2⟩ := List.singleton_eq_append_iff.mp h1 <;> cases h2
  | unavailable => simp at hmem
  | waitsForLock => simp at hmem
  | waitsForSite => simp at hmem
  | readAborts => simp at hmem

/-- Before a commit its request has only added stores. -/
lemma Outcome.before_commit (h : Outcome o σ r (es₁ ++ .committed T :: es₂) σ') :
    (∀ T, accesses es₁ T = []) ∧ ∀ e ∈ es₁, ∃ T' s v x ts, e = .installs T' s v x ts := by
  generalize heq : es₁ ++ Event.committed T :: es₂ = es at h
  have hmem : Event.committed T ∈ es := heq ▸ by simp
  obtain ⟨ts, rfl⟩ := h.committed_mem hmem
  have hall : ∀ e ∈ es₁, ∃ T' s v x ts, e = .installs T' s v x ts := by
    cases h with
    | unavailable ha => cases ha
    | waitsForLock ha => cases ha
    | @commits _ _ t _ =>
        intro e he
        have hst : ∀ e ∈ (stores o t).map (storeEvent T ts), ∃ T' s v x ts,
            e = .installs T' s v x ts := by
          intro e he
          obtain ⟨p, -, rfl⟩ := List.mem_map.mp he
          exact ⟨_, _, _, _, _, rfl⟩
        rcases append_cons_eq_append heq.symm with ⟨n, h1, -⟩ | ⟨n, h1, rfl⟩
        · exact hst e (h1 ▸ List.mem_append_left _ he)
        · obtain ⟨rfl, -⟩ | ⟨-, h2⟩ := List.singleton_eq_append_iff.mp h1
          · rw [List.append_nil] at he
            exact hst e he
          · cases h2
    | commitFails => simp at hmem
  refine ⟨fun T => accesses_of_none fun e he op hop => ?_, hall⟩
  obtain ⟨T', s, v, x, ts, rfl⟩ := hall e he
  cases hop

end State

/-! ### Reads and commits -/

section Runs

variable {l : List Feed} {σ τ : State} {tr₁ tr₂ tr₃ : List Event} {T T' : TranId}
  {s s' : SiteId} {v : VarId} {x y : Value} {L : List SiteId}

/-- A commit was executed in a state in which its transaction was live. -/
lemma exists_met_of_committed (ha : Admissible l) (hr : Reaches l σ)
    (htr : σ.trace = tr₁ ++ .committed T :: tr₂) :
    ∃ l' τ es, Met l' τ ∧ T ∈ τ.transactions ∧ tr₁ = τ.trace ++ es ∧
      (∀ T, accesses es T = []) ∧ ∀ e ∈ es, ∃ T' s v x ts, e = .installs T' s v x ts := by
  rcases placed_reaches ha hr _ _ _ htr with ⟨T', hT'⟩ | ⟨r, τ, es₁, es₂, hp⟩
  · cases hT'
  obtain ⟨o, τ', -, hout⟩ := hp.outcome
  obtain ⟨l', hm⟩ := met_called ha hp.assumed
  obtain ⟨h1, h2⟩ := hout.before_commit
  exact ⟨l', τ, es₁, hm, hout.actor_live (List.mem_append_right es₁ List.mem_cons_self) rfl,
    hp.before, h1, h2⟩

/-- The read of a transaction that is not read-only: the state in which it was executed, and the
lock that it got. -/
structure LockedRead (tr₁ tr₂ : List Event) (T : TranId) (s : SiteId) (v : VarId) (x : Value)
    (τ : State) (L : List SiteId) : Prop where
  lock : (tr₁ = τ.trace ∧ ∃ tr₃, tr₂ = .sharedLock T v L :: tr₃) ∨
    tr₁ = τ.trace ++ [.sharedLock T v L]
  free : ∀ s ∈ copies v, τ.view.up s → ∀ T', ¬τ.view.excl T' s v ∧ ¬τ.view.shared T' s v
  copy : s ∈ copies v
  value : x = (τ.getVariable s v).value
  odd : v.isOdd = true → τ.isReadAvailable s v = true
  locked : ∀ s ∈ copies v, τ.isReadAvailable s v = true → s ∈ L

open State in
lemma exists_lockedRead (ha : Admissible l) (hr : Reaches l σ)
    (htr : σ.trace = tr₁ ++ .reads T s' v x :: tr₂) (hcr : .created T false ∈ tr₁) :
    ∃ l' τ L, Met l' τ ∧ T ∈ τ.transactions ∧ LockedRead tr₁ tr₂ T s' v x τ L := by
  rcases placed_reaches ha hr _ _ _ htr with ⟨T', hT'⟩ | ⟨r, τ, es₁, es₂, hp⟩
  · cases hT'
  obtain ⟨o, τ', -, hout⟩ := hp.outcome
  obtain ⟨l', hm⟩ := met_called ha hp.assumed
  obtain ⟨tr₃, rfl⟩ := hp.after
  have hes : Event.reads T s' v x ∈ es₁ ++ .reads T s' v x :: es₂ := by simp
  obtain ⟨ts, t, rfl, ht, hcase⟩ := hout.reads_mem hes
  -- the entry for the begin of `T` is older than the read
  have hcr' : .created T false ∈ τ.trace := by
    rw [hp.before] at hcr
    refine (List.mem_append.mp hcr).resolve_right fun hmem => ?_
    obtain ⟨ts', hr'⟩ := hout.created_mem (List.mem_append_left _ hmem)
    cases hr'
  have hro : t.isReadOnly = false := hm.created.unique (hm.created.live ht) hcr'
  obtain ⟨L, hL⟩ := hout.read_shares ht hro
  obtain ⟨-, hst, hs, rfl, hodd⟩ := hcase.resolve_left fun h => by simp [hro] at h
  refine ⟨l', τ, L, hm, Dict.mem_of_lookup ht, ?_, available_free hm.reached.good hst,
    ((granted_sites (Or.inr hst) s').mp hs).1, rfl, hodd, fun s hs hread => ?_⟩
  swap
  · -- the lock is taken at all readable copies
    have hrun := (hout.simulates_of_fresh hm.reached.good fun hb => by cases hb).steps
    have hact : actions (es₁ ++ .reads T s' v (τ.getVariable s' v).value :: es₂) =
        [.lockShared T v {s | s ∈ L}] := by
      rcases hL with ⟨rfl, rfl⟩ | ⟨rfl, rfl⟩ <;> rfl
    rw [hact] at hrun
    generalize τ'.view = c at hrun
    cases hrun.of_single with
    | lockShared _ _ hmem => exact (hmem s).mpr ⟨hs, hm.reached.good.inv.readable_up hread, hread⟩
  rcases hL with ⟨rfl, rfl⟩ | ⟨rfl, rfl⟩
  · exact Or.inl ⟨by rw [hp.before, List.append_nil], tr₃, rfl⟩
  · exact Or.inr hp.before

/-- The availability in the states of the protocol is that of the trace. -/
lemma upsAfter_eq {c d : Config SiteId VarId TranId Value} {tr es : List Event}
    (h1 : Steps copies State.initial.view (actions tr) c) (h2 : Steps copies c (actions es) d) :
    upsAfter c.up (actions es) = fun s => siteUp (tr ++ es) s = true := by
  have hrun : Steps copies State.initial.view (actions (tr ++ es)) d := by
    rw [actions_append]
    exact h1.append h2
  have hl : Locked (redo (tr ++ es)) d := locked_initial.steps State.good_initial.inv hrun
  rw [← h2.up]
  funext s
  exact propext (hl.up s).symm

/-- What comes before the commit of a transaction, and after its begin, does not end it. -/
lemma not_ends_of_committed (ha : Admissible l) (hr : Reaches l σ)
    (htr : σ.trace = tr₁ ++ tr₂ ++ .committed T :: tr₃) (hcr : ∀ b, .created T b ∉ tr₂) :
    ∀ a ∈ actions tr₂, ¬a.Ends T := by
  obtain ⟨l', τ, es, hm, hT, heq, -, hes⟩ := exists_met_of_committed ha hr htr
  have hno : actions es = [] := by
    rw [actions, List.filterMap_eq_nil_iff]
    intro e he
    obtain ⟨T', s, v, x, ts, rfl⟩ := hes e he
    rfl
  have hrun := hm.reached.simulation.steps
  rw [← List.append_nil (actions τ.trace), ← hno, ← actions_append, ← heq, actions_append] at hrun
  obtain ⟨d, -, h2⟩ := hrun.of_append
  refine h2.not_ends (T := T) hT fun hmem => ?_
  obtain ⟨e, he, hact⟩ := mem_actions hmem
  cases hact
  exact hcr _ he

/-- As long as the locked copies cover the variable, only the transaction that has locked it
writes it. -/
lemma sole_committer (hm : Met l τ) (htr : τ.trace = tr₁ ++ .sharedLock T v L :: tr₂)
    (hend : ∀ a ∈ actions tr₂, ¬a.Ends T)
    (hcov : ∀ m, m <+: tr₂ →
      Covers copies (fun s => siteUp (tr₁ ++ .sharedLock T v L :: m) s = true) {s | s ∈ L} v)
    (hT' : T' ∈ τ.transactions) (hw : .write v y ∈ accesses τ.trace T') : T' = T := by
  have hrun := hm.reached.simulation.steps
  have hinv := State.good_initial.inv
  obtain ⟨z, hz⟩ := Option.isSome_iff_exists.mp (Serial.lastWrite_isSome_iff.mpr ⟨y, hw⟩)
  obtain ⟨s', hp⟩ := (hm.pending T' hT' v z).mp hz
  rw [htr, actions_append] at hrun
  obtain ⟨c, h1, h2⟩ := hrun.of_append
  rw [actions, List.filterMap_cons_some (show (Event.sharedLock T v L).action? = some _ from rfl),
    ← actions] at h2
  cases h2 with
  | @cons _ c' _ _ _ hlock hrest =>
      have hc := hinv.steps h1
      have hlock' : Steps copies State.initial.view (actions (tr₁ ++ [.sharedLock T v L])) c' := by
        rw [actions_append]
        exact h1.append (.single hlock)
      refine AvailableCopies.sole_writer (hlock.covering_of_lockShared hc) (hc.step hlock) hrest
        hend (fun bs cs heq => ?_) T' s' (by rw [show τ.view.pending T' s' v = _ from hp]; simp)
      -- the actions up to there are those of a part of the trace
      obtain ⟨m, n, rfl, rfl, rfl⟩ := List.filterMap_eq_append_iff.mp heq
      rw [actions_append] at hrest
      obtain ⟨d, hd, -⟩ := hrest.of_append
      rw [← actions, upsAfter_eq hlock' hd, List.append_assoc]
      exact hcov m (List.prefix_append m n)

end Runs

end RepCRec
