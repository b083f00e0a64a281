import RepCRec.Guarantees.Deadlocks

/-!
The victims of the loop that resolves deadlocks. A transaction is aborted exactly when there is a
cycle among the transactions that were begun no later (`Sacrificed`, `Resolving.resolved`), and the
edges of the others stay, but for those of a transaction with one edge, to a victim (`Thinned`).
-/

namespace RepCRec

open Container (IterOrder Acyclic)

namespace State

variable {σ σ' τ ρ : State} {o : IterOrder} {T X : TranId} {l : List Feed} {Ts : List TranId}
  {sch : Schedule} {k j : Timestamp}

/-- `T` waits for `T'`, and was not begun after the time `k`. -/
def WaitsBy (σ : State) (k : Timestamp) (T T' : TranId) : Prop :=
  σ.WaitsFor T T' ∧ ∀ j, σ.beganAt T = some j → j ≤ k

/-- There is a cycle of edges from transactions that were not begun after `T`. -/
def Sacrificed (σ : State) (T : TranId) : Prop :=
  ∃ k, σ.beganAt T = some k ∧ ¬Acyclic (σ.WaitsBy k)

lemma Sacrificed.live (h : σ.Sacrificed T) : T ∈ σ.transactions := by
  obtain ⟨k, hk, -⟩ := h
  exact isSome_beganAt.mp (by rw [hk]; rfl)

/-- Without a cycle there is no victim. -/
lemma not_sacrificed (h : Acyclic σ.WaitsFor) : ¬σ.Sacrificed T := by
  rintro ⟨k, -, hc⟩
  exact hc (h.mono And.left)

/-- A transaction that leaves does not matter to the cycles among older ones. -/
lemma acyclic_waitsBy_left (hl : Left X σ σ') (hX : σ.beganAt X = some j) (hk : k < j) :
    Acyclic (σ'.WaitsBy k) ↔ Acyclic (σ.WaitsBy k) := by
  have hbegan : ∀ {T}, T ≠ X → σ'.beganAt T = σ.beganAt T := fun hne => by
    rw [hl.beganAt, if_neg hne]
  constructor
  · intro h
    refine h.add_sink (c := X) ?_ ?_
    · rintro T ⟨-, hle⟩
      exact absurd (hle j hX) hk.not_ge
    · rintro T T' ⟨hedge, hle⟩ hne
      have hT : T ≠ X := by
        rintro rfl
        exact absurd (hle j hX) hk.not_ge
      refine ⟨?_, fun i hi => hle i (hbegan hT ▸ hi)⟩
      rw [WaitsFor, hl.waits, if_neg]
      · exact hedge
      · rintro (rfl | hgone)
        · exact hT rfl
        · have hmem : T' ∈ (σ.waitsFor T).erase X := (List.mem_erase_of_ne hne).mpr hedge
          rw [hgone] at hmem
          cases hmem
  · intro h
    refine h.mono ?_
    rintro T T' ⟨hedge, hle⟩
    obtain ⟨hold, hT⟩ := hl.subset_waitsFor hedge
    exact ⟨hold, fun i hi => hle i ((hbegan hT).trans hi)⟩

/-- The victims among the transactions that were begun before one that leaves. -/
lemma sacrificed_left (hl : Left X σ σ') (hX : σ.beganAt X = some j) (hne : T ≠ X)
    (hT : ∀ k, σ.beganAt T = some k → k < j) : σ'.Sacrificed T ↔ σ.Sacrificed T := by
  have hbegan : σ'.beganAt T = σ.beganAt T := by rw [hl.beganAt, if_neg hne]
  rw [Sacrificed, Sacrificed, hbegan]
  exact exists_congr fun k => and_congr_right fun hk =>
    not_congr (acyclic_waitsBy_left hl hX (hT k hk))

namespace Resolving

/-- **The victims** of the rounds of the loop, when there is no cycle after them. -/
theorem mem_rounds (h : Resolving l σ) (hr : Rounds o Ts σ σ') (hac : Acyclic σ'.WaitsFor) :
    T ∈ σ'.transactions ↔ T ∈ σ.transactions ∧ ¬σ.Sacrificed T := by
  induction hr with
  | nil => exact ⟨fun hT => ⟨hT, not_sacrificed hac⟩, And.left⟩
  | @cons σ ρ σ₁ σ' ref rest Ts hd hs ha _ ih =>
      obtain ⟨hρ, ht⟩ := h.detect hd
      obtain ⟨hfirst, hmax⟩ := hρ.listed.first hs
      have hl := left_abortTransaction ha
      have hsame : ∀ T, ρ.Sacrificed T ↔ σ.Sacrificed T := by
        intro T
        obtain ⟨⟨g, rfl⟩, -⟩ := detectDeadlock_spec hd
        have hw : ∀ k, ({ σ with waitForGraph := g } : State).WaitsBy k = σ.WaitsBy k := fun k => by
          funext T T'
          rw [WaitsBy, waitsFor_detectDeadlock hd]
          rfl
        simp only [Sacrificed, hw]
        rfl
      rw [ih (hρ.abort ha) hac, hl.mem_transactions, ← hsame, ← ht]
      by_cases hT : T = ref.transactionId
      · refine iff_of_false (fun hc => hc.1.2 hT) fun hc => hc.2 ?_
        -- no transaction was begun after the first one of the set
        obtain ⟨b, ρ', hd', hb⟩ := detectDeadlock_iff σ o
        rw [hd] at hd'
        cases hd'
        rw [hT]
        refine ⟨_, hfirst, fun hcyc => hb.mp rfl ?_⟩
        rw [← waitsFor_detectDeadlock hd]
        exact hcyc.mono fun hedge => ⟨hedge, fun i hi => hmax hi⟩
      · rw [sacrificed_left hl hfirst hT fun k hk => ?_]
        · simp [hT]
        · refine lt_of_le_of_ne (hmax hk) ?_
          rintro rfl
          exact hT (hρ.listed.inj hk hfirst)

/-- **What is left when the deadlocks are resolved.** -/
theorem resolved (h : Resolving l σ) (sch : Schedule) : ∃ τ, σ.resolved sch = .ok τ ∧
    Resolving l τ ∧ Acyclic τ.WaitsFor ∧
      ∀ T, T ∈ τ.transactions ↔ T ∈ σ.transactions ∧ ¬σ.Sacrificed T := by
  obtain ⟨Ts, σ₁, τ, hr, hd, hx, hac⟩ := h.resolveDeadlocks (o := sch.detect) (Nat.lt_succ_self _)
  obtain ⟨hτ, ht⟩ := (h.rounds hr).1.detect hd
  refine ⟨τ, hx, hτ, hac, fun T => ?_⟩
  rw [ht]
  refine h.mem_rounds hr ?_
  rwa [← waitsFor_detectDeadlock hd]

end Resolving

/-! ### What else the loop changes -/

/-- The state `τ` is what is left of `σ` when transactions were aborted. -/
structure Thinned (σ τ : State) : Prop where
  live : ∀ {T}, T ∈ τ.transactions → T ∈ σ.transactions
  queue : ∀ {T}, T ∈ τ.blockedTransactionsQueue →
    T ∈ σ.blockedTransactionsQueue ∧ (T ∈ σ.transactions → T ∈ τ.transactions)
  queued : ∀ {T}, T ∈ τ.transactions → T ∈ σ.blockedTransactionsQueue →
    T ∈ τ.blockedTransactionsQueue
  waits : ∀ {T T'}, T' ∈ τ.waitsFor T → T' ∈ σ.waitsFor T
  kept : ∀ {T}, T ∈ τ.transactions → 2 ≤ (σ.waitsFor T).length → τ.waitsFor T = σ.waitsFor T
  site : τ.siteWaitingMap = σ.siteWaitingMap

namespace Thinned

lemma refl (σ : State) : Thinned σ σ :=
  ⟨id, fun hT => ⟨hT, id⟩, fun _ => id, id, fun _ _ => rfl, rfl⟩

/-- One more transaction is aborted. -/
lemma abort (h : Thinned σ τ) (ha : τ.abortTransaction o X = .ok ρ) : Thinned σ ρ := by
  have hq := (gone_abortTransaction ha).2.1
  have hl := left_abortTransaction ha
  refine ⟨fun hT => h.live (hl.mem_transactions.mp hT).1, fun {T} hT => ?_, fun {T} hT hqT => ?_,
    fun hT => h.waits (hl.subset_waitsFor hT).1, fun {T} hT hlen => ?_,
    hl.siteWaitingMap.trans h.site⟩
  · rw [hq, AList.mem_erase] at hT
    obtain ⟨hmem, hlive⟩ := h.queue hT.2
    exact ⟨hmem, fun hσ => hl.mem_transactions.mpr ⟨hlive hσ, hT.1⟩⟩
  · obtain ⟨hT, hne⟩ := hl.mem_transactions.mp hT
    rw [hq, AList.mem_erase]
    exact ⟨hne, h.queued hT hqT⟩
  · obtain ⟨hT, hne⟩ := hl.mem_transactions.mp hT
    have hsame := h.kept hT hlen
    exact (hl.waitsFor_of_several hne (hsame ▸ hlen)).trans hsame

lemma settled (σ : State) : Settled (Thinned σ) where
  graph h hw := ⟨h.live, h.queue, h.queued, fun hT => h.waits (by rwa [hw] at hT),
    fun hT hlen => (hw _).trans (h.kept hT hlen), h.site⟩
  abort h ha := h.abort ha
  request h := ⟨h.live, h.queue, h.queued, h.waits, h.kept, h.site⟩

/-- What the loop that resolves deadlocks leaves. -/
lemma resolved (h : σ.resolved sch = .ok τ) : Thinned σ τ :=
  ((settled σ).resolveDeadlocks (refl σ) h).1

end Thinned

end State

end RepCRec
