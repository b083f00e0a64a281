import RepCRec.Refinement.History
import RepCRec.Refinement.Waiting

/-!
Invariants of runs about the whole state. Every request that is executed is the pending one, which
is not stale, or one that the walk takes from the queue, of a transaction that is live (`Serves`).
So an invariant of runs may be proved request by request, with what is known of the request and of
the state in which it is executed (`ServingInvariant`).
-/

namespace RepCRec

open Container (IterOrder)

/-- After the instructions `l`, and those of `l'` when it is done, the request `r` is executed in
the state `σ`: it is pending, or it is taken from the queue. -/
inductive Serves (l : List Feed) : List Feed → Request → State → Prop where
  | pending {x r σ} : AdmissibleNext l x → x.insr.request x.timestamp = .ok r →
      σ.isStale r = false → (σ.isBlocked r.transactionId = true → r.isReadWrite = true) →
      Serves l (l ++ [x]) r σ
  | queued {r σ} : State.Served l r σ → Serves l l r σ

namespace State

/-- A request that is not dropped is one of a live transaction, unless it is a begin. -/
lemma live_of_isStale {σ : State} {r : Request} (hst : σ.isStale r = false)
    (hb : r.isBegin = false) : r.transactionId = -1 ∨ r.transactionId ∈ σ.transactions := by
  rw [isStale, hb] at hst
  by_contra hno
  simp_all

end State

namespace Serves

variable {l l' : List Feed} {r : Request} {σ : State}

lemma executes (h : Serves l l' r σ) : Executes l l' r := by
  cases h with
  | pending hx hr _ _ => exact .pending hx hr
  | queued hs => exact .queued hs.queueable

/-- A request is executed for a live transaction, unless it is a begin. -/
lemma live (h : Serves l l' r σ) (hb : r.isBegin = false) :
    r.transactionId = -1 ∨ r.transactionId ∈ σ.transactions := by
  cases h with
  | pending _ _ hst _ => exact State.live_of_isStale hst hb
  | queued hs =>
      by_cases hT : r.transactionId = -1
      · exact Or.inl hT
      · exact Or.inr (hs.live hT)

end Serves

/-- An invariant of runs, where `C` holds of every request that is executed. -/
structure ServingInvariant (C : Request → State → Prop) (Q : List Feed → State → Prop) : Prop where
  initial : Q [] State.initial
  graph : ∀ {l σ g}, Q l σ →
    (∀ T, ({ σ with waitForGraph := g } : State).waitsFor T = σ.waitsFor T) →
    Q l { σ with waitForGraph := g }
  request : ∀ {l σ q}, Q l σ → Q l { σ with request := q }
  abort : ∀ {l o T σ σ'}, State.Reached l σ → Q l σ → State.abortTransaction o T σ = .ok σ' →
    Q l σ'
  dequeue : ∀ {l σ T}, Q l σ →
    Q l { σ with blockedTransactionsQueue := σ.blockedTransactionsQueue.erase T }
  enqueue : ∀ {l x r σ}, AdmissibleNext l x → x.insr.request x.timestamp = .ok r →
    State.Reached l σ → Q l σ → σ.isStale r = false → σ.isBlocked r.transactionId = true →
    r.isReadWrite = false → Q (l ++ [x]) (σ.addRequestToBlockedQueue r)
  exec : ∀ {l l' r o es σ σ'}, Admissible l → Serves l l' r σ → State.Reached l σ → Q l σ →
    C r σ → σ.exec o r = .ok σ' → State.Outcome o σ r es σ' → Q l' σ'
  mono : ∀ {l x σ}, AdmissibleNext l x → Q l σ → Q (l ++ [x]) σ

namespace ServingInvariant

variable {C : Request → State → Prop} {Q : List Feed → State → Prop} {l : List Feed} {r : Request}
  {σ τ : State} {sch : Schedule}

lemma dequeueAll (hQ : ServingInvariant C Q) (L : List TranId) (h : Q l σ) :
    Q l (σ.dequeueAll L) := by
  induction L generalizing σ with
  | nil => exact h
  | cons T L ih => exact ih (hQ.dequeue (T := T) h)

lemma walkRule (hQ : ServingInvariant C Q) (ha : Admissible l) (sch : Schedule) :
    State.WalkRule sch C (fun ks fin σ => State.InWalk l ks fin σ ∧ Q l σ)
      fun T rs rest fin σ => State.InSet l T rs rest fin σ ∧ Q l σ := by
  refine (State.walkRule_waiting ha sch).and fun {T r rs rest fin σ σ'} hJ hσ hC hx => ?_
  obtain ⟨es, hout⟩ := State.exec_outcome hx
  exact hQ.exec ha (.queued hJ.served) hJ.reached hσ hC hx hout

/-- **Serving invariants are invariants of runs.** -/
theorem invariant (hQ : ServingInvariant C Q) : Invariant C
    (fun l σ => (State.Reached l σ ∧ State.Waiting (· = -1) σ) ∧ Q l σ)
    (fun l r τ => State.Served l r τ ∧ Q l τ) where
  initial := ⟨(waiting_invariant C).initial, hQ.initial⟩
  settled l ha := by
    have hW := (waiting_invariant C).settled l ha
    exact ⟨fun h hw => ⟨hW.graph h.1 hw, hQ.graph h.2 hw⟩,
      fun h hab => ⟨hW.abort h.1 hab, hQ.abort h.1.1 h.2 hab⟩,
      fun h => ⟨hW.request h.1, hQ.request h.2⟩⟩
  walks l ha := by
    refine State.WalkRule.walks (hQ.walkRule ha) (fun h => ⟨.start h.1.1 h.1.2, h.2⟩)
      (fun {o fin σ} h => ⟨h.1.finish o, hQ.request (hQ.dequeueAll _ h.2)⟩)
      fun {T r rs rest fin τ} h => ⟨h.1.served, h.2⟩
  mono ha hx h := ⟨(waiting_invariant C).mono ha hx h.1, hQ.mono hx h.2⟩
  leads := by
    intro l x r ha hx hr
    have hl := (waiting_invariant C).leads ha hx hr
    refine ⟨fun h hC hst hb he => ?_, fun h hst hb hrw => ⟨hl.enqueue h.1 hst hb hrw,
      hQ.enqueue hx hr h.1.1 h.2 hst hb hrw⟩⟩
    obtain ⟨es, hout⟩ := State.exec_outcome he
    exact ⟨hl.exec h.1 hC hst hb he, hQ.exec ha (.pending hx hr hst hb) h.1.1 h.2 hC he hout⟩

lemma reaches (hQ : ServingInvariant C Q) (ha : Admissible l)
    (hC : ∀ r τ, CalledDuring l r τ → C r τ) (h : Reaches l σ) : Q l σ :=
  (hQ.invariant.reaches ha hC h).1.2

lemma called (hQ : ServingInvariant C Q) (ha : Admissible l)
    (hC : ∀ r τ, CalledDuring l r τ → C r τ) (h : CalledDuring l r τ) :
    ∃ l', State.Reached l' τ ∧ Q l' τ := by
  obtain ⟨l', -, h⟩ := hQ.invariant.called_of (R := fun l τ => State.Reached l τ ∧ Q l τ)
    (fun h => ⟨h.1.1, h.2⟩) (fun h => ⟨h.1.reached, h.2⟩) ha hC h
  exact ⟨l', h⟩

end ServingInvariant

end RepCRec
