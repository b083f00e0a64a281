import RepCRec.Guarantees.BlockedRequests

/-!
The walk over the blocked queue. A request that is executed from the queue must not add a
transaction to the queue or erase one, since the walk stands on an entry of it. This holds in a walk
exactly when it takes no end whose commit fails, and no failure of a site where a transaction with
blocked requests has written (`queue_kept_iff`). An end that is queued can fail after a site has
failed in the meantime (`queue_erased`).
-/

namespace RepCRec

open Container (IterOrder)

namespace State

variable {l : List Feed} {σ τ : State} {o : IterOrder} {r : Request} {sch : Schedule}

/-- The execution of the request leaves the same transactions in the queue. -/
def KeepsQueue (o : IterOrder) (r : Request) (σ : State) : Prop :=
  ∀ σ', σ.exec o r = .ok σ' →
    ∀ T, T ∈ σ'.blockedTransactionsQueue ↔ T ∈ σ.blockedTransactionsQueue

/-- The request is an end whose commit fails, or the failure of a site where a transaction with
blocked requests has written. -/
def AbortsQueued (σ : State) : Request → Prop
  | .finish _ T => ∃ t, σ.transactions.lookup T = some t ∧ ¬σ.CommitOk t
  | .fail _ s => ∃ T t, σ.transactions.lookup T = some t ∧ s ∈ t.writeAccessedSites ∧
      T ∈ σ.blockedTransactionsQueue
  | _ => False

/-- A request of a transaction with blocked requests keeps the queue unless it aborts one of
them. -/
lemma Served.keepsQueue_iff (h : Served l r σ) (ha : Admissible l)
    (hT : r.transactionId ∈ σ.blockedTransactionsQueue) :
    σ.KeepsQueue o r ↔ ¬σ.AbortsQueued r := by
  have hiff : (∃ T, σ.Aborts T r ∧ T ∈ σ.blockedTransactionsQueue) ↔ σ.AbortsQueued r := by
    cases r with
    | fail ts s => exact ⟨fun ⟨T, ⟨t, ht, hs⟩, hq⟩ => ⟨T, t, ht, hs, hq⟩,
        fun ⟨T, t, ht, hs, hq⟩ => ⟨T, ⟨t, ht, hs⟩, hq⟩⟩
    | finish ts T' =>
        constructor
        · rintro ⟨T, ⟨rfl, hno⟩, -⟩
          exact hno
        · exact fun hno => ⟨T', ⟨rfl, hno⟩, hT⟩
    | read ts T' v =>
        refine iff_of_false ?_ id
        rintro ⟨T, ⟨rfl, hv, -, t, ht, hro⟩, -⟩
        have hodd := h.odd rfl ht hro
        rw [hv] at hodd
        cases hodd
    | missing ts m => exact absurd rfl (h.queueable.fed.ne_missing ha ts m)
    | _ => exact iff_of_false (fun ⟨_, hab, _⟩ => hab) id
  rw [← hiff]
  constructor
  · rintro hk ⟨T, hab, hq⟩
    obtain ⟨σ', hx⟩ : ∃ σ', σ.exec o r = .ok σ' := by
      cases r with
      | fail ts s => exact exists_exec_fail
      | finish ts T' =>
          obtain ⟨rfl, t, ht, -⟩ := hab
          exact exists_exec_finish (Dict.mem_of_lookup ht)
      | _ => exact False.elim (hiff.mp ⟨T, hab, hq⟩)
    obtain ⟨es, hout⟩ := exec_outcome hx
    exact (hout.mem_queue.mp ((hk σ' hx T).mpr hq)).1 (hout.aborted_iff.mpr hab)
  · intro hno σ' hx T
    obtain ⟨es, hout⟩ := exec_outcome hx
    rw [hout.mem_queue]
    constructor
    · rintro ⟨-, hq | ⟨rfl, -⟩⟩
      · exact hq
      · exact hT
    · exact fun hq => ⟨fun hab => hno ⟨T, hout.aborted_iff.mp hab, hq⟩, Or.inl hq⟩

/-- The walk stands on an entry of the queue as long as every request keeps the queue. -/
lemma walkRule_standing (ha : Admissible l) (sch : Schedule) :
    WalkRule sch (fun r σ => r.transactionId ∈ σ.blockedTransactionsQueue →
      σ.KeepsQueue (sch.exec r.timestamp) r) (InWalk l) fun T rs rest fin σ =>
      InSet l T rs rest fin σ ∧ T ∈ σ.blockedTransactionsQueue := by
  have hrule := walkRule_waiting ha sch (C := fun _ _ => True)
  refine ⟨hrule.skip, fun h hq hw hs => ⟨hrule.enter h hq hw hs, ?_⟩, fun {T r _ _ _ _ _} h hC hx =>
    ⟨hrule.exec h.1 trivial hx, ?_⟩, fun h hT => hrule.leave h.1 hT⟩
  · exact Dict.mem_of_lookup hq
  · have hrT : r.transactionId = T := (h.1.queueable r List.mem_cons_self).2
    exact (hC (hrT ▸ h.2) _ hx T).mpr h.2

end State

section Runs

variable {l : List Feed} {σ : State} {sch : Schedule}

/-- **The queue during the walk.** The requests that a walk executes add no transaction to the queue
and erase none, exactly when there is no end among them whose commit fails, and no failure of a site
where a transaction with blocked requests has written. -/
theorem queue_kept_iff (ha : Admissible l) (hc : CallOf l sch σ) :
    (∀ r τ, State.CalledFromQueue sch σ r τ → τ.KeepsQueue (sch.exec r.timestamp) r) ↔
      ∀ r τ, State.CalledFromQueue sch σ r τ → ¬τ.AbortsQueued r := by
  have hserved : ∀ r τ, State.CalledFromQueue sch σ r τ →
      ∃ l', Admissible l' ∧ State.Served l' r τ := fun r τ h =>
    (waiting_invariant fun _ _ => True).taken ha (by simp) ⟨sch, σ, hc, h⟩
  -- while the requests keep the queue, the walk stands on an entry of it
  have hstands : (∀ r τ, State.CalledFromQueue sch σ r τ →
      r.transactionId ∈ τ.blockedTransactionsQueue → τ.KeepsQueue (sch.exec r.timestamp) r) →
      ∀ r τ, State.CalledFromQueue sch σ r τ → r.transactionId ∈ τ.blockedTransactionsQueue := by
    rintro hk r τ ⟨σ₁, hs, hin⟩
    obtain ⟨l', ha', hR, hW⟩ :=
      (waiting_invariant fun _ _ => True).walkStarts ha (by simp) hc hs
    obtain ⟨T, rs, rest, fin, hset, hT⟩ := (State.walkRule_standing ha' sch).called []
      (.start hR hW) (fun r τ hin => hk r τ ⟨σ₁, hs, hin⟩) hin
    rwa [(hset.queueable r List.mem_cons_self).2]
  constructor
  · intro hk r τ h
    obtain ⟨l', ha', hs⟩ := hserved r τ h
    exact (hs.keepsQueue_iff ha' (hstands (fun r τ h _ => hk r τ h) r τ h)).mp (hk r τ h)
  · intro hno r τ h
    have hall : ∀ r τ, State.CalledFromQueue sch σ r τ →
        r.transactionId ∈ τ.blockedTransactionsQueue → τ.KeepsQueue (sch.exec r.timestamp) r :=
      fun r τ h hT => by
        obtain ⟨l', ha', hs⟩ := hserved r τ h
        exact (hs.keepsQueue_iff ha' hT).mpr (hno r τ h)
    exact hall r τ h (hstands hall r τ h)

theorem queue_kept_iff_handoverRun : ∃ σ τ, CallOf handoverRun Schedule.stored σ ∧
    State.CalledFromQueue Schedule.stored σ (.write 3 2 x2 6) τ ∧
    ((∀ r τ, State.CalledFromQueue Schedule.stored σ r τ → τ.KeepsQueue IterOrder.stored r) ↔
      ∀ r τ, State.CalledFromQueue Schedule.stored σ r τ → ¬τ.AbortsQueued r) := by
  obtain ⟨σ, τ, hc, ht, -⟩ := exists_takenFromQueue (l := handoverRun.take 4)
    (x := ⟨.finish 1, 4, Schedule.stored⟩) (r := .write 3 2 x2 6) (f := fun _ => true)
    (a := true) [] (by decide +kernel)
  exact ⟨σ, τ, hc, ht, queue_kept_iff (by decide +kernel) hc⟩

/-- A transaction reads a variable at a site that fails while a later write of it waits. -/
def failingEndRun : List Feed :=
  inOrder Schedule.stored [.begin 1, .begin 2, .write 1 2 5, .read 2 1, .write 2 2 6, .finish 2,
    .fail 2]

/-- **An entry is erased under the walk**: the end of the second transaction is taken from the
queue, and its commit fails. -/
theorem queue_erased : Admissible failingEndRun ∧ ∃ σ τ τ',
    CallOf failingEndRun Schedule.stored σ ∧
    State.CalledFromQueue Schedule.stored σ (.finish 5 2) τ ∧
    τ.exec IterOrder.stored (.finish 5 2) = .ok τ' ∧ 2 ∈ τ.blockedTransactionsQueue ∧
    2 ∉ τ'.blockedTransactionsQueue := by
  obtain ⟨σ, τ, hc, ht, hf⟩ := exists_takenFromQueue (l := failingEndRun.take 6)
    (x := ⟨.fail 2, 6, Schedule.stored⟩) (r := .finish 5 2)
    (f := fun τ => (decide (2 ∈ τ.blockedTransactionsQueue),
      (τ.exec IterOrder.stored (.finish 5 2)).toOption.map fun τ' : State =>
        decide (2 ∈ τ'.blockedTransactionsQueue)))
    (a := (true, some false)) [] (by decide +kernel)
  rw [Prod.mk.injEq] at hf
  obtain ⟨τ', hx, hno⟩ := exists_ok_of_eval hf.2
  exact ⟨by decide +kernel, σ, τ, τ', hc, ht, hx, of_decide_eq_true hf.1, of_decide_eq_false hno⟩

end Runs

end RepCRec
