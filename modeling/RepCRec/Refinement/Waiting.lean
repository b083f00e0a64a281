import RepCRec.Engine.Queue
import RepCRec.Refinement.Runs

/-!
The transactions with blocked requests are live, but for the transaction `-1`, whose requests the
engine executes without asking (`Waiting`). In the walk over the queue this is an invariant beside
the transactions whose requests were executed: the end of a transaction is its last request, so a
transaction is live when its requests are taken from the queue (`waiting_invariant`).
-/

namespace RepCRec

open Container (IterOrder SortedByKey)

namespace State

variable {D D' : TranId → Prop} {σ σ' : State} {o : IterOrder} {r : Request} {es : List Event}
  {T : TranId} {l l' : List Feed}

/-- The transactions with blocked requests are live, but for those in `D`, and a read of a
read-only transaction is blocked for an odd variable only. -/
structure Waiting (D : TranId → Prop) (σ : State) : Prop where
  live : ∀ {T}, T ∈ σ.blockedTransactionsQueue → T ∈ σ.transactions ∨ D T
  odd : ∀ {T t rs ts v}, σ.blockedTransactionsQueue.lookup T = some rs → .read ts T v ∈ rs →
    σ.transactions.lookup T = some t → t.isReadOnly = true → v.isOdd = true

namespace Waiting

lemma mono (h : Waiting D σ) (hD : ∀ {T}, D T → D' T) : Waiting D' σ :=
  ⟨fun hT => (h.live hT).imp id hD, h.odd⟩

lemma congr (h : Waiting D σ) (hq : σ'.blockedTransactionsQueue = σ.blockedTransactionsQueue)
    (ht : σ'.transactions = σ.transactions) : Waiting D σ' :=
  ⟨fun hT => ht ▸ h.live (hq ▸ hT), fun hl hr ht' => h.odd (hq ▸ hl) hr (ht ▸ ht')⟩

/-- Entries of the queue are erased. -/
lemma dequeueAll (h : Waiting D σ) (l : List TranId) (hD : ∀ {T}, D T → D' T ∨ T ∈ l) :
    Waiting D' (σ.dequeueAll l) := by
  have hlookup : ∀ {T rs}, (σ.dequeueAll l).blockedTransactionsQueue.lookup T = some rs →
      σ.blockedTransactionsQueue.lookup T = some rs ∧ T ∉ l := by
    intro T rs hl
    rw [State.dequeueAll, Dict.lookup_foldl_erase] at hl
    split_ifs at hl with hT
    exact ⟨hl, hT⟩
  refine ⟨fun {T} hT => ?_, fun hl => h.odd (hlookup hl).1⟩
  obtain ⟨rs, hrs⟩ := Dict.exists_lookup hT
  obtain ⟨h1, h2⟩ := hlookup hrs
  have hT' : T ∈ σ.blockedTransactionsQueue := Dict.mem_of_lookup h1
  rcases h.live hT' with hlive | hd
  · exact Or.inl hlive
  · exact Or.inr ((hD hd).resolve_right h2)

lemma abortTransaction (h : Waiting D σ) (ha : σ.abortTransaction o T = .ok σ') :
    Waiting D σ' := by
  obtain ⟨hg, hq, -⟩ := gone_abortTransaction ha
  refine ⟨fun {T'} hT => ?_, fun {T' t' rs ts v} hl hr ht' hro => ?_⟩
  · rw [hq, AList.mem_erase] at hT
    rw [hg.mem_transactions]
    exact (h.live hT.2).imp (fun hT' => ⟨hT', hT.1⟩) id
  · rw [hq, Dict.lookup_erase] at hl
    split_ifs at hl
    obtain ⟨t, ht, hfix⟩ := Option.map_eq_some_iff.mp (hg.fixed ht')
    exact h.odd hl hr ht ((congrArg (fun p => p.2.1) hfix).trans hro)

/-- A request is executed for a transaction in `D`, or for one that is live, and that has no blocked
requests if it ends. -/
lemma exec (h : Waiting D σ) (hout : Outcome o σ r es σ')
    (hfresh : r.isBegin = true → r.transactionId ∉ σ.blockedTransactionsQueue)
    (hT : r.isReadWrite = true → D r.transactionId ∨ r.transactionId ∈ σ.transactions)
    (hend : ∀ ts T, r = .finish ts T → D T ∨ T ∉ σ.blockedTransactionsQueue) : Waiting D σ' := by
  refine ⟨fun {T} hT' => ?_, fun {T t' rs ts v} hl hr ht' hro => ?_⟩
  · obtain ⟨hab, hqT | ⟨rfl, hw⟩⟩ := hout.mem_queue.mp hT'
    · rcases h.live hqT with hlive | hd
      · by_cases hc : .committed T ∈ es
        · obtain ⟨ts, rfl⟩ := hout.committed_mem hc
          exact Or.inr ((hend ts T rfl).resolve_right fun hno => hno hqT)
        · exact Or.inl (hout.mem_transactions.mpr ⟨Or.inl hlive, hc, hab⟩)
      · exact Or.inr hd
    · obtain ⟨-, hrw, hes⟩ := hout.waits hw
      refine (hT hrw).symm.imp (fun hlive => hout.mem_transactions.mpr ⟨Or.inl hlive, ?_⟩) id
      rcases hes with rfl | rfl <;> simp
  · rcases hout.transaction ht' with ⟨t, ht, hafter⟩ | ⟨ts', b, rfl, -⟩
    · have hro' : t.isReadOnly = true := hafter.isReadOnly ▸ hro
      obtain ⟨-, ⟨rfl, -, hw⟩ | ⟨rs', hl', hmem⟩⟩ := hout.mem_of_lookup_queue hl hr
      · exact hout.isOdd_of_waits hw ht hro'
      · exact h.odd hl' hmem ht hro'
    · obtain ⟨-, ⟨-, -, hw⟩ | ⟨rs', hl', -⟩⟩ := hout.mem_of_lookup_queue hl hr
      · rw [hout.create_eq] at hw
        simp [Waits] at hw
      · have hT' : T ∈ σ.blockedTransactionsQueue := Dict.mem_of_lookup hl'
        exact absurd hT' (hfresh rfl)

/-- A request that waits with its transaction enters the queue. -/
lemma enqueue (h : Waiting D σ) (hT : r.transactionId ∈ σ.transactions ∨ D r.transactionId)
    (hr : r.isReadWrite = false) : Waiting D (σ.addRequestToBlockedQueue r) := by
  refine ⟨fun {T} hT' => ?_, fun {T t rs ts v} hl hr' ht hro => ?_⟩
  · rcases (AList.mem_insert _).mp hT' with rfl | hT'
    · exact hT
    · exact h.live hT'
  · rcases mem_of_addRequest hl hr' with ⟨rfl, -⟩ | ⟨rs', hl', hmem⟩
    · cases hr
    · exact h.odd hl' hmem ht hro

lemma settled : Settled (Waiting D) where
  graph h _ := h.congr rfl rfl
  abort h ha := h.abortTransaction ha
  request h := h.congr rfl rfl

end Waiting

/-! ### The walk over the queue -/

/-- What holds when the walk has the transactions `rest` before it, and has executed the requests
of those in `fin`. -/
structure InWalk (l : List Feed) (rest fin : List TranId) (σ : State) : Prop where
  reached : Reached l σ
  waiting : Waiting (fun T => T = -1 ∨ T ∈ fin) σ
  nodup : rest.Nodup
  disjoint : ∀ T ∈ rest, T ∉ fin

/-- What holds while the walk has the requests `rs` of `T` still to execute. -/
structure InSet (l : List Feed) (T : TranId) (rs : List Request) (rest fin : List TranId)
    (σ : State) : Prop where
  reached : Reached l σ
  waiting : Waiting (fun T' => T' = -1 ∨ T' ∈ fin ∨ T' = T) σ
  nodup : (T :: rest).Nodup
  disjoint : ∀ T' ∈ T :: rest, T' ∉ fin
  sorted : SortedByKey Request.timestamp rs
  queueable : ∀ r ∈ rs, Queueable l r ∧ r.transactionId = T
  live : T ≠ -1 → rs ≠ [] → T ∈ σ.transactions
  odd : ∀ {ts v t}, .read ts T v ∈ rs → σ.transactions.lookup T = some t →
    t.isReadOnly = true → v.isOdd = true
  queued : T ∈ σ.transactions → ∀ r ∈ rs, ∃ q, σ.blockedTransactionsQueue.lookup T = some q ∧ r ∈ q

lemma InWalk.enter {T : TranId} {rs : List Request} {rest fin : List TranId}
    (h : InWalk l (T :: rest) fin σ) (hq : σ.blockedTransactionsQueue.lookup T = some rs) :
    InSet l T rs rest fin σ where
  reached := h.reached
  waiting := h.waiting.mono fun hT => hT.imp id Or.inl
  nodup := h.nodup
  disjoint := h.disjoint
  sorted := h.reached.known.sorted hq
  queueable _ hr := h.reached.known.queued hq hr
  live hne _ := by
    have hT : T ∈ σ.blockedTransactionsQueue := Dict.mem_of_lookup hq
    refine (h.waiting.live hT).resolve_right fun hd => ?_
    exact h.disjoint T List.mem_cons_self (hd.resolve_left hne)
  odd hr ht hro := h.waiting.odd hq hr ht hro
  queued _ r hr := ⟨rs, hq, hr⟩

lemma InSet.exec {T : TranId} {rs : List Request} {rest fin : List TranId} (ha : Admissible l)
    (h : InSet l T (r :: rs) rest fin σ) (hx : σ.exec o r = .ok σ') :
    InSet l T rs rest fin σ' := by
  obtain ⟨es, hout⟩ := exec_outcome hx
  obtain ⟨hr, hrT⟩ := h.queueable r List.mem_cons_self
  have hD : r.transactionId = -1 ∨ r.transactionId ∈ fin ∨ r.transactionId = T :=
    Or.inr (Or.inr hrT)
  have hk : Kept (fun _ _ => True) (Reached l) (Queueable l) := Reached.kept
  refine ⟨hk.exec h.reached hr trivial hx, h.waiting.exec hout
      (fun hb => absurd hb (by simp [hr.not_begin])) (fun _ => Or.inl hD)
      (fun ts T' hf => Or.inl (by subst hf; exact hD)), h.nodup, h.disjoint,
    (List.pairwise_cons.mp h.sorted).2, fun r' hr' => h.queueable r' (List.mem_cons_of_mem r hr'),
    fun hne hrs => ?_, fun {ts v t'} hr' ht' hro => ?_, fun hT r' hr' => ?_⟩
  · -- the end of the transaction would be its last request
    have hnoend : ∀ ts, r ≠ .finish ts T := by
      rintro ts rfl
      obtain ⟨r', rs', rfl⟩ := List.exists_cons_of_ne_nil hrs
      obtain ⟨hr', hT'⟩ := h.queueable r' (by simp)
      have hlt := (List.pairwise_cons.mp h.sorted).1 r' List.mem_cons_self
      exact absurd (hr.fed.le_of_finish ha hr'.fed hT' hne) hlt.not_ge
    have hlive := h.live hne (List.cons_ne_nil r rs)
    refine hout.mem_transactions.mpr ⟨Or.inl hlive, fun hc => ?_, fun hab => ?_⟩
    · obtain ⟨ts, hf⟩ := hout.committed_mem hc
      exact hnoend ts hf
    · rcases hout.aborted_mem hab with ⟨ts, s, rfl⟩ | ⟨ts, hf⟩ | ⟨ts, v, t, rfl, ht, hro, hv⟩ |
        ⟨ts, v, t, hm, -⟩
      · exact hne hrT.symm
      · exact hnoend ts hf
      · have hodd := h.odd List.mem_cons_self ht hro
        rw [hv] at hodd
        cases hodd
      · exact hr.fed.ne_missing ha ts (.read T v) (hrT ▸ hm)
  · rcases hout.transaction ht' with ⟨t, ht, hafter⟩ | ⟨ts', b, rfl, -⟩
    · exact h.odd (List.mem_cons_of_mem r hr') ht (hafter.isReadOnly ▸ hro)
    · cases hr.not_begin
  · obtain ⟨hlive, -, hab⟩ := hout.live hr.not_begin hT
    obtain ⟨q, hq, hmem⟩ := h.queued hlive r' (List.mem_cons_of_mem r hr')
    exact hout.lookup_queue_of_mem hab hq hmem

/-- The request is one of a live transaction, and in its queue. -/
structure Served (l : List Feed) (r : Request) (τ : State) : Prop where
  reached : Reached l τ
  queueable : Queueable l r
  live : r.transactionId ≠ -1 → r.transactionId ∈ τ.transactions
  odd : ∀ {ts T v t}, r = .read ts T v → τ.transactions.lookup T = some t →
    t.isReadOnly = true → v.isOdd = true
  queued : r.transactionId ∈ τ.transactions →
    ∃ q, τ.blockedTransactionsQueue.lookup r.transactionId = some q ∧ r ∈ q

lemma walkRule_waiting (ha : Admissible l) (sch : Schedule) {C : Request → State → Prop} :
    WalkRule sch C (InWalk l) (InSet l) := by
  refine ⟨fun h _ => ?_, fun h hq _ _ => h.enter hq, fun h _ hx => h.exec ha hx,
    fun {T rest fin σ} h _ => ?_⟩
  · exact ⟨h.reached, h.waiting, (List.nodup_cons.mp h.nodup).2,
      fun T hT => h.disjoint T (List.mem_cons_of_mem _ hT)⟩
  · refine ⟨h.reached, h.waiting.mono fun hT => hT.imp id fun hT => ?_,
      (List.nodup_cons.mp h.nodup).2, fun T' hT' hfin => ?_⟩
    · exact List.mem_insert_iff.mpr hT.symm
    · rcases List.mem_insert_iff.mp hfin with rfl | hfin
      · exact (List.nodup_cons.mp h.nodup).1 hT'
      · exact h.disjoint T' (List.mem_cons_of_mem T hT') hfin

lemma InWalk.start (h : Reached l σ) (hw : Waiting (· = -1) σ) :
    InWalk l (o.visit σ.blockedTransactionsQueue.keys) [] σ :=
  ⟨h, hw.mono Or.inl, o.nodup_visit (AList.keys_nodup _), by simp⟩

/-- After the walk the entries of the transactions that were served are erased. -/
lemma InWalk.finish {fin : List TranId} (h : InWalk l [] fin σ) (o : IterOrder) :
    Reached l { σ.dequeueAll (o.visit fin) with request := none } ∧
      Waiting (· = -1) { σ.dequeueAll (o.visit fin) with request := none } := by
  have hk : Kept (fun _ _ => True) (Reached l) (Queueable l) := Reached.kept
  refine ⟨hk.request (hk.dequeueAll _ h.reached), ?_⟩
  exact (h.waiting.dequeueAll (o.visit fin) fun hT => hT.imp id (o.mem_visit).mpr).congr rfl rfl

lemma InSet.served {T : TranId} {rs : List Request} {rest fin : List TranId}
    (h : InSet l T (r :: rs) rest fin σ) : Served l r σ := by
  obtain ⟨hr, rfl⟩ := h.queueable r List.mem_cons_self
  refine ⟨h.reached, hr, fun hne => h.live hne (List.cons_ne_nil r rs), ?_,
    fun hT => h.queued hT r List.mem_cons_self⟩
  rintro ts T v t rfl
  exact h.odd List.mem_cons_self

/-- The walk over the queue executes requests of live transactions. -/
lemma walks_waiting (ha : Admissible l) {C : Request → State → Prop} :
    Walks C (fun σ => Reached l σ ∧ Waiting (· = -1) σ) (Served l) :=
  WalkRule.walks (fun sch => walkRule_waiting ha sch) (fun h => InWalk.start h.1 h.2)
    (fun {o _ _} h => h.finish o) fun h => h.served

end State

/-- **Blocked transactions are live**, and so are those whose requests are taken from the queue. -/
theorem waiting_invariant (C : Request → State → Prop) :
    Invariant C (fun l σ => State.Reached l σ ∧ State.Waiting (· = -1) σ) State.Served where
  initial := ⟨(reached_invariant C).initial, fun h => by simp [State.initial] at h,
    fun h => by simp [State.initial] at h⟩
  settled l ha := by
    have hR := (reached_invariant C).settled l ha
    have hW : State.Settled (State.Waiting (· = -1)) := State.Waiting.settled
    exact ⟨fun h hw => ⟨hR.graph h.1 hw, hW.graph h.2 hw⟩,
      fun h hab => ⟨hR.abort h.1 hab, hW.abort h.2 hab⟩, fun h => ⟨hR.request h.1, hW.request h.2⟩⟩
  walks _ ha := State.walks_waiting ha
  mono ha hx h := ⟨(reached_invariant C).mono ha hx h.1, h.2⟩
  leads := by
    intro l x r ha hx hr
    have hl := (reached_invariant C).leads ha hx hr
    -- a request that is not dropped is one of a live transaction, unless it is a begin
    have hlive : ∀ {σ : State}, σ.isStale r = false → r.isBegin = false →
        r.transactionId = -1 ∨ r.transactionId ∈ σ.transactions := by
      intro σ hst hb
      rw [State.isStale, hb] at hst
      by_contra hno
      simp_all
    have hfresh : ∀ {σ : State}, State.Reached l σ → r.isBegin = true →
        r.transactionId ∉ σ.blockedTransactionsQueue := by
      intro σ h hb hT
      obtain ⟨y, hy, hTy⟩ := h.known.queue hT
      exact hx.begin_once _ (begun_of_request hr hb) y hy hTy
    refine ⟨fun {o σ σ'} h hC hst hb he => ⟨hl.exec h.1 hC hst hb he, ?_⟩,
      fun {σ} h hst hb hrw => ⟨hl.enqueue h.1 hst hb hrw, ?_⟩⟩
    · obtain ⟨es, hout⟩ := State.exec_outcome he
      refine h.2.exec hout (hfresh h.1) (fun hrw => ?_) fun ts T hf => Or.inr fun hT => ?_
      · exact hlive hst (by cases r <;> first | rfl | cases hrw)
      · subst hf
        have hb' := hb (by simp [State.isBlocked, Request.transactionId, hT])
        cases hb'
    · refine h.2.enqueue ?_ hrw
      by_cases hbegin : r.isBegin = true
      · obtain ⟨y, hy, hTy⟩ := h.1.known.isBlocked hb
        exact absurd hTy (hx.begin_once _ (begun_of_request hr hbegin) y hy)
      · exact (hlive hst (by simpa using hbegin)).symm

end RepCRec
