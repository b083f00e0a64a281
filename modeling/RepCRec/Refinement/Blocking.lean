import RepCRec.Engine.Progress
import RepCRec.Refinement.Waiting

/-!
When a read or write has to wait (`HasToWait`), and what becomes of a request in the blocked
queue. It stays there, unless its transaction is aborted, until it is taken from the queue
(`keptSince_or_taken`); the call that takes a request erases the queue of its transaction,
whatever the execution of the request has entered there (`not_queued_of_taken`).
-/

namespace RepCRec

open Container (IterOrder bind_eq_ok insertByKey)

/-- The entries say that the read or write is granted. -/
def Request.GrantedBy (es : List Event) : Request → Prop
  | .write _ T v x => (∃ L, .writeLock T v L x ∈ es) ∨ .rewrites T v x ∈ es
  | .read _ T v => (∃ s x, .reads T s v x ∈ es) ∨ ∃ L, .sharedLock T v L ∈ es
  | _ => False

/-- The timestamp of the request if it is an end of `T`. -/
def Request.endOf? (T : TranId) : Request → Option Timestamp
  | .finish e T' => if T' = T then some e else none
  | _ => none

namespace State

/-- The request goes to the blocked queue when it is executed. -/
def EntersQueue (σ : State) : Request → Prop
  | .write _ T v _ => σ.SentToWait T v
  | .read _ T v => (v.isOdd = true ∧ σ.isReadAvailable v.home v = false) ∨
      (σ.SentToWait T v ∧ ∃ t, σ.transactions.lookup T = some t ∧ t.isReadOnly = false)
  | .missing _ (.read _ v) => v.isOdd = true
  | _ => False

/-- The request is a write of an odd variable whose site is down. -/
def IsUnavailable (σ : State) : Request → Prop
  | .write _ _ v _ => v.isOdd = true ∧ σ.isWriteAvailable v.home = false
  | .missing _ (.write _ v _) =>
      v.isOdd = true ∧ ∃ s, v.home? = some s ∧ σ.isWriteAvailable s = false
  | _ => False

/-- The request has to wait, for a lock or for the site of its variable. -/
def HasToWait (σ : State) (r : Request) : Prop := σ.EntersQueue r ∨ σ.IsUnavailable r

/-- The request is in the queue of its transaction. -/
def Queued (σ : State) (r : Request) : Prop :=
  ∃ rs, σ.blockedTransactionsQueue.lookup r.transactionId = some rs ∧ r ∈ rs

variable {σ σ' τ : State} {o : IterOrder} {r r' : Request} {es tr : List Event} {T : TranId}
  {v : VarId} {sch : Schedule}

namespace Good

lemma apart (h : σ.Good) (T : TranId) (v : VarId) : σ.Apart T v := by
  intro s hs
  by_contra hne
  obtain ⟨T', hx⟩ := Option.ne_none_iff_exists'.mp hne
  have hs' : T ∈ (σ.getVariable s v).sharedLockOwners := of_decide_eq_true hs
  exact h.inv.excl_shared hx hs'

/-- A transaction that is not live holds no lock. -/
lemma not_holdsLock (h : σ.Good) (hT : T ∉ σ.transactions) : ¬σ.HoldsLock T v := by
  rintro ⟨s, -, -, hs | hx⟩
  · have hs' : T ∈ (σ.getVariable s v).sharedLockOwners := of_decide_eq_true hs
    exact hT (h.inv.shared_live hs')
  · have hx' : (σ.getVariable s v).exclusiveLockOwner = some T := by
      simpa [Variable.hasExclusiveLock] using hx
    exact hT (h.inv.excl_live hx')

lemma isWriteAvailable_of_readable (h : σ.Good) {s : SiteId} (hr : σ.isReadAvailable s v = true) :
    σ.isWriteAvailable s = true := h.inv.readable_up hr

/-- A read of an odd variable that is readable finds its site up. -/
lemma isUnavailable (h : σ.Good) (ha : r.access? = some (T, v)) (hv : v.isOdd = true)
    (hup : σ.isWriteAvailable v.home = false)
    (hr : ∀ ts, r = .read ts T v → σ.isReadAvailable v.home v = true) : σ.IsUnavailable r := by
  cases r with
  | write ts T' v' x =>
      cases ha
      exact ⟨hv, hup⟩
  | read ts T' v' =>
      cases ha
      rw [h.isWriteAvailable_of_readable (hr ts rfl)] at hup
      cases hup
  | _ => cases ha

lemma sentToWait_iff (h : σ.Good) :
    σ.SentToWait T v ↔ (σ.tryAcquireWriteLock T v).status = .needToWait := by
  rcases tryAcquireWriteLock_status (h.apart T v) with ⟨-, -, hno, hst⟩ | ⟨-, ⟨hs, hst⟩ |
    ⟨hno, -, hst | hst⟩ | ⟨hno, -, hst⟩⟩
  · simp [hno, hst]
  · simp [hs, hst]
  · simp [hno, hst]
  · simp [hno, hst]
  · simp [hno, hst]

end Good

/-! ### What the outcomes say -/

lemma IsUnavailable.not_entersQueue (h : σ.IsUnavailable r) : ¬σ.EntersQueue r := by
  cases r with
  | write ts T v x => simp [EntersQueue, SentToWait, copySites, h.1, SentBy, h.2]
  | missing ts m =>
      cases m with
      | write => exact id
      | _ => cases h
  | _ => cases h

/-- The request enters the queue exactly when its outcome is to wait. -/
lemma Outcome.entersQueue_iff (hg : σ.Good) (h : Outcome o σ r es σ') :
    σ.EntersQueue r ↔ Waits r es := by
  cases h with
  | unavailable ha hv hup hr =>
      exact iff_of_false (hg.isUnavailable ha hv hup hr).not_entersQueue (by simp [Waits])
  | @waitsForLock r T v s ha _ _ _ hst hro =>
      refine iff_of_true ?_ (by simp [Waits])
      cases r with
      | write ts T' v' x =>
          cases ha
          exact hg.sentToWait_iff.mpr hst
      | read ts T' v' =>
          cases ha
          exact Or.inr ⟨hg.sentToWait_iff.mpr hst, hro ts rfl⟩
      | _ => cases ha
  | waitsForSite hv hr => exact iff_of_true (Or.inl ⟨hv, hr⟩) (by simp [Waits])
  | writeLocks hgr =>
      refine iff_of_false (fun hs => ?_) (by simp [Waits])
      rw [LockGranted, hg.sentToWait_iff.mp hs] at hgr
      simp at hgr
  | rewritesOdd _ _ _ hst =>
      refine iff_of_false (fun hs => ?_) (by simp [Waits])
      rw [hg.sentToWait_iff.mp hs] at hst
      cases hst
  | rewritesEven _ _ hst =>
      refine iff_of_false (fun hs => ?_) (by simp [Waits])
      rw [hg.sentToWait_iff.mp hs] at hst
      cases hst
  | readsVersion ht hro hs hr =>
      refine iff_of_false ?_ (by simp [Waits])
      rintro (⟨hv, hno⟩ | ⟨-, t', ht', hro'⟩)
      · rw [copySites, if_pos hv, List.mem_singleton] at hs
        rw [hs, hno] at hr
        cases hr
      · rw [ht] at ht'
        cases ht'
        rw [hro] at hro'
        cases hro'
  | readAborts ht hro hv =>
      refine iff_of_false ?_ (by simp [Waits])
      rintro (⟨hv', -⟩ | ⟨-, t', ht', hro'⟩)
      · rw [hv] at hv'
        cases hv'
      · rw [ht] at ht'
        cases ht'
        rw [hro] at hro'
        cases hro'
  | sharesOdd _ _ _ hst hr =>
      refine iff_of_false ?_ (by simp [Waits])
      rintro (⟨-, hno⟩ | ⟨hs, -⟩)
      · rw [hr] at hno
        cases hno
      · rw [hg.sentToWait_iff.mp hs] at hst
        cases hst
  | @sharesEven ts T v t σ₁ _ _ hv hst =>
      refine iff_of_false ?_ ?_
      · rintro (⟨hv', -⟩ | ⟨hs, -⟩)
        · rw [hv] at hv'
          cases hv'
        · rw [hg.sentToWait_iff.mp hs] at hst
          cases hst
      · generalize o.visit _ = l
        cases l <;> simp [firstRead, Waits]
  | @missingNothing ts m _ hr =>
      cases m with
      | read T v => simp [EntersQueue, Waits, (hr T v rfl).1]
      | _ => simp [EntersQueue, Waits]
  | missingWaits hv => exact iff_of_true hv (by simp [Waits])
  | missingAborts _ _ hv => simp [EntersQueue, Waits, hv]
  | _ => simp [EntersQueue, Waits, storeEvent]

/-- A read or write that does not have to wait is granted, or its transaction is aborted. -/
lemma Outcome.grantedBy (hg : σ.Good) (h : Outcome o σ r es σ') (hrw : r.isReadWrite = true)
    (hm : ∀ ts m, r ≠ .missing ts m) (hno : ¬σ.HasToWait r) :
    r.GrantedBy es ∨ (∃ ts T v t, r = .read ts T v ∧
      σ.transactions.lookup T = some t ∧ t.isReadOnly = true ∧ v.isOdd = false) := by
  have hw : ¬Waits r es := fun hw => hno (Or.inl ((h.entersQueue_iff hg).mpr hw))
  cases h with
  | unavailable ha hv hup hr => exact absurd (Or.inr (hg.isUnavailable ha hv hup hr)) hno
  | waitsForLock => simp [Waits] at hw
  | waitsForSite => simp [Waits] at hw
  | writeLocks => exact Or.inl (Or.inl ⟨_, List.mem_singleton.mpr rfl⟩)
  | rewritesOdd => exact Or.inl (Or.inr (List.mem_singleton.mpr rfl))
  | rewritesEven => exact Or.inl (Or.inr (List.mem_singleton.mpr rfl))
  | readsVersion => exact Or.inl (Or.inl ⟨_, _, List.mem_singleton.mpr rfl⟩)
  | @readAborts ts T v t σ' ht hro hv => exact Or.inr ⟨ts, T, v, t, rfl, ht, hro, hv⟩
  | sharesOdd => exact Or.inl (Or.inr ⟨_, List.mem_cons_self⟩)
  | sharesEven => exact Or.inl (Or.inr ⟨_, List.mem_append_right _ (List.mem_singleton.mpr rfl)⟩)
  | missingUnavailable | missingNothing | missingWaits | missingAborts => exact absurd rfl (hm _ _)
  | _ => cases hrw

/-! ### What becomes of a request in the queue -/

/-- The timestamps of the blocked ends of `T`. -/
def queuedEnds (σ : State) (T : TranId) : List Timestamp :=
  ((σ.blockedTransactionsQueue.lookup T).getD []).filterMap (Request.endOf? T)

lemma mem_queuedEnds {e : Timestamp} : e ∈ σ.queuedEnds T ↔ σ.Queued (.finish e T) := by
  rw [queuedEnds, List.mem_filterMap]
  constructor
  · rintro ⟨r, hr, he⟩
    cases r with
    | finish e' T' =>
        rw [Request.endOf?] at he
        split_ifs at he with hT
        cases he
        subst hT
        exact Dict.mem_getD.mp hr
    | _ => cases he
  · rintro ⟨rs, hrs, hr⟩
    refine ⟨.finish e T, ?_, if_pos rfl⟩
    rw [show σ.blockedTransactionsQueue.lookup T = some rs from hrs]
    exact hr

/-- The request is in the queue, or its transaction was aborted since the trace was `tr`. -/
def KeptSince (tr : List Event) (r : Request) (σ : State) : Prop :=
  ∃ es, σ.trace = tr ++ es ∧ (σ.Queued r ∨ .aborted r.transactionId ∈ es)

lemma Queued.addRequest (h : σ.Queued r) (r' : Request) :
    (σ.addRequestToBlockedQueue r').Queued r := by
  obtain ⟨rs, hrs, hr⟩ := h
  rw [Queued, addRequest_lookup]
  split_ifs with hT
  · exact ⟨_, rfl, Container.mem_insertByKey_of_mem (by simpa [hrs] using hr)⟩
  · exact ⟨rs, hrs, hr⟩

/-- A request enters the queue, unless one with its timestamp is there. -/
lemma queued_addRequest (hfresh : ∀ rs r', σ.blockedTransactionsQueue.lookup r.transactionId =
    some rs → r' ∈ rs → r'.timestamp = r.timestamp → r' = r) :
    (σ.addRequestToBlockedQueue r).Queued r := by
  rw [Queued, addRequest_lookup, if_pos rfl]
  refine ⟨_, rfl, ?_⟩
  obtain ⟨r', hr', hts⟩ := Container.exists_mem_insertByKey Request.timestamp r
    ((σ.blockedTransactionsQueue.lookup r.transactionId).getD [])
  rcases Container.mem_of_mem_insertByKey hr' with rfl | hmem
  · exact hr'
  · obtain ⟨rs, hq, hrs⟩ := Dict.mem_getD.mp hmem
    rwa [hfresh rs r' hq hrs hts] at hr'

/-- A request stays in the queue when a request is executed, unless its transaction is aborted. -/
lemma Outcome.queued (h : Outcome o σ r' es σ') (hq : σ.Queued r) :
    σ'.Queued r ∨ .aborted r.transactionId ∈ es := by
  refine or_iff_not_imp_right.mpr fun hab => ?_
  obtain ⟨rs, hrs, hr⟩ := hq
  exact h.lookup_queue_of_mem hab hrs hr

/-- A request that waits enters the queue, unless one with its timestamp is there. -/
lemma Outcome.queued_of_waits (h : Outcome o σ r es σ') (hw : Waits r es)
    (hfresh : ∀ rs r', σ.blockedTransactionsQueue.lookup r.transactionId = some rs → r' ∈ rs →
      r'.timestamp = r.timestamp → r' = r) : σ'.Queued r := by
  have hab : .aborted r.transactionId ∉ es := by
    obtain ⟨-, -, rfl | rfl⟩ := h.waits hw <;> simp
  have hq := queued_addRequest hfresh
  rw [Queued, addRequest_lookup, if_pos rfl] at hq
  rwa [Queued, h.lookup_queue, queueAfter, if_neg hab, if_pos ⟨rfl, hw⟩]

namespace KeptSince

lemma exec (h : KeptSince tr r σ) (hout : Outcome o σ r' es σ') : KeptSince tr r σ' := by
  obtain ⟨es₀, htr, hq⟩ := h
  refine ⟨es₀ ++ es, by rw [hout.trace, htr, List.append_assoc], ?_⟩
  rcases hq with hq | hab
  · exact (hout.queued hq).imp id (List.mem_append_right es₀)
  · exact Or.inr (List.mem_append_left es hab)

lemma settled : Settled (KeptSince tr r) where
  graph h _ := h
  abort := by
    rintro o T σ σ' ⟨es, htr, hq⟩ ha
    obtain ⟨-, hqueue, htrace⟩ := gone_abortTransaction ha
    refine ⟨es ++ [.aborted T], by rw [htrace, htr, List.append_assoc], ?_⟩
    by_cases hT : r.transactionId = T
    · exact Or.inr (by simp [hT])
    · rcases hq with ⟨rs, hrs, hr⟩ | hab
      · refine Or.inl ⟨rs, ?_, hr⟩
        rw [hqueue, Dict.lookup_erase, if_neg hT, hrs]
      · exact Or.inr (List.mem_append_left _ hab)
  request h := h

end KeptSince

/-- In the walk over the queue, before the requests of the transactions `rest`: the request is
still to come, or its transaction was aborted, or it was taken (`K`). -/
def AwaitsWalk (tr : List Event) (r : Request) (K : Prop) (fin : List TranId) (σ : State) : Prop :=
  ∃ es, σ.trace = tr ++ es ∧
    ((r.transactionId ∉ fin ∧ σ.Queued r) ∨ .aborted r.transactionId ∈ es ∨ K)

/-- The same while the requests `rs` of `T` are still to be executed. -/
def AwaitsSet (tr : List Event) (r : Request) (K : Prop) (T : TranId) (rs : List Request)
    (fin : List TranId) (σ : State) : Prop :=
  (r.transactionId ≠ T ∧ AwaitsWalk tr r K fin σ) ∨ (r.transactionId = T ∧
    ∃ es, σ.trace = tr ++ es ∧ (r ∈ rs ∨ .aborted r.transactionId ∈ es ∨ K))

lemma AwaitsWalk.exec {K : Prop} {fin : List TranId} (h : AwaitsWalk tr r K fin σ)
    (hout : Outcome o σ r' es σ') : AwaitsWalk tr r K fin σ' := by
  obtain ⟨es₀, htr, ⟨hfin, hq⟩ | hab | hK⟩ := h
  · refine ⟨es₀ ++ es, by rw [hout.trace, htr, List.append_assoc], ?_⟩
    rcases hout.queued hq with hq | hab
    · exact Or.inl ⟨hfin, hq⟩
    · exact Or.inr (Or.inl (List.mem_append_right es₀ hab))
  · exact ⟨es₀ ++ es, by rw [hout.trace, htr, List.append_assoc],
      Or.inr (Or.inl (List.mem_append_left es hab))⟩
  · exact ⟨es₀ ++ es, by rw [hout.trace, htr, List.append_assoc], Or.inr (Or.inr hK)⟩

/-- A request in the queue stays there until the walk takes it. -/
lemma walkRule_awaits {K : Prop} : WalkRule sch (fun r' _ => r' = r → K)
    (fun _ fin σ => AwaitsWalk tr r K fin σ)
    (fun T rs _ fin σ => AwaitsSet tr r K T rs fin σ) where
  skip h _ := h
  enter := by
    intro T rs rest fin σ h hq _ _
    by_cases hT : r.transactionId = T
    · obtain ⟨es, htr, h⟩ := h
      refine Or.inr ⟨hT, es, htr, h.imp ?_ id⟩
      rintro ⟨-, rs', hrs', hr⟩
      rw [hT, hq] at hrs'
      cases hrs'
      exact hr
    · exact Or.inl ⟨hT, h⟩
  exec := by
    intro T r' rs rest fin σ σ' h hC hx
    obtain ⟨es, hout⟩ := exec_outcome hx
    rcases h with ⟨hT, h⟩ | ⟨hT, es₀, htr, h⟩
    · exact Or.inl ⟨hT, h.exec hout⟩
    · refine Or.inr ⟨hT, es₀ ++ es, by rw [hout.trace, htr, List.append_assoc], ?_⟩
      rcases h with hr | hab | hK
      · rcases List.mem_cons.mp hr with rfl | hr
        · exact Or.inr (Or.inr (hC rfl))
        · exact Or.inl hr
      · exact Or.inr (Or.inl (List.mem_append_left es hab))
      · exact Or.inr (Or.inr hK)
  leave := by
    intro T rest fin σ h _
    rcases h with ⟨hT, es, htr, h⟩ | ⟨-, es, htr, h⟩
    · exact ⟨es, htr, h.imp (fun h => ⟨by simp [List.mem_insert_iff, hT, h.1], h.2⟩) id⟩
    · exact ⟨es, htr, Or.inr (h.resolve_left (by simp))⟩

/-- The walk over the queue keeps a request in the queue, or takes it. -/
lemma KeptSince.serve (h : KeptSince tr r σ) (hs : State.serveBlocked sch σ = .ok σ') :
    KeptSince tr r σ' ∨
      ∃ τ, CalledInWalk sch (sch.walk.visit σ.blockedTransactionsQueue.keys) σ r τ := by
  obtain ⟨es, htr, hq⟩ := h
  rw [State.serveBlocked, bind_eq_ok] at hs
  obtain ⟨⟨fin, σ₁⟩, h1, hs⟩ := hs
  cases hs
  have hstart : AwaitsWalk tr r (∃ τ, CalledInWalk sch
      (sch.walk.visit σ.blockedTransactionsQueue.keys) σ r τ) [] σ :=
    ⟨es, htr, hq.imp (fun hq => ⟨by simp, hq⟩) Or.inl⟩
  have hC : ∀ r' τ, CalledInWalk sch (sch.walk.visit σ.blockedTransactionsQueue.keys) σ r' τ →
      r' = r → ∃ τ, CalledInWalk sch (sch.walk.visit σ.blockedTransactionsQueue.keys) σ r τ := by
    rintro r' τ hc rfl
    exact ⟨τ, hc⟩
  obtain ⟨es', htr', ⟨hfin, rs, hrs, hr⟩ | hab | hK⟩ := walkRule_awaits.walk hstart hC h1
  · refine Or.inl ⟨es', htr', Or.inl ⟨rs, ?_, hr⟩⟩
    rw [Dict.lookup_foldl_erase, if_neg (by rwa [IterOrder.mem_visit]), hrs]
  · exact Or.inl ⟨es', htr', Or.inr hab⟩
  · exact Or.inr hK

/-! ### Calls -/

/-- The request is blocked: it is in the queue, or it enters the queue when it is executed as the
pending request of the call. -/
def Blocked (sch : Schedule) (σ : State) (r : Request) : Prop :=
  σ.Queued r ∨ ∃ τ, CalledDirectly sch σ r τ ∧ τ.EntersQueue r

/-- The pending request finds the engine in order, and its timestamp is new in the queue. -/
structure Orderly (r : Request) (τ : State) : Prop where
  good : τ.Good
  fresh : ∀ {rs r'}, τ.blockedTransactionsQueue.lookup r.transactionId = some rs → r' ∈ rs →
    r'.timestamp = r.timestamp → r' = r

lemma CalledDirectly.unique {τ' : State} (h : CalledDirectly sch σ r τ)
    (h' : CalledDirectly sch σ r' τ') : τ = τ' ∧ r = r' := by
  obtain rfl : τ = τ' := Except.ok.inj (h.1.symm.trans h'.1)
  exact ⟨rfl, Option.some.inj (h.2.1.symm.trans h'.2.1)⟩

lemma settled_trace : Settled fun σ => ∃ es, σ.trace = tr ++ es where
  graph h _ := h
  abort := by
    rintro o T σ σ' ⟨es, htr⟩ ha
    exact ⟨es ++ [.aborted T], by rw [(gone_abortTransaction ha).2.2, htr, List.append_assoc]⟩
  request h := h

namespace Blocked

lemma exec (h : Blocked sch σ r) (ho : ∀ τ, CalledDirectly sch σ r τ → Orderly r τ)
    (hc : CalledDirectly sch σ r' τ) (hx : τ.exec o r' = .ok σ') : KeptSince σ.trace r σ' := by
  obtain ⟨es, hout⟩ := exec_outcome hx
  rcases h with hq | ⟨τ', hc', hent⟩
  · have hk : KeptSince σ.trace r σ := ⟨[], by simp, Or.inl hq⟩
    exact (KeptSince.settled.calledDirectly hk hc).1.exec hout
  · obtain ⟨rfl, rfl⟩ := hc.unique hc'
    have hτ := ho τ hc
    obtain ⟨⟨es₀, htr⟩, -⟩ := settled_trace.calledDirectly ⟨[], (List.append_nil _).symm⟩ hc
    exact ⟨es₀ ++ es, by rw [hout.trace, htr, List.append_assoc],
      Or.inl (hout.queued_of_waits ((hout.entersQueue_iff hτ.good).mp hent) fun _ _ => hτ.fresh)⟩

/-- The pending request is not executed: only requests in the queue are blocked. -/
lemma resolved (h : Blocked sch σ r) (hno : ∀ τ, ¬CalledDirectly sch σ r τ)
    (hτ : σ.resolved sch = .ok τ) : KeptSince σ.trace r τ := by
  rcases h with hq | ⟨τ', hc', -⟩
  · exact (KeptSince.settled.resolveDeadlocks ⟨[], by simp, Or.inl hq⟩ hτ).1
  · exact absurd hc' (hno τ')

/-- **A blocked request** is in the queue when the call returns, unless its transaction was aborted
or the request was taken from the queue. -/
theorem keptSince_or_taken (hb : Blocked sch σ r)
    (ho : ∀ τ, CalledDirectly sch σ r τ → Orderly r τ) (h : executeInstructions sch σ = .ok σ') :
    KeptSince σ.trace r σ' ∨ ∃ τ, CalledFromQueue sch σ r τ := by
  rcases executeInstructions_cases h with
    ⟨r', τ, hτ, hreq, hst, rfl⟩ | ⟨r', τ, σ₁, hc, -, hx, rfl⟩ |
    ⟨r', τ, hτ, hreq, -, hbl, hrw, rfl⟩ | ⟨σ₁, hw, h⟩
  · have hk : KeptSince σ.trace r τ := by
      refine hb.resolved (fun τ' hc => ?_) hτ
      obtain rfl : τ' = τ := Except.ok.inj (hc.1.symm.trans hτ)
      obtain rfl : r = r' := Option.some.inj (hc.2.1.symm.trans hreq)
      rw [hc.2.2.1] at hst
      cases hst
    exact Or.inl hk
  · have hk : KeptSince σ.trace r σ₁ := hb.exec ho hc hx
    exact Or.inl hk
  · have hk : KeptSince σ.trace r τ := by
      refine hb.resolved (fun τ' hc => ?_) hτ
      obtain rfl : τ' = τ := Except.ok.inj (hc.1.symm.trans hτ)
      obtain rfl : r = r' := Option.some.inj (hc.2.1.symm.trans hreq)
      rw [hc.2.2.2 hbl] at hrw
      cases hrw
    obtain ⟨es, htr, hq⟩ := hk
    exact Or.inl ⟨es, htr, hq.imp (fun hq => hq.addRequest r') id⟩
  · have hk : KeptSince σ.trace r σ₁ := by
      rcases hw with ⟨hτ, hreq⟩ | ⟨r', τ, hc, -, hx⟩
      · refine hb.resolved (fun τ' hc => ?_) hτ
        obtain rfl : τ' = σ₁ := Except.ok.inj (hc.1.symm.trans hτ)
        rw [hc.2.1] at hreq
        cases hreq
      · exact hb.exec ho hc hx
    exact (hk.serve h).imp id fun ⟨τ, hc⟩ => ⟨τ, σ₁, hw, hc⟩

end Blocked

end State

/-! ### Runs -/

section Runs

variable {l : List Feed} {r : Request} {σ σ' τ : State} {sch : Schedule}

lemma orderly_of_callOf (ha : Admissible l) (hc : CallOf l sch σ)
    (hd : State.CalledDirectly sch σ r τ) :
    State.Orderly r τ := by
  refine ⟨good_called ha ⟨sch, σ, hc, Or.inl hd⟩, fun {rs r'} hrs hr' hts => ?_⟩
  rcases hc with ⟨l₁, x, l₂, σ₀, r₀, rfl, hrun, hreq, rfl, rfl⟩ | ⟨h, -⟩
  · have ha₁ : Admissible l₁ := ((admissible_append l₁ _).mp ha).1
    have hK := (known_invariant fun _ _ => True).run ha₁ (by simp) hrun
    have hset := (known_invariant fun _ _ => True).settled l₁ ha₁
    obtain ⟨hτ, hr⟩ := hset.calledDirectly (hset.request hK) hd
    cases hr
    obtain ⟨y, hy, hr'⟩ := (hτ.queued hrs hr').1.fed
    exact Fed.eq_of_timestamp ha ⟨y, List.mem_append_left _ hy, hr'⟩ ⟨x, by simp, hreq⟩ hts
  · have hn := ((known_invariant fun _ _ => True).reaches ha (by simp) h).2
    have hset := (known_invariant fun _ _ => True).settled l ha
    obtain ⟨-, hr⟩ := hset.calledDirectly
      ((known_invariant fun _ _ => True).reaches ha (by simp) h).1 hd
    rw [hn] at hr
    cases hr

/-- **What is taken from the queue is gone**: when the call returns, the queue of its transaction is
empty. -/
theorem not_queued_of_taken (ha : Admissible l) (hc : CallOf l sch σ)
    (ht : State.CalledFromQueue sch σ r τ) (h : State.executeInstructions sch σ = .ok σ') :
    r.transactionId ∉ σ'.blockedTransactionsQueue := by
  obtain ⟨σ₁, hw, hcw⟩ := ht
  obtain ⟨l', ha', hR, hW⟩ := (waiting_invariant fun _ _ => True).walkStarts ha (by simp) hc hw
  rw [State.executeInstructions_of_walkStarts hw, State.serveBlocked, bind_eq_ok] at h
  obtain ⟨⟨fin, σ₂⟩, h1, h⟩ := h
  cases h
  have hfin := (State.walkRule_waiting ha' sch).mem_finished (C := fun _ _ => True)
    (fun hJ => (hJ.queueable _ List.mem_cons_self).2) (State.InWalk.start hR hW) (by simp) h1 hcw
  rw [← AList.lookup_eq_none, Dict.lookup_foldl_erase, if_pos ((IterOrder.mem_visit _).mpr hfin)]

end Runs

end RepCRec
