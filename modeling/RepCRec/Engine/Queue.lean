import RepCRec.Engine.Accesses

/-!
What the execution of a request does to the set of live transactions and to the blocked queue, by
the entries that it adds to the trace (`Outcome.mem_transactions`, `Outcome.lookup_queue`).
-/

namespace RepCRec

open Container (IterOrder bind_eq_ok insertByKey)

namespace State

variable {o : IterOrder} {σ σ' : State} {r : Request} {es : List Event} {T T' : TranId} {v : VarId}
  {s : SiteId} {x : Value}

lemma mem_transactions_modifyTransaction {f : Transaction → Transaction}
    (h : σ.modifyTransaction T f = .ok σ') : T' ∈ σ'.transactions ↔ T' ∈ σ.transactions := by
  obtain ⟨t, ht, rfl⟩ := modifyTransaction_eq_ok.mp h
  refine (AList.mem_insert _).trans (or_iff_right_of_imp ?_)
  rintro rfl
  exact Dict.mem_of_lookup ht

/-- The request waits, as the entries say. -/
def Waits (r : Request) (es : List Event) : Prop :=
  .waitsForLock r ∈ es ∨ .waitsForSite r ∈ es

instance (r : Request) (es : List Event) : Decidable (Waits r es) :=
  inferInstanceAs (Decidable (_ ∨ _))

/-- Only reads and writes wait, and they do nothing else. -/
lemma Outcome.waits {r' : Request} (h : Outcome o σ r es σ') (hw : Waits r' es) :
    r' = r ∧ r.isReadWrite = true ∧ (es = [.waitsForLock r] ∨ es = [.waitsForSite r]) := by
  cases h with
  | @waitsForLock r T v _ ha =>
      refine ⟨by simpa [Waits] using hw, ?_, Or.inl rfl⟩
      cases r <;> first | rfl | cases ha
  | waitsForSite | missingWaits => exact ⟨by simpa [Waits] using hw, rfl, Or.inr rfl⟩
  | sharesEven =>
      generalize o.visit _ = l at hw
      cases l <;> simp [firstRead, Waits] at hw
  | _ => simp [Waits, storeEvent] at hw

/-- A read of a read-only transaction waits only for the site of an odd variable. -/
lemma Outcome.isOdd_of_waits {ts : Timestamp} {t : Transaction}
    (h : Outcome o σ (.read ts T v) es σ') (hw : Waits (.read ts T v) es)
    (ht : σ.transactions.lookup T = some t) (hro : t.isReadOnly = true) : v.isOdd = true := by
  cases h with
  | waitsForLock ha _ _ _ _ hlock =>
      cases ha
      obtain ⟨t', ht', hro'⟩ := hlock ts rfl
      rw [ht] at ht'
      cases ht'
      rw [hro] at hro'
      cases hro'
  | waitsForSite hv => exact hv
  | sharesEven _ _ _ _ _ =>
      generalize o.visit _ = l at hw
      cases l <;> simp [firstRead, Waits] at hw
  | _ => simp [Waits] at hw

/-- The queue of `T` after the entries `es`. -/
def queueAfter (σ : State) (r : Request) (es : List Event) (T : TranId) : Option (List Request) :=
  if .aborted T ∈ es then none
  else if r.transactionId = T ∧ Waits r es then
    some (insertByKey Request.timestamp r ((σ.blockedTransactionsQueue.lookup T).getD []))
  else σ.blockedTransactionsQueue.lookup T

/-- The live transactions and the queue after the aborts of a failure. -/
lemma foldlM_abort_indexes {l : List TranId}
    (h : l.foldlM (fun σ T => σ.abortTransaction o T) σ = .ok σ') :
    (T ∈ σ'.transactions ↔ T ∈ σ.transactions ∧ T ∉ l) ∧
      σ'.blockedTransactionsQueue.lookup T =
        if T ∈ l then none else σ.blockedTransactionsQueue.lookup T := by
  induction l generalizing σ with
  | nil =>
      cases h
      simp
  | cons T' l ih =>
      rw [List.foldlM_cons, bind_eq_ok] at h
      obtain ⟨σ₁, h1, h⟩ := h
      obtain ⟨hg, hq, -⟩ := gone_abortTransaction h1
      obtain ⟨ih1, ih2⟩ := ih h
      constructor
      · rw [ih1, hg.mem_transactions, List.mem_cons, not_or, and_assoc]
      · rw [ih2, hq, Dict.lookup_erase]
        by_cases hl : T ∈ l
        · rw [if_pos hl, if_pos (List.mem_cons_of_mem T' hl)]
        · rw [if_neg hl]
          exact if_congr (by simp [hl]) rfl rfl

/-- **The live transactions after a request**: begun and neither committed nor aborted. -/
theorem Outcome.mem_transactions (h : Outcome o σ r es σ') :
    T ∈ σ'.transactions ↔ (T ∈ σ.transactions ∨ ∃ b, .created T b ∈ es) ∧
      .committed T ∉ es ∧ .aborted T ∉ es := by
  cases h with
  | dumped => simp
  | created =>
      refine (AList.mem_insert _).trans ?_
      rw [or_comm]
      simp
  | @failed _ s _ h =>
      rw [execFail, bind_eq_ok] at h
      obtain ⟨σ₁, h1, h⟩ := h
      cases h
      have hw : writersAt o s (σ.modifySite s Site.setUnavailable) = σ.writersAt o s := rfl
      refine (foldlM_abort_indexes h1).1.trans ?_
      simp [hw]
  | recovered =>
      rw [(recovered_execRecover σ o _).transactions]
      simp
  | unavailable | missingUnavailable | missingNothing => simp
  | waitsForLock => simp [assignWaitForGraph, addRequestToBlockedQueue]
  | waitsForSite _ _ h | missingWaits _ _ _ h =>
      rcases waitForSite_cases h with ⟨-, rfl⟩ | ⟨-, σ₁, h1, rfl⟩
      · simp [addRequestToBlockedQueue]
      · refine (mem_transactions_modifyTransaction h1).trans ?_
        simp
  | writeLocks _ h1 h2 =>
      have hq := (Quiet.updateValuesAt h1).trans (Quiet.assignWriteLock h2)
      refine (hq.mem_transactions T).trans ?_
      simp
  | rewritesOdd _ _ h1 _ =>
      refine (mem_transactions_modifyTransaction h1).trans ?_
      simp
  | rewritesEven => simp
  | readsVersion _ _ _ _ _ h1 =>
      refine (mem_transactions_modifyTransaction h1).trans ?_
      simp
  | readAborts _ _ _ _ h | missingAborts _ _ _ h =>
      rw [(gone_abortTransaction h).1.mem_transactions]
      simp
  | sharesOdd _ _ hv _ _ h1 h2 =>
      refine (mem_transactions_modifyTransaction h2).trans ?_
      rw [(Quiet.assignShareLock h1).mem_transactions T]
      simp
  | sharesEven _ _ _ _ h1 =>
      refine ((Quiet.assignShareLock h1).mem_transactions T).trans ?_
      generalize o.visit _ = l
      cases l <;> simp [firstRead, readFirst]
  | commits ht hok h =>
      rw [transactions_emit, (gone_releaseLocks h).1.mem_transactions,
        (sameLocks_installAll σ _ _ _).transactions]
      simp [storeEvent]
  | commitFails _ _ h =>
      rw [transactions_emit, (gone_abortTransaction h).1.mem_transactions]
      simp

/-- What is live after a request other than a begin was live before, and stays so. -/
lemma Outcome.live (h : Outcome o σ r es σ') (hb : r.isBegin = false) (hT : T ∈ σ'.transactions) :
    T ∈ σ.transactions ∧ .committed T ∉ es ∧ .aborted T ∉ es := by
  obtain ⟨hT', hleft⟩ := h.mem_transactions.mp hT
  refine ⟨hT'.resolve_right ?_, hleft⟩
  rintro ⟨b, hb'⟩
  obtain ⟨ts, rfl⟩ := h.created_mem hb'
  cases hb

lemma queueAfter_of_ne (hab : .aborted T ∉ es) (hw : ¬Waits r es) :
    σ.queueAfter r es T = σ.blockedTransactionsQueue.lookup T := by
  rw [queueAfter, if_neg hab, if_neg fun h => hw h.2]

/-- A request that waits for a site is entered. -/
lemma lookup_queue_waitForSite {n : ℤ} (h : σ.waitForSite r r.transactionId n s = .ok σ') :
    σ'.blockedTransactionsQueue.lookup T = σ.queueAfter r [.waitsForSite r] T := by
  have hif : (if r.transactionId = T then some (insertByKey Request.timestamp r
      ((σ.blockedTransactionsQueue.lookup T).getD [])) else
      σ.blockedTransactionsQueue.lookup T) = σ.queueAfter r [.waitsForSite r] T := by
    rw [queueAfter, if_neg (c := _ ∈ _) (by simp)]
    exact if_congr (by simp [Waits]) rfl rfl
  rcases waitForSite_cases h with ⟨-, rfl⟩ | ⟨-, σ₁, h1, rfl⟩
  · exact (addRequest_lookup _ _ T).trans hif
  · obtain ⟨t, -, rfl⟩ := modifyTransaction_eq_ok.mp h1
    exact (addRequest_lookup _ _ T).trans hif

/-- **The blocked queue after a request**: the entries of aborted transactions are gone, and a
request that waits is entered. -/
theorem Outcome.lookup_queue (h : Outcome o σ r es σ') :
    σ'.blockedTransactionsQueue.lookup T = σ.queueAfter r es T := by
  cases h with
  | dumped => exact (queueAfter_of_ne (by simp) (by simp [Waits])).symm
  | created => exact (queueAfter_of_ne (by simp) (by simp [Waits])).symm
  | @failed _ s _ h =>
      rw [execFail, bind_eq_ok] at h
      obtain ⟨σ₁, h1, h⟩ := h
      cases h
      refine (foldlM_abort_indexes h1).2.trans ?_
      rw [queueAfter, if_neg (c := _ ∧ _) (by simp [Waits])]
      exact if_congr (by simp [writersAt, modifySite]) rfl rfl
  | recovered =>
      rw [(recovered_execRecover σ o _).queue]
      exact (queueAfter_of_ne (by simp) (by simp [Waits])).symm
  | unavailable | missingUnavailable | missingNothing =>
      exact (queueAfter_of_ne (by simp) (by simp [Waits])).symm
  | waitsForLock =>
      refine (addRequest_lookup _ r T).trans ?_
      rw [queueAfter, if_neg (c := _ ∈ _) (by simp)]
      exact if_congr (by simp [Waits]) rfl rfl
  | waitsForSite _ _ h | missingWaits _ _ _ h => exact lookup_queue_waitForSite h
  | writeLocks _ h1 h2 =>
      rw [blockedTransactionsQueue_emit,
        ((Quiet.updateValuesAt h1).trans (Quiet.assignWriteLock h2)).queue]
      exact (queueAfter_of_ne (by simp) (by simp [Waits])).symm
  | rewritesOdd _ _ h1 _ =>
      obtain ⟨t, -, rfl⟩ := modifyTransaction_eq_ok.mp h1
      exact (queueAfter_of_ne (by simp) (by simp [Waits])).symm
  | rewritesEven => exact (queueAfter_of_ne (by simp) (by simp [Waits])).symm
  | readsVersion _ _ _ _ _ h1 =>
      obtain ⟨t, -, rfl⟩ := modifyTransaction_eq_ok.mp h1
      exact (queueAfter_of_ne (by simp) (by simp [Waits])).symm
  | readAborts _ _ _ _ h | missingAborts _ _ _ h =>
      rw [(gone_abortTransaction h).2.1, Dict.lookup_erase, queueAfter,
        if_neg (c := _ ∧ _) (by simp [Waits])]
      exact if_congr (by simp) rfl rfl
  | sharesOdd _ _ hv _ _ h1 h2 =>
      obtain ⟨t, -, rfl⟩ := modifyTransaction_eq_ok.mp h2
      rw [queueAfter_of_ne (by simp) (by simp [Waits]), ← (Quiet.assignShareLock h1).queue]
      rfl
  | @sharesEven ts T' v t σ₁ _ _ _ _ h1 =>
      have hq := (Quiet.assignShareLock h1).queue
      generalize o.visit _ = l at hq ⊢
      rw [queueAfter_of_ne, blockedTransactionsQueue_emit, hq]
      · rcases readFirst_cases σ T' v l with heq | ⟨s, -, heq⟩
        · rw [heq]
        · rw [heq, blockedTransactionsQueue_emit]
      · cases l <;> simp [firstRead]
      · cases l <;> simp [firstRead, Waits]
  | commits ht hok h =>
      rw [blockedTransactionsQueue_emit, (gone_releaseLocks h).2.1,
        (sameLocks_installAll σ _ _ _).queue]
      exact (queueAfter_of_ne (by simp [storeEvent]) (by simp [Waits, storeEvent])).symm
  | commitFails _ _ h =>
      rw [blockedTransactionsQueue_emit, (gone_abortTransaction h).2.1, Dict.lookup_erase,
        queueAfter, if_neg (c := _ ∧ _) (by simp [Waits])]
      exact if_congr (by simp) rfl rfl

/-- What is blocked after a request is this one, which waits, or was blocked before. -/
lemma Outcome.mem_of_lookup_queue (h : Outcome o σ r es σ') {r' : Request} {rs : List Request}
    (hq : σ'.blockedTransactionsQueue.lookup T = some rs) (hr' : r' ∈ rs) :
    .aborted T ∉ es ∧ ((r' = r ∧ r.transactionId = T ∧ Waits r es) ∨
      ∃ rs', σ.blockedTransactionsQueue.lookup T = some rs' ∧ r' ∈ rs') := by
  rw [h.lookup_queue, queueAfter] at hq
  split_ifs at hq with hab hw
  · cases hq
    exact ⟨hab, (Container.mem_of_mem_insertByKey hr').imp (fun heq => ⟨heq, hw⟩)
      Dict.mem_getD.mp⟩
  · exact ⟨hab, Or.inr ⟨rs, hq, hr'⟩⟩

/-- What is blocked stays so, unless its transaction is aborted. -/
lemma Outcome.lookup_queue_of_mem (h : Outcome o σ r es σ') (hab : .aborted T ∉ es)
    {r' : Request} {rs : List Request} (hq : σ.blockedTransactionsQueue.lookup T = some rs)
    (hr' : r' ∈ rs) : ∃ rs', σ'.blockedTransactionsQueue.lookup T = some rs' ∧ r' ∈ rs' := by
  rw [h.lookup_queue, queueAfter, if_neg hab]
  split_ifs
  · exact ⟨_, rfl, Container.mem_insertByKey_of_mem (by simpa [hq] using hr')⟩
  · exact ⟨rs, hq, hr'⟩

/-- The transactions with blocked requests after a request. -/
lemma Outcome.mem_queue (h : Outcome o σ r es σ') : T ∈ σ'.blockedTransactionsQueue ↔
    .aborted T ∉ es ∧ (T ∈ σ.blockedTransactionsQueue ∨ (r.transactionId = T ∧ Waits r es)) := by
  rw [← AList.lookup_isSome, h.lookup_queue, queueAfter, ← AList.lookup_isSome]
  split_ifs with hab hw
  · simp [hab]
  · simp [hab, hw]
  · simp [hab, hw]

/-! ### What holds of all blocked requests -/

/-- `Q` holds of the blocked requests of each transaction. -/
def QueueAll (Q : TranId → Request → Prop) (σ : State) : Prop :=
  ∀ T rs r, σ.blockedTransactionsQueue.lookup T = some rs → r ∈ rs → Q T r

namespace QueueAll

variable {Q : TranId → Request → Prop}

lemma of_lookup (h : QueueAll Q σ) (hl : ∀ {T rs}, σ'.blockedTransactionsQueue.lookup T = some rs →
    σ.blockedTransactionsQueue.lookup T = some rs) : QueueAll Q σ' :=
  fun T rs r hq hr => h T rs r (hl hq) hr

lemma enqueue (h : QueueAll Q σ) (hr : Q r.transactionId r) :
    QueueAll Q (σ.addRequestToBlockedQueue r) := by
  intro T rs r' hq hr'
  rcases mem_of_addRequest hq hr' with ⟨rfl, rfl⟩ | ⟨rs', hq', hmem⟩
  · exact hr
  · exact h T rs' r' hq' hmem

lemma exec (h : QueueAll Q σ) (hr : Q r.transactionId r) (hout : Outcome o σ r es σ') :
    QueueAll Q σ' := by
  intro T rs r' hq hr'
  obtain ⟨-, ⟨rfl, rfl, -⟩ | ⟨rs', hq', hmem⟩⟩ := hout.mem_of_lookup_queue hq hr'
  · exact hr
  · exact h T rs' r' hq' hmem

lemma abortTransaction (h : QueueAll Q σ) (ha : σ.abortTransaction o T = .ok σ') :
    QueueAll Q σ' := h.of_lookup fun {T' rs} hq => by
  rw [(gone_abortTransaction ha).2.1, Dict.lookup_erase] at hq
  split_ifs at hq
  exact hq

end QueueAll

end State

end RepCRec
