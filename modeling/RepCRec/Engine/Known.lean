import RepCRec.Engine.Calls
import RepCRec.Engine.Install

/-!
What the indexes of the engine contain (`Known`): only transactions that were begun are live,
wait or have queued requests, and the queue of a transaction holds requests of that
transaction, sorted by their timestamps, none of them a begin.
-/

namespace RepCRec

open Container (IterOrder SortedByKey)

namespace State

variable {B : TranId → Prop} {Q : Request → Prop} {σ σ' : State} {T : TranId} {r : Request}
  {o : IterOrder}

/-- The indexes contain transactions that were begun, which are those in `B`, and requests of
these, which are among those in `Q`. -/
structure Known (B : TranId → Prop) (Q : Request → Prop) (σ : State) : Prop where
  live : ∀ {T}, T ∈ σ.transactions → B T
  waits : ∀ {T}, σ.waitsFor T ≠ [] → B T
  site : ∀ {T}, T ∈ σ.siteWaitingMap → B T
  queue : ∀ {T}, T ∈ σ.blockedTransactionsQueue → B T
  queued : ∀ {T rs r}, σ.blockedTransactionsQueue.lookup T = some rs → r ∈ rs →
    Q r ∧ r.transactionId = T
  sorted : ∀ {T rs}, σ.blockedTransactionsQueue.lookup T = some rs →
    SortedByKey Request.timestamp rs

namespace Known

/-- A transaction with a queued request is known. -/
lemma isBlocked (h : Known B Q σ) (hb : σ.isBlocked T = true) : B T := by
  rw [State.isBlocked, Bool.or_eq_true, Bool.or_eq_true] at hb
  rcases hb with (hw | hq) | hs
  · exact h.waits (by simpa [isWaitingForLock] using hw)
  · exact h.queue (of_decide_eq_true hq)
  · exact h.site (of_decide_eq_true hs)

/-- Changes outside the indexes. -/
lemma congr (h : Known B Q σ) (ht : ∀ T, T ∈ σ'.transactions → T ∈ σ.transactions)
    (hw : ∀ T, σ'.waitsFor T = σ.waitsFor T) (hs : σ'.siteWaitingMap = σ.siteWaitingMap)
    (hq : σ'.blockedTransactionsQueue = σ.blockedTransactionsQueue) : Known B Q σ' where
  live h' := h.live (ht _ h')
  waits h' := h.waits (hw _ ▸ h')
  site h' := h.site (hs ▸ h')
  queue h' := h.queue (hq ▸ h')
  queued h' := h.queued (hq ▸ h')
  sorted h' := h.sorted (hq ▸ h')

lemma emit (h : Known B Q σ) (e : Event) : Known B Q (σ.emit e) :=
  h.congr (fun _ => id) (fun _ => rfl) rfl rfl

lemma quiet (h : Known B Q σ) (hq : Quiet σ σ') : Known B Q σ' :=
  h.congr (fun T => (hq.mem_transactions T).mp)
    (fun T => by rw [waitsFor, hq.waitForGraph, waitsFor]) hq.siteWaitingMap hq.queue

lemma modifyTransaction (h : Known B Q σ) {f : Transaction → Transaction}
    (h' : σ.modifyTransaction T f = .ok σ') : Known B Q σ' := by
  obtain ⟨t, ht, rfl⟩ := modifyTransaction_eq_ok.mp h'
  refine h.congr (fun T' hT => ?_) (fun _ => rfl) rfl rfl
  rcases (AList.mem_insert _).mp hT with rfl | hT
  · exact Dict.mem_of_lookup ht
  · exact hT

/-- A known request is queued. -/
lemma enqueue (h : Known B Q σ) (hr : Q r) (hB : B r.transactionId) :
    Known B Q (σ.addRequestToBlockedQueue r) where
  live := h.live
  waits := h.waits
  site := h.site
  queue hT := by
    rcases (AList.mem_insert _).mp hT with rfl | hT
    · exact hB
    · exact h.queue hT
  queued := by
    intro T rs r' hT hr'
    rcases mem_of_addRequest hT hr' with ⟨rfl, rfl⟩ | ⟨rs', hT', hmem⟩
    · exact ⟨hr, rfl⟩
    · exact h.queued hT' hmem
  sorted := by
    intro T rs hT
    rw [addRequest_lookup] at hT
    split_ifs at hT with heq
    · cases hT
      refine SortedByKey.insertByKey ?_
      cases hl : σ.blockedTransactionsQueue.lookup T with
      | none => simp [SortedByKey]
      | some l => simpa using h.sorted hl
    · exact h.sorted hT

/-- A known transaction begins to wait for locks. -/
lemma assignWaitForGraph (h : Known B Q σ) (hT : B T) (l : List TranId) :
    Known B Q (σ.assignWaitForGraph o T l) where
  live := h.live
  site := h.site
  queue := h.queue
  queued := h.queued
  sorted := h.sorted
  waits := by
    intro T' hw
    rw [waitsFor_assignWaitForGraph] at hw
    split_ifs at hw with heq
    · exact heq ▸ hT
    · exact h.waits hw

/-- A known transaction begins to wait for a site. -/
lemma addToSiteWaitingMap (h : Known B Q σ) (hT : B T) (s : SiteId) :
    Known B Q (σ.addToSiteWaitingMap T s) where
  live := h.live
  waits := h.waits
  queue := h.queue
  queued := h.queued
  sorted := h.sorted
  site hT' := by
    rcases (AList.mem_insert _).mp hT' with rfl | hT'
    · exact hT
    · exact h.site hT'

/-- A transaction is removed from the indexes. -/
lemma gone (h : Known B Q σ) (hg : Gone T σ σ')
    (hq : σ'.blockedTransactionsQueue = σ.blockedTransactionsQueue ∨
      σ'.blockedTransactionsQueue = σ.blockedTransactionsQueue.erase T) : Known B Q σ' := by
  have hlookup : ∀ {T' rs}, σ'.blockedTransactionsQueue.lookup T' = some rs →
      σ.blockedTransactionsQueue.lookup T' = some rs := by
    intro T' rs hl
    rcases hq with hq | hq
    · exact hq ▸ hl
    · rw [hq, Dict.lookup_erase] at hl
      split_ifs at hl
      exact hl
  refine ⟨fun {T'} hT => ?_, fun {T'} hw => ?_, fun {T'} hs => ?_, fun {T'} hT => ?_,
    fun hl => h.queued (hlookup hl), fun hl => h.sorted (hlookup hl)⟩
  · exact h.live (hg.mem_transactions.mp hT).1
  · rw [hg.waits] at hw
    split_ifs at hw
    · exact absurd rfl hw
    · exact h.waits hw
  · exact h.site (hg.siteWaitingMap ▸ hs)
  · obtain ⟨rs, hl⟩ := Dict.exists_lookup hT
    exact h.queue (Dict.mem_of_lookup (hlookup hl))

lemma abortTransaction (h : Known B Q σ) (ha : σ.abortTransaction o T = .ok σ') :
    Known B Q σ' := by
  obtain ⟨hg, hq, -⟩ := gone_abortTransaction ha
  exact h.gone hg (Or.inr hq)

/-- A transaction waits for a site, for the first time or again. -/
lemma waitForSite (h : Known B Q σ) (hr : Q r) (hB : B r.transactionId) {n : ℤ} {s : SiteId}
    (h' : σ.waitForSite r r.transactionId n s = .ok σ') : Known B Q σ' := by
  rcases waitForSite_cases h' with ⟨-, rfl⟩ | ⟨-, σ₁, h1, rfl⟩
  · exact (h.enqueue hr hB).emit _
  · exact (((h.modifyTransaction h1).addToSiteWaitingMap hB s).enqueue hr hB).emit _

/-- **Every execution keeps the indexes.** -/
theorem exec (h : Known B Q σ) (hQ : r.isReadWrite = true → Q r)
    (hB : r.isBegin = true ∨ r.isReadWrite = true → B r.transactionId)
    (hx : σ.exec o r = .ok σ') : Known B Q σ' := by
  have hacc : ∀ {T v}, r.access? = some (T, v) → Q r ∧ B r.transactionId ∧ B T := by
    intro T v ha
    cases r with
    | write ts T' v' x =>
        cases ha
        exact ⟨hQ rfl, hB (Or.inr rfl), hB (Or.inr rfl)⟩
    | read ts T' v' =>
        cases ha
        exact ⟨hQ rfl, hB (Or.inr rfl), hB (Or.inr rfl)⟩
    | _ => cases ha
  obtain ⟨es, hout⟩ := exec_outcome hx
  cases hout with
  | dumped => exact h.emit _
  | created =>
      refine ⟨fun hT => ?_, h.waits, h.site, h.queue, h.queued, h.sorted⟩
      rcases (AList.mem_insert _).mp hT with rfl | hT
      · exact hB (Or.inl rfl)
      · exact h.live hT
  | failed h' =>
      exact execFail_induction h' (h.congr (fun _ => id) (fun _ => rfl) rfl rfl)
        (fun hσ ha => hσ.abortTransaction ha) fun hσ => hσ.emit _
  | @recovered ts s =>
      have hr := recovered_execRecover σ o s
      refine ⟨fun hT => h.live (hr.transactions ▸ hT), fun {T} hw => h.waits (T := T) ?_,
        fun {T} hT => h.site (T := T) ?_, fun hT => h.queue (hr.queue ▸ hT),
        fun hl => h.queued (hr.queue ▸ hl), fun hl => h.sorted (hr.queue ▸ hl)⟩
      · rwa [waitsFor, hr.waitForGraph] at hw
      · rw [← AList.lookup_isSome, hr.siteWaitingMap] at hT
        split_ifs at hT
        · cases hT
        · exact AList.lookup_isSome.mp hT
  | unavailable | missingUnavailable | missingNothing => exact h.emit _
  | waitsForLock ha =>
      obtain ⟨hq, hr, hT⟩ := hacc ha
      exact ((h.assignWaitForGraph hT _).enqueue hq hr).emit _
  | waitsForSite _ _ h' | missingWaits _ _ _ h' => exact h.waitForSite (hQ rfl) (hB (Or.inr rfl)) h'
  | writeLocks _ h1 h2 =>
      exact (h.quiet ((Quiet.updateValuesAt h1).trans (Quiet.assignWriteLock h2))).emit _
  | rewritesOdd _ _ h1 _ => exact (h.modifyTransaction h1).emit _
  | rewritesEven => exact h.emit _
  | readsVersion _ _ _ _ _ h1 => exact (h.modifyTransaction h1).emit _
  | readAborts _ _ _ _ ha | missingAborts _ _ _ ha => exact h.abortTransaction ha
  | sharesOdd _ _ _ _ _ h1 h2 =>
      exact (((h.quiet (Quiet.assignShareLock h1)).modifyTransaction h2).emit _).emit _
  | sharesEven _ _ _ _ h1 =>
      have h₀ : ∀ {T v l}, Known B Q (σ.readFirst T v l) := by
        intro T v l
        rcases readFirst_cases σ T v l with heq | ⟨s, -, heq⟩
        · rw [heq]
          exact h
        · rw [heq]
          exact h.emit _
      exact (h₀.quiet (Quiet.assignShareLock h1)).emit _
  | @commits ts T t σ₁ _ _ h1 =>
      have hl := sameLocks_installAll (o := o) σ T ts t
      obtain ⟨hg, hq, -⟩ := gone_releaseLocks h1
      have h₁ := h.congr (fun T hT => hl.transactions ▸ hT)
        (fun T => by rw [waitsFor, hl.waitForGraph, waitsFor]) hl.siteWaitingMap hl.queue
      exact (h₁.gone hg (Or.inl hq)).emit _
  | commitFails _ _ ha => exact (h.abortTransaction ha).emit _

/-- What the engine does on its own names no other transactions. -/
lemma settled : Settled (Known B Q) where
  graph h hw := ⟨h.live, fun hT => h.waits (hw _ ▸ hT), h.site, h.queue, h.queued, h.sorted⟩
  abort h ha := h.abortTransaction ha
  request h := h.congr (fun _ => id) (fun _ => rfl) rfl rfl

/-- The requests in the queue need no more than that their transactions were begun. -/
lemma kept {C : Request → State → Prop} (hB : ∀ {r}, Q r → B r.transactionId) :
    Kept C (Known B Q) Q where
  toSettled := settled
  queued h hl hr := (h.queued hl hr).1
  exec h hq _ hx := h.exec (fun _ => hq) (fun _ => hB hq) hx
  dequeue := by
    intro σ T h
    have hlookup : ∀ {T' rs}, (σ.blockedTransactionsQueue.erase T).lookup T' = some rs →
        σ.blockedTransactionsQueue.lookup T' = some rs := by
      intro T' rs hl
      rw [Dict.lookup_erase] at hl
      split_ifs at hl
      exact hl
    exact ⟨h.live, h.waits, h.site, fun hT => h.queue (AList.mem_erase.mp hT).2,
      fun hl => h.queued (hlookup hl), fun hl => h.sorted (hlookup hl)⟩

/-- More transactions were begun, and more requests were made. -/
lemma mono {B' : TranId → Prop} {Q' : Request → Prop} (hB : ∀ {T}, B T → B' T)
    (hQ : ∀ {r}, Q r → Q' r) (h : Known B Q σ) : Known B' Q' σ where
  live hT := hB (h.live hT)
  waits hT := hB (h.waits hT)
  site hT := hB (h.site hT)
  queue hT := hB (h.queue hT)
  queued hl hr := ⟨hQ (h.queued hl hr).1, (h.queued hl hr).2⟩
  sorted := h.sorted

/-- A request may make more transactions and requests known. -/
lemma leads {C : Request → State → Prop} {B' : TranId → Prop} {Q' : Request → Prop}
    (hB : ∀ {T}, B T → B' T) (hQ : ∀ {r}, Q r → Q' r)
    (hr : r.isBegin = true ∨ r.isReadWrite = true → B' r.transactionId)
    (hfresh : r.isBegin = true → ¬B r.transactionId)
    (hQ' : r.isBegin = false → B' r.transactionId → Q' r) :
    Leads C (Known B Q) (Known B' Q') r where
  exec h _ _ _ hx := by
    refine (h.mono hB hQ).exec (fun hrw => hQ' ?_ (hr (Or.inr hrw))) hr hx
    cases r <;> first | rfl | cases hrw
  enqueue := by
    intro σ h _ hbl _
    have hT := h.isBlocked hbl
    refine (h.mono hB hQ).enqueue (hQ' ?_ (hB hT)) (hB hT)
    by_contra hne
    rw [Bool.not_eq_false] at hne
    exact hfresh hne hT

end Known

end State

end RepCRec
