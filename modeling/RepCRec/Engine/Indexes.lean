import RepCRec.Engine.Queue

/-!
What an execution does to the indexes of the transaction manager and to the wait-for graph. A
property of them is kept by every execution, if it is kept where a transaction begins, leaves or
waits, where a request is entered into the queue, and where a site recovers
(`Outcome.index_induction`).
-/

namespace RepCRec

open Container (IterOrder)

namespace State

variable {o : IterOrder} {σ σ' : State} {r : Request} {es : List Event} {T : TranId}

/-- The time at which the transaction was begun, if it is live. -/
def beganAt (σ : State) (T : TranId) : Option Timestamp :=
  (σ.transactions.lookup T).map Transaction.timestamp

/-- The transactions with a begin are the live ones. -/
lemma isSome_beganAt {σ : State} {T : TranId} :
    (σ.beganAt T).isSome = true ↔ T ∈ σ.transactions := by
  rw [beganAt, Option.isSome_map, AList.lookup_isSome]

/-- The indexes are the same. -/
structure SameIndexes (σ σ' : State) : Prop where
  beganAt : ∀ T, σ'.beganAt T = σ.beganAt T
  transactionsSet : σ'.transactionsSet = σ.transactionsSet
  waitForGraph : σ'.waitForGraph = σ.waitForGraph
  siteWaitingMap : σ'.siteWaitingMap = σ.siteWaitingMap
  queue : σ'.blockedTransactionsQueue = σ.blockedTransactionsQueue

/-- The set of live transactions without the entry of `T`. -/
def setWithout (σ : State) (T : TranId) : List TransactionRef :=
  σ.transactionsSet.filter fun r => some r.timestamp != σ.beganAt T

/-- The transaction `T` leaves the indexes, by a commit or an abort. -/
structure Left (T : TranId) (σ σ' : State) : Prop where
  beganAt : ∀ T', σ'.beganAt T' = if T' = T then none else σ.beganAt T'
  transactionsSet : σ'.transactionsSet = σ.setWithout T
  waits : ∀ T', σ'.waitsFor T' =
    if T' = T ∨ (σ.waitsFor T').erase T = [] then [] else σ.waitsFor T'
  siteWaitingMap : σ'.siteWaitingMap = σ.siteWaitingMap
  queue : σ'.blockedTransactionsQueue = σ.blockedTransactionsQueue ∨
    σ'.blockedTransactionsQueue = σ.blockedTransactionsQueue.erase T

namespace SameIndexes

lemma waitsFor (h : SameIndexes σ σ') (T : TranId) : σ'.waitsFor T = σ.waitsFor T := by
  rw [State.waitsFor, h.waitForGraph, State.waitsFor]

lemma mem_transactions (h : SameIndexes σ σ') (T : TranId) :
    T ∈ σ'.transactions ↔ T ∈ σ.transactions := by
  rw [← isSome_beganAt, h.beganAt, isSome_beganAt]

lemma emit (σ : State) (e : Event) : SameIndexes σ (σ.emit e) := ⟨fun _ => rfl, rfl, rfl, rfl, rfl⟩

/-- A quiet step changes no index. -/
lemma of_quiet (h : Quiet σ σ') : SameIndexes σ σ' where
  beganAt T := by
    have ht := congrArg (Option.map Prod.fst) (h.transaction T)
    rw [Option.map_map, Option.map_map] at ht
    exact ht
  transactionsSet := h.transactionsSet
  waitForGraph := h.waitForGraph
  siteWaitingMap := h.siteWaitingMap
  queue := h.queue

/-- A change that keeps the begin of the transaction. -/
lemma modifyTransaction {f : Transaction → Transaction} (h : σ.modifyTransaction T f = .ok σ')
    (hf : ∀ t, (f t).timestamp = t.timestamp) : SameIndexes σ σ' := by
  obtain ⟨t, ht, rfl⟩ := modifyTransaction_eq_ok.mp h
  refine ⟨fun T' => ?_, rfl, rfl, rfl, rfl⟩
  rw [State.beganAt, State.beganAt, Dict.lookup_insert]
  split_ifs with heq
  · rw [heq, ht, Option.map_some, hf, Option.map_some]
  · rfl

/-- A transaction waits for a site, with its variable noted or not. -/
lemma addToSiteWaitingMap {n : ℤ}
    (h : (σ.modifyTransaction T fun t => t.setWaitingVarId n) = .ok σ') (s : SiteId) :
    SameIndexes (σ.addToSiteWaitingMap T s) (σ'.addToSiteWaitingMap T s) := by
  have h₁ := modifyTransaction h fun _ => rfl
  refine ⟨h₁.beganAt, h₁.transactionsSet, h₁.waitForGraph, ?_, h₁.queue⟩
  rw [State.addToSiteWaitingMap, State.addToSiteWaitingMap, h₁.siteWaitingMap]

lemma of_sameLocks (h : SameLocks σ σ') : SameIndexes σ σ' where
  beganAt T := by rw [State.beganAt, h.transactions, State.beganAt]
  transactionsSet := h.transactionsSet
  waitForGraph := h.waitForGraph
  siteWaitingMap := h.siteWaitingMap
  queue := h.queue

end SameIndexes

namespace Left

lemma mem_transactions (h : Left T σ σ') {T' : TranId} :
    T' ∈ σ'.transactions ↔ T' ∈ σ.transactions ∧ T' ≠ T := by
  rw [← isSome_beganAt, h.beganAt, ← isSome_beganAt]
  split_ifs with heq <;> simp [heq]

/-- No edge is new when a transaction leaves, and its own edges go. -/
lemma subset_waitsFor (h : Left T σ σ') {T₁ T₂ : TranId} (hw : T₂ ∈ σ'.waitsFor T₁) :
    T₂ ∈ σ.waitsFor T₁ ∧ T₁ ≠ T := by
  rw [h.waits] at hw
  split_ifs at hw with hT
  · cases hw
  · exact ⟨hw, fun heq => hT (Or.inl heq)⟩

lemma nodup_waitsFor (h : Left T σ σ') (hn : ∀ T, (σ.waitsFor T).Nodup) (T' : TranId) :
    (σ'.waitsFor T').Nodup := by
  rw [h.waits]
  split_ifs
  · exact List.nodup_nil
  · exact hn T'

/-- The edges of a transaction that waits for several others stay when one of them leaves. -/
lemma waitsFor_of_several (h : Left T σ σ') {T' : TranId} (hne : T' ≠ T)
    (hlen : 2 ≤ (σ.waitsFor T').length) : σ'.waitsFor T' = σ.waitsFor T' := by
  rw [h.waits, if_neg]
  rintro (heq | hgone)
  · exact hne heq
  · have hle : (σ.waitsFor T').length - 1 ≤ ((σ.waitsFor T').erase T).length :=
      List.le_length_erase
    rw [hgone, List.length_nil] at hle
    omega

end Left

lemma transactionsSet_evictTransaction (h : σ.evictTransaction T = .ok σ') :
    σ'.transactionsSet = σ.setWithout T := by
  rw [setWithout, beganAt]
  rcases evictTransaction_cases h with ⟨t, ht, rfl⟩ | ⟨ht, hset, rfl⟩
  · rw [ht]
    exact List.filter_congr fun r _ => by simp [bne]
  · simp [hset]

/-- The begins of the others are kept. -/
lemma Gone.beganAt (h : Gone T σ σ') (T' : TranId) :
    σ'.beganAt T' = if T' = T then none else σ.beganAt T' := by
  have ht := congrArg (Option.map Prod.fst) (h.transaction T')
  rw [apply_ite (Option.map Prod.fst), Option.map_map, Option.map_map] at ht
  exact ht

/-- An abort makes a transaction leave. -/
lemma left_abortTransaction (h : σ.abortTransaction o T = .ok σ') : Left T σ σ' := by
  obtain ⟨hg, hq, -⟩ := gone_abortTransaction h
  refine ⟨hg.beganAt, ?_, hg.waits, hg.siteWaitingMap, Or.inr hq⟩
  rw [abortTransaction, Container.bind_eq_ok] at h
  obtain ⟨σ₁, h1, h2⟩ := h
  cases h2
  rw [← transactionsSet_evictTransaction h1]
  exact (Quiet.releaseLocks { σ₁ with
    blockedTransactionsQueue := σ₁.blockedTransactionsQueue.erase T } o T).transactionsSet

/-- The end of a transaction makes it leave. -/
lemma left_releaseLocks (h : (σ.releaseLocks o T).evictTransaction T = .ok σ') : Left T σ σ' := by
  obtain ⟨hg, hq, -⟩ := gone_releaseLocks h
  refine ⟨hg.beganAt, ?_, hg.waits, hg.siteWaitingMap, Or.inl hq⟩
  have hr := Quiet.releaseLocks σ o T
  rw [transactionsSet_evictTransaction h, setWithout, setWithout, hr.transactionsSet.symm,
    ← (SameIndexes.of_quiet hr).beganAt]
  rfl

/-- The edges after a wait: the old ones, and those to the owners. -/
lemma mem_assignWaitForGraph {owners : List TranId} {T₁ T₂ : TranId} :
    T₂ ∈ (σ.assignWaitForGraph o T owners).waitsFor T₁ ↔
      T₂ ∈ σ.waitsFor T₁ ∨ (T₁ = T ∧ T₂ ∈ owners) := by
  rw [waitsFor_assignWaitForGraph]
  split_ifs with heq
  · rw [List.mem_union_iff, List.mem_reverse, o.mem_visit, or_comm, heq]
    simp
  · simp [heq]

/-- No other transaction begins to wait. -/
lemma waitsFor_assignWaitForGraph_of_ne {owners : List TranId} {T₁ : TranId} (hne : T₁ ≠ T) :
    (σ.assignWaitForGraph o T owners).waitsFor T₁ = σ.waitsFor T₁ := by
  rw [waitsFor_assignWaitForGraph, if_neg hne]

lemma nodup_assignWaitForGraph (hn : ∀ T, (σ.waitsFor T).Nodup) (owners : List TranId)
    (T₁ : TranId) : ((σ.assignWaitForGraph o T owners).waitsFor T₁).Nodup := by
  rw [waitsFor_assignWaitForGraph]
  split_ifs
  · exact (hn T).union _
  · exact hn T₁

/-- A transaction waits for the owners of a lock, and maybe for itself. -/
lemma mem_waitOwners {x : Variable} {T' : TranId} (h : T' ∈ waitOwners x T) :
    (x.exclusiveLockOwner = some T' ∧ T' ≠ T) ∨ T' ∈ x.sharedLockOwners := by
  rw [waitOwners, List.mem_union_iff, List.mem_union_iff] at h
  rcases h with (h | h) | h
  · split_ifs at h with hx
    · rw [Option.mem_toList] at h
      refine Or.inl ⟨h, ?_⟩
      rintro rfl
      have hx' : x.exclusiveLockOwner = some T' := h
      simp [Variable.hasExclusiveLockExcludeSelf, hx'] at hx
    · cases h
  · split_ifs at h
    · exact Or.inr h
    · cases h
  · split_ifs at h with hs
    · rw [List.mem_singleton.mp h]
      exact Or.inr (by simpa [Variable.hasSharedLock] using hs)
    · cases h

/-- **Executions change the indexes** where a transaction begins, leaves or waits, where the request
is entered into the queue, and where a site recovers. -/
theorem Outcome.index_induction {P : State → Prop} (h : Outcome o σ r es σ') (hσ : P σ)
    (same : ∀ {σ₁ σ₂}, SameIndexes σ₁ σ₂ → P σ₁ → P σ₂)
    (left : ∀ {T σ₁ σ₂}, .committed T ∈ es ∨ .aborted T ∈ es → Left T σ₁ σ₂ → P σ₁ → P σ₂)
    (create : ∀ ts T b, r = .create ts T b → P (σ.execCreate ts T b))
    (lock : ∀ T v s, r.access? = some (T, v) → s ∈ copySites v → σ.isWriteAvailable s = true →
      (∀ ts, r = .read ts T v → ∃ t, σ.transactions.lookup T = some t ∧ t.isReadOnly = false) →
      es = [.waitsForLock r] → P (σ.assignWaitForGraph o T (waitOwners (σ.getVariable s v) T)))
    (site : ∀ ts T v, r = .read ts T v → v.isOdd = true → σ.isReadAvailable v.home v = false →
      T ∉ σ.siteWaitingMap → P (σ.addToSiteWaitingMap T v.home))
    (missing : ∀ ts T v s, r = .missing ts (.read T v) → v.isOdd = true → v.home? = some s →
      T ∈ σ.transactions → T ∉ σ.siteWaitingMap → P (σ.addToSiteWaitingMap T s))
    (enqueue : ∀ {σ₁}, r.isReadWrite = true → P σ₁ → P (σ₁.addRequestToBlockedQueue r))
    (recovered : ∀ ts s, r = .recover ts s → Recovered s σ σ' → P σ') : P σ' := by
  have emit : ∀ {σ₁ e}, P σ₁ → P (σ₁.emit e) := fun h' => same (.emit _ _) h'
  cases h with
  | dumped => exact emit hσ
  | created => exact create _ _ _ rfl
  | @failed ts s _ h' =>
      rw [execFail, Container.bind_eq_ok] at h'
      obtain ⟨σ₁, h1, h2⟩ := h'
      cases h2
      have hs : SameIndexes σ (σ.modifySite s Site.setUnavailable) :=
        ⟨fun _ => rfl, rfl, rfl, rfl, rfl⟩
      refine emit (Container.foldlM_induction (fun T hT σ₁ σ₂ h₁ hab => ?_) (same hs hσ) h1)
      exact left (Or.inr (List.mem_append_left _ (List.mem_map_of_mem hT)))
        (left_abortTransaction hab) h₁
  | @recovered ts s => exact recovered ts s rfl (recovered_execRecover σ o s)
  | unavailable | missingUnavailable | missingNothing => exact emit hσ
  | @waitsForLock r T v s ha hs hup _ _ hro =>
      have hrw : r.isReadWrite = true := by
        cases r with
        | write | read => rfl
        | _ => cases ha
      exact emit (enqueue hrw (lock T v s ha hs hup hro rfl))
  | @waitsForSite ts T v _ hv hr h' =>
      rcases waitForSite_cases h' with ⟨-, rfl⟩ | ⟨hT, σ₁, h1, rfl⟩
      · exact emit (enqueue rfl hσ)
      · exact emit (enqueue rfl (same (.addToSiteWaitingMap h1 _) (site ts T v rfl hv hr hT)))
  | @missingWaits ts T v s _ _ hv hh ht h' =>
      rcases waitForSite_cases h' with ⟨-, rfl⟩ | ⟨hT, σ₁, h1, rfl⟩
      · exact emit (enqueue rfl hσ)
      · exact emit (enqueue rfl (same (.addToSiteWaitingMap h1 s)
          (missing ts T v s rfl hv hh (Dict.mem_of_lookup ht) hT)))
  | writeLocks _ h1 h2 =>
      exact emit (same (.of_quiet ((Quiet.updateValuesAt h1).trans (Quiet.assignWriteLock h2))) hσ)
  | rewritesOdd _ _ h1 _ => exact emit (same (.modifyTransaction h1 fun _ => rfl) hσ)
  | rewritesEven => exact emit hσ
  | readsVersion _ _ _ _ _ h1 => exact emit (same (.modifyTransaction h1 fun _ => rfl) hσ)
  | readAborts _ _ _ _ ha | missingAborts _ _ _ ha =>
      exact left (Or.inr (List.mem_singleton_self _)) (left_abortTransaction ha) hσ
  | sharesOdd _ _ _ _ _ h1 h2 =>
      exact emit (emit (same (.modifyTransaction h2 fun _ => rfl)
        (same (.of_quiet (Quiet.assignShareLock h1)) hσ)))
  | sharesEven _ _ _ _ h1 =>
      refine emit (same (.of_quiet (Quiet.assignShareLock h1)) ?_)
      rcases readFirst_cases σ _ _ (o.visit _) with heq | ⟨s, -, heq⟩
      · rw [heq]
        exact hσ
      · rw [heq]
        exact emit hσ
  | @commits ts T t σ₁ _ _ h1 =>
      refine emit (left (Or.inl (List.mem_append_right _ (List.mem_singleton_self _)))
        (left_releaseLocks h1) (same (.of_sameLocks (sameLocks_installAll σ T ts t)) hσ))
  | commitFails _ _ ha =>
      exact emit (left (Or.inr List.mem_cons_self) (left_abortTransaction ha) hσ)

/-- The sets of the wait-for graph have no element twice. -/
lemma Outcome.nodup_waitsFor (h : Outcome o σ r es σ') (hn : ∀ T, (σ.waitsFor T).Nodup)
    (T : TranId) : (σ'.waitsFor T).Nodup := by
  refine h.index_induction (P := fun σ₁ => ∀ T, (σ₁.waitsFor T).Nodup) hn
    (fun hs ih T => hs.waitsFor T ▸ ih T) (fun _ hl ih => hl.nodup_waitsFor ih)
    (fun _ _ _ _ => hn) (fun _ _ _ _ _ _ _ _ => nodup_assignWaitForGraph hn _)
    (fun _ _ _ _ _ _ _ => hn) (fun _ _ _ _ _ _ _ _ _ => hn) (fun _ ih => ih)
    (fun _ _ _ hrec T' => ?_) T
  rw [waitsFor, hrec.waitForGraph]
  exact hn T'

end State

end RepCRec
