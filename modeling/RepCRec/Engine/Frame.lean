import RepCRec.Engine.Requests

/-!
What the operations on locks and access records leave as it was: `Quiet σ σ'` says that only
locks, the lock table and the records of writes differ.
-/

namespace RepCRec

open Container (IterOrder bind_eq_ok pure_eq_ok)

namespace Variable

lemma versions_addSharedTransaction {x : Variable} {T : TranId} :
    (x.addSharedTransaction T).versions = x.versions := by
  rw [addSharedTransaction]; split_ifs <;> rfl

lemma versions_setExclusiveTransaction {x : Variable} {T : TranId} :
    (x.setExclusiveTransaction T).versions = x.versions := by
  rw [setExclusiveTransaction]; split_ifs <;> rfl

end Variable

/-- The data of a transaction that its writes do not change. -/
def Transaction.fixed (t : Transaction) : Timestamp × Bool × AccessMap :=
  (t.timestamp, t.isReadOnly, t.readAccessedSites)

namespace State

variable {σ σ' σ'' : State} {T : TranId} {v : VarId} {x : Value} {o : IterOrder}

/-- Only locks and records of writes differ. -/
structure Quiet (σ σ' : State) : Prop where
  value : ∀ s v, (σ'.getVariable s v).value = (σ.getVariable s v).value
  versions : ∀ s v, (σ'.getVariable s v).versions = (σ.getVariable s v).versions
  up : ∀ s, σ'.isWriteAvailable s = σ.isWriteAvailable s
  readable : ∀ s v, σ'.isReadAvailable s v = σ.isReadAvailable s v
  transaction : ∀ T, (σ'.transactions.lookup T).map Transaction.fixed =
    (σ.transactions.lookup T).map Transaction.fixed
  waitForGraph : σ'.waitForGraph = σ.waitForGraph
  transactionsSet : σ'.transactionsSet = σ.transactionsSet
  siteWaitingMap : σ'.siteWaitingMap = σ.siteWaitingMap
  queue : σ'.blockedTransactionsQueue = σ.blockedTransactionsQueue
  request : σ'.request = σ.request
  trace : σ'.trace = σ.trace

namespace Quiet

lemma refl (σ : State) : Quiet σ σ :=
  ⟨fun _ _ => rfl, fun _ _ => rfl, fun _ => rfl, fun _ _ => rfl, fun _ => rfl, rfl, rfl, rfl, rfl,
    rfl, rfl⟩

lemma trans (h : Quiet σ σ') (h' : Quiet σ' σ'') : Quiet σ σ'' where
  value s v := (h'.value s v).trans (h.value s v)
  versions s v := (h'.versions s v).trans (h.versions s v)
  up s := (h'.up s).trans (h.up s)
  readable s v := (h'.readable s v).trans (h.readable s v)
  transaction T := (h'.transaction T).trans (h.transaction T)
  waitForGraph := h'.waitForGraph.trans h.waitForGraph
  transactionsSet := h'.transactionsSet.trans h.transactionsSet
  siteWaitingMap := h'.siteWaitingMap.trans h.siteWaitingMap
  queue := h'.queue.trans h.queue
  request := h'.request.trans h.request
  trace := h'.trace.trans h.trace

/-- A change of what is not fixed in a transaction. -/
lemma modifyTransaction {f : Transaction → Transaction} (hf : ∀ t, (f t).fixed = t.fixed)
    (h : σ.modifyTransaction T f = .ok σ') : Quiet σ σ' := by
  obtain ⟨t, ht, rfl⟩ := modifyTransaction_eq_ok.mp h
  refine { refl σ with transaction := fun T' => ?_ }
  rw [Dict.lookup_insert]
  split_ifs with hT
  · subst hT
    simp [ht, hf]
  · rfl

/-- A change of the locks of a copy. -/
lemma modifyVariable (σ : State) (s : SiteId) (v : VarId) {g : Variable → Variable}
    (hval : ∀ y, (g y).value = y.value) (hver : ∀ y, (g y).versions = y.versions) :
    Quiet σ (σ.modifyVariable s v g) := by
  refine { refl σ with value := ?_, versions := ?_, up := ?_, readable := ?_ }
  · intro s' v'
    rw [getVariable_modifyVariable]
    split_ifs with h
    · rw [hval, h.1, h.2]
    · rfl
  · intro s' v'
    rw [getVariable_modifyVariable]
    split_ifs with h
    · rw [hver, h.1, h.2]
    · rfl
  · intro s'
    rw [isWriteAvailable_modifyVariable]
  · intro s' v'
    rw [isReadAvailable_modifyVariable]

lemma recordLock (σ : State) (T : TranId) (v : VarId) : Quiet σ (σ.recordLock T v) :=
  { refl σ with }

lemma updateValuesAt {L : List SiteId} (h : σ.updateValuesAt o T L v x = .ok σ') :
    Quiet σ σ' :=
  Container.foldlM_rel refl trans (fun s _ _ h =>
    modifyTransaction (f := fun t => t.updateValues s v x) (fun _ => rfl) h) h

/-- `assign_write_lock` changes locks and records. -/
lemma assignWriteLock {L : List SiteId} (h : σ.assignWriteLock o T L v = .ok σ') :
    Quiet σ σ' := by
  refine Container.foldlM_rel refl trans (fun s σ₁ σ₂ h => ?_) h
  split_ifs at h with hup
  · rw [bind_eq_ok] at h
    obtain ⟨t, -, h⟩ := h
    rw [pure_eq_ok] at h
    subst h
    refine (modifyVariable σ₁ s v (fun y => ?_) fun y => ?_).trans (recordLock _ T v)
    · simp [Variable.removeSharedOwner]
    · rw [Variable.versions_setExclusiveTransaction]
      rfl
  · rw [pure_eq_ok] at h
    exact h ▸ refl σ₁

/-- `assign_share_lock` changes locks and records. -/
lemma assignShareLock {L : List SiteId} (h : σ.assignShareLock o T L v = .ok σ') :
    Quiet σ σ' := by
  refine Container.foldlM_rel refl trans (fun s σ₁ σ₂ h => ?_) h
  split_ifs at h with hr
  · rw [bind_eq_ok] at h
    obtain ⟨t, -, h⟩ := h
    rw [pure_eq_ok] at h
    subst h
    exact (recordLock σ₁ T v).trans (modifyVariable _ s v (fun y => by simp)
      fun y => Variable.versions_addSharedTransaction)
  · rw [pure_eq_ok] at h
    exact h ▸ refl σ₁

/-- The release of a variable changes locks. -/
lemma releaseVariable (σ : State) (T : TranId) (v : VarId) : Quiet σ (σ.releaseVariable T v) := by
  have hcopy : ∀ (σ : State) s, Quiet σ (σ.releaseCopy T v s) := fun σ s =>
    modifyVariable σ s v (fun y => (Variable.unlocked_releaseOwner y T).value)
      fun y => (Variable.unlocked_releaseOwner y T).versions
  rw [State.releaseVariable]
  split_ifs
  · exact hcopy σ v.home
  · exact Container.foldl_rel refl trans hcopy SiteId.all σ

/-- Releasing the locks of a transaction changes the wait-for graph beside them. -/
lemma releaseLocks (σ : State) (o : IterOrder) (T : TranId) :
    Quiet σ { σ.releaseLocks o T with waitForGraph := σ.waitForGraph } := by
  have h := Container.foldl_rel refl trans (fun σ v => releaseVariable σ T v)
    (o.visit ((σ.lockTable.lookup T).getD [])) σ
  exact { h with waitForGraph := rfl }

/-- The transactions are the same ones. -/
lemma mem_transactions (h : Quiet σ σ') (T : TranId) :
    T ∈ σ'.transactions ↔ T ∈ σ.transactions := by
  have := congrArg Option.isSome (h.transaction T)
  rw [Option.isSome_map, Option.isSome_map] at this
  rw [← AList.lookup_isSome, ← AList.lookup_isSome, this]

end Quiet

/-! ### Ending a transaction -/

/-- `evict_transaction` removes a live transaction from the indexes. -/
lemma evictTransaction_cases (h : σ.evictTransaction T = .ok σ') :
    (∃ t, σ.transactions.lookup T = some t ∧ σ' = { σ with
      transactionsSet := σ.transactionsSet.filter fun r => r.timestamp != t.timestamp
      transactions := σ.transactions.erase T }) ∨
    (σ.transactions.lookup T = none ∧ σ.transactionsSet = [] ∧ σ' = σ) := by
  rw [evictTransaction] at h
  cases ht : σ.transactions.lookup T with
  | some t =>
      rw [ht] at h
      exact Or.inl ⟨t, rfl, (Except.ok.inj h).symm⟩
  | none =>
      simp only [ht] at h
      split_ifs at h with hnil
      exact Or.inr ⟨rfl, List.isEmpty_iff.mp hnil, (Except.ok.inj h).symm⟩

lemma transactions_evictTransaction (h : σ.evictTransaction T = .ok σ') :
    σ'.transactions = σ.transactions.erase T := by
  rcases evictTransaction_cases h with ⟨t, -, rfl⟩ | ⟨ht, -, rfl⟩
  · rfl
  · refine AList.ext ?_
    rw [AList.lookup_eq_none] at ht
    exact (List.kerase_of_notMem_keys ht).symm

/-- The edges that remain when the locks of `T` are released: `T` waits for nobody, and neither
does a transaction that waited for `T` alone. -/
lemma waitsFor_releaseLocks (σ : State) (o : IterOrder) (T T' : TranId) :
    (σ.releaseLocks o T).waitsFor T' =
      if T' = T ∨ (σ.waitsFor T').erase T = [] then [] else σ.waitsFor T' := by
  have hg : ((o.visit ((σ.lockTable.lookup T).getD [])).foldl (releaseVariable T) σ).waitForGraph
      = σ.waitForGraph :=
    (Container.foldl_rel Quiet.refl Quiet.trans (fun σ v => Quiet.releaseVariable σ T v)
      (o.visit ((σ.lockTable.lookup T).getD [])) σ).waitForGraph
  have hmem : T' ∈ o.visit (σ.emptyIds o T) ↔
      ∃ l, σ.waitForGraph.lookup T' = some l ∧ l.erase T = [] := by
    rw [IterOrder.mem_visit, emptyIds, List.mem_map]
    constructor
    · rintro ⟨e, he, rfl⟩
      obtain ⟨he, hnil⟩ := List.mem_filter.mp he
      exact ⟨e.2, AList.mem_lookup_iff.mpr ((o.mem_visit).mp he), List.isEmpty_iff.mp hnil⟩
    · rintro ⟨l, hl, hnil⟩
      exact ⟨⟨T', l⟩, List.mem_filter.mpr ⟨(o.mem_visit).mpr (AList.mem_lookup_iff.mp hl),
        List.isEmpty_iff.mpr hnil⟩, rfl⟩
  have hids : emptyIds o T ((o.visit ((σ.lockTable.lookup T).getD [])).foldl
      (releaseVariable T) σ) = emptyIds o T σ := by
    rw [emptyIds, hg, emptyIds]
  rw [waitsFor, releaseLocks]
  dsimp only
  rw [hids, hg, Dict.lookup_erase, Dict.lookup_foldl_erase]
  by_cases hT : T' = T
  · rw [if_pos hT, if_pos (Or.inl hT)]
    rfl
  · rw [if_neg hT]
    simp only [hmem, hT, false_or, waitsFor]
    cases σ.waitForGraph.lookup T' with
    | none => simp
    | some l =>
        simp only [Option.some.injEq, exists_eq_left', Option.getD_some]
        split_ifs <;> rfl

/-- What the end of `T` changes beside its locks: it is not live any more. -/
structure Gone (T : TranId) (σ σ' : State) : Prop where
  value : ∀ s v, (σ'.getVariable s v).value = (σ.getVariable s v).value
  versions : ∀ s v, (σ'.getVariable s v).versions = (σ.getVariable s v).versions
  up : ∀ s, σ'.isWriteAvailable s = σ.isWriteAvailable s
  readable : ∀ s v, σ'.isReadAvailable s v = σ.isReadAvailable s v
  transaction : ∀ T', (σ'.transactions.lookup T').map Transaction.fixed =
    if T' = T then none else (σ.transactions.lookup T').map Transaction.fixed
  waits : ∀ T', σ'.waitsFor T' =
    if T' = T ∨ (σ.waitsFor T').erase T = [] then [] else σ.waitsFor T'
  siteWaitingMap : σ'.siteWaitingMap = σ.siteWaitingMap
  request : σ'.request = σ.request

lemma Gone.mem_transactions (h : Gone T σ σ') {T' : TranId} :
    T' ∈ σ'.transactions ↔ T' ∈ σ.transactions ∧ T' ≠ T := by
  have ht := congrArg Option.isSome (h.transaction T')
  rw [Option.isSome_map] at ht
  rw [← AList.lookup_isSome, ht, ← AList.lookup_isSome]
  split_ifs with hT <;> simp [hT]

/-- What taking `T` out of the indexes leaves as it was. -/
lemma frame_evictTransaction (h : σ.evictTransaction T = .ok σ') : σ' = { σ with
    transactionsSet := σ'.transactionsSet, transactions := σ.transactions.erase T } := by
  have ht := transactions_evictTransaction h
  rcases evictTransaction_cases h with ⟨t, -, rfl⟩ | ⟨-, -, rfl⟩
  · rfl
  · rw [← ht]

lemma fixed_erase (m : Dict TranId Transaction) (T T' : TranId) :
    ((m.erase T).lookup T').map Transaction.fixed =
      if T' = T then none else (m.lookup T').map Transaction.fixed := by
  rw [Dict.lookup_erase]
  split_ifs <;> rfl

/-- **An abort** takes the transaction, its locks and its queue away. -/
theorem gone_abortTransaction (h : σ.abortTransaction o T = .ok σ') : Gone T σ σ' ∧
    σ'.blockedTransactionsQueue = σ.blockedTransactionsQueue.erase T ∧
    σ'.trace = σ.trace ++ [.aborted T] := by
  rw [abortTransaction, bind_eq_ok] at h
  obtain ⟨σ₁, h1, h2⟩ := h
  cases h2
  rw [frame_evictTransaction h1]
  set σ₂ : State := { σ with
    transactionsSet := σ₁.transactionsSet
    transactions := σ.transactions.erase T
    blockedTransactionsQueue := σ.blockedTransactionsQueue.erase T }
  have hr := Quiet.releaseLocks σ₂ o T
  exact ⟨⟨hr.value, hr.versions, hr.up, hr.readable,
    fun T' => (hr.transaction T').trans (fixed_erase σ.transactions T T'),
    fun T' => waitsFor_releaseLocks σ₂ o T T', hr.siteWaitingMap, hr.request⟩, hr.queue,
    congrArg (· ++ [Event.aborted T]) hr.trace⟩

/-- The end of a transaction after its commit has been stored. -/
theorem gone_releaseLocks (h : (σ.releaseLocks o T).evictTransaction T = .ok σ') : Gone T σ σ' ∧
    σ'.blockedTransactionsQueue = σ.blockedTransactionsQueue ∧ σ'.trace = σ.trace := by
  have hr := Quiet.releaseLocks σ o T
  rw [frame_evictTransaction h]
  refine ⟨⟨hr.value, hr.versions, hr.up, hr.readable, fun T' => ?_,
    fun T' => waitsFor_releaseLocks σ o T T', hr.siteWaitingMap, hr.request⟩, hr.queue, hr.trace⟩
  refine (fixed_erase _ T T').trans ?_
  rw [← hr.transaction T']

/-! ### Other operations -/

/-- The edges after `T` has begun to wait for some others. -/
lemma waitsFor_assignWaitForGraph (σ : State) (o : IterOrder) (T : TranId) (owners : List TranId)
    (T' : TranId) : (σ.assignWaitForGraph o T owners).waitsFor T' =
      if T' = T then (o.visit owners).reverse ∪ σ.waitsFor T else σ.waitsFor T' := by
  have hfold : ∀ (L : List TranId) (g : Dict TranId (List TranId)),
      ((L.foldl (fun g owner => g.insert T (((g.lookup T).getD []).insert owner)) g).lookup
        T').getD [] = if T' = T then L.foldl (fun l owner => l.insert owner) ((g.lookup T).getD [])
          else (g.lookup T').getD [] := by
    intro L
    induction L with
    | nil =>
        intro g
        split_ifs with heq
        · rw [heq]
          rfl
        · rfl
    | cons a L ih =>
        intro g
        rw [List.foldl_cons, ih, Dict.lookup_insert, Dict.lookup_insert, if_pos rfl]
        split_ifs <;> rfl
  rw [waitsFor, assignWaitForGraph, hfold, List.foldl_eq_foldr_reverse]
  rfl

/-- A request is queued by its timestamp among those of its transaction. -/
lemma addRequest_lookup (σ : State) (r : Request) (T : TranId) :
    (σ.addRequestToBlockedQueue r).blockedTransactionsQueue.lookup T =
      if r.transactionId = T then some (Container.insertByKey Request.timestamp r
        ((σ.blockedTransactionsQueue.lookup T).getD []))
      else σ.blockedTransactionsQueue.lookup T := by
  rw [addRequestToBlockedQueue, Dict.lookup_insert]
  by_cases hT : T = r.transactionId
  · rw [if_pos hT, if_pos hT.symm, hT]
  · rw [if_neg hT, if_neg fun h => hT h.symm]

/-- What is blocked after a request was entered is this one, or was blocked before. -/
lemma mem_of_addRequest {r r' : Request} {rs : List Request}
    (hq : (σ.addRequestToBlockedQueue r).blockedTransactionsQueue.lookup T = some rs)
    (hr' : r' ∈ rs) : (r' = r ∧ r.transactionId = T) ∨
      ∃ rs', σ.blockedTransactionsQueue.lookup T = some rs' ∧ r' ∈ rs' := by
  rw [addRequest_lookup] at hq
  split_ifs at hq with hT
  · cases hq
    exact (Container.mem_of_mem_insertByKey hr').imp (fun heq => ⟨heq, hT⟩) Dict.mem_getD.mp
  · exact Or.inr ⟨rs, hq, hr'⟩

/-- A read under a lock reads one of the locked copies, or none if none is locked. -/
lemma readFirst_cases (σ : State) (T : TranId) (v : VarId) (l : List SiteId) :
    σ.readFirst T v l = σ ∨
      ∃ s ∈ l, σ.readFirst T v l = σ.emit (.reads T s v (σ.getVariable s v).value) := by
  cases l with
  | nil => exact Or.inl rfl
  | cons s l => exact Or.inr ⟨s, List.mem_cons_self, rfl⟩

/-- What is kept by marking a site, by aborts and by the entry for the failure is kept by the
failure of a site. -/
lemma execFail_induction {P : State → Prop} {s : SiteId} (h : σ.execFail o s = .ok σ')
    (hs : P (σ.modifySite s Site.setUnavailable))
    (ha : ∀ {T σ σ'}, P σ → σ.abortTransaction o T = .ok σ' → P σ')
    (he : ∀ {σ}, P σ → P (σ.emit (.failed s))) : P σ' := by
  rw [execFail, bind_eq_ok] at h
  obtain ⟨σ₁, h1, h2⟩ := h
  cases h2
  exact he (Container.foldlM_induction (fun T _ σ σ' hσ h => ha hσ h) hs h1)

/-- The recovery of a site ends the waiting for it, and changes no variable and no transaction. -/
structure Recovered (s : SiteId) (σ σ' : State) : Prop where
  variable_eq : ∀ s' v, σ'.getVariable s' v = σ.getVariable s' v
  transactions : σ'.transactions = σ.transactions
  waitForGraph : σ'.waitForGraph = σ.waitForGraph
  transactionsSet : σ'.transactionsSet = σ.transactionsSet
  siteWaitingMap : ∀ T, σ'.siteWaitingMap.lookup T =
    if σ.siteWaitingMap.lookup T = some s then none else σ.siteWaitingMap.lookup T
  queue : σ'.blockedTransactionsQueue = σ.blockedTransactionsQueue
  request : σ'.request = σ.request
  trace : σ'.trace = σ.trace ++ [.recovered s]

lemma getVariable_modifySite {s : SiteId} {f : Site → Site} (hf : ∀ st, (f st).vars = st.vars)
    (s' : SiteId) (v : VarId) : (σ.modifySite s f).getVariable s' v = σ.getVariable s' v := by
  rw [getVariable, sites_modifySite]
  split_ifs with h
  · rw [hf, h, getVariable]
  · rfl

/-- **A recovery** changes nothing but the availability of its site and the site waiting map. -/
theorem recovered_execRecover (σ : State) (o : IterOrder) (s : SiteId) :
    Recovered s σ (σ.execRecover o s) := by
  have hsites : ∀ (l : List VarId) (σ : State), ∃ sites,
      (l.foldl (fun σ v => σ.modifySite s fun st => st.setReadAvailable v) σ) =
        { σ with sites := sites } ∧ ∀ s' v, (sites s').vars v = σ.getVariable s' v := by
    intro l
    induction l with
    | nil => exact fun σ => ⟨σ.sites, rfl, fun _ _ => rfl⟩
    | cons w l ih =>
        intro σ
        obtain ⟨sites, h1, h2⟩ := ih (σ.modifySite s fun st => st.setReadAvailable w)
        refine ⟨sites, h1, fun s' v => (h2 s' v).trans ?_⟩
        exact getVariable_modifySite (f := fun st => st.setReadAvailable w) (fun _ => rfl) s' v
  obtain ⟨sites, h1, h2⟩ := hsites (uniqueVars s) (σ.modifySite s Site.setWriteAvailable)
  rw [execRecover, h1]
  refine ⟨fun s' v => (h2 s' v).trans (getVariable_modifySite (f := Site.setWriteAvailable)
      (fun _ => rfl) s' v), rfl, rfl, rfl,
    fun T => ?_, rfl, rfl, rfl⟩
  have hmem : T ∈ ((o.visit σ.siteWaitingMap.entries).filter fun e => e.2 == s).map Sigma.fst ↔
      σ.siteWaitingMap.lookup T = some s := by
    rw [List.mem_map]
    constructor
    · rintro ⟨e, he, rfl⟩
      obtain ⟨he, hs⟩ := List.mem_filter.mp he
      rw [← beq_iff_eq.mp hs]
      exact AList.mem_lookup_iff.mpr ((o.mem_visit).mp he)
    · intro hl
      exact ⟨⟨T, s⟩, List.mem_filter.mpr ⟨(o.mem_visit).mpr (AList.mem_lookup_iff.mp hl),
        beq_self_eq_true s⟩, rfl⟩
  refine (Dict.lookup_foldl_erase _ _ T).trans ?_
  simp only [IterOrder.mem_visit]
  exact if_congr hmem rfl rfl

end State

end RepCRec
