import RepCRec.Engine.Accesses
import RepCRec.Orders.Locks

/-!
The execution of a request in two orders of its loops over unordered containers. From alike states
it leads to alike states, or to the same fault, as far as the observer is blind for the orders
(`Alike.exec`).
-/

namespace RepCRec

open Container (IterOrder Agree foldl_perm)

namespace State

variable {O : Observer} {σ σ' : State} {T : TranId} {v : VarId} {s : SiteId} {x : Value}
  {ts : Timestamp} {r : Request}

namespace Alike

/-! ### Writing -/

/-- The wait for a lock. -/
lemma waitForLock (h : σ.Alike O σ') (o o' : IterOrder) (T : TranId) (owners : List TranId)
    (r : Request) :
    (((σ.assignWaitForGraph o T owners).addRequestToBlockedQueue r).emit (.waitsForLock r)).Alike O
      (((σ'.assignWaitForGraph o' T owners).addRequestToBlockedQueue r).emit (.waitsForLock r)) :=
  ((h.assignWaitForGraph o o' T owners).addRequestToBlockedQueue r).emit (O.refl _)

/-- The grant of a write, whatever the order in which the sites are locked. -/
lemma grantWrite (h : σ.Alike O σ') (o o' : IterOrder) (T : TranId) (L : List SiteId) (v : VarId)
    (x : Value) : Agree (Alike O) (σ.grantWrite o T L v x) (σ'.grantWrite o' T L v x) :=
  (h.updateValuesAt o o' T L v x).bind fun _ _ h₁ =>
    (h₁.assignWriteLock o o' T L v).bind fun _ _ h₂ => .pure (h₂.emit (O.refl _))

/-- `WriteRequest::exec` in two orders. -/
lemma execWrite (h : σ.Alike O σ') (o o' : IterOrder) (ts : Timestamp) (T : TranId) (v : VarId)
    (x : Value) : Agree (Alike O) (σ.execWrite o ts T v x) (σ'.execWrite o' ts T v x) := by
  have hupdate := h.modifyTransaction T fun t t' ht => ht.updateValues v.home v x
  rw [State.execWrite, State.execWrite, h.tryAcquireWriteLock]
  generalize σ.tryAcquireWriteLock T v = ls
  split_ifs with hv
  · cases ls.status with
    | siteUnavailable => exact .pure (h.emit (O.refl _))
    | needToWait => exact .pure (h.waitForLock o o' T ls.ownerIdSet _)
    | hasWriteLock => exact hupdate.bind fun _ _ h₁ => .pure (h₁.emit (O.refl _))
    | hasReadLock | availableToAssign =>
        exact hupdate.bind fun _ _ h₁ => (h₁.assignWriteLock o o' T ls.siteIdSet v).bind
          fun _ _ h₂ => .pure (h₂.emit (O.refl _))
    | _ => exact .error _
  · cases ls.status with
    | needToWait => exact .pure (h.waitForLock o o' T ls.ownerIdSet _)
    | hasWriteLock =>
        exact (h.updateValuesAt o o' T ls.siteIdSet v x).bind fun _ _ h₁ =>
          .pure (h₁.emit (O.refl _))
    | hasReadLock | availableToAssign => exact h.grantWrite o o' T ls.siteIdSet v x
    | _ => exact .error _

/-! ### Reading -/

/-- The same transaction begins to wait for the same site. -/
lemma addToSiteWaitingMap (h : σ.Alike O σ') (T : TranId) (s : SiteId) :
    (σ.addToSiteWaitingMap T s).Alike O (σ'.addToSiteWaitingMap T s) :=
  { h with
    siteWaitingMap := by
      rw [State.addToSiteWaitingMap, State.addToSiteWaitingMap, h.siteWaitingMap] }

/-- The wait for a site. -/
lemma waitForSite (h : σ.Alike O σ') (r : Request) (T : TranId) (n : ℤ) (s : SiteId) :
    Agree (Alike O) (σ.waitForSite r T n s) (σ'.waitForSite r T n s) := by
  rw [State.waitForSite, State.waitForSite, h.isTransactionWaitingForSite]
  split_ifs
  · exact .pure ((h.addRequestToBlockedQueue r).emit (O.refl _))
  · exact (h.modifyTransaction T fun t t' ht => ht.setWaitingVarId n).bind fun _ _ h₁ =>
      .pure (((h₁.addToSiteWaitingMap T s).addRequestToBlockedQueue r).emit (O.refl _))

/-- The read of a version. -/
lemma readVersion (h : σ.Alike O σ') (T : TranId) (ts : Timestamp) (s : SiteId) (v : VarId) :
    Agree (Alike O) (σ.readVersion T ts s v) (σ'.readVersion T ts s v) := by
  rw [State.readVersion, State.readVersion, h.getVariable]
  cases (σ.getVariable s v).getValue ts with
  | none => exact .error _
  | some x =>
      exact (h.modifyTransaction T fun t t' ht => ht.addReadHistory s v x).bind fun _ _ h₁ =>
        .pure (h₁.emit (O.refl _))

/-- `ReadRequest::handle_read_only_request` in two orders. -/
lemma handleReadOnlyRequest (h : σ.Alike O σ') (o o' : IterOrder) (ts : Timestamp) (T : TranId)
    (v : VarId) :
    Agree (Alike O) (σ.handleReadOnlyRequest o ts T v) (σ'.handleReadOnlyRequest o' ts T v) := by
  refine (h.getTransaction T).bind fun t t' ht => ?_
  simp only [ht.timestamp, h.isReadAvailable]
  split_ifs
  · exact h.readVersion T t.timestamp v.home v
  · exact h.waitForSite _ T v.id v.home
  · cases SiteId.all.find? fun s => σ.isReadAvailable s v with
    | some s => exact h.readVersion T t.timestamp s v
    | none => exact h.abortTransaction o o' T

/-- The first of the locked sites is read; the observer may not see which one it is. -/
lemma readFirst (h : σ.Alike O σ') {L L' : List SiteId} (hL : L.Perm L')
    (hO : ∀ s ∈ L, ∀ s' ∈ L, O.Same [.reads T s v (σ.getVariable s v).value]
      [.reads T s' v (σ.getVariable s' v).value]) :
    (σ.readFirst T v L).Alike O (σ'.readFirst T v L') := by
  cases L with
  | nil =>
      rw [← hL.nil_eq]
      exact h
  | cons s L =>
      cases L' with
      | nil => exact absurd hL.eq_nil (List.cons_ne_nil s L)
      | cons s' L' =>
          refine h.emit ?_
          rw [h.getVariable]
          exact hO s List.mem_cons_self s' (hL.mem_iff.mpr List.mem_cons_self)

/-- `ReadRequest::handle_read_request` in two orders. -/
lemma handleReadRequest (h : σ.Alike O σ') (o o' : IterOrder) (hO : O.Blind σ (.read ts T v)) :
    Agree (Alike O) (σ.handleReadRequest o ts T v) (σ'.handleReadRequest o' ts T v) := by
  refine (h.getTransaction T).bind fun t t' _ => ?_
  simp only [h.tryAcquireWriteLock, h.isReadAvailable, h.getVariable]
  have hread : ∀ x, Agree (Alike O) (σ.modifyTransaction T fun t => t.addReadHistory v.home v x)
      (σ'.modifyTransaction T fun t => t.addReadHistory v.home v x) := fun x =>
    h.modifyTransaction T fun t t' ht => ht.addReadHistory v.home v x
  cases hv : v.isOdd with
  | true =>
      simp only [if_true]
      split_ifs
      · cases (σ.tryAcquireWriteLock T v).status with
        | siteUnavailable => exact .pure (h.emit (O.refl _))
        | needToWait => exact .pure (h.waitForLock o o' T _ _)
        | hasReadWriteLock => exact (hread _).bind fun _ _ h₁ => .pure (h₁.emit (O.refl _))
        | availableToAssign =>
            exact (h.assignShareLock o o' T _ v).bind fun _ _ h₁ =>
              (h₁.modifyTransaction T fun t t' ht => ht.addReadHistory v.home v _).bind
                fun _ _ h₂ => .pure ((h₂.emit (O.refl _)).emit (O.refl _))
        | _ => exact .error _
      · exact h.waitForSite _ T v.id v.home
  | false =>
      have hfirst : (σ.readFirst T v (o.visit (σ.tryAcquireWriteLock T v).siteIdSet)).Alike O
          (σ'.readFirst T v (o'.visit (σ.tryAcquireWriteLock T v).siteIdSet)) := by
        refine h.readFirst ((o.perm _).trans (o'.perm _).symm) fun s hs s' hs' => ?_
        exact hO hv s ((o.mem_visit).mp hs) s' ((o.mem_visit).mp hs')
      simp only [Bool.false_eq_true, if_false]
      cases (σ.tryAcquireWriteLock T v).status with
      | needToWait => exact .pure (h.waitForLock o o' T _ _)
      | hasReadWriteLock => exact .pure hfirst
      | availableToAssign =>
          exact (hfirst.assignShareLock o o' T _ v).bind fun _ _ h₁ => .pure (h₁.emit (O.refl _))
      | _ => exact .error _

/-- `ReadRequest::exec` in two orders. -/
lemma execRead (h : σ.Alike O σ') (o o' : IterOrder) (hO : O.Blind σ (.read ts T v)) :
    Agree (Alike O) (σ.execRead o ts T v) (σ'.execRead o' ts T v) := by
  refine (h.getTransaction T).bind fun t t' ht => ?_
  rw [ht.isReadOnly]
  split_ifs
  · exact h.handleReadOnlyRequest o o' ts T v
  · exact h.handleReadRequest o o' hO

end Alike

/-! ### Ending transactions -/

lemma any_perm {α : Type} {l l' : List α} (h : l.Perm l') (p : α → Bool) : l'.any p = l.any p := by
  rw [Bool.eq_iff_iff, List.any_eq_true, List.any_eq_true]
  exact exists_congr fun a => and_congr_left fun _ => h.mem_iff.symm

/-- Two orders of the same elements. -/
lemma perm_visit {α : Type} {l l' : List α} (o o' : IterOrder) (h : l.Perm l') :
    (o.visit l).Perm (o'.visit l') := ((o.perm l).trans h).trans (o'.perm l').symm

/-- The stores of a transaction with its records in another order. -/
lemma perm_stores {t t' : Transaction} (ht : t.Alike t') (o o' : IterOrder) :
    (stores o t).Perm (stores o' t') := by
  refine (List.perm_ext_iff_of_nodup (nodup_stores o t) (nodup_stores o' t')).mpr ?_
  rintro ⟨s, v, x⟩
  rw [mem_stores, mem_stores, AccessMap.get?, AccessMap.get?, AList.perm_lookup ht.writeRecords]

/-- A commit stores one value into a copy. -/
lemma eq_of_mem_stores {o : IterOrder} {t : Transaction} {p q : SiteId × VarId × Value}
    (hp : p ∈ stores o t) (hq : q ∈ stores o t) (hs : p.1 = q.1) (hv : p.2.1 = q.2.1) : p = q := by
  obtain ⟨s, v, x⟩ := p
  obtain ⟨s', v', x'⟩ := q
  cases hs
  cases hv
  rw [mem_stores] at hp hq
  rw [Option.some.inj (hp.symm.trans hq)]

/-- Stores into different copies. -/
lemma sites_installCopy_comm (σ : State) {p q : SiteId × VarId × Value}
    (hne : ¬(p.1 = q.1 ∧ p.2.1 = q.2.1)) :
    (installCopy T ts (installCopy T ts σ p) q).sites =
      (installCopy T ts (installCopy T ts σ q) p).sites := by
  obtain ⟨s, v, x⟩ := p
  obtain ⟨s', v', x'⟩ := q
  by_cases hs : s = s'
  · subst hs
    have hv : v ≠ v' := fun heq => hne ⟨rfl, heq⟩
    simp [installCopy, modifySite, emit, Site.assignVar, Site.setReadAvailable, hv, Ne.symm hv,
      Function.update_comm hv]
  · simp [installCopy, modifySite, emit, hs, Ne.symm hs, Function.update_comm hs]

/-- The values that a commit stores, in two orders. -/
lemma Alike.installAll (h : σ.Alike O σ') (o o' : IterOrder) (T : TranId) (ts : Timestamp)
    {t t' : Transaction} (ht : t.Alike t') :
    (σ.installAll o T ts t).Alike O (σ'.installAll o' T ts t') := by
  have hl := sameLocks_installAll (o := o) σ T ts t
  have hl' := sameLocks_installAll (o := o') σ' T ts t'
  have hsites : (σ'.installAll o' T ts t').sites = (σ.installAll o T ts t).sites := by
    rw [installAll_eq, installAll_eq]
    refine foldl_perm (R := fun σ σ' : State => σ'.sites = σ.sites) (fun _ => rfl)
      (fun h h' => h'.trans h) (fun p σ σ' h => ?_) (perm_stores ht o o') (fun p hp q hq σ => ?_)
      h.sites
    · simp only [installCopy, State.emit, State.modifySite, h]
    · by_cases hpq : p.1 = q.1 ∧ p.2.1 = q.2.1
      · rw [eq_of_mem_stores hp hq hpq.1 hpq.2]
      · exact (sites_installCopy_comm σ hpq).symm
  exact {
    request := by rw [hl.request, hl'.request, h.request]
    sites := hsites
    lockTable := by rw [hl.lockTable, hl'.lockTable, h.lockTable]
    waitsFor T' := by
      rw [State.waitsFor, hl.waitForGraph, State.waitsFor, hl'.waitForGraph]
      exact h.waitsFor T'
    transactionsSet := by rw [hl.transactionsSet, hl'.transactionsSet, h.transactionsSet]
    siteWaitingMap := by rw [hl.siteWaitingMap, hl'.siteWaitingMap, h.siteWaitingMap]
    transactions := by
      rw [hl.transactions, hl'.transactions]
      exact h.transactions
    queue := by rw [hl.queue, hl'.queue, h.queue]
    trace := by
      rw [trace_installAll, trace_installAll]
      exact O.append h.trace (O.stores (perm_stores ht o o')) }

namespace Alike

/-- The check of a commit, in the orders in which the two states make it. -/
lemma check (h : σ.Alike O σ') (o o' : IterOrder) {t t' : Transaction} (ht : t.Alike t') :
    ((o'.visit t'.writeAccessedSites.entries).any fun e => !σ'.isWriteAvailable e.1) =
      ((o.visit t.writeAccessedSites.entries).any fun e => !σ.isWriteAvailable e.1) ∧
    ((o'.visit t'.readAccessedSites.entries).any fun e =>
        (o'.visit e.2.entries).any fun p => !σ'.isReadAvailable e.1 p.1) =
      ((o.visit t.readAccessedSites.entries).any fun e =>
        (o.visit e.2.entries).any fun p => !σ.isReadAvailable e.1 p.1) := by
  simp only [h.isWriteAvailable, h.isReadAvailable]
  refine ⟨any_perm (perm_visit o o' ht.writeAccessedSites) _, ?_⟩
  rw [any_perm (perm_visit o o' ht.readAccessedSites)]
  congr 1
  funext e
  exact any_perm (perm_visit o o' (List.Perm.refl _)) _

/-- `Transaction::commit` in two orders: it succeeds in both or in neither. -/
lemma commit (h : σ.Alike O σ') (o o' : IterOrder) (T : TranId) (ts : Timestamp) :
    Agree (PairAlike O) (σ.commit o T ts)
      (σ'.commit o' T ts) := by
  refine (h.getTransaction T).bind fun t t' ht => ?_
  obtain ⟨hw, hr⟩ := h.check o o' ht
  rw [hw, hr]
  split_ifs
  · exact (h.abortTransaction o o' T).bind fun _ _ h₁ => .pure ⟨rfl, h₁⟩
  · exact (h.abortTransaction o o' T).bind fun _ _ h₁ => .pure ⟨rfl, h₁⟩
  · exact .pure ⟨rfl, h.installAll o o' T ts ht⟩

/-- `EndTransactionRequest::exec` in two orders. -/
lemma execFinish (h : σ.Alike O σ') (o o' : IterOrder) (ts : Timestamp) (T : TranId) :
    Agree (Alike O) (σ.execFinish o ts T) (σ'.execFinish o' ts T) := by
  refine (h.commit o o' T ts).bind ?_
  rintro ⟨success, σ₁⟩ ⟨success', σ₁'⟩ ⟨rfl, h₁⟩
  dsimp only at h₁ ⊢
  split_ifs
  · exact ((h₁.releaseLocks o o' T).evictTransaction T).bind fun _ _ h₂ =>
      .pure (h₂.emit (O.refl _))
  · exact .pure (h₁.emit (O.refl _))

end Alike

/-! ### The other requests -/

/-- No transaction is aborted twice by the failure of a site. -/
lemma nodup_writersAt (σ : State) (o : IterOrder) (s : SiteId) : (σ.writersAt o s).Nodup := by
  have hkeys : ((o.visit σ.transactions.entries).map Sigma.fst).Nodup :=
    ((o.perm σ.transactions.entries).map Sigma.fst).nodup_iff.mpr σ.transactions.nodupKeys
  exact hkeys.sublist (List.filter_sublist.map Sigma.fst)

/-- The aborts of live transactions, in two orders. -/
lemma foldlM_abort_perm {o : IterOrder} {l l' : List TranId} (hl : l.Perm l') (hn : l.Nodup)
    (hlive : ∀ T ∈ l, T ∈ σ.transactions)
    (hO : ∀ l l' : List TranId, l.Perm l' → O.Same (l.map Event.aborted) (l'.map Event.aborted)) :
    Agree (Alike O) (l.foldlM (fun σ T => σ.abortTransaction o T) σ)
      (l'.foldlM (fun σ T => σ.abortTransaction o T) σ) := by
  refine .foldlM_perm (P := fun l σ => l.Nodup ∧ ∀ T ∈ l, T ∈ σ.transactions) (Alike.refl O)
    Alike.trans (fun T σ σ' h => h.abortTransaction o o T) ?_ ?_ ?_ hl ⟨hn, hlive⟩
  · rintro l l' σ hl ⟨hn, hlive⟩
    exact ⟨hl.nodup_iff.mp hn, fun T hT => hlive T (hl.mem_iff.mpr hT)⟩
  · rintro T l σ σ' ⟨hn, hlive⟩ ha
    obtain ⟨hT, hn⟩ := List.nodup_cons.mp hn
    refine ⟨hn, fun T' hT' => (gone_abortTransaction ha).1.mem_transactions.mpr ⟨?_, ?_⟩⟩
    · exact hlive T' (List.mem_cons_of_mem T hT')
    · exact fun heq => hT (heq ▸ hT')
  · rintro T T' l σ ⟨hn, hlive⟩
    have hne : T ≠ T' := fun heq => (List.nodup_cons.mp hn).1 (heq ▸ List.mem_cons_self)
    exact abortTransaction_comm hne (hlive T (by simp)) (hlive T' (by simp))
      (hO [T, T'] [T', T] (.swap T' T []))

namespace Alike

/-- The same transaction is begun. -/
lemma execCreate (h : σ.Alike O σ') (ts : Timestamp) (T : TranId) (b : Bool) :
    (σ.execCreate ts T b).Alike O (σ'.execCreate ts T b) := by
  refine emit (O := O) ?_ (O.refl _)
  exact { h with
    transactionsSet := by rw [State.addTransaction, State.addTransaction, h.transactionsSet]
    transactions := h.transactions.insert T (.refl _) }

/-- The failure of a site aborts the same transactions. -/
lemma mem_writersAt (h : σ.Alike O σ') (o o' : IterOrder) :
    T ∈ σ'.writersAt o' s ↔ T ∈ σ.writersAt o s := by
  rw [State.mem_writersAt, State.mem_writersAt]
  constructor
  · rintro ⟨t', ht', hs⟩
    obtain ⟨t, ht, hr⟩ := h.transactions.exists_lookup ht'
    exact ⟨t, ht, (hr.mem_writeAccessedSites s).mp hs⟩
  · rintro ⟨t, ht, hs⟩
    obtain ⟨t', ht', hr⟩ := h.transactions.lookup T t ht
    exact ⟨t', ht', (hr.mem_writeAccessedSites s).mpr hs⟩

/-- `FailRequest::exec` in two orders. -/
lemma execFail (h : σ.Alike O σ') (o o' : IterOrder) (hO : O.Blind σ (.fail ts s)) :
    Agree (Alike O) (σ.execFail o s) (σ'.execFail o' s) := by
  have h₁ := h.modifySite s Site.setUnavailable
  have hl : (o.visit ((σ.modifySite s Site.setUnavailable).writersAt o s)).Perm
      (o'.visit ((σ'.modifySite s Site.setUnavailable).writersAt o' s)) :=
    perm_visit o o' ((List.perm_ext_iff_of_nodup (nodup_writersAt _ o s)
      (nodup_writersAt _ o' s)).mpr fun T => (h₁.mem_writersAt o o').symm)
  refine Agree.bind (R := Alike O) ?_ fun _ _ h₂ => .pure (h₂.emit (O.refl _))
  refine Agree.trans (R := Alike O) Alike.trans
    (.foldlM (fun T _ _ h => h.abortTransaction o o' T) _ h₁) ?_
  refine foldlM_abort_perm hl (o.nodup_visit (nodup_writersAt _ o s)) (fun T hT => ?_) hO
  obtain ⟨t', ht', -⟩ := (h₁.mem_writersAt o o').mpr ((o.mem_visit).mp hT) |> State.mem_writersAt.mp
  exact Dict.mem_of_lookup ht'

/-- The same transactions stop waiting for the site, in two orders. -/
lemma removeFromSiteWaitingMap (h : σ.Alike O σ') (o o' : IterOrder) (s : SiteId) :
    (σ.removeFromSiteWaitingMap o s).Alike O (σ'.removeFromSiteWaitingMap o' s) := by
  refine { h with siteWaitingMap := ?_ }
  rw [State.removeFromSiteWaitingMap, State.removeFromSiteWaitingMap, h.siteWaitingMap]
  have hl := perm_visit o' o (((perm_visit o' o (List.Perm.refl σ.siteWaitingMap.entries)).filter
    fun e => e.2 == s).map Sigma.fst)
  exact hl.foldl_eq' (fun T _ T' _ m => AList.erase_erase T T' m) σ.siteWaitingMap

/-- `RecoveryRequest::exec` in two orders. -/
lemma execRecover (h : σ.Alike O σ') (o o' : IterOrder) (s : SiteId) :
    (σ.execRecover o s).Alike O (σ'.execRecover o' s) := by
  refine emit (O := O) (removeFromSiteWaitingMap ?_ o o' s) (O.refl _)
  have hfold : ∀ (l : List VarId) {σ σ' : State}, σ.Alike O σ' →
      (l.foldl (fun σ v => σ.modifySite s fun st => st.setReadAvailable v) σ).Alike O
        (l.foldl (fun σ v => σ.modifySite s fun st => st.setReadAvailable v) σ') := by
    intro l
    induction l with
    | nil => exact fun h => h
    | cons v l ih => exact fun h => ih (h.modifySite s fun st => st.setReadAvailable v)
  exact hfold (uniqueVars s) (h.modifySite s Site.setWriteAvailable)

/-- The requests for what does not exist, in two orders. -/
lemma execMissing (h : σ.Alike O σ') (o o' : IterOrder) (ts : Timestamp) (m : Missing) :
    Agree (Alike O) (σ.execMissing o ts m) (σ'.execMissing o' ts m) := by
  have hup : σ'.isWriteAvailable = σ.isWriteAvailable := by
    funext s
    rw [State.isWriteAvailable, h.sites, State.isWriteAvailable]
  have hnull : Agree (Alike O) (σ.getTransaction m.transactionId >>= fun _ => .error .nullPointer)
      (σ'.getTransaction m.transactionId >>= fun _ => .error .nullPointer) :=
    (h.getTransaction m.transactionId).bind fun _ _ _ => .error _
  cases m with
  | fail s | recover s => exact .error _
  | write T v x =>
      rw [State.execMissing, State.execMissing, execWriteMissing, execWriteMissing, hup]
      split_ifs
      · split
        · exact .error _
        · split_ifs
          · exact .pure (h.emit (O.refl _))
          · exact hnull
      · exact hnull
      · exact .pure (h.emit (O.refl _))
  | read T v =>
      rw [State.execMissing, State.execMissing, execReadMissing, execReadMissing, hup]
      refine (h.getTransaction T).bind fun t t' ht => ?_
      rw [ht.isReadOnly]
      split_ifs
      · split
        · exact .error _
        · exact h.waitForSite _ T _ _
      · exact h.abortTransaction o o' T
      · exact .error _
      · exact .pure (h.emit (O.refl _))

/-- **The execution of a request** from alike states. -/
theorem exec (h : σ.Alike O σ') (o o' : IterOrder) (hO : O.Blind σ r) :
    Agree (Alike O) (σ.exec o r) (σ'.exec o' r) := by
  cases r with
  | write ts T v x => exact h.execWrite o o' ts T v x
  | read ts T v => exact h.execRead o o' hO
  | create ts T b => exact .pure (h.execCreate ts T b)
  | finish ts T => exact h.execFinish o o' ts T
  | dump ts => exact .pure (h.emit (O.refl _))
  | fail ts s => exact h.execFail o o' hO
  | recover ts s => exact .pure (h.execRecover o o' s)
  | missing ts m => exact h.execMissing o o' ts m

end Alike

end State

end RepCRec
