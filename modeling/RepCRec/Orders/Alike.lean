import RepCRec.Container.Agree
import RepCRec.Engine.Install
import Mathlib.Data.List.Lattice

/-!
States that differ only in what the orders of loops over unordered containers leave behind
(`State.Alike`): the order of the edges out of a node of the wait-for graph, the order of the sites
in the records of a transaction, and the entries of the trace as far as an `Observer` cannot tell
them apart. What the engine tests is the same in both.
-/

namespace RepCRec

open Container (IterOrder Agree)

/-! ### Related maps and transactions -/

/-- The same keys in the same order, with related values. -/
structure Dict.Rel {K V : Type} [DecidableEq K] (R : V → V → Prop) (m m' : Dict K V) : Prop where
  keys : m'.keys = m.keys
  lookup : ∀ k x, m.lookup k = some x → ∃ x', m'.lookup k = some x' ∧ R x x'

namespace Dict.Rel

variable {K V : Type} [DecidableEq K] {R : V → V → Prop} {m m' m'' : Dict K V} {k : K}

lemma refl (hR : ∀ x, R x x) (m : Dict K V) : Dict.Rel R m m :=
  ⟨rfl, fun _ x hx => ⟨x, hx, hR x⟩⟩

lemma trans (hR : ∀ {x y z}, R x y → R y z → R x z) (h : Dict.Rel R m m')
    (h' : Dict.Rel R m' m'') : Dict.Rel R m m'' := by
  refine ⟨h'.keys.trans h.keys, fun k x hx => ?_⟩
  obtain ⟨x', hx', hr⟩ := h.lookup k x hx
  obtain ⟨x'', hx'', hr'⟩ := h'.lookup k x' hx'
  exact ⟨x'', hx'', hR hr hr'⟩

/-- Related maps have the same keys. -/
lemma mem_iff (h : Dict.Rel R m m') : k ∈ m' ↔ k ∈ m := by
  rw [AList.mem_keys, h.keys, AList.mem_keys]

/-- What one of the maps has under a key is related to what the other has. -/
lemma exists_lookup (h : Dict.Rel R m m') {x' : V} (hx' : m'.lookup k = some x') :
    ∃ x, m.lookup k = some x ∧ R x x' := by
  obtain ⟨x, hx⟩ := Dict.exists_lookup (h.mem_iff.mp (Dict.mem_of_lookup hx'))
  obtain ⟨x'', hx'', hr⟩ := h.lookup k x hx
  rw [hx'] at hx''
  cases hx''
  exact ⟨x, hx, hr⟩

lemma lookup_eq_none (h : Dict.Rel R m m') (hk : m.lookup k = none) : m'.lookup k = none := by
  rw [AList.lookup_eq_none] at hk ⊢
  rwa [h.mem_iff]

/-- Related values are inserted under the same key. -/
lemma insert (h : Dict.Rel R m m') (k : K) {x x' : V} (hx : R x x') :
    Dict.Rel R (m.insert k x) (m'.insert k x') := by
  refine ⟨by rw [AList.keys_insert, AList.keys_insert, h.keys], fun k' y hy => ?_⟩
  rw [Dict.lookup_insert] at hy ⊢
  split_ifs at hy ⊢
  · cases hy
    exact ⟨x', rfl, hx⟩
  · exact h.lookup k' y hy

/-- The same key is erased. -/
lemma erase (h : Dict.Rel R m m') (k : K) : Dict.Rel R (m.erase k) (m'.erase k) := by
  refine ⟨by rw [AList.keys_erase, AList.keys_erase, h.keys], fun k' y hy => ?_⟩
  rw [Dict.lookup_erase] at hy ⊢
  split_ifs at hy ⊢
  exact h.lookup k' y hy

end Dict.Rel

/-- The same value is recorded in two orders of one map. -/
lemma AccessMap.perm_set {m m' : AccessMap} (h : m.entries.Perm m'.entries) (s : SiteId) (v : VarId)
    (x : Value) : (m.set s v x).entries.Perm (m'.set s v x).entries := by
  rw [set, set, AList.perm_lookup h]
  exact AList.perm_insert h

/-- The order in which values for different sites are recorded. -/
lemma AccessMap.perm_set_set (m : AccessMap) (s s' : SiteId) (v : VarId) (x : Value) :
    ((m.set s v x).set s' v x).entries.Perm ((m.set s' v x).set s v x).entries := by
  by_cases hs : s = s'
  · rw [hs]
  · rw [set, set, set, set, AList.lookup_insert_ne (Ne.symm hs), AList.lookup_insert_ne hs]
    exact AList.insert_insert_of_ne m hs

/-- The same transaction, with its records in other orders. -/
structure Transaction.Alike (t t' : Transaction) : Prop where
  transactionId : t'.transactionId = t.transactionId
  timestamp : t'.timestamp = t.timestamp
  isReadOnly : t'.isReadOnly = t.isReadOnly
  waitingVarId : t'.waitingVarId = t.waitingVarId
  writeRecords : t.writeRecords.entries.Perm t'.writeRecords.entries
  readAccessedSites : t.readAccessedSites.entries.Perm t'.readAccessedSites.entries
  writeAccessedSites : t.writeAccessedSites.entries.Perm t'.writeAccessedSites.entries

namespace Transaction.Alike

variable {t t' t'' : Transaction}

lemma refl (t : Transaction) : t.Alike t :=
  ⟨rfl, rfl, rfl, rfl, List.Perm.refl _, List.Perm.refl _, List.Perm.refl _⟩

lemma trans (h : t.Alike t') (h' : t'.Alike t'') : t.Alike t'' where
  transactionId := h'.transactionId.trans h.transactionId
  timestamp := h'.timestamp.trans h.timestamp
  isReadOnly := h'.isReadOnly.trans h.isReadOnly
  waitingVarId := h'.waitingVarId.trans h.waitingVarId
  writeRecords := h.writeRecords.trans h'.writeRecords
  readAccessedSites := h.readAccessedSites.trans h'.readAccessedSites
  writeAccessedSites := h.writeAccessedSites.trans h'.writeAccessedSites

/-- The same write is recorded for the same transaction. -/
lemma updateValues (h : t.Alike t') (s : SiteId) (v : VarId) (x : Value) :
    (t.updateValues s v x).Alike (t'.updateValues s v x) :=
  { h with
    writeRecords := AccessMap.perm_set h.writeRecords s v x
    writeAccessedSites := AccessMap.perm_set h.writeAccessedSites s v x }

/-- Writes at two sites are recorded in either order. -/
lemma updateValues_comm (t : Transaction) (s s' : SiteId) (v : VarId) (x : Value) :
    ((t.updateValues s v x).updateValues s' v x).Alike
      ((t.updateValues s' v x).updateValues s v x) where
  transactionId := rfl
  timestamp := rfl
  isReadOnly := rfl
  waitingVarId := rfl
  writeRecords := AccessMap.perm_set_set t.writeRecords s s' v x
  readAccessedSites := List.Perm.refl _
  writeAccessedSites := AccessMap.perm_set_set t.writeAccessedSites s s' v x

/-- The same read is recorded for the same transaction. -/
lemma addReadHistory (h : t.Alike t') (s : SiteId) (v : VarId) (x : Value) :
    (t.addReadHistory s v x).Alike (t'.addReadHistory s v x) :=
  { h with readAccessedSites := AccessMap.perm_set h.readAccessedSites s v x }

lemma setWaitingVarId (h : t.Alike t') (n : ℤ) :
    (t.setWaitingVarId n).Alike (t'.setWaitingVarId n) :=
  { h with waitingVarId := rfl }

/-- The same sites were written to. -/
lemma mem_writeAccessedSites (h : t.Alike t') (s : SiteId) :
    s ∈ t'.writeAccessedSites ↔ s ∈ t.writeAccessedSites :=
  (AList.mem_of_perm h.writeAccessedSites).symm

end Transaction.Alike

/-! ### Observers -/

/-- What somebody sees of the trace: an equivalence that does not depend on what comes before or
after, and for which the order of the stores of a commit does not matter. -/
structure Observer where
  Same : List Event → List Event → Prop
  refl : ∀ es, Same es es
  trans : ∀ {es es' es''}, Same es es' → Same es' es'' → Same es es''
  append : ∀ {es es' fs fs'}, Same es es' → Same fs fs' → Same (es ++ fs) (es' ++ fs')
  stores : ∀ {T ts} {l l' : List (SiteId × VarId × Value)}, l.Perm l' →
    Same (l.map (State.storeEvent T ts)) (l'.map (State.storeEvent T ts))

/-- The observer does not see the orders in which the execution of a request visits unordered
containers: from which of its sites an even variable is read, and the order of the aborts when a
site fails. -/
def Observer.Blind (O : Observer) (σ : State) : Request → Prop
  | .read _ T v => v.isOdd = false → ∀ s ∈ (σ.tryAcquireWriteLock T v).siteIdSet,
      ∀ s' ∈ (σ.tryAcquireWriteLock T v).siteIdSet,
        O.Same [.reads T s v (σ.getVariable s v).value] [.reads T s' v (σ.getVariable s' v).value]
  | .fail _ _ => ∀ l l' : List TranId, l.Perm l' →
      O.Same (l.map Event.aborted) (l'.map Event.aborted)
  | _ => True

namespace State

/-- The loop of `isWaitingForOthers` over the wait-for graph, without its order. -/
lemma isWaitingForOthers_iff {σ : State} {T : TranId} :
    σ.isWaitingForOthers T = true ↔ ∃ T', T' ≠ T ∧ T ∈ σ.waitsFor T' := by
  rw [isWaitingForOthers, List.any_eq_true]
  constructor
  · rintro ⟨⟨T', l⟩, he, h⟩
    simp only [Bool.and_eq_true, bne_iff_ne, decide_eq_true_iff] at h
    exact ⟨T', h.1, Dict.mem_getD.mpr ⟨l, AList.mem_lookup_iff.mpr he, h.2⟩⟩
  · rintro ⟨T', hne, hT⟩
    obtain ⟨l, hl, hT⟩ := Dict.mem_getD.mp hT
    exact ⟨⟨T', l⟩, AList.mem_lookup_iff.mp hl, by simp [hne, hT]⟩

/-- The states differ in orders only. -/
structure Alike (O : Observer) (σ σ' : State) : Prop where
  request : σ'.request = σ.request
  sites : σ'.sites = σ.sites
  lockTable : σ'.lockTable = σ.lockTable
  waitsFor : ∀ T, (σ.waitsFor T).Perm (σ'.waitsFor T)
  transactionsSet : σ'.transactionsSet = σ.transactionsSet
  siteWaitingMap : σ'.siteWaitingMap = σ.siteWaitingMap
  transactions : Dict.Rel Transaction.Alike σ.transactions σ'.transactions
  queue : σ'.blockedTransactionsQueue = σ.blockedTransactionsQueue
  trace : O.Same σ.trace σ'.trace

/-- The same data beside alike states. -/
def PairAlike (O : Observer) {α : Type} (p p' : α × State) : Prop :=
  p'.1 = p.1 ∧ p.2.Alike O p'.2

namespace Alike

variable {O : Observer} {σ σ' σ'' : State} {T : TranId} {s : SiteId} {v : VarId}

lemma refl (O : Observer) (σ : State) : σ.Alike O σ where
  request := rfl
  sites := rfl
  lockTable := rfl
  waitsFor _ := List.Perm.refl _
  transactionsSet := rfl
  siteWaitingMap := rfl
  transactions := .refl Transaction.Alike.refl σ.transactions
  queue := rfl
  trace := O.refl σ.trace

lemma trans (h : σ.Alike O σ') (h' : σ'.Alike O σ'') : σ.Alike O σ'' where
  request := h'.request.trans h.request
  sites := h'.sites.trans h.sites
  lockTable := h'.lockTable.trans h.lockTable
  waitsFor T := (h.waitsFor T).trans (h'.waitsFor T)
  transactionsSet := h'.transactionsSet.trans h.transactionsSet
  siteWaitingMap := h'.siteWaitingMap.trans h.siteWaitingMap
  transactions := h.transactions.trans Transaction.Alike.trans h'.transactions
  queue := h'.queue.trans h.queue
  trace := O.trans h.trace h'.trace

/-! ### What the engine tests -/

/-- The same sites are up. -/
lemma isWriteAvailable (h : σ.Alike O σ') (s : SiteId) :
    σ'.isWriteAvailable s = σ.isWriteAvailable s := by
  rw [State.isWriteAvailable, h.sites, State.isWriteAvailable]

/-- The same copies are readable. -/
lemma isReadAvailable (h : σ.Alike O σ') (s : SiteId) (v : VarId) :
    σ'.isReadAvailable s v = σ.isReadAvailable s v := by
  rw [State.isReadAvailable, h.sites, State.isReadAvailable]

/-- The copies are the same. -/
lemma getVariable (h : σ.Alike O σ') (s : SiteId) (v : VarId) :
    σ'.getVariable s v = σ.getVariable s v := by
  rw [State.getVariable, h.sites, State.getVariable]

lemma isTransactionWaitingForSite (h : σ.Alike O σ') (T : TranId) :
    σ'.isTransactionWaitingForSite T = σ.isTransactionWaitingForSite T := by
  rw [State.isTransactionWaitingForSite, h.siteWaitingMap, State.isTransactionWaitingForSite]

/-- The same transactions wait for locks. -/
lemma isWaitingForLock (h : σ.Alike O σ') (T : TranId) :
    σ'.isWaitingForLock T = σ.isWaitingForLock T := by
  rw [State.isWaitingForLock, State.isWaitingForLock, (h.waitsFor T).isEmpty_eq]

/-- The same transactions are waited for. -/
lemma isWaitingForOthers (h : σ.Alike O σ') (T : TranId) :
    σ'.isWaitingForOthers T = σ.isWaitingForOthers T := by
  rw [Bool.eq_iff_iff, isWaitingForOthers_iff, isWaitingForOthers_iff]
  exact exists_congr fun T' => and_congr_right fun _ => (h.waitsFor T').mem_iff.symm

lemma tryAcquireWriteLoop (h : σ.Alike O σ') (T : TranId) (v : VarId) (l : List SiteId)
    (ls : LockStatus) : σ'.tryAcquireWriteLoop T v l ls = σ.tryAcquireWriteLoop T v l ls := by
  induction l generalizing ls with
  | nil => rfl
  | cons s l ih =>
      rw [State.tryAcquireWriteLoop, State.tryAcquireWriteLoop]
      simp only [ih, h.isWriteAvailable, h.getVariable, h.isWaitingForOthers]

/-- The same answer to the request for a lock. -/
lemma tryAcquireWriteLock (h : σ.Alike O σ') (T : TranId) (v : VarId) :
    σ'.tryAcquireWriteLock T v = σ.tryAcquireWriteLock T v := by
  rw [State.tryAcquireWriteLock, State.tryAcquireWriteLock]
  simp only [h.tryAcquireWriteLoop, h.isWriteAvailable, h.getVariable, h.isWaitingForOthers]

/-! ### What changes the same in both -/

/-- Entries that the observer cannot tell apart are added to the traces. -/
lemma emit (h : σ.Alike O σ') {e e' : Event} (he : O.Same [e] [e']) :
    (σ.emit e).Alike O (σ'.emit e') :=
  { h with trace := O.append h.trace he }

/-- The same site is changed. -/
lemma modifySite (h : σ.Alike O σ') (s : SiteId) (f : Site → Site) :
    (σ.modifySite s f).Alike O (σ'.modifySite s f) :=
  { h with sites := by rw [State.modifySite, State.modifySite, h.sites] }

/-- The same request is queued. -/
lemma addRequestToBlockedQueue (h : σ.Alike O σ') (r : Request) :
    (σ.addRequestToBlockedQueue r).Alike O (σ'.addRequestToBlockedQueue r) :=
  { h with
    queue := by rw [State.addRequestToBlockedQueue, State.addRequestToBlockedQueue, h.queue] }

/-- The same lock is recorded in the lock table. -/
lemma recordLock (h : σ.Alike O σ') (T : TranId) (v : VarId) :
    (σ.recordLock T v).Alike O (σ'.recordLock T v) :=
  { h with lockTable := by rw [State.recordLock, State.recordLock, h.lockTable] }

/-- Alike transactions are found, or none in both states. -/
lemma getTransaction (h : σ.Alike O σ') (T : TranId) :
    Agree Transaction.Alike (σ.getTransaction T) (σ'.getTransaction T) := by
  rw [State.getTransaction, State.getTransaction]
  cases ht : σ.transactions.lookup T with
  | none =>
      rw [h.transactions.lookup_eq_none ht]
      exact .error _
  | some t =>
      obtain ⟨t', ht', hr⟩ := h.transactions.lookup T t ht
      rw [ht']
      exact .ok hr

/-- A change that keeps transactions alike keeps the states alike. -/
lemma modifyTransaction (h : σ.Alike O σ') (T : TranId) {f : Transaction → Transaction}
    (hf : ∀ t t', t.Alike t' → (f t).Alike (f t')) :
    Agree (Alike O) (σ.modifyTransaction T f) (σ'.modifyTransaction T f) := by
  refine (h.getTransaction T).bind fun t t' ht => .pure ?_
  exact { h with transactions := h.transactions.insert T (hf t t' ht) }

/-- The same edges are added, whatever the order of the owners. -/
lemma assignWaitForGraph (h : σ.Alike O σ') (o o' : IterOrder) (T : TranId)
    (owners : List TranId) :
    (σ.assignWaitForGraph o T owners).Alike O (σ'.assignWaitForGraph o' T owners) := by
  refine { h with waitsFor := fun T' => ?_ }
  rw [waitsFor_assignWaitForGraph, waitsFor_assignWaitForGraph]
  split_ifs
  · have ho : (o.visit owners).Perm (o'.visit owners) := (o.perm _).trans (o'.perm _).symm
    exact (((o.visit owners).reverse_perm.trans ho).trans (List.reverse_perm _).symm).union
      (h.waitsFor T)
  · exact h.waitsFor T'

end Alike

end State

end RepCRec
