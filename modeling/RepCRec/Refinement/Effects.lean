import RepCRec.Refinement.View

/-!
What the operations of the engine do to the view, and that they keep `State.Wf`: recording
writes (`view_updateValuesAt`), assigning locks (`view_assignWriteLock`,
`view_assignShareLock`), releasing them (`view_releaseLocks`), and ending a transaction
(`view_abortTransaction`). Each loop over sites has the effect of its sites taken together.
-/

namespace RepCRec

open AvailableCopies (Config)
open Container (IterOrder bind_eq_ok)

namespace State

variable {σ σ' : State} {T : TranId} {v : VarId} {x : Value} {o : IterOrder}

/-! ### Changes outside the view -/

/-- The view depends on the sites, the live transactions and the commits alone. -/
lemma view_congr (hs : σ'.sites = σ.sites) (ht : σ'.transactions = σ.transactions)
    (hc : committed σ'.trace = committed σ.trace) : σ'.view = σ.view := by
  ext1
  case live => funext T; simp only [view, ht]
  case up => funext s; simp only [view, isWriteAvailable, hs]
  case readable => funext s v; simp only [view, isReadAvailable, hs]
  case value => funext s v; simp only [view, getVariable, hs]
  case excl => funext T s v; simp only [view, getVariable, hs]
  case shared => funext T s v; simp only [view, getVariable, hs]
  case pending => funext T s v; simp only [view, pending, ht]
  case db => exact hc

/-- Well-formedness depends on the sites, the live transactions and the lock table alone. -/
lemma Wf.congr (h : σ.Wf) (hs : σ'.sites = σ.sites) (ht : σ'.transactions = σ.transactions)
    (hl : σ'.lockTable = σ.lockTable) : σ'.Wf where
  transactionId := by rw [ht]; exact h.transactionId
  recorded := by rw [ht]; exact h.recorded
  excl_table := by
    intro T s v
    simpa only [view, getVariable, lockedVars, hs, hl] using h.excl_table
  shared_table := by
    intro T s v
    simpa only [view, getVariable, lockedVars, hs, hl] using h.shared_table
  shared_nodup s v := by
    simpa only [getVariable, hs] using h.shared_nodup s v

lemma Good.congr (h : σ.Good) (hs : σ'.sites = σ.sites) (ht : σ'.transactions = σ.transactions)
    (hl : σ'.lockTable = σ.lockTable) (htr : σ'.trace = σ.trace) : σ'.Good where
  inv := view_congr hs ht (congrArg committed htr) ▸ h.inv
  wf := h.wf.congr hs ht hl

/-- An entry that stores nothing is not seen in the view. -/
lemma view_emit (σ : State) {e : Event} (he : ∀ db, e.store db = db) :
    (σ.emit e).view = σ.view :=
  view_congr rfl rfl (by rw [trace_emit, committed_append]; exact he _)

lemma Wf.emit (h : σ.Wf) (e : Event) : (σ.emit e).Wf := h.congr rfl rfl rfl

/-- A change of a transaction object that does not concern its writes. -/
lemma view_modifyTransaction {f : Transaction → Transaction}
    (hf : ∀ t, (f t).writeRecords = t.writeRecords) (h : σ.modifyTransaction T f = .ok σ') :
    σ'.view = σ.view := by
  obtain ⟨t, ht, rfl⟩ := modifyTransaction_eq_ok.mp h
  ext1
  case live =>
    funext T'
    have hT : T ∈ σ.transactions := Dict.mem_of_lookup ht
    simp only [view, AList.mem_insert, eq_iff_iff]
    exact ⟨fun h' => h'.elim (fun hTT => hTT ▸ hT) id, Or.inr⟩
  case pending =>
    funext T' s v
    by_cases hT : T' = T
    · subst hT
      simp [view, pending, ht, hf]
    · simp [view, pending, hT]
  all_goals rfl

/-- A change of a transaction that keeps its id and its records consistent. -/
lemma Wf.modifyTransaction (hw : σ.Wf) {f : Transaction → Transaction}
    (hid : ∀ t, (f t).transactionId = t.transactionId)
    (hrec : ∀ t, t.Recorded → (f t).Recorded)
    (h : σ.modifyTransaction T f = .ok σ') : σ'.Wf := by
  obtain ⟨t, ht, rfl⟩ := modifyTransaction_eq_ok.mp h
  refine { transactionId := ?_, recorded := ?_, excl_table := hw.excl_table,
           shared_table := hw.shared_table, shared_nodup := hw.shared_nodup }
  · intro T' t' ht'
    rw [Dict.lookup_insert] at ht'
    split_ifs at ht' with hT
    · cases ht'
      rw [hid, hw.transactionId ht, hT]
    · exact hw.transactionId ht'
  · intro T' t' ht'
    rw [Dict.lookup_insert] at ht'
    split_ifs at ht' with hT
    · cases ht'
      exact hrec t (hw.recorded ht)
    · exact hw.recorded ht'

/-! ### Recording writes -/

/-- A recorded write is a pending write of the protocol. -/
lemma view_updateValues {s : SiteId}
    (h : (σ.modifyTransaction T fun t => t.updateValues s v x) = .ok σ') :
    σ'.view = σ.view.setPending T v {s} x := by
  obtain ⟨t, ht, rfl⟩ := modifyTransaction_eq_ok.mp h
  ext1
  case live =>
    funext T'
    have hT : T ∈ σ.transactions := Dict.mem_of_lookup ht
    simp only [view, Config.setPending, AList.mem_insert, eq_iff_iff]
    exact ⟨fun h' => h'.elim (fun hTT => hTT ▸ hT) id, Or.inr⟩
  case pending =>
    funext T' s' w
    by_cases hT : T' = T
    · subst hT
      simp [view, Config.setPending, pending, ht, Transaction.updateValues, AccessMap.get?_set]
    · simp [view, Config.setPending, pending, hT]
  all_goals rfl

lemma Wf.updateValues (hw : σ.Wf) {s : SiteId}
    (h : (σ.modifyTransaction T fun t => t.updateValues s v x) = .ok σ') : σ'.Wf := by
  exact hw.modifyTransaction (f := fun t => t.updateValues s v x) (fun _ => rfl)
    (fun t ht => ht.updateValues s v x) h

lemma setOf_mem_cons {α : Type} (a : α) (l : List α) :
    {b | b ∈ a :: l} = insert a {b | b ∈ l} := by
  ext b
  simp

lemma setOf_mem_visit {α : Type} (o : IterOrder) (l : List α) :
    {b | b ∈ o.visit l} = {b | b ∈ l} := by
  ext b
  simp

/-- A write that is recorded for several sites is one pending write of the protocol. -/
lemma view_updateValuesAt {L : List SiteId} (hw : σ.Wf) (h : σ.updateValuesAt o T L v x = .ok σ') :
    σ'.view = σ.view.setPending T v {s | s ∈ L} x ∧ σ'.Wf := by
  rw [updateValuesAt] at h
  rw [← setOf_mem_visit o]
  generalize o.visit L = l at h ⊢
  induction l generalizing σ with
  | nil =>
      rw [List.foldlM_nil, Container.pure_eq_ok] at h
      subst h
      simp [hw]
  | cons s l ih =>
      rw [List.foldlM_cons, bind_eq_ok] at h
      obtain ⟨σ₁, h1, h2⟩ := h
      obtain ⟨hv, hw'⟩ := ih (hw.updateValues h1) h2
      refine ⟨?_, hw'⟩
      rw [hv, view_updateValues h1, setOf_mem_cons, ← Config.setPending_insert]

/-! ### Changing one copy -/

/-- A change of the locks on one copy. -/
lemma view_modifyVariable (σ : State) {s : SiteId} {v : VarId} {g : Variable → Variable}
    (hg : (g (σ.getVariable s v)).value = (σ.getVariable s v).value) :
    (σ.modifyVariable s v g).view = { σ.view with
      excl := fun T s' w => if s' = s ∧ w = v
        then (g (σ.getVariable s v)).exclusiveLockOwner = some T else σ.view.excl T s' w
      shared := fun T s' w => if s' = s ∧ w = v
        then T ∈ (g (σ.getVariable s v)).sharedLockOwners else σ.view.shared T s' w } := by
  ext1
  case up => funext s'; simp [view]
  case readable => funext s' w; simp [view]
  case value =>
    funext s' w
    simp only [view, getVariable_modifyVariable]
    split_ifs with h
    · rw [hg, h.1, h.2]
    · rfl
  case excl =>
    funext T s' w
    simp only [view, getVariable_modifyVariable]
    split_ifs <;> rfl
  case shared =>
    funext T s' w
    simp only [view, getVariable_modifyVariable]
    split_ifs <;> rfl
  all_goals rfl

lemma view_recordLock (σ : State) (T : TranId) (v : VarId) : (σ.recordLock T v).view = σ.view := rfl

@[simp] lemma isWriteAvailable_recordLock (σ : State) (T : TranId) (v : VarId) (s : SiteId) :
    (σ.recordLock T v).isWriteAvailable s = σ.isWriteAvailable s := rfl

@[simp] lemma isReadAvailable_recordLock (σ : State) (T : TranId) (v w : VarId) (s : SiteId) :
    (σ.recordLock T v).isReadAvailable s w = σ.isReadAvailable s w := rfl

/-- A lock is added to the entry of its owner. -/
lemma lockedVars_recordLock (σ : State) (T T' : TranId) (v w : VarId) :
    w ∈ (σ.recordLock T v).lockedVars T' ↔ w ∈ σ.lockedVars T' ∨ (T' = T ∧ w = v) := by
  by_cases h : T' = T
  · subst h
    simp [recordLock, lockedVars, or_comm]
  · simp [recordLock, lockedVars, h]

/-! ### Assigning locks -/

/-- What `assignWriteLock` does at one site. -/
lemma view_takeExcl (hw : σ.Wf) {s : SiteId} (hfree : ∀ T', σ.view.excl T' s v → T' = T) :
    ((σ.modifyVariable s v fun y =>
        (y.removeSharedOwner T).setExclusiveTransaction T).recordLock T v).view
      = σ.view.takeExcl T v {s} := by
  rw [view_recordLock, view_modifyVariable σ (by simp [Variable.removeSharedOwner])]
  ext1
  case excl =>
    funext T' s' w
    dsimp only [Config.takeExcl]
    split_ifs with h
    · obtain ⟨rfl, rfl⟩ := h
      rw [Variable.exclusiveLockOwner_setExclusiveTransaction
        (x := (σ.getVariable s' w).removeSharedOwner T) hfree, Option.some.injEq, eq_iff_iff]
      simp only [Set.mem_singleton_iff, and_true]
      exact ⟨fun hT => Or.inr hT.symm, fun hT => hT.elim (fun hx => (hfree T' hx).symm) Eq.symm⟩
    · simp only [Set.mem_singleton_iff, h, and_false, or_false]
  case shared =>
    funext T' s' w
    dsimp only [Config.takeExcl]
    split_ifs with h
    · obtain ⟨rfl, rfl⟩ := h
      rw [Variable.sharedLockOwners_setExclusiveTransaction,
        Variable.mem_removeSharedOwner (hw.shared_nodup s' w)]
      simp only [Set.mem_singleton_iff, and_true]
      rfl
    · simp only [Set.mem_singleton_iff, h, and_false, not_false_iff, and_true]
  all_goals rfl

/-- Changing one copy keeps well-formedness when the new owners have the variable in their
lock table entries. -/
lemma Wf.modifyVariable (hw : σ.Wf) {s : SiteId} {g : Variable → Variable}
    (hval : (g (σ.getVariable s v)).value = (σ.getVariable s v).value)
    (hx : ∀ T', (g (σ.getVariable s v)).exclusiveLockOwner = some T' → v ∈ σ.lockedVars T')
    (hs : ∀ T' ∈ (g (σ.getVariable s v)).sharedLockOwners, v ∈ σ.lockedVars T')
    (hnd : (g (σ.getVariable s v)).sharedLockOwners.Nodup) : (σ.modifyVariable s v g).Wf where
  transactionId := hw.transactionId
  recorded := hw.recorded
  excl_table := by
    intro T' s' w h
    rw [view_modifyVariable σ hval] at h
    dsimp only at h
    split_ifs at h with hsw
    · rw [hsw.2]
      exact hx T' h
    · exact hw.excl_table h
  shared_table := by
    intro T' s' w h
    rw [view_modifyVariable σ hval] at h
    dsimp only at h
    split_ifs at h with hsw
    · rw [hsw.2]
      exact hs T' h
    · exact hw.shared_table h
  shared_nodup s' w := by
    rw [getVariable_modifyVariable]
    split_ifs with hsw
    · exact hnd
    · exact hw.shared_nodup s' w

lemma Wf.recordLock (hw : σ.Wf) (T : TranId) (v : VarId) : (σ.recordLock T v).Wf where
  transactionId := hw.transactionId
  recorded := hw.recorded
  excl_table h := (lockedVars_recordLock σ T _ v _).mpr (Or.inl (hw.excl_table h))
  shared_table h := (lockedVars_recordLock σ T _ v _).mpr (Or.inl (hw.shared_table h))
  shared_nodup := hw.shared_nodup

lemma recordLock_modifyVariable (σ : State) (s : SiteId) (v w : VarId) (T : TranId)
    (g : Variable → Variable) :
    (σ.modifyVariable s v g).recordLock T w = (σ.recordLock T w).modifyVariable s v g := rfl

/-- An exclusive lock on a copy that nobody else holds. -/
lemma wf_takeExcl (hw : σ.Wf) {s : SiteId} (hfree : ∀ T', σ.view.excl T' s v → T' = T) :
    ((σ.modifyVariable s v fun y =>
        (y.removeSharedOwner T).setExclusiveTransaction T).recordLock T v).Wf := by
  rw [recordLock_modifyVariable]
  refine (hw.recordLock T v).modifyVariable (by simp [Variable.removeSharedOwner]) ?_ ?_ ?_
  · intro T' hT'
    rw [Variable.exclusiveLockOwner_setExclusiveTransaction
      (x := ((σ.recordLock T v).getVariable s v).removeSharedOwner T) hfree] at hT'
    exact (lockedVars_recordLock σ T T' v v).mpr (Or.inr ⟨(Option.some.inj hT').symm, rfl⟩)
  · intro T' hT'
    rw [Variable.sharedLockOwners_setExclusiveTransaction,
      Variable.mem_removeSharedOwner ((hw.recordLock T v).shared_nodup s v)] at hT'
    exact (hw.recordLock T v).shared_table hT'.1
  · rw [Variable.sharedLockOwners_setExclusiveTransaction]
    exact ((hw.recordLock T v).shared_nodup s v).erase T

/-- `assign_write_lock` takes the exclusive locks of the protocol. -/
lemma view_assignWriteLock {L : List SiteId} (hw : σ.Wf)
    (hup : ∀ s ∈ L, σ.isWriteAvailable s = true)
    (hfree : ∀ s ∈ L, ∀ T', σ.view.excl T' s v → T' = T)
    (h : σ.assignWriteLock o T L v = .ok σ') :
    σ'.view = σ.view.takeExcl T v {s | s ∈ L} ∧ σ'.Wf := by
  rw [assignWriteLock] at h
  rw [← setOf_mem_visit o]
  replace hup : ∀ s ∈ o.visit L, σ.isWriteAvailable s = true := fun s hs =>
    hup s (by simpa using hs)
  replace hfree : ∀ s ∈ o.visit L, ∀ T', σ.view.excl T' s v → T' = T := fun s hs =>
    hfree s (by simpa using hs)
  generalize o.visit L = l at h hup hfree ⊢
  induction l generalizing σ with
  | nil =>
      rw [List.foldlM_nil, Container.pure_eq_ok] at h
      subst h
      simp [hw]
  | cons s l ih =>
      rw [List.foldlM_cons, bind_eq_ok] at h
      obtain ⟨σ₁, h1, h2⟩ := h
      rw [if_pos (hup s (by simp)), bind_eq_ok] at h1
      obtain ⟨t, ht, h1⟩ := h1
      rw [Container.pure_eq_ok, hw.transactionId (getTransaction_eq_ok.mp ht)] at h1
      subst h1
      have hs := view_takeExcl hw (hfree s (by simp))
      obtain ⟨hv, hw'⟩ := ih (wf_takeExcl hw (hfree s (by simp))) h2
        (fun s' hs' => by simpa using hup s' (by simp [hs']))
        (fun s' hs' T' hx => by
          rw [hs] at hx
          exact hx.elim (hfree s' (by simp [hs']) T') And.left)
      refine ⟨?_, hw'⟩
      rw [hv, hs, setOf_mem_cons, ← Config.takeExcl_insert]

/-- What `assignShareLock` does at one site. -/
lemma view_addShared (σ : State) (T : TranId) (s : SiteId) (v : VarId) :
    ((σ.recordLock T v).modifyVariable s v fun y => y.addSharedTransaction T).view
      = σ.view.lockShared T v {s} := by
  rw [view_modifyVariable _ (by simp)]
  ext1
  case excl =>
    funext T' s' w
    dsimp only [Config.lockShared]
    split_ifs with h
    · rw [Variable.exclusiveLockOwner_addSharedTransaction, h.1, h.2]
      rfl
    · rfl
  case shared =>
    funext T' s' w
    dsimp only [Config.lockShared]
    split_ifs with h
    · obtain ⟨rfl, rfl⟩ := h
      rw [Variable.mem_addSharedTransaction]
      simp only [Set.mem_singleton_iff, and_true]
      rfl
    · simp only [Set.mem_singleton_iff, h, and_false, or_false]
      rfl
  all_goals rfl

/-- A shared lock on a copy. -/
lemma wf_addShared (hw : σ.Wf) (T : TranId) (s : SiteId) (v : VarId) :
    ((σ.recordLock T v).modifyVariable s v fun y => y.addSharedTransaction T).Wf := by
  have hw' := hw.recordLock T v
  refine hw'.modifyVariable (by simp) ?_ ?_ (Variable.nodup_addSharedTransaction
    (hw'.shared_nodup s v))
  · intro T' hT'
    rw [Variable.exclusiveLockOwner_addSharedTransaction] at hT'
    exact hw'.excl_table hT'
  · intro T' hT'
    rcases Variable.mem_addSharedTransaction.mp hT' with hs | rfl
    · exact hw'.shared_table hs
    · exact (lockedVars_recordLock σ T' T' v v).mpr (Or.inr ⟨rfl, rfl⟩)

/-- `assign_share_lock` takes the shared locks of the protocol, on the readable copies. -/
lemma view_assignShareLock {L : List SiteId} (hw : σ.Wf)
    (h : σ.assignShareLock o T L v = .ok σ') :
    σ'.view = σ.view.lockShared T v {s | s ∈ L ∧ σ.isReadAvailable s v = true} ∧ σ'.Wf := by
  rw [assignShareLock] at h
  have hL : {s | s ∈ L ∧ σ.isReadAvailable s v = true}
      = {s | s ∈ o.visit L ∧ σ.isReadAvailable s v = true} := by simp
  rw [hL]
  clear hL
  generalize o.visit L = l at h ⊢
  induction l generalizing σ with
  | nil =>
      rw [List.foldlM_nil, Container.pure_eq_ok] at h
      subst h
      simp [hw]
  | cons s l ih =>
      rw [List.foldlM_cons, bind_eq_ok] at h
      obtain ⟨σ₁, h1, h2⟩ := h
      by_cases hr : σ.isReadAvailable s v = true
      · rw [if_pos hr, bind_eq_ok] at h1
        obtain ⟨t, ht, h1⟩ := h1
        rw [Container.pure_eq_ok, hw.transactionId (getTransaction_eq_ok.mp ht)] at h1
        subst h1
        obtain ⟨hv, hw'⟩ := ih (wf_addShared hw T s v) h2
        refine ⟨?_, hw'⟩
        rw [hv, view_addShared, ← Config.lockShared_insert]
        congr 1
        ext s'
        by_cases hs' : s' = s
        · subst hs'
          simp [hr]
        · simp [hs']
      · rw [if_neg hr, Container.pure_eq_ok] at h1
        subst h1
        obtain ⟨hv, hw'⟩ := ih hw h2
        refine ⟨?_, hw'⟩
        rw [hv]
        congr 1
        ext s'
        by_cases hs' : s' = s
        · subst hs'
          simp [hr]
        · simp [hs']

/-! ### Releasing locks -/

/-- Only locks of `T` are gone, on any copy. -/
structure Unlocked (T : TranId) (σ σ' : State) : Prop where
  var : ∀ s v, Variable.Unlocked T (σ.getVariable s v) (σ'.getVariable s v)
  up : ∀ s, σ'.isWriteAvailable s = σ.isWriteAvailable s
  readable : ∀ s v, σ'.isReadAvailable s v = σ.isReadAvailable s v
  transactions : σ'.transactions = σ.transactions
  lockTable : σ'.lockTable = σ.lockTable
  waitForGraph : σ'.waitForGraph = σ.waitForGraph
  transactionsSet : σ'.transactionsSet = σ.transactionsSet
  siteWaitingMap : σ'.siteWaitingMap = σ.siteWaitingMap
  queue : σ'.blockedTransactionsQueue = σ.blockedTransactionsQueue
  request : σ'.request = σ.request
  trace : σ'.trace = σ.trace

namespace Unlocked

lemma refl (T : TranId) (σ : State) : Unlocked T σ σ :=
  ⟨fun _ _ => .refl T _, fun _ => rfl, fun _ _ => rfl, rfl, rfl, rfl, rfl, rfl, rfl, rfl, rfl⟩

lemma trans {σ σ₁ σ₂ : State} (h : Unlocked T σ σ₁) (h' : Unlocked T σ₁ σ₂) :
    Unlocked T σ σ₂ where
  var s v := (h.var s v).trans (h'.var s v)
  up s := (h'.up s).trans (h.up s)
  readable s v := (h'.readable s v).trans (h.readable s v)
  transactions := h'.transactions.trans h.transactions
  lockTable := h'.lockTable.trans h.lockTable
  waitForGraph := h'.waitForGraph.trans h.waitForGraph
  transactionsSet := h'.transactionsSet.trans h.transactionsSet
  siteWaitingMap := h'.siteWaitingMap.trans h.siteWaitingMap
  queue := h'.queue.trans h.queue
  request := h'.request.trans h.request
  trace := h'.trace.trans h.trace

end Unlocked

/-- `T` holds no lock on the copy. -/
def FreeOf (T : TranId) (v : VarId) (s : SiteId) (σ : State) : Prop :=
  ¬σ.view.excl T s v ∧ ¬σ.view.shared T s v

/-- A copy that is free of locks of `T` stays free while locks are released. -/
lemma FreeOf.last {s : SiteId} (h : FreeOf T v s σ)
    (hu : Variable.Unlocked T (σ.getVariable s v) (σ'.getVariable s v)) : FreeOf T v s σ' :=
  ⟨fun hx => h.1 (hu.excl T hx), fun hs => h.2 (hu.shared T hs)⟩

/-- No copy lists a shared owner twice. -/
def SharedNodup (σ : State) : Prop := ∀ s v, (σ.getVariable s v).sharedLockOwners.Nodup

/-- Releasing one copy. -/
lemma releaseCopy_spec (T : TranId) (v : VarId) (σ : State) (s : SiteId) (hn : σ.SharedNodup) :
    (σ.releaseCopy T v s).SharedNodup ∧ Unlocked T σ (σ.releaseCopy T v s) ∧
      FreeOf T v s (σ.releaseCopy T v s) := by
  have hvar : ∀ s' w, (σ.releaseCopy T v s).getVariable s' w = if s' = s ∧ w = v
      then (σ.getVariable s v).releaseOwner T else σ.getVariable s' w := fun s' w =>
    getVariable_modifyVariable σ s s' v w fun x => x.releaseOwner T
  have hu : Unlocked T σ (σ.releaseCopy T v s) := by
    refine ⟨fun s' w => ?_, fun s' => by simp [releaseCopy], fun s' w => by simp [releaseCopy],
      rfl, rfl, rfl, rfl, rfl, rfl, rfl, rfl⟩
    rw [hvar]
    split_ifs with h
    · obtain ⟨rfl, rfl⟩ := h
      exact Variable.unlocked_releaseOwner _ T
    · exact .refl T _
  refine ⟨fun s' w => (hu.var s' w).nodup (hn s' w), hu, fun hx => ?_, fun hs => ?_⟩
  · simp only [view, hvar, and_self, if_true] at hx
    exact Variable.exclusiveLockOwner_releaseOwner_ne _ T hx
  · simp only [view, hvar, and_self, if_true] at hs
    exact Variable.notMem_releaseOwner T (hn s v) hs

/-- Releasing all copies of a variable. -/
lemma releaseVariable_spec (T : TranId) (σ : State) (v : VarId) (hn : σ.SharedNodup) :
    (σ.releaseVariable T v).SharedNodup ∧ Unlocked T σ (σ.releaseVariable T v) ∧
      ∀ s ∈ copies v, FreeOf T v s (σ.releaseVariable T v) := by
  rw [releaseVariable]
  split_ifs with hv
  · obtain ⟨h1, h2, h3⟩ := releaseCopy_spec T v σ v.home hn
    exact ⟨h1, h2, fun s hs => hs hv ▸ h3⟩
  · obtain ⟨h1, h2, h3⟩ := Container.foldl_establishes (P := SharedNodup)
      (R := Unlocked T) (Q := FreeOf T v) (Unlocked.refl T) Unlocked.trans
      (fun {s _ _} hf hu => hf.last (hu.var s v)) (fun σ s => releaseCopy_spec T v σ s) SiteId.all
      hn
    exact ⟨h1, h2, fun s _ => h3 s (SiteId.mem_all s)⟩

/-- The loop of `releaseLocks` over the locked variables. -/
lemma foldl_releaseVariable_spec (o : IterOrder) (T : TranId) (hn : σ.SharedNodup) :
    Unlocked T σ ((o.visit (σ.lockedVars T)).foldl (releaseVariable T) σ) ∧
    ∀ v ∈ σ.lockedVars T, ∀ s ∈ copies v,
      FreeOf T v s ((o.visit (σ.lockedVars T)).foldl (releaseVariable T) σ) := by
  obtain ⟨-, hu, hfree⟩ := Container.foldl_establishes (P := SharedNodup)
    (R := Unlocked T) (Q := fun v σ => ∀ s ∈ copies v, FreeOf T v s σ)
    (Unlocked.refl T) Unlocked.trans (fun {v _ _} hf hu s hs => (hf s hs).last (hu.var s v))
    (fun σ v => releaseVariable_spec T σ v) (o.visit (σ.lockedVars T)) hn
  exact ⟨hu, fun v hv => hfree v (by simpa using hv)⟩

/-- Locks are on copies. -/
def OnCopies (σ : State) : Prop :=
  ∀ {T s v}, σ.view.excl T s v ∨ σ.view.shared T s v → s ∈ copies v

/-- In a good state all locks are on copies. -/
lemma Good.onCopies (h : σ.Good) : σ.OnCopies :=
  fun hl => hl.elim h.inv.excl_copies h.inv.shared_copies

/-- The lock table has every lock, and no copy has a shared owner twice. -/
structure Tabled (σ : State) : Prop where
  owned : ∀ {T s v}, σ.Owns T s v → v ∈ σ.lockedVars T
  nodup : σ.SharedNodup

/-- In a well-formed state every lock is in the table. -/
lemma Wf.tabled (hw : σ.Wf) : σ.Tabled :=
  ⟨fun {_ s _} ho => ho.elim (fun hx => hw.excl_table (s := s) hx)
    fun hs => hw.shared_table (s := s) hs, hw.shared_nodup⟩

/-- **Releasing locks**: all locks of `T` are gone, and nothing else that is locked, stored or
available has changed. -/
lemma releaseLocks_spec (hw : σ.Tabled) (o : IterOrder) (T : TranId)
    (hc : ∀ {s v}, σ.Owns T s v → s ∈ copies v) :
    Unlocked T σ { σ.releaseLocks o T with
      waitForGraph := σ.waitForGraph, lockTable := σ.lockTable } ∧
    ∀ s v, FreeOf T v s (σ.releaseLocks o T) := by
  obtain ⟨hu, hfree⟩ := foldl_releaseVariable_spec o T hw.nodup
  constructor
  · exact ⟨hu.var, hu.up, hu.readable, hu.transactions, rfl, rfl, hu.transactionsSet,
      hu.siteWaitingMap, hu.queue, hu.request, hu.trace⟩
  · intro s v
    by_cases hv : v ∈ σ.lockedVars T ∧ s ∈ copies v
    · exact hfree v hv.1 s hv.2
    · have hno : FreeOf T v s σ :=
        ⟨fun hx => hv ⟨hw.owned (s := s) (Or.inl hx), hc (Or.inl hx)⟩,
          fun hs => hv ⟨hw.owned (s := s) (Or.inr hs), hc (Or.inr hs)⟩⟩
      exact hno.last (hu.var s v)

/-- `release_locks` is the release of the protocol. -/
lemma view_releaseLocks (hw : σ.Wf) (hc : σ.OnCopies) (o : IterOrder) (T : TranId) :
    (σ.releaseLocks o T).view = σ.view.release T := by
  obtain ⟨hu, hfree⟩ := releaseLocks_spec hw.tabled o T fun ho => hc ho
  ext1
  case live => funext T'; simp only [view, Config.release]; rw [← hu.transactions]
  case up => funext s; simp only [view, Config.release]; rw [← hu.up]; rfl
  case readable => funext s v; simp only [view, Config.release]; rw [← hu.readable]; rfl
  case value => funext s v; exact (hu.var s v).value
  case excl =>
    funext T' s v
    by_cases hT : T' = T
    · subst hT
      simp [Config.release, (hfree s v).1]
    · simp only [Config.release, ne_eq, hT, not_false_iff, and_true, eq_iff_iff]
      exact ⟨(hu.var s v).excl T', (hu.var s v).excl_other T' hT⟩
  case shared =>
    funext T' s v
    by_cases hT : T' = T
    · subst hT
      simp [Config.release, (hfree s v).2]
    · simp only [Config.release, ne_eq, hT, not_false_iff, and_true, eq_iff_iff]
      exact ⟨(hu.var s v).shared T', (hu.var s v).shared_other T' hT⟩
  case pending => funext T' s v; simp only [view, Config.release, pending]; rw [← hu.transactions]
  case db => simp only [view, Config.release]; rw [← hu.trace]

/-- The entry of the transaction goes from the lock table, and no other one does. -/
lemma lockedVars_releaseLocks (hn : σ.SharedNodup) (o : IterOrder) (T T' : TranId) :
    (σ.releaseLocks o T).lockedVars T' = if T' = T then [] else σ.lockedVars T' := by
  have hl := (foldl_releaseVariable_spec o T hn).1.lockTable
  have hr : (σ.releaseLocks o T).lockTable = σ.lockTable.erase T := congrArg (AList.erase T) hl
  rw [lockedVars, hr, Dict.lookup_erase]
  split_ifs <;> rfl

/-- `release_locks` keeps states well-formed. -/
lemma wf_releaseLocks (hw : σ.Wf) (hc : σ.OnCopies) (o : IterOrder) (T : TranId) :
    (σ.releaseLocks o T).Wf := by
  obtain ⟨hu, hfree⟩ := releaseLocks_spec hw.tabled o T fun ho => hc ho
  have hv := view_releaseLocks hw hc o T
  refine ⟨?_, ?_, ?_, ?_, fun s v => (hu.var s v).nodup (hw.shared_nodup s v)⟩
  · intro T' t ht
    exact hw.transactionId (hu.transactions ▸ ht)
  · intro T' t ht
    exact hw.recorded (hu.transactions ▸ ht)
  · intro T' s v hx
    rw [hv] at hx
    rw [lockedVars_releaseLocks hw.shared_nodup, if_neg hx.2]
    exact hw.excl_table hx.1
  · intro T' s v hs
    rw [hv] at hs
    rw [lockedVars_releaseLocks hw.shared_nodup, if_neg hs.2]
    exact hw.shared_table hs.1

end State

end RepCRec
