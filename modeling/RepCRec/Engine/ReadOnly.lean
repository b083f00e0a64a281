import RepCRec.Engine.Indexes

/-!
What the engine does to a transaction that only reads. `Spares T` says that a step gives no lock to
`T` and leaves its record as it is; every step does, except for the locks and the record of a write
of `T` (`spares_assignWriteLock`, `spares_updateValuesAt`). From this `Outcome.readsOnly` shows that
a read-only transaction has no locks, no pending writes and no edges in the wait-for graph after a
request, unless the request is a write of its own that reaches a copy.
-/

namespace RepCRec

open Container (IterOrder bind_eq_ok pure_eq_ok)

namespace State

variable {o : IterOrder} {σ σ' σ₁ : State} {r : Request} {es : List Event} {T T' : TranId}
  {v : VarId} {x : Value} {L : List SiteId}

/-- The transactions stay under their ids, and `T` gets no lock and no pending write. -/
structure Spares (T : TranId) (σ σ' : State) : Prop where
  transaction : ∀ {T' t'}, σ'.transactions.lookup T' = some t' →
    ∃ t, σ.transactions.lookup T' = some t ∧ t'.transactionId = t.transactionId ∧
      (T' = T → t'.isReadOnly = t.isReadOnly ∧ t'.writeRecords = t.writeRecords)
  owns : ∀ {s v}, σ'.Owns T s v → σ.Owns T s v

/-- The transactions are kept under their ids. -/
def Named (σ : State) : Prop :=
  ∀ {T t}, σ.transactions.lookup T = some t → t.transactionId = T

namespace Spares

lemma refl (T : TranId) (σ : State) : Spares T σ σ :=
  ⟨fun {_ t} h => ⟨t, h, rfl, fun _ => ⟨rfl, rfl⟩⟩, id⟩

lemma trans (h : Spares T σ σ₁) (h' : Spares T σ₁ σ') : Spares T σ σ' where
  transaction {T' t'} ht' := by
    obtain ⟨t₁, ht₁, hid₁, hrec₁⟩ := h'.transaction ht'
    obtain ⟨t, ht, hid, hrec⟩ := h.transaction ht₁
    exact ⟨t, ht, hid₁.trans hid, fun hT => ⟨(hrec₁ hT).1.trans (hrec hT).1,
      (hrec₁ hT).2.trans (hrec hT).2⟩⟩
  owns ho := h.owns (h'.owns ho)

/-- The names of the transactions are kept. -/
lemma named (h : Spares T σ σ') (hn : σ.Named) : σ'.Named := fun ht' => by
  obtain ⟨t, ht, hid, -⟩ := h.transaction ht'
  exact hid.trans (hn ht)

lemma of_eq (ht : σ'.transactions = σ.transactions)
    (hv : ∀ s v, σ'.getVariable s v = σ.getVariable s v) : Spares T σ σ' where
  transaction {T' t'} ht' := (refl T σ).transaction (ht ▸ ht')
  owns {s v} ho := by
    rw [Owns, hv] at ho
    exact ho

lemma emit (σ : State) (e : Event) : Spares T σ (σ.emit e) := of_eq rfl fun _ _ => rfl

/-- A change of another transaction, or one that keeps what is spared. -/
lemma modifyTransaction {f : Transaction → Transaction} (h : σ.modifyTransaction T' f = .ok σ')
    (hid : ∀ t, (f t).transactionId = t.transactionId)
    (hrec : T' = T → ∀ t, (f t).isReadOnly = t.isReadOnly ∧ (f t).writeRecords = t.writeRecords) :
    Spares T σ σ' := by
  obtain ⟨t, ht, rfl⟩ := modifyTransaction_eq_ok.mp h
  refine ⟨fun {T₁ t₁} h₁ => ?_, id⟩
  rw [Dict.lookup_insert] at h₁
  split_ifs at h₁ with heq
  · cases h₁
    subst heq
    exact ⟨t, ht, hid t, fun hT => hrec hT t⟩
  · exact ⟨t₁, h₁, rfl, fun _ => ⟨rfl, rfl⟩⟩

/-- The owners of one copy change, and `T` is not a new one of them. -/
lemma modifyVariable (σ : State) (s : SiteId) (v : VarId) {g : Variable → Variable}
    (hx : ∀ y : Variable, (g y).exclusiveLockOwner = some T → y.exclusiveLockOwner = some T)
    (hs : ∀ y : Variable, T ∈ (g y).sharedLockOwners → T ∈ y.sharedLockOwners) :
    Spares T σ (σ.modifyVariable s v g) := by
  refine ⟨(refl T σ).transaction, fun {s' v'} ho => ?_⟩
  rw [Owns, getVariable_modifyVariable] at ho
  split_ifs at ho with heq
  · obtain ⟨rfl, rfl⟩ := heq
    exact ho.imp (hx _) (hs _)
  · exact ho

lemma recordLock (σ : State) (T' : TranId) (v : VarId) : Spares T σ (σ.recordLock T' v) :=
  of_eq rfl fun _ _ => rfl

/-- Writes of others are recorded. -/
lemma updateValuesAt (hT : T' ≠ T ∨ L = []) (h : σ.updateValuesAt o T' L v x = .ok σ') :
    Spares T σ σ' := by
  rcases hT with hne | rfl
  · refine Container.foldlM_rel (refl T) trans (fun s _ _ h => ?_) h
    exact modifyTransaction h (fun _ => rfl) fun hT => absurd hT hne
  · rw [updateValuesAt_nil] at h
    cases h
    exact refl T σ

/-- Others get exclusive locks. -/
lemma assignWriteLock (hn : σ.Named) (hT : T' ≠ T ∨ L = [])
    (h : σ.assignWriteLock o T' L v = .ok σ') : Spares T σ σ' := by
  refine Container.foldlM_induction (P := Spares T σ) (fun s hs σ₁ σ₂ hσ₁ h => ?_) (refl T σ) h
  have hne : T' ≠ T := hT.resolve_right (List.ne_nil_of_mem ((o.mem_visit).mp hs))
  refine hσ₁.trans ?_
  split_ifs at h with hup
  · rw [bind_eq_ok] at h
    obtain ⟨t, ht, h⟩ := h
    rw [pure_eq_ok] at h
    subst h
    have hid : t.transactionId = T' := hσ₁.named hn (getTransaction_eq_ok.mp ht)
    refine (modifyVariable σ₁ s v (fun y hy => ?_) fun y hy => ?_).trans (.recordLock _ T' v)
    · rw [hid, Variable.setExclusiveTransaction] at hy
      split_ifs at hy
      · exact absurd (Option.some.inj hy) hne
      · exact hy
    · rw [Variable.sharedLockOwners_setExclusiveTransaction] at hy
      exact List.mem_of_mem_erase hy
  · rw [pure_eq_ok] at h
    exact h ▸ refl T σ₁

/-- Others get shared locks. -/
lemma assignShareLock (hn : σ.Named) (hne : T' ≠ T) (h : σ.assignShareLock o T' L v = .ok σ') :
    Spares T σ σ' := by
  refine Container.foldlM_induction (P := Spares T σ) (fun s _ σ₁ σ₂ hσ₁ h => ?_) (refl T σ) h
  refine hσ₁.trans ?_
  split_ifs at h with hup
  · rw [bind_eq_ok] at h
    obtain ⟨t, ht, h⟩ := h
    rw [pure_eq_ok] at h
    subst h
    have hid : t.transactionId = T' := hσ₁.named hn (getTransaction_eq_ok.mp ht)
    refine (Spares.recordLock σ₁ T' v).trans (modifyVariable _ s v (fun y hy => ?_) fun y hy => ?_)
    · rwa [Variable.exclusiveLockOwner_addSharedTransaction] at hy
    · rw [hid] at hy
      exact (Variable.mem_addSharedTransaction.mp hy).resolve_right hne.symm
  · rw [pure_eq_ok] at h
    exact h ▸ refl T σ₁

/-- Locks are released. -/
lemma releaseLocks (σ : State) (o : IterOrder) (T' : TranId) :
    Spares T σ (σ.releaseLocks o T') := by
  have hcopy : ∀ (v : VarId) (σ : State) s, Spares T σ (σ.releaseCopy T' v s) := fun v σ s =>
    modifyVariable σ s v (fun y => (Variable.unlocked_releaseOwner y T').excl T)
      fun y => (Variable.unlocked_releaseOwner y T').shared T
  have hvar : ∀ (σ : State) v, Spares T σ (σ.releaseVariable T' v) := fun σ v => by
    rw [releaseVariable]
    split_ifs
    · exact hcopy v σ v.home
    · exact Container.foldl_rel (refl T) trans (hcopy v) SiteId.all σ
  exact (Container.foldl_rel (refl T) trans hvar
    (o.visit ((σ.lockTable.lookup T').getD [])) σ).trans (of_eq rfl fun _ _ => rfl)

lemma evictTransaction (h : σ.evictTransaction T' = .ok σ') : Spares T σ σ' := by
  rw [frame_evictTransaction h]
  refine ⟨fun {T₁ t₁} h₁ => ?_, id⟩
  rw [Dict.lookup_erase] at h₁
  split_ifs at h₁
  exact (refl T σ).transaction h₁

lemma abortTransaction (h : σ.abortTransaction o T' = .ok σ') : Spares T σ σ' := by
  rw [State.abortTransaction, bind_eq_ok] at h
  obtain ⟨σ₁, h1, h2⟩ := h
  cases h2
  refine (evictTransaction h1).trans (Spares.trans ?_ (.emit _ _))
  exact (of_eq rfl fun _ _ => rfl : Spares T σ₁ { σ₁ with
    blockedTransactionsQueue := σ₁.blockedTransactionsQueue.erase T' }).trans (releaseLocks _ o T')

lemma of_sameLocks (h : SameLocks σ σ') : Spares T σ σ' where
  transaction ht' := (refl T σ).transaction (h.transactions ▸ ht')
  owns {s v} ho := by
    rw [Owns, h.excl, h.shared] at ho
    exact ho

end Spares

/-- The transaction neither waits nor is waited for, and is not begun from the queue as a read-write
transaction. -/
structure Unlinked (T : TranId) (σ : State) : Prop where
  source : σ.waitsFor T = []
  target : ∀ T', T ∉ σ.waitsFor T'
  created : ∀ {T' rs ts b}, σ.blockedTransactionsQueue.lookup T' = some rs →
    .create ts T b ∈ rs → b = true

namespace Unlinked

lemma congr (h : Unlinked T σ) (hw : ∀ T', σ'.waitsFor T' = σ.waitsFor T')
    (hq : σ'.blockedTransactionsQueue = σ.blockedTransactionsQueue) : Unlinked T σ' where
  source := (hw T).trans h.source
  target T' := hw T' ▸ h.target T'
  created hl := h.created (hq ▸ hl)

/-- A transaction that leaves takes its edges and its requests along. -/
lemma left (h : Unlinked T σ) (hl : Left T' σ σ') : Unlinked T σ' where
  source := List.eq_nil_iff_forall_not_mem.mpr fun T₁ hT₁ => by
    have hmem := (hl.subset_waitsFor hT₁).1
    rw [h.source] at hmem
    cases hmem
  target T₁ hT₁ := h.target T₁ (hl.subset_waitsFor hT₁).1
  created {T₁ rs ts b} hq hr := by
    rcases hl.queue with heq | heq
    · exact h.created (heq ▸ hq) hr
    · rw [heq, Dict.lookup_erase] at hq
      split_ifs at hq
      exact h.created hq hr

/-- A request is queued that does not begin `T` as a writer. -/
lemma enqueue (h : Unlinked T σ) (hr : ∀ ts b, r = .create ts T b → b = true) :
    Unlinked T (σ.addRequestToBlockedQueue r) where
  source := h.source
  target := h.target
  created {T₁ rs ts b} hq hmem := by
    rcases mem_of_addRequest hq hmem with ⟨rfl, -⟩ | ⟨rs', hq', hmem'⟩
    · exact hr ts b rfl
    · exact h.created hq' hmem'

/-- Others wait for others. -/
lemma lock (h : Unlinked T σ) (hne : T' ≠ T) {owners : List TranId} (hT : T ∉ owners) :
    Unlinked T (σ.assignWaitForGraph o T' owners) where
  source := List.eq_nil_iff_forall_not_mem.mpr fun T₁ hT₁ => by
    rcases mem_assignWaitForGraph.mp hT₁ with hmem | ⟨heq, -⟩
    · rw [h.source] at hmem
      cases hmem
    · exact hne heq.symm
  target T₁ hT₁ := by
    rcases mem_assignWaitForGraph.mp hT₁ with hmem | ⟨-, hmem⟩
    · exact h.target T₁ hmem
    · exact hT hmem
  created := h.created

end Unlinked

/-- The transaction only reads: it has no locks, no pending writes and no edges in the wait-for
graph, and is begun as a read-only one. -/
structure ReadsOnly (T : TranId) (σ : State) : Prop extends Unlinked T σ where
  named : σ.Named
  record : ∀ {t}, σ.transactions.lookup T = some t → t.isReadOnly = true ∧ t.writeRecords = ∅
  unlocked : ∀ s v, ¬σ.Owns T s v

/-- The request is no write of `T`, or one that finds all sites with copies of its variable down. -/
def WritesNothing (T : TranId) (r : Request) (σ : State) : Prop :=
  ∀ ts v x, r = .write ts T v x → ∀ s ∈ copySites v, σ.isWriteAvailable s = false

/-- The request does not begin `T` as a read-write transaction. -/
def BeginsReadOnly (T : TranId) (r : Request) : Prop := ∀ ts b, r = .create ts T b → b = true

namespace ReadsOnly

/-- A request spares `T`, unless it is a write of `T`. -/
lemma spares (h : ReadsOnly T σ) (hw : WritesNothing T r σ) (hb : r.isBegin = false)
    (hout : Outcome o σ r es σ') : Spares T σ σ' := by
  have hread : ∀ {T' t}, σ.transactions.lookup T' = some t → t.isReadOnly = false → T' ≠ T := by
    rintro T' t ht hro rfl
    rw [(h.record ht).1] at hro
    cases hro
  have howner : ∀ {T' s v}, (σ.getVariable s v).hasExclusiveLock T' = true → T' ≠ T := by
    rintro T' s v hx rfl
    exact h.unlocked s v (Or.inl (by simpa [Variable.hasExclusiveLock] using hx))
  cases hout with
  | dumped => exact .emit _ _
  | created => cases hb
  | failed hx =>
      exact execFail_induction hx
        (.of_eq rfl fun s' v =>
          getVariable_modifySite (f := Site.setUnavailable) (fun _ => rfl) s' v)
        (fun hσ hab => hσ.trans (.abortTransaction hab)) fun hσ => hσ.trans (.emit _ _)
  | @recovered ts s =>
      have hrec := recovered_execRecover σ o s
      exact .of_eq hrec.transactions hrec.variable_eq
  | unavailable | missingUnavailable | missingNothing => exact .emit _ _
  | waitsForLock => exact .of_eq rfl fun _ _ => rfl
  | waitsForSite _ _ hx | missingWaits _ _ _ hx =>
      rcases waitForSite_cases hx with ⟨-, rfl⟩ | ⟨-, σ₁, h1, rfl⟩
      · exact .of_eq rfl fun _ _ => rfl
      · exact (Spares.modifyTransaction h1 (fun _ => rfl) fun _ _ => ⟨rfl, rfl⟩).trans
          (.of_eq rfl fun _ _ => rfl)
  | @writeLocks ts T' v x σ₁ σ₂ hg h1 h2 =>
      have hT : T' ≠ T ∨ (σ.tryAcquireWriteLock T' v).siteIdSet = [] := by
        refine or_iff_not_imp_left.mpr fun hT => List.eq_nil_iff_forall_not_mem.mpr fun s hs => ?_
        obtain ⟨hs, hup⟩ := (mem_siteIdSet hg).mp hs
        rw [hw ts v x (by rw [not_not.mp hT]) s hs] at hup
        cases hup
      have hs₁ := Spares.updateValuesAt (T := T) hT h1
      exact (hs₁.trans (.assignWriteLock (hs₁.named h.named) hT h2)).trans (.emit _ _)
  | rewritesOdd _ hx h1 =>
      exact (Spares.modifyTransaction h1 (fun _ => rfl) fun hT => absurd hT (howner hx)).trans
        (.emit _ _)
  | rewritesEven => exact .emit _ _
  | readsVersion _ _ _ _ _ h1 =>
      exact (Spares.modifyTransaction h1 (fun _ => rfl) fun _ _ => ⟨rfl, rfl⟩).trans (.emit _ _)
  | readAborts _ _ _ _ hx | missingAborts _ _ _ hx => exact .abortTransaction hx
  | sharesOdd ht hro _ _ _ h1 h2 =>
      have hs := Spares.assignShareLock h.named (hread ht hro) h1
      exact ((hs.trans (Spares.modifyTransaction h2 (fun _ => rfl) fun _ _ => ⟨rfl, rfl⟩)).trans
        (.emit _ _)).trans (.emit _ _)
  | @sharesEven ts T' v t σ₁ ht hro _ _ h1 =>
      have hfirst : Spares T σ (σ.readFirst T' v
          (o.visit (σ.tryAcquireWriteLock T' v).siteIdSet)) := by
        rcases readFirst_cases σ T' v (o.visit (σ.tryAcquireWriteLock T' v).siteIdSet) with heq |
          ⟨s, -, heq⟩
        · rw [heq]
          exact .refl T σ
        · rw [heq]
          exact .emit _ _
      exact (hfirst.trans (.assignShareLock (hfirst.named h.named) (hread ht hro) h1)).trans
        (.emit _ _)
  | @commits ts T' t σ₁ _ _ hx =>
      exact (((Spares.of_sameLocks (sameLocks_installAll σ T' ts t)).trans
        (.releaseLocks _ o T')).trans (.evictTransaction hx)).trans (.emit _ _)
  | commitFails _ _ hx => exact (Spares.abortTransaction hx).trans (.emit _ _)

/-- A step that spares the transaction and adds no edge for it. -/
lemma spared (h : ReadsOnly T σ) (hs : Spares T σ σ') (hu : Unlinked T σ') : ReadsOnly T σ' where
  toUnlinked := hu
  named := hs.named h.named
  record ht' := by
    obtain ⟨t, ht, -, hrec⟩ := hs.transaction ht'
    obtain ⟨hro, hwr⟩ := hrec rfl
    rw [hro, hwr]
    exact h.record ht
  unlocked s v ho := h.unlocked s v (hs.owns ho)

lemma abortTransaction (h : ReadsOnly T σ) (ha : σ.abortTransaction o T' = .ok σ') :
    ReadsOnly T σ' :=
  h.spared (.abortTransaction ha) (h.toUnlinked.left (left_abortTransaction ha))

lemma execCreate (h : ReadsOnly T σ) {ts : Timestamp} {b : Bool} (hb : T' = T → b = true) :
    ReadsOnly T (σ.execCreate ts T' b) where
  named {T₁ t₁} h₁ := by
    rw [State.execCreate, transactions_emit, addTransaction, Dict.lookup_insert] at h₁
    split_ifs at h₁ with heq
    · cases h₁
      exact heq.symm
    · exact h.named h₁
  record {t₁} h₁ := by
    rw [State.execCreate, transactions_emit, addTransaction, Dict.lookup_insert] at h₁
    split_ifs at h₁ with heq
    · cases h₁
      exact ⟨hb heq.symm, rfl⟩
    · exact h.record h₁
  unlocked := h.unlocked
  toUnlinked := h.toUnlinked.congr (fun _ => rfl) rfl

/-- **A request and a transaction that only reads.** -/
theorem exec (h : ReadsOnly T σ) (hw : WritesNothing T r σ) (hb : BeginsReadOnly T r)
    (hout : Outcome o σ r es σ') : ReadsOnly T σ' := by
  cases hbegin : r.isBegin with
  | true =>
      cases r with
      | create ts T' b =>
          cases hout with
          | created => exact h.execCreate fun hT => hb ts b (hT ▸ rfl)
          | unavailable ha => cases ha
          | waitsForLock ha => cases ha
      | _ => cases hbegin
  | false =>
      refine h.spared (h.spares hw hbegin hout) (hout.index_induction h.toUnlinked
        (fun hs h₁ => h₁.congr hs.waitsFor hs.queue) (fun _ hl h₁ => h₁.left hl)
        (fun ts T b hr => ?_) (fun T' v s ha hs hup hro _ => ?_)
        (fun _ _ _ _ _ _ _ => h.toUnlinked.congr (fun _ => rfl) rfl)
        (fun _ _ _ _ _ _ _ _ _ => h.toUnlinked.congr (fun _ => rfl) rfl)
        (fun {σ₁} hrw h₁ => h₁.enqueue fun ts b hr => ?_)
        fun ts s _ hrec => h.toUnlinked.congr (fun T' => ?_) hrec.queue)
      · subst hr
        cases hbegin
      · -- a write of the transaction meets no copy, and its reads do not wait for locks
        have hne : T' ≠ T := by
          rintro rfl
          cases r with
          | write ts T₁ v₁ x =>
              cases ha
              rw [hw ts v x rfl s hs] at hup
              cases hup
          | read ts T₁ v₁ =>
              cases ha
              obtain ⟨t, ht, hro⟩ := hro ts rfl
              rw [(h.record ht).1] at hro
              cases hro
          | _ => cases ha
        refine h.toUnlinked.lock hne fun hT => h.unlocked s v ?_
        exact (mem_waitOwners hT).imp And.left id
      · subst hr
        cases hrw
      · rw [waitsFor, hrec.waitForGraph, waitsFor]

end ReadsOnly

end State

end RepCRec
