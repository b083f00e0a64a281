import RepCRec.Engine.Install

/-!
The reads and stores of a request, and what its execution does to the transactions: which entries of
the trace are reads (`Outcome.reads_mem`) or stores (`Outcome.installs_mem`), and what a transaction
records of them (`Outcome.transaction`). A transaction that is not read-only records its reads of
odd variables only.
-/

namespace RepCRec

open Container (IterOrder)

/-- What the entries `es` of the trace change in the transaction `t` of `T`, beside its writes. -/
structure Transaction.After (T : TranId) (es : List Event) (t t' : Transaction) : Prop where
  timestamp : t'.timestamp = t.timestamp
  isReadOnly : t'.isReadOnly = t.isReadOnly
  accessed : ∀ s v, t'.readAccessedSites.get? s v ≠ none ↔ t.readAccessedSites.get? s v ≠ none ∨
    ∃ x, .reads T s v x ∈ es ∧ (v.isOdd = true ∨ t.isReadOnly = true)

lemma Transaction.After.of_fixed {T : TranId} {es : List Event} {t t' : Transaction}
    (h : t'.fixed = t.fixed)
    (hes : ∀ s v x, .reads T s v x ∈ es → v.isOdd = false ∧ t.isReadOnly = false) :
    t.After T es t' := by
  obtain ⟨h1, h2, h3⟩ : t'.timestamp = t.timestamp ∧ t'.isReadOnly = t.isReadOnly ∧
      t'.readAccessedSites = t.readAccessedSites := by
    simpa [Transaction.fixed] using h
  refine ⟨h1, h2, fun s v => ?_⟩
  rw [h3]
  refine ⟨Or.inl, fun h => h.resolve_right ?_⟩
  rintro ⟨x, hx, hor⟩
  simp [hes s v x hx] at hor

namespace State

variable {o : IterOrder} {σ σ' : State} {r : Request} {es : List Event} {T : TranId} {v : VarId}
  {s : SiteId} {x : Value}

/-- Only a begin adds the entry for the begin of a transaction. -/
lemma Outcome.created_mem (h : Outcome o σ r es σ') {b : Bool} (hes : .created T b ∈ es) :
    ∃ ts, r = .create ts T b := by
  cases h with
  | @created ts => simp_all
  | sharesEven =>
      rcases List.mem_append.mp hes with h | h
      · generalize o.visit _ = l at h
        cases l <;> simp [firstRead] at h
      · simp at h
  | _ => simp [storeEvent] at hes

/-- Only ends commit. -/
lemma Outcome.committed_mem (h : Outcome o σ r es σ') (hes : .committed T ∈ es) :
    ∃ ts, r = .finish ts T := by
  cases h with
  | @commits ts T' t σ₁ ht hok h =>
      have hT : T = T' := by simpa [storeEvent] using hes
      exact ⟨ts, by rw [hT]⟩
  | sharesEven =>
      generalize o.visit _ = l at hes
      cases l <;> simp [firstRead] at hes
  | _ => simp at hes

/-- Only failures make sites fail. -/
lemma Outcome.failed_mem (h : Outcome o σ r es σ') (hes : .failed s ∈ es) :
    ∃ ts, r = .fail ts s := by
  cases h with
  | failed =>
      rw [List.mem_append, List.mem_singleton] at hes
      rcases hes with hes | hes
      · simp at hes
      · cases hes
        exact ⟨_, rfl⟩
  | sharesEven =>
      revert hes
      generalize o.visit _ = l
      cases l <;> simp [firstRead]
  | _ => simp [storeEvent] at hes

/-- Only reads take shared locks. -/
lemma Outcome.sharedLock_mem (h : Outcome o σ r es σ') {L : List SiteId}
    (hes : .sharedLock T v L ∈ es) : ∃ ts, r = .read ts T v := by
  cases h with
  | sharesOdd =>
      simp only [List.mem_cons, List.not_mem_nil, or_false, Event.sharedLock.injEq, reduceCtorEq]
        at hes
      exact ⟨_, by rw [hes.1, hes.2.1]⟩
  | sharesEven =>
      rw [List.mem_append, List.mem_singleton] at hes
      rcases hes with hes | hes
      · revert hes
        generalize o.visit _ = l
        cases l <;> simp [firstRead]
      · cases hes
        exact ⟨_, rfl⟩
  | _ => simp [storeEvent] at hes

/-- Only writes take exclusive locks. -/
lemma Outcome.writeLock_mem (h : Outcome o σ r es σ') {L : List SiteId}
    (hes : .writeLock T v L x ∈ es) : ∃ ts, r = .write ts T v x := by
  cases h with
  | writeLocks =>
      cases List.mem_singleton.mp hes
      exact ⟨_, rfl⟩
  | sharesEven =>
      revert hes
      generalize o.visit _ = l
      cases l <;> simp [firstRead]
  | _ => simp [storeEvent] at hes

/-- The transactions that a failure of the site aborts. -/
lemma mem_writersAt :
    T ∈ σ.writersAt o s ↔ ∃ t, σ.transactions.lookup T = some t ∧ s ∈ t.writeAccessedSites := by
  rw [writersAt, List.mem_map]
  constructor
  · rintro ⟨e, he, rfl⟩
    obtain ⟨he, hs⟩ := List.mem_filter.mp he
    exact ⟨e.2, AList.mem_lookup_iff.mpr ((o.mem_visit).mp he), of_decide_eq_true hs⟩
  · rintro ⟨t, ht, hs⟩
    exact ⟨⟨T, t⟩, List.mem_filter.mpr ⟨(o.mem_visit).mpr (AList.mem_lookup_iff.mp ht),
      decide_eq_true hs⟩, rfl⟩

/-- The execution of the request aborts `T` in this state. -/
def Aborts (σ : State) (T : TranId) : Request → Prop
  | .fail _ s => ∃ t, σ.transactions.lookup T = some t ∧ s ∈ t.writeAccessedSites
  | .finish _ T' => T' = T ∧ ∃ t, σ.transactions.lookup T = some t ∧ ¬σ.CommitOk t
  | .read _ T' v => T' = T ∧ v.isOdd = false ∧ (∀ s, σ.isReadAvailable s v = false) ∧
      ∃ t, σ.transactions.lookup T = some t ∧ t.isReadOnly = true
  | .missing _ (.read T' v) => T' = T ∧ v.isOdd = false ∧
      ∃ t, σ.transactions.lookup T = some t ∧ t.isReadOnly = true
  | _ => False

/-- **The aborts of a request.** -/
theorem Outcome.aborted_iff (h : Outcome o σ r es σ') : .aborted T ∈ es ↔ σ.Aborts T r := by
  cases h with
  | @failed ts s =>
      refine Iff.trans ?_ (mem_writersAt (o := o))
      simp
  | unavailable ha hv =>
      refine iff_of_false (by simp) fun hab => ?_
      cases r with
      | read ts T' w =>
          cases ha
          obtain ⟨-, hv', -⟩ := hab
          rw [hv] at hv'
          cases hv'
      | write => exact hab
      | _ => cases ha
  | waitsForLock ha _ _ _ _ hr =>
      refine iff_of_false (by simp) fun hab => ?_
      cases r with
      | read ts T' w =>
          cases ha
          obtain ⟨rfl, -, -, t, ht, hro⟩ := hab
          obtain ⟨t', ht', hro'⟩ := hr ts rfl
          rw [ht] at ht'
          cases ht'
          rw [hro] at hro'
          cases hro'
      | write => exact hab
      | _ => cases ha
  | waitsForSite hv =>
      refine iff_of_false (by simp) ?_
      rintro ⟨-, hv', -⟩
      rw [hv] at hv'
      cases hv'
  | readsVersion _ _ _ hs =>
      refine iff_of_false (by simp) ?_
      rintro ⟨-, -, hno, -⟩
      rw [hno] at hs
      cases hs
  | @readAborts ts T' v t _ ht hro hv hno =>
      constructor
      · intro hes
        obtain rfl : T = T' := by simpa using hes
        exact ⟨rfl, hv, hno, t, ht, hro⟩
      · rintro ⟨rfl, -⟩
        simp
  | sharesOdd _ _ hv =>
      refine iff_of_false (by simp) ?_
      rintro ⟨-, hv', -⟩
      rw [hv] at hv'
      cases hv'
  | sharesEven ht hro =>
      refine iff_of_false ?_ ?_
      · generalize o.visit _ = l
        cases l <;> simp [firstRead]
      · rintro ⟨rfl, -, -, t, ht', hro'⟩
        rw [ht] at ht'
        cases ht'
        rw [hro] at hro'
        cases hro'
  | commits ht hok =>
      refine iff_of_false (by simp [storeEvent]) ?_
      rintro ⟨rfl, t, ht', hno⟩
      rw [ht] at ht'
      cases ht'
      exact hno hok
  | @commitFails ts T' t _ ht hno =>
      constructor
      · intro hes
        obtain rfl : T = T' := by simpa using hes
        exact ⟨rfl, t, ht, hno⟩
      · rintro ⟨rfl, -⟩
        simp
  | @missingNothing ts m _ hr =>
      refine iff_of_false (by simp) fun hab => ?_
      cases m with
      | read T' v =>
          obtain ⟨rfl, -, t, ht, hro⟩ := hab
          obtain ⟨-, t', ht', hro'⟩ := hr T' v rfl
          rw [ht] at ht'
          cases ht'
          rw [hro] at hro'
          cases hro'
      | _ => exact hab
  | missingWaits hv =>
      refine iff_of_false (by simp) ?_
      rintro ⟨-, hv', -⟩
      rw [hv] at hv'
      cases hv'
  | @missingAborts ts T' v t _ ht hro hv =>
      constructor
      · intro hes
        obtain rfl : T = T' := by simpa using hes
        exact ⟨rfl, hv, t, ht, hro⟩
      · rintro ⟨rfl, -⟩
        simp
  | _ => exact iff_of_false (by simp) id

/-- What aborts a transaction: a failure, its own end, or a read without a copy. -/
lemma Outcome.aborted_mem (h : Outcome o σ r es σ') (hes : .aborted T ∈ es) :
    (∃ ts s, r = .fail ts s) ∨ (∃ ts, r = .finish ts T) ∨
      (∃ ts v t, r = .read ts T v ∧ σ.transactions.lookup T = some t ∧ t.isReadOnly = true ∧
        v.isOdd = false) ∨
      ∃ ts v t, r = .missing ts (.read T v) ∧ σ.transactions.lookup T = some t ∧
        t.isReadOnly = true := by
  have hab := h.aborted_iff.mp hes
  cases r with
  | fail ts s => exact Or.inl ⟨ts, s, rfl⟩
  | finish ts T' =>
      obtain ⟨rfl, -⟩ := hab
      exact Or.inr (Or.inl ⟨ts, rfl⟩)
  | read ts T' v =>
      obtain ⟨rfl, hv, -, t, ht, hro⟩ := hab
      exact Or.inr (Or.inr (Or.inl ⟨ts, v, t, rfl, ht, hro, hv⟩))
  | missing ts m =>
      cases m with
      | read T' v =>
          obtain ⟨rfl, -, t, ht, hro⟩ := hab
          exact Or.inr (Or.inr (Or.inr ⟨ts, v, t, rfl, ht, hro⟩))
      | _ => cases hab
  | _ => cases hab

/-- A begin has one entry in the log. -/
lemma Outcome.create_eq {ts : Timestamp} {b : Bool} (h : Outcome o σ (.create ts T b) es σ') :
    es = [.created T b] := by
  cases h with
  | created => rfl
  | unavailable ha => cases ha
  | waitsForLock ha => cases ha

lemma mem_firstRead {l : List SiteId} (h : Event.reads T s v x ∈ σ.firstRead T v l) :
    s ∈ l ∧ x = (σ.getVariable s v).value := by
  cases l with
  | nil => simp [firstRead] at h
  | cons s' l =>
      simp only [firstRead, List.mem_singleton, Event.reads.injEq, true_and] at h
      obtain ⟨rfl, rfl⟩ := h
      exact ⟨List.mem_cons_self, rfl⟩

/-- A read takes the version of a readable copy, when the transaction is read-only, or else the
value of a copy that it shares a lock on. -/
lemma Outcome.reads_mem (h : Outcome o σ r es σ') (hes : .reads T s v x ∈ es) :
    ∃ ts t, r = .read ts T v ∧ σ.transactions.lookup T = some t ∧
      ((t.isReadOnly = true ∧ s ∈ copySites v ∧ σ.isReadAvailable s v = true ∧
        (σ.getVariable s v).getValue t.timestamp = some x) ∨
      (t.isReadOnly = false ∧ (σ.tryAcquireWriteLock T v).status = .availableToAssign ∧
        s ∈ (σ.tryAcquireWriteLock T v).siteIdSet ∧ x = (σ.getVariable s v).value ∧
        (v.isOdd = true → σ.isReadAvailable s v = true))) := by
  cases h with
  | @readsVersion ts T' v' s' t x' σ₁ ht hro hs hr hx h =>
      simp only [List.mem_singleton, Event.reads.injEq] at hes
      obtain ⟨rfl, rfl, rfl, rfl⟩ := hes
      exact ⟨ts, t, rfl, ht, Or.inl ⟨hro, hs, hr, hx⟩⟩
  | @sharesOdd ts T' v' t σ₁ σ₂ ht hro hv hst hr h1 h2 =>
      simp only [List.mem_cons, Event.reads.injEq, reduceCtorEq, List.not_mem_nil, or_false,
        false_or] at hes
      obtain ⟨rfl, rfl, rfl, rfl⟩ := hes
      refine ⟨ts, t, rfl, ht, Or.inr ⟨hro, hst, ?_, rfl, fun _ => hr⟩⟩
      rw [siteIdSet_of_odd hv (Or.inr hst)]
      exact List.mem_singleton_self _
  | @sharesEven ts T' v' t σ₁ ht hro hv hst h1 =>
      have hT : T = T' ∧ v = v' := by
        generalize o.visit _ = l at hes
        cases l <;> simp_all [firstRead]
      obtain ⟨rfl, rfl⟩ := hT
      rcases List.mem_append.mp hes with hes | hes
      · obtain ⟨hs, rfl⟩ := mem_firstRead hes
        exact ⟨ts, t, rfl, ht, Or.inr ⟨hro, hst, (o.mem_visit).mp hs, rfl,
          fun hodd => by simp [hv] at hodd⟩⟩
      · simp at hes
  | _ => simp [storeEvent] at hes

/-- Only the end of a transaction stores values: those that it has recorded. -/
lemma Outcome.installs_mem {ts : Timestamp} (h : Outcome o σ r es σ')
    (hes : .installs T s v x ts ∈ es) :
    r = .finish ts T ∧ ∃ t, σ.transactions.lookup T = some t ∧ σ.CommitOk t ∧
      t.writeRecords.get? s v = some x := by
  cases h with
  | @commits ts' T' t σ₁ ht hok h =>
      have hmem : Event.installs T s v x ts ∈ (stores o t).map (storeEvent T' ts') := by
        simpa using hes
      obtain ⟨p, hp, heq⟩ := List.mem_map.mp hmem
      simp only [storeEvent, Event.installs.injEq] at heq
      obtain ⟨rfl, rfl, rfl, rfl, rfl⟩ := heq
      exact ⟨rfl, t, ht, hok, mem_stores.mp hp⟩
  | sharesEven =>
      generalize o.visit _ = l at hes
      cases l <;> simp [firstRead] at hes
  | _ => simp at hes

/-- A transaction whose accesses were not touched. -/
lemma exists_after {t' : Transaction}
    (h : (σ.transactions.lookup T).map Transaction.fixed = some t'.fixed)
    (hes : ∀ s v x, .reads T s v x ∈ es → v.isOdd = false ∧
      ∀ t, σ.transactions.lookup T = some t → t.isReadOnly = false) :
    ∃ t, σ.transactions.lookup T = some t ∧ t.After T es t' := by
  obtain ⟨t, ht, hfix⟩ := Option.map_eq_some_iff.mp h
  exact ⟨t, ht, .of_fixed hfix.symm fun s v x hx => ⟨(hes s v x hx).1, (hes s v x hx).2 t ht⟩⟩

lemma Quiet.fixed (h : Quiet σ σ') {t' : Transaction} (ht' : σ'.transactions.lookup T = some t') :
    (σ.transactions.lookup T).map Transaction.fixed = some t'.fixed := by
  rw [← h.transaction T, ht', Option.map_some]

lemma Gone.fixed {T' : TranId} (h : Gone T' σ σ') {t' : Transaction}
    (ht' : σ'.transactions.lookup T = some t') :
    (σ.transactions.lookup T).map Transaction.fixed = some t'.fixed := by
  have hg := h.transaction T
  rw [ht', Option.map_some] at hg
  split_ifs at hg
  exact hg.symm

lemma fixed_of_execFail (h : σ.execFail o s = .ok σ') {t' : Transaction}
    (ht' : σ'.transactions.lookup T = some t') :
    (σ.transactions.lookup T).map Transaction.fixed = some t'.fixed := by
  refine execFail_induction
    (P := fun τ => ∀ t', τ.transactions.lookup T = some t' →
      (σ.transactions.lookup T).map Transaction.fixed = some t'.fixed) h ?_ ?_ ?_ t' ht'
  · intro t ht
    rw [show σ.transactions.lookup T = some t from ht, Option.map_some]
  · intro T' σ₁ σ₂ hσ ha t ht
    obtain ⟨t₁, ht₁, heq⟩ := Option.map_eq_some_iff.mp ((gone_abortTransaction ha).1.fixed ht)
    rw [hσ t₁ ht₁, heq]
  · exact fun hσ => hσ

/-- A read is recorded. -/
lemma exists_after_read {t' : Transaction} {T' : TranId} {σ₁ : State} (hσ : Quiet σ σ₁)
    (h : (σ₁.modifyTransaction T' fun t => t.addReadHistory s v x) = .ok σ')
    (ht' : σ'.transactions.lookup T = some t')
    (hes : ∀ T'' s' w y, .reads T'' s' w y ∈ es ↔ T'' = T' ∧ s' = s ∧ w = v ∧ y = x)
    (hrec : ∀ t, σ.transactions.lookup T' = some t → v.isOdd = true ∨ t.isReadOnly = true) :
    ∃ t, σ.transactions.lookup T = some t ∧ t.After T es t' := by
  obtain ⟨t₁, ht₁, rfl⟩ := modifyTransaction_eq_ok.mp h
  rw [Dict.lookup_insert] at ht'
  split_ifs at ht' with hT
  · subst hT
    cases ht'
    obtain ⟨t, ht, hfix⟩ := Option.map_eq_some_iff.mp (hσ.fixed ht₁)
    obtain ⟨h1, h2, h3⟩ : t.timestamp = t₁.timestamp ∧ t.isReadOnly = t₁.isReadOnly ∧
        t.readAccessedSites = t₁.readAccessedSites := by
      simpa [Transaction.fixed] using hfix
    refine ⟨t, ht, h1.symm, h2.symm, fun s' w => ?_⟩
    simp only [Transaction.addReadHistory, AccessMap.get?_set, hes, true_and, h3]
    by_cases hsw : s' = s ∧ w = v
    · obtain ⟨rfl, rfl⟩ := hsw
      simp [hrec t ht]
    · simp only [← and_assoc, hsw, false_and, exists_false, or_false, if_false]
  · exact exists_after (hσ.fixed ht') fun s' w y hy => absurd ((hes T s' w y).mp hy).1 hT

/-- **The transactions after a request**: a live transaction was live before, and has recorded its
reads, or it has just been begun. -/
theorem Outcome.transaction (h : Outcome o σ r es σ') {t' : Transaction}
    (ht' : σ'.transactions.lookup T = some t') :
    (∃ t, σ.transactions.lookup T = some t ∧ t.After T es t') ∨
    ∃ ts b, r = .create ts T b ∧ t' = { transactionId := T, timestamp := ts, isReadOnly := b } := by
  have hq := Quiet.refl σ
  cases h with
  | dumped => exact Or.inl (exists_after (hq.fixed ht') (by simp))
  | @created ts T' b =>
      rw [execCreate, transactions_emit, addTransaction, Dict.lookup_insert] at ht'
      split_ifs at ht' with hT
      · cases ht'
        exact Or.inr ⟨ts, b, by rw [hT], by rw [hT]⟩
      · exact Or.inl (exists_after (hq.fixed ht') (by simp))
  | failed h => exact Or.inl (exists_after (fixed_of_execFail h ht') (by simp))
  | recovered =>
      rw [(recovered_execRecover σ o _).transactions] at ht'
      exact Or.inl (exists_after (hq.fixed ht') (by simp))
  | unavailable | missingUnavailable | missingNothing =>
      exact Or.inl (exists_after (hq.fixed ht') (by simp))
  | waitsForLock => exact Or.inl (exists_after (hq.fixed ht') (by simp))
  | waitsForSite _ _ h | missingWaits _ _ _ h =>
      rcases waitForSite_cases h with ⟨-, rfl⟩ | ⟨-, σ₁, h1, rfl⟩
      · exact Or.inl (exists_after (hq.fixed ht') (by simp))
      · have hq₁ : Quiet σ σ₁ := Quiet.modifyTransaction (fun _ => by rfl) h1
        exact Or.inl (exists_after (hq₁.fixed ht') (by simp))
  | writeLocks _ h1 h2 =>
      have hq₁ := (Quiet.updateValuesAt h1).trans (Quiet.assignWriteLock h2)
      exact Or.inl (exists_after (hq₁.fixed ht') (by simp))
  | rewritesOdd _ _ h1 _ =>
      have hq₁ := Quiet.modifyTransaction (f := fun t => t.updateValues _ _ _) (fun _ => rfl) h1
      exact Or.inl (exists_after (hq₁.fixed ht') (by simp))
  | rewritesEven => exact Or.inl (exists_after (hq.fixed ht') (by simp))
  | readsVersion ht hro _ _ _ h =>
      refine Or.inl (exists_after_read hq h ht' (by simp) fun t₁ ht₁ => Or.inr ?_)
      rw [ht] at ht₁
      cases ht₁
      exact hro
  | readAborts _ _ _ _ h | missingAborts _ _ _ h =>
      exact Or.inl (exists_after ((gone_abortTransaction h).1.fixed ht') (by simp))
  | sharesOdd _ _ hv _ _ h1 h2 =>
      exact Or.inl (exists_after_read (Quiet.assignShareLock h1) h2 ht' (by simp)
        fun _ _ => Or.inl hv)
  | @sharesEven ts T' v t σ₁ ht hro hv _ h1 =>
      have hq₁ := Quiet.assignShareLock h1
      generalize o.visit _ = l at hq₁ ⊢
      have hfix : (σ.transactions.lookup T).map Transaction.fixed = some t'.fixed := by
        rcases readFirst_cases σ T' v l with heq | ⟨s, -, heq⟩
        · exact (heq ▸ hq₁).fixed ht'
        · exact (heq ▸ hq₁).fixed ht'
      refine Or.inl (exists_after hfix fun s w x hx => ?_)
      have heq : T = T' ∧ w = v := by
        cases l <;> simp_all [firstRead]
      obtain ⟨rfl, rfl⟩ := heq
      refine ⟨hv, fun t₁ ht₁ => ?_⟩
      rw [ht] at ht₁
      cases ht₁
      exact hro
  | @commits ts T' t σ₁ ht hok h =>
      have hfix := (gone_releaseLocks h).1.fixed ht'
      rw [(sameLocks_installAll (o := o) σ T' ts t).transactions] at hfix
      exact Or.inl (exists_after hfix (by simp [storeEvent]))
  | commitFails _ _ h =>
      exact Or.inl (exists_after ((gone_abortTransaction h).1.fixed ht') (by simp))

end State

end RepCRec
