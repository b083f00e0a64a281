import RepCRec.Engine.Accesses
import RepCRec.Refinement.Simulation

/-!
The sites along the execution of requests. A request that is no failure and no recovery leaves the
sites as they are, but that a commit makes the copies readable that it stores (`Outcome.available`);
it stores copies at sites that are up alone, as long as every transaction has recorded the sites of
its writes (`Sited`). So a copy of an odd variable that is not readable stays so until its site
recovers (`Outcome.unreadable`).
-/

namespace RepCRec

open Container (IterOrder bind_eq_ok pure_eq_ok)

namespace State

variable {o : IterOrder} {σ σ' σ₁ : State} {r : Request} {es : List Event} {T : TranId} {v : VarId}
  {s : SiteId} {x : Value} {L : List SiteId}

/-! ### The transaction objects -/

/-- Every transaction has recorded the sites of its writes. -/
def Recorded (σ : State) : Prop := ∀ T t, σ.transactions.lookup T = some t → t.Recorded

lemma transactions_assignWriteLock (h : σ.assignWriteLock o T L v = .ok σ') :
    σ'.transactions = σ.transactions := by
  refine Container.foldlM_rel (R := fun σ σ' : State => σ'.transactions = σ.transactions)
    (fun _ => rfl) (fun h h' => h'.trans h) (fun s σ₁ σ₂ h => ?_) h
  split_ifs at h
  · rw [bind_eq_ok] at h
    obtain ⟨t, -, h⟩ := h
    cases h
    rfl
  · cases h
    rfl

lemma transactions_assignShareLock (h : σ.assignShareLock o T L v = .ok σ') :
    σ'.transactions = σ.transactions := by
  refine Container.foldlM_rel (R := fun σ σ' : State => σ'.transactions = σ.transactions)
    (fun _ => rfl) (fun h h' => h'.trans h) (fun s σ₁ σ₂ h => ?_) h
  split_ifs at h
  · rw [bind_eq_ok] at h
    obtain ⟨t, -, h⟩ := h
    cases h
    rfl
  · cases h
    rfl

/-- The release of locks changes no transaction. -/
lemma transactions_releaseLocks (σ : State) (o : IterOrder) (T : TranId) :
    (σ.releaseLocks o T).transactions = σ.transactions := by
  refine Container.foldl_rel (R := fun σ σ' : State => σ'.transactions = σ.transactions)
    (fun _ => rfl) (fun h h' => h'.trans h) (fun σ v => ?_) _ σ
  rw [releaseVariable]
  split_ifs
  · rfl
  · exact Container.foldl_rel (f := releaseCopy T v)
      (R := fun σ σ' : State => σ'.transactions = σ.transactions)
      (fun _ => rfl) (fun h h' => h'.trans h) (fun _ _ => rfl) _ σ

/-- An abort removes one transaction. -/
lemma transactions_abortTransaction (h : σ.abortTransaction o T = .ok σ') :
    σ'.transactions = σ.transactions.erase T := by
  rw [abortTransaction, bind_eq_ok] at h
  obtain ⟨σ₁, h1, h⟩ := h
  cases h
  rw [transactions_emit, transactions_releaseLocks]
  have h2 : σ₁.transactions = σ.transactions.erase T := transactions_evictTransaction h1
  exact h2

/-- `R` holds of every transaction object. -/
def TransactionsAll (R : TranId → Transaction → Prop) (σ : State) : Prop :=
  ∀ T t, σ.transactions.lookup T = some t → R T t

/-- The writes of `v` by `T` are recorded at `s`: a lock is granted there, or `T` has it already. -/
def RecordsWriteAt (σ : State) (T : TranId) (v : VarId) (s : SiteId) : Prop :=
  (LockGranted (σ.tryAcquireWriteLock T v) ∧ s ∈ (σ.tryAcquireWriteLock T v).siteIdSet) ∨
    (v.isOdd = true ∧ s = v.home ∧ (σ.getVariable s v).hasExclusiveLock T = true)

namespace TransactionsAll

variable {R : TranId → Transaction → Prop}

lemma congr (h : σ.TransactionsAll R) (ht : σ'.transactions = σ.transactions) :
    σ'.TransactionsAll R := fun T t hl => h T t (ht ▸ hl)

lemma erase (h : σ.TransactionsAll R) (ht : σ'.transactions = σ.transactions.erase T) :
    σ'.TransactionsAll R := by
  intro T' t hl
  rw [ht, Dict.lookup_erase] at hl
  split_ifs at hl
  exact h T' t hl

lemma insert {t : Transaction} (h : σ.TransactionsAll R) (ht : R T t)
    (hT : σ'.transactions = σ.transactions.insert T t) : σ'.TransactionsAll R := by
  intro T' t' hl
  rw [hT, Dict.lookup_insert] at hl
  split_ifs at hl with heq
  · cases hl
    rw [heq]
    exact ht
  · exact h T' t' hl

/-- The change of a transaction keeps the property, if it does for that transaction. -/
lemma modifyTransaction (h : σ.TransactionsAll R) {f : Transaction → Transaction}
    (hf : ∀ t : Transaction, R T t → R T (f t)) (hx : σ.modifyTransaction T f = .ok σ') :
    σ'.TransactionsAll R := by
  obtain ⟨t, ht, rfl⟩ := modifyTransaction_eq_ok.mp hx
  exact h.insert (hf t (h T t ht)) rfl

/-- An execution keeps what holds of transactions without writes, depends on the recorded writes
alone, and is kept when a write is recorded. -/
theorem exec (h : σ.TransactionsAll R) (hout : Outcome o σ r es σ')
    (hempty : ∀ T t, t.writeRecords = ∅ → t.writeAccessedSites = ∅ → R T t)
    (hsame : ∀ {T t t'}, R T t → t'.writeRecords = t.writeRecords →
      t'.writeAccessedSites = t.writeAccessedSites → R T t')
    (hwrite : ∀ {ts T v x s t}, r = .write ts T v x → σ.RecordsWriteAt T v s → R T t →
      R T (t.updateValues s v x)) : σ'.TransactionsAll R := by
  have hread : ∀ {σ₁ σ₂ : State} {T s v x}, σ₁.TransactionsAll R →
      (σ₁.modifyTransaction T fun t => t.addReadHistory s v x) = .ok σ₂ → σ₂.TransactionsAll R :=
    fun {σ₁ σ₂ T s v x} h₁ hx => h₁.modifyTransaction (f := fun t => t.addReadHistory s v x)
      (fun _ ht => hsame ht rfl rfl) hx
  cases hout with
  | created => exact h.insert (hempty _ _ rfl rfl) rfl
  | failed hx =>
      exact execFail_induction hx (h.congr rfl)
        (fun hσ ha => hσ.erase (transactions_abortTransaction ha)) fun hσ => hσ.congr rfl
  | recovered => exact h.congr (recovered_execRecover σ o _).transactions
  | waitsForSite _ _ hx | missingWaits _ _ _ hx =>
      rcases waitForSite_cases hx with ⟨-, rfl⟩ | ⟨-, σ₁, h1, rfl⟩
      · exact h.congr rfl
      · obtain ⟨t, ht, rfl⟩ := modifyTransaction_eq_ok.mp h1
        refine h.insert ?_ rfl
        exact hsame (h _ t ht) rfl rfl
  | @writeLocks ts T v x σ₁ σ₂ hg h1 h2 =>
      have h3 : σ₂.transactions = σ₁.transactions := transactions_assignWriteLock h2
      refine TransactionsAll.congr (σ := σ₁) ?_ h3
      exact Container.foldlM_induction (P := TransactionsAll R) (fun s hs _ _ h hx =>
        h.modifyTransaction (fun _ ht => hwrite rfl (Or.inl ⟨hg, (o.mem_visit).mp hs⟩) ht) hx) h h1
  | rewritesOdd hv hx h1 =>
      exact (h.modifyTransaction (fun _ ht => hwrite rfl (Or.inr ⟨hv, rfl, hx⟩) ht) h1).congr rfl
  | readsVersion _ _ _ _ _ h1 => exact (hread h h1).congr rfl
  | readAborts _ _ _ _ ha | missingAborts _ _ _ ha =>
      exact h.erase (transactions_abortTransaction ha)
  | sharesOdd _ _ _ _ _ h1 h2 =>
      exact (hread (h.congr (transactions_assignShareLock h1)) h2).congr rfl
  | @sharesEven ts T v t _ _ _ _ _ h1 =>
      refine (h.congr ?_).congr ((transactions_emit _ _).trans (transactions_assignShareLock h1))
      rcases readFirst_cases σ T v (o.visit (σ.tryAcquireWriteLock T v).siteIdSet) with
        heq | ⟨s, -, heq⟩
      · rw [heq]
      · rw [heq]
        rfl
  | @commits ts T t _ _ _ h1 =>
      refine h.erase (T := T) ?_
      rw [transactions_emit, transactions_evictTransaction h1, transactions_releaseLocks,
        (sameLocks_installAll σ T ts t).transactions]
  | @commitFails ts T t σ₁ _ _ ha =>
      have h1 : σ₁.transactions = σ.transactions.erase T := transactions_abortTransaction ha
      exact h.erase h1
  | _ => exact h.congr rfl

end TransactionsAll

lemma recorded_iff : σ.Recorded ↔ σ.TransactionsAll fun _ t => t.Recorded := Iff.rfl

/-- **Requests** keep the records of the transactions consistent. -/
theorem Recorded.exec (h : σ.Recorded) (hout : Outcome o σ r es σ') : σ'.Recorded := by
  rw [recorded_iff] at h ⊢
  refine h.exec hout (fun _ _ => Transaction.recorded_empty) (fun ht h1 h2 => ⟨?_, ?_⟩)
    fun _ _ ht => ht.updateValues _ _ _
  · rw [h1, h2]
    exact ht.same
  · rw [h1]
    exact ht.proper

/-! ### Failures and recoveries -/

/-- The availability of the other sites is kept. -/
lemma isWriteAvailable_modifySite_of_ne {s' : SiteId} (hs : s' ≠ s) (f : Site → Site) :
    (σ.modifySite s f).isWriteAvailable s' = σ.isWriteAvailable s' := by
  rw [isWriteAvailable, sites_modifySite, if_neg hs, isWriteAvailable]

/-- The availability of the copies at other sites is kept. -/
lemma isReadAvailable_modifySite_of_ne {s' : SiteId} (hs : s' ≠ s) (f : Site → Site) :
    (σ.modifySite s f).isReadAvailable s' v = σ.isReadAvailable s' v := by
  rw [isReadAvailable, sites_modifySite, if_neg hs, isReadAvailable]

/-- The failure of a site leaves the others as they are. -/
lemma available_of_failed (h : σ.execFail o s = .ok σ') (s' : SiteId) :
    σ'.isWriteAvailable s' = (if s' = s then false else σ.isWriteAvailable s') ∧
    ∀ v, σ'.isReadAvailable s' v = if s' = s then false else σ.isReadAvailable s' v := by
  refine execFail_induction (P := fun σ' => σ'.isWriteAvailable s' = (if s' = s then false else
    σ.isWriteAvailable s') ∧ ∀ v, σ'.isReadAvailable s' v = if s' = s then false else
    σ.isReadAvailable s' v) h ?_ (fun hσ ha => ?_) fun hσ => hσ
  · by_cases hs : s' = s
    · subst hs
      simp [isWriteAvailable, isReadAvailable, sites_modifySite, Site.setUnavailable]
    · rw [isWriteAvailable_modifySite_of_ne hs, if_neg hs]
      refine ⟨rfl, fun v => ?_⟩
      rw [isReadAvailable_modifySite_of_ne hs, if_neg hs]
  · obtain ⟨hg, -⟩ := gone_abortTransaction ha
    exact ⟨(hg.up s').trans hσ.1, fun v => (hg.readable s' v).trans (hσ.2 v)⟩

lemma sites_foldl_setReadAvailable (s : SiteId) (l : List VarId) (σ : State) (s' : SiteId) :
    (l.foldl (fun σ v => σ.modifySite s fun st => st.setReadAvailable v) σ).isWriteAvailable s' =
      σ.isWriteAvailable s' ∧
    ∀ v, (l.foldl (fun σ v => σ.modifySite s fun st => st.setReadAvailable v) σ).isReadAvailable
      s' v = true ↔ σ.isReadAvailable s' v = true ∨ (s' = s ∧ v ∈ l) := by
  induction l generalizing σ with
  | nil => simp
  | cons w l ih =>
      rw [List.foldl_cons]
      obtain ⟨ih1, ih2⟩ := ih (σ.modifySite s fun st => st.setReadAvailable w)
      refine ⟨ih1.trans ?_, fun v => (ih2 v).trans ?_⟩
      · by_cases hs : s' = s
        · subst hs
          simp [isWriteAvailable, sites_modifySite, Site.setReadAvailable]
        · exact isWriteAvailable_modifySite_of_ne hs _
      · by_cases hs : s' = s
        · subst hs
          by_cases hv : v = w
          · subst hv
            simp [isReadAvailable, sites_modifySite, Site.setReadAvailable]
          · simp [isReadAvailable, sites_modifySite, Site.setReadAvailable, hv]
        · rw [isReadAvailable_modifySite_of_ne hs]
          simp [hs]

/-- The recovery of a site leaves the others as they are, and makes its odd variables readable. -/
lemma available_of_recovered (σ : State) (o : IterOrder) (s s' : SiteId) :
    (σ.execRecover o s).isWriteAvailable s' =
      (if s' = s then true else σ.isWriteAvailable s') ∧
    ∀ v, (σ.execRecover o s).isReadAvailable s' v = true ↔
      σ.isReadAvailable s' v = true ∨ (s' = s ∧ v ∈ uniqueVars s) := by
  obtain ⟨hw, hr⟩ := sites_foldl_setReadAvailable s (uniqueVars s)
    (σ.modifySite s Site.setWriteAvailable) s'
  by_cases hs : s' = s
  · subst hs
    refine ⟨hw.trans ?_, fun v => (hr v).trans (or_congr_left ?_)⟩
    · simp [isWriteAvailable, sites_modifySite, Site.setWriteAvailable]
    · simp [isReadAvailable, sites_modifySite, Site.setWriteAvailable]
  · rw [if_neg hs]
    refine ⟨hw.trans (isWriteAvailable_modifySite_of_ne hs _),
      fun v => (hr v).trans (or_congr_left ?_)⟩
    rw [isReadAvailable_modifySite_of_ne hs]

/-- **The sites after a request** that is no failure and no recovery. -/
theorem Outcome.available (h : Outcome o σ r es σ') (hf : ∀ ts s, r ≠ .fail ts s)
    (hrec : ∀ ts s, r ≠ .recover ts s) (s : SiteId) :
    σ'.isWriteAvailable s = σ.isWriteAvailable s ∧
    ∀ v, σ'.isReadAvailable s v = true ↔
      σ.isReadAvailable s v = true ∨ ∃ T x ts, .installs T s v x ts ∈ es := by
  have hsame : ∀ {σ₁ : State}, Quiet σ σ₁ → σ'.isWriteAvailable s = σ₁.isWriteAvailable s →
      (∀ v, σ'.isReadAvailable s v = σ₁.isReadAvailable s v) →
      (∀ T x ts v, Event.installs T s v x ts ∉ es) →
      σ'.isWriteAvailable s = σ.isWriteAvailable s ∧ ∀ v, σ'.isReadAvailable s v = true ↔
        σ.isReadAvailable s v = true ∨ ∃ T x ts, .installs T s v x ts ∈ es :=
    fun hq hup hre hno => ⟨hup.trans (hq.up s), fun v => by simp [hre, hq.readable, hno]⟩
  cases h with
  | failed => exact absurd rfl (hf _ _)
  | recovered => exact absurd rfl (hrec _ _)
  | waitsForSite _ _ hx | missingWaits _ _ _ hx =>
      rcases waitForSite_cases hx with ⟨-, rfl⟩ | ⟨-, σ₁, h1, rfl⟩
      · exact hsame (.refl σ) rfl (fun _ => rfl) (by simp)
      · obtain ⟨t, -, rfl⟩ := modifyTransaction_eq_ok.mp h1
        exact hsame (.refl σ) rfl (fun _ => rfl) (by simp)
  | writeLocks _ h1 h2 =>
      exact hsame ((Quiet.updateValuesAt h1).trans (.assignWriteLock h2)) rfl (fun _ => rfl)
        (by simp)
  | rewritesOdd _ _ h1 =>
      obtain ⟨t, -, rfl⟩ := modifyTransaction_eq_ok.mp h1
      exact hsame (.refl σ) rfl (fun _ => rfl) (by simp)
  | readsVersion _ _ _ _ _ h1 =>
      obtain ⟨t, -, rfl⟩ := modifyTransaction_eq_ok.mp h1
      exact hsame (.refl σ) rfl (fun _ => rfl) (by simp)
  | readAborts _ _ _ _ ha | missingAborts _ _ _ ha =>
      obtain ⟨hg, -⟩ := gone_abortTransaction ha
      exact ⟨hg.up s, fun v => by simp [hg.readable]⟩
  | sharesOdd _ _ _ _ _ h1 h2 =>
      obtain ⟨t, -, rfl⟩ := modifyTransaction_eq_ok.mp h2
      exact hsame (.assignShareLock h1) rfl (fun _ => rfl) (by simp)
  | @sharesEven ts T v t _ _ _ _ _ h1 =>
      have hno : ∀ T' x ts' w, Event.installs T' s w x ts' ∉
          σ.firstRead T v (o.visit (σ.tryAcquireWriteLock T v).siteIdSet) ++ [.sharedLock T v
            ((σ.tryAcquireWriteLock T v).siteIdSet.filter fun s => σ.isReadAvailable s v)] := by
        intro T' x ts' w
        generalize o.visit _ = l
        cases l <;> simp [firstRead]
      rcases readFirst_cases σ T v (o.visit (σ.tryAcquireWriteLock T v).siteIdSet) with
        heq | ⟨s', -, heq⟩
      · rw [heq] at h1
        exact hsame (.assignShareLock h1) rfl (fun _ => rfl) hno
      · rw [heq] at h1
        have hq := Quiet.assignShareLock h1
        exact ⟨hq.up s, fun v' => by simp [hq.readable, hno]⟩
  | @commits ts T t _ _ _ h1 =>
      have hg := (gone_releaseLocks h1).1
      refine ⟨(hg.up s).trans ((sameLocks_installAll σ T ts t).up s), fun v => ?_⟩
      rw [isReadAvailable_emit, hg.readable, installAll_eq, isReadAvailable_foldl_installCopy]
      refine or_congr_right ?_
      simp [storeEvent]
  | commitFails _ _ ha =>
      obtain ⟨hg, -⟩ := gone_abortTransaction ha
      exact ⟨hg.up s, fun v => by simp [hg.readable]⟩
  | _ => exact hsame (.refl σ) rfl (fun _ => rfl) (by simp)

/-! ### Odd variables -/

/-- The sites of the writes are recorded, and the odd variables are readable at sites that are
up. -/
structure Sited (σ : State) : Prop where
  recorded : σ.Recorded
  odd : ∀ v : VarId, v.isOdd = true → σ.isWriteAvailable v.home = true →
    σ.isReadAvailable v.home v = true

namespace Sited

lemma congr (h : Sited σ) (ht : σ'.transactions = σ.transactions) (hs : σ'.sites = σ.sites) :
    Sited σ' :=
  ⟨recorded_iff.mpr ((recorded_iff.mp h.recorded).congr ht), fun v hv hup => by
    rw [isWriteAvailable, hs] at hup
    rw [isReadAvailable, hs]
    exact h.odd v hv hup⟩

/-- An abort changes no site but in its locks. -/
lemma abortTransaction (h : Sited σ) (ha : σ.abortTransaction o T = .ok σ') : Sited σ' := by
  obtain ⟨hg, -⟩ := gone_abortTransaction ha
  have hrec := (recorded_iff.mp h.recorded).erase (transactions_abortTransaction ha)
  refine ⟨recorded_iff.mpr hrec, fun v hv hup => ?_⟩
  rw [hg.up] at hup
  rw [hg.readable]
  exact h.odd v hv hup

/-- A copy that is stored is at a site that is up. -/
lemma up_of_installs {ts : Timestamp} (h : Sited σ) (hout : Outcome o σ r es σ')
    (hi : .installs T s v x ts ∈ es) : σ.isWriteAvailable s = true := by
  obtain ⟨-, t, ht, hok, hx⟩ := hout.installs_mem hi
  refine hok.1 s ?_
  rw [(h.recorded T t ht).same]
  obtain ⟨vars, hvars, -⟩ := AccessMap.get?_eq_some.mp hx
  exact List.mem_map_of_mem (f := Sigma.fst) hvars

theorem exec (h : Sited σ) (hout : Outcome o σ r es σ') : Sited σ' := by
  refine ⟨h.recorded.exec hout, fun v hv hup => ?_⟩
  by_cases hf : ∃ ts s, r = .fail ts s
  · obtain ⟨ts, s, rfl⟩ := hf
    cases hout with
    | failed hx =>
        obtain ⟨h1, h2⟩ := available_of_failed hx v.home
        rw [h1] at hup
        rw [h2]
        split_ifs at hup ⊢
        exact h.odd v hv hup
    | unavailable ha => cases ha
    | waitsForLock ha => cases ha
  · by_cases hrec : ∃ ts s, r = .recover ts s
    · obtain ⟨ts, s, rfl⟩ := hrec
      cases hout with
      | recovered =>
          obtain ⟨h1, h2⟩ := available_of_recovered σ o s v.home
          refine (h2 v).mpr ?_
          by_cases hs : v.home = s
          · exact Or.inr ⟨hs, mem_uniqueVars.mpr (copies_eq_singleton.mpr ⟨hv, hs⟩)⟩
          · rw [h1, if_neg hs] at hup
            exact Or.inl (h.odd v hv hup)
      | unavailable ha => cases ha
      | waitsForLock ha => cases ha
    · obtain ⟨h1, h2⟩ := hout.available (fun ts s heq => hf ⟨ts, s, heq⟩)
        (fun ts s heq => hrec ⟨ts, s, heq⟩) v.home
      exact (h2 v).mpr (Or.inl (h.odd v hv (h1.symm.trans hup)))

/-- An odd variable that is not readable stays so until its site recovers. -/
theorem unreadable (h : Sited σ) (hout : Outcome o σ r es σ') (hv : v.isOdd = true)
    (hr : σ.isReadAvailable v.home v = false) (hrec : ∀ ts, r ≠ .recover ts v.home) :
    σ'.isReadAvailable v.home v = false := by
  rw [← Bool.not_eq_true] at hr ⊢
  by_cases hf : ∃ ts s, r = .fail ts s
  · obtain ⟨ts, s, rfl⟩ := hf
    cases hout with
    | failed hx =>
        rw [(available_of_failed hx v.home).2 v]
        split_ifs
        · exact fun h => h
        · exact hr
    | unavailable ha => cases ha
    | waitsForLock ha => cases ha
  · by_cases hrec' : ∃ ts s, r = .recover ts s
    · obtain ⟨ts, s, rfl⟩ := hrec'
      cases hout with
      | recovered =>
          rw [(available_of_recovered σ o s v.home).2 v]
          rintro (hr' | ⟨rfl, -⟩)
          · exact hr hr'
          · exact hrec ts rfl
      | unavailable ha => cases ha
      | waitsForLock ha => cases ha
    · rw [(hout.available (fun ts s heq => hf ⟨ts, s, heq⟩) (fun ts s heq => hrec' ⟨ts, s, heq⟩)
        v.home).2 v]
      rintro (hr' | ⟨T, x, ts, hi⟩)
      · exact hr hr'
      · exact hr (h.odd v hv (h.up_of_installs hout hi))

end Sited

end State

end RepCRec
