import RepCRec.Engine.Install
import RepCRec.Engine.Status

/-!
When the execution of a request succeeds, and what it throws when it fails (`throws_iff`). The
accesses to a transaction that is not live fail, and so does the read of a variable that its
transaction holds a lock on.
-/

namespace RepCRec

open Container (IterOrder ok_bind)

namespace State

variable {o : IterOrder} {σ : State} {T : TranId} {v : VarId} {x : Value} {t : Transaction}
  {ts : Timestamp} {r : Request}

lemma exists_modifyTransaction (hT : T ∈ σ.transactions) (f : Transaction → Transaction) :
    ∃ σ', σ.modifyTransaction T f = .ok σ' ∧ T ∈ σ'.transactions := by
  obtain ⟨t, ht⟩ := Dict.exists_lookup hT
  exact ⟨_, modifyTransaction_eq_ok.mpr ⟨t, ht, rfl⟩, (AList.mem_insert _).mpr (Or.inl rfl)⟩

lemma exists_updateValuesAt (hT : T ∈ σ.transactions) (L : List SiteId) :
    ∃ σ', σ.updateValuesAt o T L v x = .ok σ' ∧ T ∈ σ'.transactions :=
  Container.exists_foldlM (P := fun σ : State => T ∈ σ.transactions)
    (fun _ _ hT => exists_modifyTransaction hT _) _ hT

lemma exists_assignWriteLock (hT : T ∈ σ.transactions) (L : List SiteId) :
    ∃ σ', σ.assignWriteLock o T L v = .ok σ' ∧ T ∈ σ'.transactions := by
  refine Container.exists_foldlM (P := fun σ : State => T ∈ σ.transactions) (fun σ s hT => ?_) _ hT
  obtain ⟨t, ht⟩ := Dict.exists_lookup hT
  rw [getTransaction_eq_ok.mpr ht]
  split_ifs
  · exact ⟨_, rfl, hT⟩
  · exact ⟨σ, rfl, hT⟩

lemma exists_assignShareLock (hT : T ∈ σ.transactions) (L : List SiteId) :
    ∃ σ', σ.assignShareLock o T L v = .ok σ' ∧ T ∈ σ'.transactions := by
  refine Container.exists_foldlM (P := fun σ : State => T ∈ σ.transactions) (fun σ s hT => ?_) _ hT
  obtain ⟨t, ht⟩ := Dict.exists_lookup hT
  rw [getTransaction_eq_ok.mpr ht]
  split_ifs
  · exact ⟨_, rfl, hT⟩
  · exact ⟨σ, rfl, hT⟩

lemma exists_evictTransaction (hT : T ∈ σ.transactions) :
    ∃ σ', σ.evictTransaction T = .ok σ' := by
  obtain ⟨t, ht⟩ := Dict.exists_lookup hT
  exact ⟨_, by rw [evictTransaction, ht]⟩

/-- An abort of a live transaction does not throw. -/
lemma exists_abortTransaction (hT : T ∈ σ.transactions) :
    ∃ σ', σ.abortTransaction o T = .ok σ' := by
  obtain ⟨σ₁, h1⟩ := exists_evictTransaction hT
  exact ⟨_, by rw [abortTransaction, h1]; rfl⟩

/-- A commit of a live transaction does not throw. -/
lemma exists_commit (hT : T ∈ σ.transactions) :
    ∃ success σ', σ.commit o T ts = .ok (success, σ') := by
  obtain ⟨t, ht⟩ := Dict.exists_lookup hT
  obtain ⟨σ₁, h1⟩ := exists_abortTransaction (o := o) hT
  rw [commit, getTransaction_eq_ok.mpr ht, ok_bind]
  split_ifs
  · exact ⟨false, σ₁, by rw [h1]; rfl⟩
  · exact ⟨false, σ₁, by rw [h1]; rfl⟩
  · exact ⟨true, _, rfl⟩

/-- The end of a live transaction succeeds. -/
lemma exists_exec_finish (hT : T ∈ σ.transactions) : ∃ σ', σ.exec o (.finish ts T) = .ok σ' := by
  obtain ⟨success, σ₁, h1⟩ : ∃ success σ₁, σ.commit o T ts = .ok (success, σ₁) := exists_commit hT
  rw [exec, execFinish, h1, ok_bind]
  obtain ⟨t, -, ⟨rfl, -, rfl⟩ | ⟨rfl, -, -⟩⟩ := commit_cases h1
  · have hlive : T ∈ ((σ.installAll o T ts t).releaseLocks o T).transactions := by
      have hq := Quiet.releaseLocks (σ.installAll o T ts t) o T
      refine (hq.mem_transactions T).mpr ?_
      rwa [(sameLocks_installAll (o := o) σ T ts t).transactions]
    obtain ⟨σ₂, h2⟩ := exists_evictTransaction hlive
    dsimp only
    rw [if_pos rfl, h2]
    exact ⟨_, rfl⟩
  · exact ⟨_, rfl⟩

/-! ### Exceptions -/

/-- The execution throws `std::invalid_argument("error status!")` or `std::out_of_range`. -/
def Throws (σ : State) (r : Request) : Prop :=
  ∃ o, σ.exec o r = .error .errorStatus ∨ σ.exec o r = .error .outOfRange

/-- A transaction that is not read-only reads a variable that it holds a lock on, and is not sent to
wait. -/
def RereadsOwn (σ : State) (r : Request) : Prop :=
  ∃ ts T v t, r = .read ts T v ∧ σ.transactions.lookup T = some t ∧ t.isReadOnly = false ∧
    (v.isOdd = true → σ.isReadAvailable v.home v = true) ∧ ¬σ.SentToWait T v ∧ σ.HoldsLock T v

/-- The execution of the request looks its transaction up: always for a read or an end, and for a
write that is granted at some site. -/
def LooksUp (σ : State) : Request → Prop
  | .read _ _ _ => True
  | .finish _ _ => True
  | .write _ T v _ => ¬σ.SentToWait T v ∧ ∃ s ∈ copySites v, σ.isWriteAvailable s = true
  | .missing _ (.read _ _) => True
  | .missing _ (.write _ v _) => if v.isOdd then ∃ s, v.home? = some s ∧ σ.isWriteAvailable s = true
      else ∃ s, σ.isWriteAvailable s = true
  | _ => False

lemma not_throws_of_exists (h : ∀ o, ∃ σ', σ.exec o r = .ok σ') : ¬σ.Throws r := by
  rintro ⟨o, ho⟩
  obtain ⟨σ', hσ'⟩ := h o
  rw [hσ'] at ho
  simp at ho

/-- `get_transaction` throws for a transaction that is not live. -/
lemma getTransaction_of_dead (hT : T ∉ σ.transactions) :
    σ.getTransaction T = .error .outOfRange := by
  rw [getTransaction, AList.lookup_eq_none.mpr hT]

lemma modifyTransaction_of_dead (hT : T ∉ σ.transactions) (f : Transaction → Transaction) :
    σ.modifyTransaction T f = .error .outOfRange := by
  rw [modifyTransaction, getTransaction_of_dead hT]
  rfl

/-- No write is recorded for a transaction that is not live. -/
lemma updateValuesAt_of_dead (hT : T ∉ σ.transactions) {L : List SiteId} (hL : L ≠ []) :
    σ.updateValuesAt o T L v x = .error .outOfRange := by
  rw [updateValuesAt]
  cases hl : o.visit L with
  | nil => exact absurd ((o.visit_eq_nil).mp hl) hL
  | cons s l =>
      rw [List.foldlM_cons, modifyTransaction_of_dead hT]
      rfl

/-- The answers to a request for a lock. -/
lemma status_cases (σ : State) (T : TranId) (v : VarId) :
    (v.isOdd = true ∧ (σ.tryAcquireWriteLock T v).status = .siteUnavailable) ∨
      (σ.tryAcquireWriteLock T v).status = .needToWait ∨
      (σ.tryAcquireWriteLock T v).status = .hasReadLock ∨
      (σ.tryAcquireWriteLock T v).status = .hasWriteLock ∨
      (σ.tryAcquireWriteLock T v).status = .availableToAssign := by
  rcases tryAcquireWriteLock_answer σ T v with ⟨hv, -, hls⟩ | ha
  · exact Or.inl ⟨hv, by rw [hls]⟩
  generalize σ.tryAcquireWriteLock T v = ls at ha ⊢
  cases ha with
  | waits => exact Or.inr (Or.inl rfl)
  | owns => exact Or.inr (Or.inr (Or.inr (Or.inl rfl)))
  | grants hg => exact Or.inr (Or.inr (hg.imp id Or.inr))

/-- The write of a live transaction succeeds. -/
lemma exists_exec_write (hT : T ∈ σ.transactions) :
    ∃ σ', σ.exec o (.write ts T v x) = .ok σ' := by
  have hgrant : ∀ L, ∃ σ', σ.grantWrite o T L v x = .ok σ' := by
    intro L
    obtain ⟨σ₁, h1, hT₁⟩ := exists_updateValuesAt (o := o) (v := v) (x := x) hT L
    obtain ⟨σ₂, h2, -⟩ := exists_assignWriteLock (o := o) (v := v) hT₁ L
    exact ⟨_, by rw [grantWrite, h1, ok_bind, h2]; rfl⟩
  obtain ⟨σ₁, h1, hT₁⟩ := exists_modifyTransaction hT fun t => t.updateValues v.home v x
  obtain ⟨σ₂, h2, -⟩ := exists_assignWriteLock (o := o) (v := v) hT₁
    (σ.tryAcquireWriteLock T v).siteIdSet
  obtain ⟨σ₃, h3, -⟩ := exists_updateValuesAt (o := o) (v := v) (x := x) hT
    (σ.tryAcquireWriteLock T v).siteIdSet
  rw [exec, execWrite]
  cases hv : v.isOdd with
  | true =>
      rw [if_pos rfl]
      rcases status_cases σ T v with ⟨-, hst⟩ | hst | hst | hst | hst
      · exact ⟨_, by rw [hst]; rfl⟩
      · exact ⟨_, by rw [hst]; rfl⟩
      · exact ⟨_, by simp only [hst, h1, ok_bind, h2]; rfl⟩
      · exact ⟨_, by simp only [hst, h1, ok_bind]; rfl⟩
      · exact ⟨_, by simp only [hst, h1, ok_bind, h2]; rfl⟩
  | false =>
      rw [if_neg Bool.false_ne_true]
      rcases status_cases σ T v with ⟨hv', -⟩ | hst | hst | hst | hst
      · rw [hv] at hv'
        cases hv'
      · exact ⟨_, by rw [hst]; rfl⟩
      · rw [hst]
        exact hgrant _
      · exact ⟨_, by rw [hst, h3]; rfl⟩
      · rw [hst]
        exact hgrant _

lemma exists_waitForSite (hT : T ∈ σ.transactions) {n : ℤ} {s : SiteId} :
    ∃ σ', σ.waitForSite r T n s = .ok σ' := by
  obtain ⟨σ₁, h1, -⟩ := exists_modifyTransaction hT fun t => t.setWaitingVarId n
  rw [waitForSite]
  split_ifs
  · exact ⟨_, rfl⟩
  · exact ⟨_, by rw [h1]; rfl⟩

/-- The read of a read-only transaction fails only where a copy has no version for it. -/
lemma execRead_of_isReadOnly (ht : σ.transactions.lookup T = some t) (hro : t.isReadOnly = true) :
    (∃ σ', σ.exec o (.read ts T v) = .ok σ') ∨
      (σ.exec o (.read ts T v) = .error .invalidIterator ∧
        ∃ s, (σ.getVariable s v).getValue t.timestamp = none) := by
  have hT : T ∈ σ.transactions := Dict.mem_of_lookup ht
  have hread : ∀ s, (∃ σ', σ.readVersion T t.timestamp s v = .ok σ') ∨
      (σ.readVersion T t.timestamp s v = .error .invalidIterator ∧
        ∃ s, (σ.getVariable s v).getValue t.timestamp = none) := by
    intro s
    rw [readVersion]
    cases hg : (σ.getVariable s v).getValue t.timestamp with
    | none => exact Or.inr ⟨rfl, s, hg⟩
    | some x =>
        obtain ⟨σ₁, h1, -⟩ := exists_modifyTransaction hT fun t => t.addReadHistory s v x
        exact Or.inl ⟨_, by simp only [h1]; rfl⟩
  rw [exec, execRead, getTransaction_eq_ok.mpr ht, ok_bind, if_pos hro, handleReadOnlyRequest,
    getTransaction_eq_ok.mpr ht, ok_bind]
  split_ifs
  · exact hread _
  · exact Or.inl (exists_waitForSite hT)
  · cases SiteId.all.find? fun s => σ.isReadAvailable s v with
    | some s => exact hread s
    | none => exact Or.inl (exists_abortTransaction hT)

/-- The read of another live transaction succeeds, unless it holds a lock already. -/
lemma execRead_of_not_isReadOnly (ht : σ.transactions.lookup T = some t)
    (hro : t.isReadOnly = false) (ha : σ.Apart T v) :
    (σ.RereadsOwn (.read ts T v) ∧ σ.exec o (.read ts T v) = .error .errorStatus) ∨
    (¬σ.RereadsOwn (.read ts T v) ∧ ∃ σ', σ.exec o (.read ts T v) = .ok σ') := by
  have hT : T ∈ σ.transactions := Dict.mem_of_lookup ht
  have hown : σ.RereadsOwn (.read ts T v) ↔
      (v.isOdd = true → σ.isReadAvailable v.home v = true) ∧ ¬σ.SentToWait T v ∧
        σ.HoldsLock T v := by
    constructor
    · rintro ⟨ts, T, v, t', heq, -, -, h⟩
      cases heq
      exact h
    · exact fun h => ⟨ts, T, v, t, rfl, ht, hro, h⟩
  rw [hown, exec, execRead, getTransaction_eq_ok.mpr ht, ok_bind, hro, if_neg Bool.false_ne_true,
    handleReadRequest, getTransaction_eq_ok.mpr ht, ok_bind]
  cases hv : v.isOdd with
  | true =>
      rw [if_pos rfl]
      cases hr : σ.isReadAvailable v.home v with
      | false =>
          rw [if_neg Bool.false_ne_true]
          exact Or.inr ⟨by simp, exists_waitForSite hT⟩
      | true =>
          rw [if_pos rfl]
          rcases tryAcquireWriteLock_status ha with ⟨-, hup, hsent, hst⟩ | ⟨-, ⟨hsent, hst⟩ |
            ⟨hsent, hh, hst | hst⟩ | ⟨hsent, hh, hst⟩⟩
          · refine Or.inr ⟨fun h => ?_, _, by simp only [hst]; rfl⟩
            obtain ⟨s, hs, hup', -⟩ := h.2.2
            rw [copySites, if_pos hv, List.mem_singleton] at hs
            rw [hs, hup] at hup'
            cases hup'
          · exact Or.inr ⟨fun h => h.2.1 hsent, _, by simp only [hst]; rfl⟩
          · exact Or.inl ⟨⟨fun _ => rfl, hsent, hh⟩, by simp only [hst]⟩
          · exact Or.inl ⟨⟨fun _ => rfl, hsent, hh⟩, by simp only [hst]⟩
          · obtain ⟨σ₁, h1, hT₁⟩ := exists_assignShareLock (o := o) (v := v) hT
              (σ.tryAcquireWriteLock T v).siteIdSet
            obtain ⟨σ₂, h2, -⟩ := exists_modifyTransaction hT₁
              fun t => t.addReadHistory v.home v (σ.getVariable v.home v).value
            exact Or.inr ⟨fun h => hh h.2.2, _, by simp only [hst, h1, ok_bind, h2]; rfl⟩
  | false =>
      rw [if_neg Bool.false_ne_true]
      rcases tryAcquireWriteLock_status ha with ⟨hv', -⟩ | ⟨-, ⟨hsent, hst⟩ |
        ⟨hsent, hh, hst | hst⟩ | ⟨hsent, hh, hst⟩⟩
      · rw [hv] at hv'
        cases hv'
      · exact Or.inr ⟨fun h => h.2.1 hsent, _, by simp only [hst]; rfl⟩
      · exact Or.inl ⟨⟨by simp, hsent, hh⟩, by simp only [hst]⟩
      · exact Or.inl ⟨⟨by simp, hsent, hh⟩, by simp only [hst]⟩
      · have hT₀ : T ∈ (σ.readFirst T v
            (o.visit (σ.tryAcquireWriteLock T v).siteIdSet)).transactions := by
          rcases readFirst_cases σ T v (o.visit (σ.tryAcquireWriteLock T v).siteIdSet) with
            heq | ⟨s, -, heq⟩ <;> rw [heq] <;> exact hT
        obtain ⟨σ₁, h1, -⟩ := exists_assignShareLock (o := o) (v := v) hT₀
          (σ.tryAcquireWriteLock T v).siteIdSet
        exact Or.inr ⟨fun h => hh h.2.2, _, by simp only [hst, h1, ok_bind]; rfl⟩

/-- The write of a transaction that is not live and holds no lock. -/
lemma execWrite_of_dead (hT : T ∉ σ.transactions) (ha : σ.Apart T v) (hh : ¬σ.HoldsLock T v) :
    (σ.LooksUp (.write ts T v x) ∧ σ.exec o (.write ts T v x) = .error .outOfRange) ∨
    (¬σ.LooksUp (.write ts T v x) ∧ ∃ σ', σ.exec o (.write ts T v x) = .ok σ') := by
  rw [exec, execWrite, LooksUp]
  rcases tryAcquireWriteLock_status ha with ⟨hv, hup, -, hst⟩ | ⟨hup, ⟨hsent, hst⟩ |
    ⟨-, hown, -⟩ | ⟨hsent, -, hst⟩⟩
  · refine Or.inr ⟨fun h => ?_, _, by rw [if_pos hv]; simp only [hst]; rfl⟩
    obtain ⟨s, hs, hup'⟩ := h.2
    rw [copySites, if_pos hv, List.mem_singleton] at hs
    rw [hs, hup] at hup'
    cases hup'
  · refine Or.inr ⟨fun h => h.1 hsent, ?_⟩
    split_ifs
    · exact ⟨_, by simp only [hst]; rfl⟩
    · exact ⟨_, by simp only [hst]; rfl⟩
  · exact absurd hown hh
  · have hL := fun s => mem_siteIdSet (s := s) (Or.inr hst)
    cases hv : v.isOdd with
    | true =>
        refine Or.inl ⟨⟨hsent, v.home, by simp [copySites, hv], hup hv⟩, ?_⟩
        simp only [hst, modifyTransaction_of_dead hT, if_true]
        rfl
    | false =>
        rw [if_neg Bool.false_ne_true]
        simp only [hst, grantWrite]
        by_cases hs : ∃ s ∈ copySites v, σ.isWriteAvailable s = true
        · obtain ⟨s, hs'⟩ := hs
          refine Or.inl ⟨⟨hsent, s, hs'⟩, ?_⟩
          rw [updateValuesAt_of_dead hT (List.ne_nil_of_mem ((hL s).mpr hs'))]
          rfl
        · have hnil : (σ.tryAcquireWriteLock T v).siteIdSet = [] :=
            List.eq_nil_iff_forall_not_mem.mpr fun s hs' => hs ⟨s, (hL s).mp hs'⟩
          refine Or.inr ⟨fun h => hs h.2, ?_⟩
          rw [hnil, updateValuesAt_nil, ok_bind, assignWriteLock, (o.visit_eq_nil).mpr rfl]
          exact ⟨_, rfl⟩

/-- The failure of a site aborts the transactions that wrote to it one after the other. -/
lemma exists_exec_fail {s : SiteId} : ∃ σ', σ.exec o (.fail ts s) = .ok σ' := by
  have hfold : ∀ (l : List TranId) (σ : State), l.Nodup → (∀ T ∈ l, T ∈ σ.transactions) →
      ∃ σ', l.foldlM (fun σ T => abortTransaction o T σ) σ = .ok σ' := by
    intro l
    induction l with
    | nil => exact fun σ _ _ => ⟨σ, rfl⟩
    | cons T l ih =>
        intro σ hn hl
        obtain ⟨hT, hn⟩ := List.nodup_cons.mp hn
        obtain ⟨σ₁, h1⟩ := exists_abortTransaction (o := o) (hl T List.mem_cons_self)
        obtain ⟨σ', h2⟩ := ih σ₁ hn fun T' hT' => by
          refine (gone_abortTransaction h1).1.mem_transactions.mpr
            ⟨hl T' (List.mem_cons_of_mem T hT'), ?_⟩
          exact fun heq => hT (heq ▸ hT')
        exact ⟨σ', by rw [List.foldlM_cons, h1, ok_bind, h2]⟩
  have hwriters : (writersAt o s σ).Nodup ∧ ∀ T ∈ writersAt o s σ, T ∈ σ.transactions := by
    constructor
    · refine (((o.perm σ.transactions.entries).filter _).map Sigma.fst).nodup_iff.mpr ?_
      exact (List.filter_sublist.map Sigma.fst).nodup σ.transactions.nodupKeys
    · intro T hT
      obtain ⟨e, he, rfl⟩ := List.mem_map.mp hT
      have hmem := (o.mem_visit).mp (List.mem_of_mem_filter he)
      exact AList.mem_keys.mpr (List.mem_map_of_mem hmem)
  obtain ⟨σ', h⟩ := hfold (o.visit (writersAt o s σ)) (σ.modifySite s Site.setUnavailable)
    (o.nodup_visit hwriters.1) fun T hT => hwriters.2 T ((o.mem_visit).mp hT)
  exact ⟨σ'.emit (.failed s), by rw [exec, execFail]; exact congrArg (· >>= _) h⟩

/-- The failure of a site does not throw. -/
lemma not_throws_fail {s : SiteId} : ¬σ.Throws (.fail ts s) :=
  not_throws_of_exists fun _ => exists_exec_fail

/-- An execution that succeeds or meets a null pointer throws nothing. -/
lemma not_throws_of_nullPointer
    (h : ∀ o, (∃ σ', σ.exec o r = .ok σ') ∨ σ.exec o r = .error .nullPointer) : ¬σ.Throws r := by
  rintro ⟨o, ho⟩
  rcases h o with ⟨σ', hx⟩ | hx
  · rw [hx] at ho
    simp at ho
  · rw [hx] at ho
    simp at ho

/-- The read of a variable that does not exist throws where the transaction is not live. -/
lemma throws_readMissing_iff {w : MissingVar} :
    σ.Throws (.missing ts (.read T w)) ↔ T ∉ σ.transactions := by
  by_cases hT : T ∈ σ.transactions
  · refine iff_of_false (not_throws_of_nullPointer fun o => ?_) fun h => h hT
    obtain ⟨t, ht⟩ := Dict.exists_lookup hT
    rw [exec, execMissing, execReadMissing, getTransaction_eq_ok.mpr ht, ok_bind]
    split_ifs
    · split
      · exact Or.inr rfl
      · exact Or.inl (exists_waitForSite hT)
    · exact Or.inl (exists_abortTransaction hT)
    · exact Or.inr rfl
    · exact Or.inl ⟨_, rfl⟩
  · refine iff_of_true ⟨IterOrder.stored, Or.inr ?_⟩ hT
    rw [exec, execMissing, execReadMissing, getTransaction_of_dead hT]
    rfl

/-- The write of a variable that does not exist throws where it looks up a transaction that is not
live: before the null pointer of an available site. -/
lemma throws_writeMissing_iff {w : MissingVar} : σ.Throws (.missing ts (.write T w x)) ↔
    σ.LooksUp (.missing ts (.write T w x)) ∧ T ∉ σ.transactions := by
  have hexec : ∀ o, σ.LooksUp (.missing ts (.write T w x)) ∧
        σ.exec o (.missing ts (.write T w x)) =
          σ.getTransaction T >>= (fun _ => .error .nullPointer) ∨
      ¬σ.LooksUp (.missing ts (.write T w x)) ∧
        ((∃ σ', σ.exec o (.missing ts (.write T w x)) = .ok σ') ∨
          σ.exec o (.missing ts (.write T w x)) = .error .nullPointer) := by
    intro o
    rw [LooksUp, exec, execMissing, execWriteMissing]
    cases hw : w.isOdd with
    | true =>
        simp only [if_true]
        cases hh : w.home? with
        | none => exact Or.inr ⟨by simp, Or.inr rfl⟩
        | some s =>
            cases hs : σ.isWriteAvailable s with
            | true => exact Or.inl ⟨⟨s, rfl, hs⟩, by simp [hs]⟩
            | false => exact Or.inr ⟨by simp [hs], Or.inl ⟨_, by simp [hs]; rfl⟩⟩
    | false =>
        simp only [Bool.false_eq_true, if_false]
        cases hs : SiteId.all.any σ.isWriteAvailable with
        | true =>
            obtain ⟨s, -, hup⟩ := List.any_eq_true.mp hs
            exact Or.inl ⟨⟨s, hup⟩, rfl⟩
        | false =>
            refine Or.inr ⟨?_, Or.inl ⟨_, rfl⟩⟩
            rintro ⟨s, hup⟩
            simp [List.any_eq_false.mp hs s (SiteId.mem_all s)] at hup
  by_cases hl : σ.LooksUp (.missing ts (.write T w x)) ∧ T ∉ σ.transactions
  · refine iff_of_true ⟨IterOrder.stored, Or.inr ?_⟩ hl
    rcases hexec IterOrder.stored with ⟨-, hx⟩ | ⟨hno, -⟩
    · rw [hx, getTransaction_of_dead hl.2]
      rfl
    · exact absurd hl.1 hno
  · refine iff_of_false (not_throws_of_nullPointer fun o => ?_) hl
    rcases hexec o with ⟨hl', hx⟩ | ⟨-, hx⟩
    · obtain ⟨t, ht⟩ := Dict.exists_lookup (not_not.mp fun hT => hl ⟨hl', hT⟩)
      rw [hx, getTransaction_eq_ok.mpr ht]
      exact Or.inr rfl
    · exact hx

/-- **What throws**: a read of a variable that its transaction holds a lock on, and a request that
looks up a transaction that is not live. A transaction that is not live holds no lock. -/
theorem throws_iff (ha : ∀ T v, σ.Apart T v)
    (hdead : ∀ T v, T ∉ σ.transactions → ¬σ.HoldsLock T v) (r : Request) :
    σ.Throws r ↔ σ.RereadsOwn r ∨ (σ.LooksUp r ∧ r.transactionId ∉ σ.transactions) := by
  have hother : (∀ ts T v, r ≠ .read ts T v) → ¬σ.RereadsOwn r := by
    rintro hne ⟨ts, T, v, t, heq, -⟩
    exact hne ts T v heq
  cases r with
  | write ts T v x =>
      rw [or_iff_right (hother (by simp))]
      by_cases hT : T ∈ σ.transactions
      · exact iff_of_false (not_throws_of_exists fun o => exists_exec_write hT) fun h => h.2 hT
      · have hcase : ∀ o, (σ.LooksUp (.write ts T v x) ∧ _) ∨ (¬σ.LooksUp (.write ts T v x) ∧ _) :=
          fun o => execWrite_of_dead (o := o) hT (ha T v) (hdead T v hT)
        rcases hcase IterOrder.stored with ⟨hl, hx⟩ | ⟨hl, -⟩
        · exact iff_of_true ⟨_, Or.inr hx⟩ ⟨hl, hT⟩
        · refine iff_of_false (not_throws_of_exists fun o => ?_) fun h => hl h.1
          exact ((hcase o).resolve_left fun h => hl h.1).2
  | read ts T v =>
      by_cases hT : T ∈ σ.transactions
      · rw [or_iff_left (fun h => h.2 hT)]
        obtain ⟨t, ht⟩ := Dict.exists_lookup hT
        cases hro : t.isReadOnly with
        | true =>
            refine iff_of_false ?_ ?_
            · rintro ⟨o, ho⟩
              rcases execRead_of_isReadOnly ht hro with ⟨σ', hx⟩ | ⟨hx, -⟩
              · rw [hx] at ho
                simp at ho
              · rw [hx] at ho
                simp at ho
            · rintro ⟨ts', T', v', t', heq, ht', hro', -⟩
              cases heq
              rw [ht] at ht'
              cases ht'
              rw [hro] at hro'
              cases hro'
        | false =>
            have hcase : ∀ o, (σ.RereadsOwn (.read ts T v) ∧ _) ∨
                (¬σ.RereadsOwn (.read ts T v) ∧ _) :=
              fun o => execRead_of_not_isReadOnly (o := o) ht hro (ha T v)
            rcases hcase IterOrder.stored with ⟨hown, hx⟩ | ⟨hown, -⟩
            · exact iff_of_true ⟨_, Or.inl hx⟩ hown
            · exact iff_of_false (not_throws_of_exists fun o =>
                ((hcase o).resolve_left fun h => hown h.1).2) hown
      · refine iff_of_true ⟨IterOrder.stored, Or.inr ?_⟩ (Or.inr ⟨trivial, hT⟩)
        rw [exec, execRead, getTransaction_of_dead hT]
        rfl
  | finish ts T =>
      rw [or_iff_right (hother (by simp))]
      by_cases hT : T ∈ σ.transactions
      · exact iff_of_false (not_throws_of_exists fun o => exists_exec_finish hT) fun h => h.2 hT
      · refine iff_of_true ⟨IterOrder.stored, Or.inr ?_⟩ ⟨trivial, hT⟩
        rw [exec, execFinish, commit, getTransaction_of_dead hT]
        rfl
  | fail ts s =>
      rw [or_iff_right (hother (by simp))]
      exact iff_of_false not_throws_fail fun h => h.1
  | create ts T b =>
      rw [or_iff_right (hother (by simp))]
      exact iff_of_false (not_throws_of_exists fun o => ⟨_, rfl⟩) fun h => h.1
  | dump ts =>
      rw [or_iff_right (hother (by simp))]
      exact iff_of_false (not_throws_of_exists fun o => ⟨_, rfl⟩) fun h => h.1
  | recover ts s =>
      rw [or_iff_right (hother (by simp))]
      exact iff_of_false (not_throws_of_exists fun o => ⟨_, rfl⟩) fun h => h.1
  | missing ts m =>
      rw [or_iff_right (hother (by simp))]
      cases m with
      | write T v x => exact throws_writeMissing_iff
      | read T v => exact throws_readMissing_iff.trans ⟨fun h => ⟨trivial, h⟩, fun h => h.2⟩
      | fail s | recover s =>
          exact iff_of_false (not_throws_of_nullPointer fun o => Or.inr rfl) fun h => h.1

end State

end RepCRec
