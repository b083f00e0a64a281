import RepCRec.Engine.Requests

/-!
What the execution of a request can do: `Outcome` has one constructor for each way in which
`Request::exec` returns, with the tests that lead there and the state that it leaves, and
`exec_outcome` finds the constructor. The status `HAS_READ_WRITE_LOCK` is never answered to a
request (`tryAcquireWriteLock_cases`), so the branches for it do not appear.
-/

namespace RepCRec

open Container (IterOrder bind_eq_ok ok_bind)

/-- The transaction and the variable of a read or write. -/
def Request.access? : Request → Option (TranId × VarId)
  | .write _ T v _ => some (T, v)
  | .read _ T v => some (T, v)
  | _ => none

lemma Request.transactionId_of_access {r : Request} {T : TranId} {v : VarId}
    (h : r.access? = some (T, v)) : r.transactionId = T := by
  cases r with
  | write | read =>
      cases h
      rfl
  | _ => cases h

namespace State

variable {o : IterOrder} {σ σ' : State}

/-! ### The answers of the lock manager -/

/-- The lock manager lets the request through. -/
def LockGranted (ls : LockStatus) : Prop :=
  ls.status = .hasReadLock ∨ ls.status = .availableToAssign

instance (ls : LockStatus) : Decidable (LockGranted ls) := inferInstanceAs (Decidable (_ ∨ _))

/-- The test that sends `T` to wait for the owners of a copy. -/
def Conflicts (x : Variable) (T : TranId) : Prop :=
  x.hasSharedLockExcludeSelf T = true ∨ x.hasExclusiveLockExcludeSelf T = true ∨
    x.hasSharedLock T = true

/-- The copy does not stand in the way of `T`: only `T` shares it, or nobody locks it. -/
def Passes (x : Variable) (T : TranId) : Prop :=
  (x.hasSharedLock T = true ∧ x.hasSharedLockExcludeSelf T = false) ∨
    (x.hasSharedLockExcludeSelf T = false ∧ x.hasExclusiveLockExcludeSelf T = false ∧
      x.hasSharedLock T = false ∧ x.hasExclusiveLock T = false)

/-- The answer of the lock manager to a request of `T` for `v`, after it has looked at the
copies in `l`: it waits because of one of them, it owns one of them, or none is in its way. -/
inductive Answer (σ : State) (T : TranId) (v : VarId) (l : List SiteId) (ls : LockStatus) :
    LockStatus → Prop where
  | waits {s} : s ∈ l → σ.isWriteAvailable s = true → Conflicts (σ.getVariable s v) T →
      Answer σ T v l ls ⟨[], .needToWait, waitOwners (σ.getVariable s v) T⟩
  | owns {s} : s ∈ l → σ.isWriteAvailable s = true →
      (σ.getVariable s v).hasExclusiveLock T = true →
      Answer σ T v l ls ⟨[], .hasWriteLock, ls.ownerIdSet⟩
  | grants {ls'} : LockGranted ls' →
      (∀ s, s ∈ ls'.siteIdSet ↔ s ∈ ls.siteIdSet ∨ (s ∈ l ∧ σ.isWriteAvailable s = true)) →
      (∀ s ∈ l, σ.isWriteAvailable s = true → Passes (σ.getVariable s v) T) →
      (ls'.status = .availableToAssign ↔ ls.status = .availableToAssign ∧
        ∀ s ∈ l, σ.isWriteAvailable s = true → (σ.getVariable s v).hasSharedLock T = false) →
      Answer σ T v l ls ls'

namespace Answer

variable {T : TranId} {v : VarId} {s : SiteId} {l : List SiteId} {ls ls₁ ls' : LockStatus}

/-- A copy at a site that is down is skipped. -/
lemma cons_down (hs : σ.isWriteAvailable s = false) (h : Answer σ T v l ls ls') :
    Answer σ T v (s :: l) ls ls' := by
  have hne : ∀ {s'}, σ.isWriteAvailable s' = true → s' ≠ s := by
    rintro s' h' rfl
    rw [hs] at h'
    cases h'
  cases h with
  | waits hs' hup hc => exact .waits (List.mem_cons_of_mem s hs') hup hc
  | owns hs' hup ho => exact .owns (List.mem_cons_of_mem s hs') hup ho
  | grants hg hL hp hst =>
      refine .grants hg (fun s' => ?_) (fun s' hs' hup => ?_)
        (hst.trans (and_congr_right fun _ => ?_))
      · rw [hL, List.mem_cons]
        exact or_congr_right (and_congr_left fun hup => (or_iff_right (hne hup)).symm)
      · exact hp s' ((List.mem_cons.mp hs').resolve_left (hne hup)) hup
      · exact ⟨fun h s' hs' hup => h s' ((List.mem_cons.mp hs').resolve_left (hne hup)) hup,
          fun h s' hs' => h s' (List.mem_cons_of_mem s hs')⟩

/-- A copy that is not in the way is added to the sites. -/
lemma cons_pass (hs : σ.isWriteAvailable s = true) (hp : Passes (σ.getVariable s v) T)
    (hL₁ : ls₁.siteIdSet = ls.siteIdSet.insert s) (ho : ls₁.ownerIdSet = ls.ownerIdSet)
    (hst₁ : ls₁.status = .availableToAssign ↔
      ls.status = .availableToAssign ∧ (σ.getVariable s v).hasSharedLock T = false)
    (h : Answer σ T v l ls₁ ls') : Answer σ T v (s :: l) ls ls' := by
  cases h with
  | waits hs' hup hc => exact .waits (List.mem_cons_of_mem s hs') hup hc
  | owns hs' hup hx =>
      rw [ho]
      exact .owns (List.mem_cons_of_mem s hs') hup hx
  | grants hg hL hp' hst =>
      refine .grants hg (fun s' => ?_) ?_ ?_
      · rw [hL, hL₁, List.mem_insert_iff, List.mem_cons]
        by_cases hss : s' = s
        · subst hss
          simp [hs]
        · simp [hss]
      · rw [List.forall_mem_cons]
        exact ⟨fun _ => hp, hp'⟩
      · rw [hst, hst₁, List.forall_mem_cons, and_assoc]
        simp only [hs, true_implies]

end Answer

/-- The answers of the loop over the copies of an even variable. -/
lemma tryAcquireWriteLoop_answer {T : TranId} {v : VarId} (l : List SiteId) {ls : LockStatus}
    (hls : LockGranted ls) : Answer σ T v l ls (σ.tryAcquireWriteLoop T v l ls) := by
  induction l generalizing ls with
  | nil =>
      exact .grants hls (by simp [tryAcquireWriteLoop]) (by simp) (by simp [tryAcquireWriteLoop])
  | cons s l ih =>
      rw [tryAcquireWriteLoop]
      cases hup : σ.isWriteAvailable s with
      | false =>
          rw [if_pos (by rfl)]
          exact .cons_down hup (ih hls)
      | true =>
          rw [if_neg (by simp)]
          dsimp only
          split_ifs with h1 h2 h3
          · simp only [Bool.and_eq_true, Bool.not_eq_true'] at h1
            have hrest := @ih ⟨ls.siteIdSet.insert s, .hasReadLock, ls.ownerIdSet⟩ (Or.inl rfl)
            refine .cons_pass hup (Or.inl h1.1.1) ?_ ?_ ?_ hrest
            · rfl
            · rfl
            · simp [h1.1.1.1]
          · refine .waits (by simp) hup ?_
            simpa [Conflicts, or_assoc] using h2
          · exact .owns (by simp) hup h3
          · simp only [Bool.or_eq_true, not_or, Bool.not_eq_true] at h2 h3
            have hrest := @ih ⟨ls.siteIdSet.insert s, ls.status, ls.ownerIdSet⟩ hls
            refine .cons_pass hup (Or.inr ⟨h2.1.1, h2.1.2, h2.2, h3⟩) ?_ ?_ ?_ hrest
            · rfl
            · rfl
            · simp [h2.2]

lemma tryAcquireWriteLoop_congr {T : TranId} {v : VarId} (hs : σ'.sites = σ.sites)
    (hw : σ'.waitForGraph = σ.waitForGraph) (l : List SiteId) (ls : LockStatus) :
    σ'.tryAcquireWriteLoop T v l ls = σ.tryAcquireWriteLoop T v l ls := by
  induction l generalizing ls with
  | nil => rfl
  | cons s l ih =>
      rw [tryAcquireWriteLoop, tryAcquireWriteLoop]
      simp only [ih, isWriteAvailable, getVariable, isWaitingForOthers, hs, hw]
      rfl

/-- The answer depends on the sites and on the wait-for graph alone. -/
lemma tryAcquireWriteLock_congr {T : TranId} {v : VarId} (hs : σ'.sites = σ.sites)
    (hw : σ'.waitForGraph = σ.waitForGraph) :
    σ'.tryAcquireWriteLock T v = σ.tryAcquireWriteLock T v := by
  rw [tryAcquireWriteLock, tryAcquireWriteLock]
  simp only [tryAcquireWriteLoop_congr hs hw, isWriteAvailable, getVariable, isWaitingForOthers,
    hs, hw]
  rfl

/-- The sites of the copies of `v`, in the order in which the lock manager looks at them. -/
def copySites (v : VarId) : List SiteId := if v.isOdd then [v.home] else SiteId.all

/-- **The answers of the lock manager.** The test for an upgrade on an odd variable does not
look at the exclusive lock, so a copy that passes may have an exclusive owner beside its only
reader. -/
theorem tryAcquireWriteLock_answer (σ : State) (T : TranId) (v : VarId) :
    (v.isOdd = true ∧ σ.isWriteAvailable v.home = false ∧
      σ.tryAcquireWriteLock T v = { status := .siteUnavailable }) ∨
    Answer σ T v (copySites v) { status := .availableToAssign } (σ.tryAcquireWriteLock T v) := by
  rw [tryAcquireWriteLock, copySites]
  cases hv : v.isOdd with
  | false => exact Or.inr (tryAcquireWriteLoop_answer SiteId.all (Or.inr rfl))
  | true =>
      rw [if_pos rfl, if_pos rfl]
      cases hup : σ.isWriteAvailable v.home with
      | false => exact Or.inl ⟨rfl, rfl, rfl⟩
      | true =>
          refine Or.inr ?_
          rw [if_neg (by simp)]
          dsimp only
          split_ifs with h1 h2 h3
          · simp only [Bool.and_eq_true, Bool.not_eq_true'] at h1
            refine .grants (Or.inl rfl) ?_ ?_ ?_
            · simp [hup]
            · simp [Passes, h1.1.1]
            · simp [h1.1.1.1, hup]
          · refine .waits (by simp) hup ?_
            simpa [Conflicts, or_assoc, or_left_comm] using h2
          · exact .owns (by simp) hup h3
          · simp only [Bool.or_eq_true, not_or, Bool.not_eq_true] at h2 h3
            refine .grants (Or.inr rfl) ?_ ?_ ?_
            · simp [hup]
            · simp [Passes, h2.1.1, h2.1.2, h2.2, h3]
            · simp [h2.2]

/-- The sites of a request that is granted are those of the copies that are up. -/
lemma mem_siteIdSet {T : TranId} {v : VarId} {s : SiteId}
    (hg : LockGranted (σ.tryAcquireWriteLock T v)) :
    s ∈ (σ.tryAcquireWriteLock T v).siteIdSet ↔ s ∈ copySites v ∧ σ.isWriteAvailable s = true := by
  rcases tryAcquireWriteLock_answer σ T v with ⟨-, -, hls⟩ | ha
  · rw [hls] at hg
    simp [LockGranted] at hg
  generalize σ.tryAcquireWriteLock T v = ls at hg ha
  cases ha with
  | waits => simp [LockGranted] at hg
  | owns => simp [LockGranted] at hg
  | grants _ hL =>
      rw [hL]
      simp

/-! ### The checks and the stores of a commit -/

/-- The check of `commit`: the sites written to are up, and the copies read are readable. -/
def CommitOk (σ : State) (t : Transaction) : Prop :=
  (∀ s ∈ t.writeAccessedSites, σ.isWriteAvailable s = true) ∧
    ∀ s v x, t.readAccessedSites.get? s v = some x → σ.isReadAvailable s v = true

/-- All stores of the commit of `T`, with the records `t`. -/
def installAll (o : IterOrder) (T : TranId) (commitTime : Timestamp) (t : Transaction)
    (σ : State) : State :=
  (o.visit t.writeRecords.entries).foldl (installSite o T commitTime) σ

/-- The copies and values that a commit stores, in the order in which it stores them. -/
def stores (o : IterOrder) (t : Transaction) : List (SiteId × VarId × Value) :=
  (o.visit t.writeRecords.entries).flatMap fun e =>
    (o.visit e.2.entries).map fun p => (e.1, p.1, p.2)

/-- The entry of the trace for a store. -/
def storeEvent (T : TranId) (ts : Timestamp) (p : SiteId × VarId × Value) : Event :=
  .installs T p.1 p.2.1 p.2.2 ts

lemma commit_cases {T : TranId} {ts : Timestamp} {success : Bool}
    (h : σ.commit o T ts = .ok (success, σ')) :
    ∃ t, σ.transactions.lookup T = some t ∧
      ((success = true ∧ σ.CommitOk t ∧ σ' = σ.installAll o T ts t) ∨
        (success = false ∧ ¬σ.CommitOk t ∧ σ.abortTransaction o T = .ok σ')) := by
  rw [commit, bind_eq_ok] at h
  obtain ⟨t, ht, h⟩ := h
  refine ⟨t, getTransaction_eq_ok.mp ht, ?_⟩
  split_ifs at h with hw hr
  · refine Or.inr ?_
    rw [bind_eq_ok] at h
    obtain ⟨σ₁, h1, h⟩ := h
    cases h
    refine ⟨rfl, fun hok => ?_, h1⟩
    obtain ⟨e, he, hdown⟩ := List.any_eq_true.mp hw
    have hup := hok.1 e.1 (List.mem_map_of_mem ((o.mem_visit).mp he))
    simp [hup] at hdown
  · refine Or.inr ?_
    rw [bind_eq_ok] at h
    obtain ⟨σ₁, h1, h⟩ := h
    cases h
    refine ⟨rfl, fun hok => ?_, h1⟩
    obtain ⟨e, he, h2⟩ := List.any_eq_true.mp hr
    obtain ⟨p, hp, hdown⟩ := List.any_eq_true.mp h2
    have hup := hok.2 e.1 p.1 p.2 (AccessMap.get?_eq_some.mpr
      ⟨e.2, (o.mem_visit).mp he, (o.mem_visit).mp hp⟩)
    simp [hup] at hdown
  · refine Or.inl ?_
    cases h
    refine ⟨rfl, ⟨fun s hs => ?_, fun s v x hx => ?_⟩, rfl⟩
    · obtain ⟨e, he, rfl⟩ := List.mem_map.mp hs
      simp only [Bool.not_eq_true, List.any_eq_false] at hw
      simpa using hw e ((o.mem_visit).mpr he)
    · obtain ⟨vars, he, hp⟩ := AccessMap.get?_eq_some.mp hx
      simp only [Bool.not_eq_true, List.any_eq_false] at hr
      simpa using hr ⟨s, vars⟩ ((o.mem_visit).mpr he) ⟨v, x⟩ ((o.mem_visit).mpr hp)

/-! ### The outcomes -/

/-- What a read reports when it takes the value of the first site. -/
def firstRead (σ : State) (T : TranId) (v : VarId) : List SiteId → List Event
  | [] => []
  | s :: _ => [.reads T s v (σ.getVariable s v).value]

/-- **The outcomes of a request**, with the entries that they add to the trace. -/
inductive Outcome (o : IterOrder) (σ : State) : Request → List Event → State → Prop where
  | dumped {ts} : Outcome o σ (.dump ts) [.dumped] (σ.emit .dumped)
  | created {ts T isReadOnly} :
      Outcome o σ (.create ts T isReadOnly) [.created T isReadOnly]
        (σ.execCreate ts T isReadOnly)
  | failed {ts s σ'} : σ.execFail o s = .ok σ' →
      Outcome o σ (.fail ts s) ((o.visit (σ.writersAt o s)).map Event.aborted ++ [.failed s]) σ'
  | recovered {ts s} : Outcome o σ (.recover ts s) [.recovered s] (σ.execRecover o s)
  | unavailable {r T v} : r.access? = some (T, v) → v.isOdd = true →
      σ.isWriteAvailable v.home = false →
      (∀ ts, r = .read ts T v → σ.isReadAvailable v.home v = true) →
      Outcome o σ r [.unavailable r] (σ.emit (.unavailable r))
  | waitsForLock {r T v s} : r.access? = some (T, v) → s ∈ copySites v →
      σ.isWriteAvailable s = true → Conflicts (σ.getVariable s v) T →
      (σ.tryAcquireWriteLock T v).status = .needToWait →
      (∀ ts, r = .read ts T v → ∃ t, σ.transactions.lookup T = some t ∧ t.isReadOnly = false) →
      Outcome o σ r [.waitsForLock r] (((σ.assignWaitForGraph o T
        (waitOwners (σ.getVariable s v) T)).addRequestToBlockedQueue r).emit (.waitsForLock r))
  | waitsForSite {ts T v σ'} : v.isOdd = true → σ.isReadAvailable v.home v = false →
      σ.waitForSite (.read ts T v) T v.id v.home = .ok σ' →
      Outcome o σ (.read ts T v) [.waitsForSite (.read ts T v)] σ'
  | writeLocks {ts T v x σ₁ σ₂} : LockGranted (σ.tryAcquireWriteLock T v) →
      σ.updateValuesAt o T (σ.tryAcquireWriteLock T v).siteIdSet v x = .ok σ₁ →
      σ₁.assignWriteLock o T (σ.tryAcquireWriteLock T v).siteIdSet v = .ok σ₂ →
      Outcome o σ (.write ts T v x) [.writeLock T v (σ.tryAcquireWriteLock T v).siteIdSet x]
        (σ₂.emit (.writeLock T v (σ.tryAcquireWriteLock T v).siteIdSet x))
  | rewritesOdd {ts T v x σ₁} : v.isOdd = true →
      (σ.getVariable v.home v).hasExclusiveLock T = true →
      (σ.modifyTransaction T fun t => t.updateValues v.home v x) = .ok σ₁ →
      (σ.tryAcquireWriteLock T v).status = .hasWriteLock →
      Outcome o σ (.write ts T v x) [.rewrites T v x] (σ₁.emit (.rewrites T v x))
  | rewritesEven {ts T v x s} : v.isOdd = false →
      (σ.getVariable s v).hasExclusiveLock T = true →
      (σ.tryAcquireWriteLock T v).status = .hasWriteLock →
      Outcome o σ (.write ts T v x) [.rewrites T v x] (σ.emit (.rewrites T v x))
  | readsVersion {ts T v s t x σ₁} : σ.transactions.lookup T = some t → t.isReadOnly = true →
      s ∈ copySites v → σ.isReadAvailable s v = true →
      (σ.getVariable s v).getValue t.timestamp = some x →
      (σ.modifyTransaction T fun t => t.addReadHistory s v x) = .ok σ₁ →
      Outcome o σ (.read ts T v) [.reads T s v x] (σ₁.emit (.reads T s v x))
  | readAborts {ts T v t σ'} : σ.transactions.lookup T = some t → t.isReadOnly = true →
      v.isOdd = false → (∀ s, σ.isReadAvailable s v = false) →
      σ.abortTransaction o T = .ok σ' → Outcome o σ (.read ts T v) [.aborted T] σ'
  | sharesOdd {ts T v t σ₁ σ₂} : σ.transactions.lookup T = some t → t.isReadOnly = false →
      v.isOdd = true → (σ.tryAcquireWriteLock T v).status = .availableToAssign →
      σ.isReadAvailable v.home v = true →
      σ.assignShareLock o T (σ.tryAcquireWriteLock T v).siteIdSet v = .ok σ₁ →
      (σ₁.modifyTransaction T fun t =>
        t.addReadHistory v.home v (σ.getVariable v.home v).value) = .ok σ₂ →
      Outcome o σ (.read ts T v)
        [.sharedLock T v (σ.tryAcquireWriteLock T v).siteIdSet,
          .reads T v.home v (σ.getVariable v.home v).value]
        ((σ₂.emit (.sharedLock T v (σ.tryAcquireWriteLock T v).siteIdSet)).emit
          (.reads T v.home v (σ.getVariable v.home v).value))
  | sharesEven {ts T v t σ₁} : σ.transactions.lookup T = some t → t.isReadOnly = false →
      v.isOdd = false → (σ.tryAcquireWriteLock T v).status = .availableToAssign →
      (σ.readFirst T v (o.visit (σ.tryAcquireWriteLock T v).siteIdSet)).assignShareLock o T
        (σ.tryAcquireWriteLock T v).siteIdSet v = .ok σ₁ →
      Outcome o σ (.read ts T v)
        (σ.firstRead T v (o.visit (σ.tryAcquireWriteLock T v).siteIdSet) ++ [.sharedLock T v
          ((σ.tryAcquireWriteLock T v).siteIdSet.filter fun s => σ.isReadAvailable s v)])
        (σ₁.emit (.sharedLock T v
          ((σ.tryAcquireWriteLock T v).siteIdSet.filter fun s => σ.isReadAvailable s v)))
  | commits {ts T t σ₁} : σ.transactions.lookup T = some t → σ.CommitOk t →
      ((σ.installAll o T ts t).releaseLocks o T).evictTransaction T = .ok σ₁ →
      Outcome o σ (.finish ts T) ((stores o t).map (storeEvent T ts) ++ [.committed T])
        (σ₁.emit (.committed T))
  | commitFails {ts T t σ₁} : σ.transactions.lookup T = some t → ¬σ.CommitOk t →
      σ.abortTransaction o T = .ok σ₁ →
      Outcome o σ (.finish ts T) [.aborted T, .commitFailed T] (σ₁.emit (.commitFailed T))
  -- what is left of the requests whose variable does not exist
  | missingUnavailable {ts T v s x} : v.isOdd = true → v.home? = some s →
      σ.isWriteAvailable s = false →
      Outcome o σ (.missing ts (.write T v x)) [.unavailable (.missing ts (.write T v x))]
        (σ.emit (.unavailable (.missing ts (.write T v x))))
  | missingNothing {ts m} : m.isReadWrite = true → (∀ T v, m = .read T v → v.isOdd = false ∧
        ∃ t, σ.transactions.lookup T = some t ∧ t.isReadOnly = false) →
      Outcome o σ (.missing ts m) [.locksNothing (.missing ts m)]
        (σ.emit (.locksNothing (.missing ts m)))
  | missingWaits {ts T v s t σ'} : v.isOdd = true → v.home? = some s →
      σ.transactions.lookup T = some t →
      σ.waitForSite (.missing ts (.read T v)) T v.id s = .ok σ' →
      Outcome o σ (.missing ts (.read T v)) [.waitsForSite (.missing ts (.read T v))] σ'
  | missingAborts {ts T v t σ'} : σ.transactions.lookup T = some t → t.isReadOnly = true →
      v.isOdd = false → σ.abortTransaction o T = .ok σ' →
      Outcome o σ (.missing ts (.read T v)) [.aborted T] σ'

lemma updateValuesAt_singleton (σ : State) (T : TranId) (s : SiteId) (v : VarId) (x : Value) :
    σ.updateValuesAt o T [s] v x = σ.modifyTransaction T fun t => t.updateValues s v x := by
  have h : o.visit [s] = [s] := List.perm_singleton.mp (o.perm [s])
  rw [updateValuesAt, h]
  exact bind_pure _

@[simp] lemma updateValuesAt_nil (σ : State) (T : TranId) (v : VarId) (x : Value) :
    σ.updateValuesAt o T [] v x = .ok σ := by
  rw [updateValuesAt, (o.visit_eq_nil).mpr rfl]
  rfl

/-- The sites of an odd variable that is granted are its home alone. -/
lemma siteIdSet_of_odd {T : TranId} {v : VarId} (hv : v.isOdd = true)
    (hg : LockGranted (σ.tryAcquireWriteLock T v)) :
    (σ.tryAcquireWriteLock T v).siteIdSet = [v.home] := by
  rw [tryAcquireWriteLock, if_pos hv] at hg ⊢
  dsimp only at hg ⊢
  split_ifs at hg ⊢ <;> first | rfl | simp [LockGranted] at hg

lemma execWrite_outcome {ts : Timestamp} {T : TranId} {v : VarId} {x : Value}
    (h : σ.execWrite o ts T v x = .ok σ') : ∃ es, Outcome o σ (.write ts T v x) es σ' := by
  have ha := tryAcquireWriteLock_answer σ T v
  rw [execWrite] at h
  rcases ha with ⟨hv, hup, hls⟩ | ha
  · rw [hls, if_pos hv] at h
    cases h
    exact ⟨_, .unavailable rfl hv hup (by simp)⟩
  generalize hls : σ.tryAcquireWriteLock T v = ls at h ha
  cases ha with
  | waits hs hup hc =>
      have hst : (σ.tryAcquireWriteLock T v).status = .needToWait := by rw [hls]
      rw [ite_self] at h
      cases h
      exact ⟨_, .waitsForLock rfl hs hup hc hst (by simp)⟩
  | owns hs hup hx =>
      have hst : (σ.tryAcquireWriteLock T v).status = .hasWriteLock := by rw [hls]
      cases hv : v.isOdd with
      | true =>
          rw [if_pos hv, bind_eq_ok] at h
          obtain ⟨σ₁, h1, h2⟩ := h
          cases h2
          rw [copySites, if_pos hv, List.mem_singleton] at hs
          exact ⟨_, .rewritesOdd hv (hs ▸ hx) h1 hst⟩
      | false =>
          rw [if_neg (by simp [hv])] at h
          dsimp only at h
          rw [updateValuesAt_nil, ok_bind] at h
          cases h
          exact ⟨_, .rewritesEven hv hx hst⟩
  | grants hg hL hp hst =>
      subst hls
      cases hv : v.isOdd with
      | true =>
          rw [if_pos hv] at h
          rcases hg with hs | hs
          all_goals
            rw [hs] at h
            dsimp only at h
            rw [bind_eq_ok] at h
            obtain ⟨σ₁, h1, h⟩ := h
            rw [bind_eq_ok] at h
            obtain ⟨σ₂, h2, h⟩ := h
            cases h
            have hgr : LockGranted (σ.tryAcquireWriteLock T v) := by simp [LockGranted, hs]
            rw [← updateValuesAt_singleton (o := o), ← siteIdSet_of_odd hv hgr] at h1
            exact ⟨_, .writeLocks hgr h1 h2⟩
      | false =>
          rw [if_neg (by simp [hv])] at h
          rcases hg with hs | hs
          all_goals
            rw [hs] at h
            dsimp only [grantWrite] at h
            rw [bind_eq_ok] at h
            obtain ⟨σ₁, h1, h⟩ := h
            rw [bind_eq_ok] at h
            obtain ⟨σ₂, h2, h⟩ := h
            cases h
            exact ⟨_, .writeLocks (by simp [LockGranted, hs]) h1 h2⟩

lemma handleReadOnlyRequest_outcome {ts : Timestamp} {T : TranId} {v : VarId} {t : Transaction}
    (ht : σ.transactions.lookup T = some t) (hro : t.isReadOnly = true)
    (h : σ.handleReadOnlyRequest o ts T v = .ok σ') : ∃ es, Outcome o σ (.read ts T v) es σ' := by
  rw [handleReadOnlyRequest, getTransaction_eq_ok.mpr ht, ok_bind] at h
  -- both kinds of variables read a version in the same way
  have hread : ∀ {s}, s ∈ copySites v → σ.isReadAvailable s v = true →
      σ.readVersion T t.timestamp s v = .ok σ' → ∃ es, Outcome o σ (.read ts T v) es σ' := by
    intro s hs hr h
    rw [readVersion] at h
    cases hx : (σ.getVariable s v).getValue t.timestamp with
    | none => simp [hx] at h
    | some x =>
        simp only [hx] at h
        rw [bind_eq_ok] at h
        obtain ⟨σ₁, h1, h⟩ := h
        cases h
        exact ⟨_, .readsVersion ht hro hs hr hx h1⟩
  cases hv : v.isOdd with
  | true =>
      rw [if_pos hv] at h
      cases hr : σ.isReadAvailable v.home v with
      | true =>
          rw [if_pos hr] at h
          exact hread (by simp [copySites, hv]) hr h
      | false =>
          rw [if_neg (by simp [hr])] at h
          exact ⟨_, .waitsForSite hv hr h⟩
  | false =>
      rw [if_neg (by simp [hv])] at h
      cases hf : SiteId.all.find? fun s => σ.isReadAvailable s v with
      | some s =>
          simp only [hf] at h
          exact hread (by simp [copySites, hv]) 
            (List.find?_some (p := fun s => σ.isReadAvailable s v) hf) h
      | none =>
          simp only [hf] at h
          refine ⟨_, .readAborts ht hro hv (fun s => ?_) h⟩
          simpa using List.find?_eq_none.mp hf s (by simp)

lemma handleReadRequest_outcome {ts : Timestamp} {T : TranId} {v : VarId} {t : Transaction}
    (ht : σ.transactions.lookup T = some t) (hro : t.isReadOnly = false)
    (h : σ.handleReadRequest o ts T v = .ok σ') : ∃ es, Outcome o σ (.read ts T v) es σ' := by
  have ha := tryAcquireWriteLock_answer σ T v
  rw [handleReadRequest, getTransaction_eq_ok.mpr ht, ok_bind] at h
  cases hv : v.isOdd with
  | true =>
      rw [if_pos hv] at h
      cases hr : σ.isReadAvailable v.home v with
      | false =>
          rw [if_neg (by simp [hr])] at h
          exact ⟨_, .waitsForSite hv hr h⟩
      | true =>
          rw [if_pos hr] at h
          rcases ha with ⟨-, hup, hls⟩ | ha
          · rw [hls] at h
            cases h
            exact ⟨_, .unavailable rfl hv hup fun _ _ => hr⟩
          generalize hls : σ.tryAcquireWriteLock T v = ls at h ha
          cases ha with
          | waits hs hup hc =>
              have hst : (σ.tryAcquireWriteLock T v).status = .needToWait := by rw [hls]
              cases h
              exact ⟨_, .waitsForLock rfl hs hup hc hst fun _ _ => ⟨t, ht, hro⟩⟩
          | owns hs hup hx => cases h
          | grants hg hL hp hst =>
              subst hls
              rcases hg with hs | hs
              · rw [hs] at h
                cases h
              · rw [hs] at h
                dsimp only at h
                rw [bind_eq_ok] at h
                obtain ⟨σ₁, h1, h⟩ := h
                rw [bind_eq_ok] at h
                obtain ⟨σ₂, h2, h⟩ := h
                cases h
                exact ⟨_, .sharesOdd ht hro hv hs hr h1 h2⟩
  | false =>
      rw [if_neg (by simp [hv])] at h
      rcases ha with ⟨hv', -⟩ | ha
      · simp [hv] at hv'
      generalize hls : σ.tryAcquireWriteLock T v = ls at h ha
      cases ha with
      | waits hs hup hc =>
          have hst : (σ.tryAcquireWriteLock T v).status = .needToWait := by rw [hls]
          cases h
          exact ⟨_, .waitsForLock rfl hs hup hc hst fun _ _ => ⟨t, ht, hro⟩⟩
      | owns hs hup hx => cases h
      | grants hg hL hp hst =>
          subst hls
          rcases hg with hs | hs
          · rw [hs] at h
            cases h
          · rw [hs] at h
            dsimp only at h
            rw [bind_eq_ok] at h
            obtain ⟨σ₁, h1, h⟩ := h
            cases h
            exact ⟨_, .sharesEven ht hro hv hs h1⟩

lemma execMissing_outcome {ts : Timestamp} {m : Missing} (h : σ.execMissing o ts m = .ok σ') :
    ∃ es, Outcome o σ (.missing ts m) es σ' := by
  cases m with
  | write T v x =>
      -- an available site would have led to a null pointer
      have hnull : ∀ {σ'' : State}, (σ.getTransaction T >>= fun _ => .error .nullPointer) ≠
          .ok σ'' := by
        intro σ'' h
        obtain ⟨t, -, h⟩ := bind_eq_ok.mp h
        cases h
      rw [execMissing, execWriteMissing] at h
      split_ifs at h with hv
      · split at h
        · cases h
        · split_ifs at h with hs
          · cases h
            exact ⟨_, .missingUnavailable hv (by assumption) (by simpa using hs)⟩
          · exact absurd h hnull
      · exact absurd h hnull
      · cases h
        exact ⟨_, .missingNothing rfl (by simp)⟩
  | read T v =>
      rw [execMissing, execReadMissing, bind_eq_ok] at h
      obtain ⟨t, ht, h⟩ := h
      rw [getTransaction_eq_ok] at ht
      split_ifs at h with hv hro
      · split at h
        · cases h
        · exact ⟨_, .missingWaits hv (by assumption) ht h⟩
      · exact ⟨_, .missingAborts ht hro (by simpa using hv) h⟩
      · cases h
        refine ⟨_, .missingNothing rfl fun T' v' heq => ?_⟩
        cases heq
        exact ⟨by simpa using hv, t, ht, by simpa using hro⟩
  | fail s | recover s => cases h

/-- **Every execution has an outcome.** -/
theorem exec_outcome {r : Request} (h : σ.exec o r = .ok σ') : ∃ es, Outcome o σ r es σ' := by
  cases r with
  | write ts T v x => exact execWrite_outcome h
  | read ts T v =>
      rw [exec, execRead, bind_eq_ok] at h
      obtain ⟨t, ht, h⟩ := h
      rw [getTransaction_eq_ok] at ht
      cases hro : t.isReadOnly with
      | true =>
          rw [if_pos hro] at h
          exact handleReadOnlyRequest_outcome ht hro h
      | false =>
          rw [if_neg (by simp [hro])] at h
          exact handleReadRequest_outcome ht hro h
  | create ts T isReadOnly =>
      cases h
      exact ⟨_, .created⟩
  | finish ts T =>
      rw [exec, execFinish, bind_eq_ok] at h
      obtain ⟨⟨success, σ₁⟩, h1, h⟩ := h
      obtain ⟨t, ht, ⟨rfl, hok, rfl⟩ | ⟨rfl, hno, ha⟩⟩ := commit_cases h1
      · dsimp only at h
        rw [if_pos rfl, bind_eq_ok] at h
        obtain ⟨σ₂, h2, h⟩ := h
        cases h
        exact ⟨_, .commits ht hok h2⟩
      · cases h
        exact ⟨_, .commitFails ht hno ha⟩
  | dump ts =>
      cases h
      exact ⟨_, .dumped⟩
  | fail ts s => exact ⟨_, .failed h⟩
  | recover ts s =>
      cases h
      exact ⟨_, .recovered⟩
  | missing ts m => exact execMissing_outcome h

/-- Waiting for a site, for the first time or again. -/
lemma waitForSite_cases {r : Request} {T : TranId} {n : ℤ} {s : SiteId}
    (h : σ.waitForSite r T n s = .ok σ') :
    (T ∈ σ.siteWaitingMap ∧ σ' = (σ.addRequestToBlockedQueue r).emit (.waitsForSite r)) ∨
    (T ∉ σ.siteWaitingMap ∧ ∃ σ₁,
      (σ.modifyTransaction T fun t => t.setWaitingVarId n) = .ok σ₁ ∧
      σ' = ((σ₁.addToSiteWaitingMap T s).addRequestToBlockedQueue r).emit
        (.waitsForSite r)) := by
  rw [waitForSite, isTransactionWaitingForSite] at h
  split_ifs at h with hT
  · cases h
    exact Or.inl ⟨of_decide_eq_true hT, rfl⟩
  · rw [bind_eq_ok] at h
    obtain ⟨σ₁, h1, h2⟩ := h
    cases h2
    exact Or.inr ⟨fun hm => hT (decide_eq_true hm), σ₁, h1, rfl⟩

end State

end RepCRec
