import RepCRec.Engine.Frame
import RepCRec.Engine.Outcome

/-!
The stores of a commit as one loop over the copies that it writes (`installAll_eq`), and what
the loop does to each copy.
-/

namespace RepCRec

open Container (IterOrder)

namespace State

variable {σ σ' : State} {T : TranId} {v : VarId} {x : Value} {o : IterOrder}

/-- One store of a commit. -/
def installCopy (T : TranId) (ts : Timestamp) (σ : State) (p : SiteId × VarId × Value) : State :=
  (σ.modifySite p.1 fun st => (st.assignVar p.2.1 p.2.2 ts).setReadAvailable p.2.1).emit
    (.installs T p.1 p.2.1 p.2.2 ts)

/-- The stores of a commit are the recorded writes. -/
lemma mem_stores {t : Transaction} {s : SiteId} :
    (s, v, x) ∈ stores o t ↔ t.writeRecords.get? s v = some x := by
  rw [AccessMap.get?_eq_some, stores, List.mem_flatMap]
  constructor
  · rintro ⟨e, he, hp⟩
    obtain ⟨q, hq, heq⟩ := List.mem_map.mp hp
    cases heq
    exact ⟨e.2, (o.mem_visit).mp he, (o.mem_visit).mp hq⟩
  · rintro ⟨vars, he, hp⟩
    exact ⟨⟨s, vars⟩, (o.mem_visit).mpr he,
      List.mem_map.mpr ⟨⟨v, x⟩, (o.mem_visit).mpr hp, rfl⟩⟩

/-- A commit stores into each copy at most once. -/
lemma nodup_stores (o : IterOrder) (t : Transaction) : (stores o t).Nodup := by
  have hkeys : ∀ {K V : Type} [DecidableEq K] (m : Dict K V),
      (o.visit m.entries).Pairwise fun e e' => e.1 ≠ e'.1 := fun m =>
    (o.perm m.entries).symm.pairwise m.nodupKeys.pairwise_ne fun h => h.symm
  refine List.nodup_flatMap.mpr ⟨fun e _ => List.Pairwise.map _ ?_ (hkeys e.2), ?_⟩
  · exact fun p p' hne heq => hne (congrArg (fun q : SiteId × VarId × Value => q.2.1) heq)
  · refine (hkeys t.writeRecords).imp fun {e e'} hne q hq hq' => ?_
    obtain ⟨p, -, rfl⟩ := List.mem_map.mp hq
    obtain ⟨p', -, heq⟩ := List.mem_map.mp hq'
    exact hne (congrArg Prod.fst heq).symm

/-- The two loops of a commit are one loop over its stores. -/
lemma installAll_eq (σ : State) (T : TranId) (ts : Timestamp) (t : Transaction) :
    σ.installAll o T ts t = (stores o t).foldl (installCopy T ts) σ := by
  rw [installAll, stores, List.foldl_flatMap]
  simp only [List.foldl_map]
  rfl

section Stores

variable (T : TranId) (ts : Timestamp) (σ : State) (p : SiteId × VarId × Value)

/-- A store changes one copy. -/
lemma getVariable_installCopy (s : SiteId) (v : VarId) :
    (installCopy T ts σ p).getVariable s v = if s = p.1 ∧ v = p.2.1
      then (σ.getVariable s v).setValue p.2.2 ts else σ.getVariable s v := by
  by_cases hs : s = p.1
  · subst hs
    by_cases hv : v = p.2.1
    · subst hv
      simp [installCopy, getVariable, sites_modifySite, Site.assignVar, Site.setReadAvailable]
    · simp [installCopy, getVariable, sites_modifySite, Site.assignVar, Site.setReadAvailable, hv]
  · simp [installCopy, getVariable, sites_modifySite, hs]

/-- A store makes its copy readable. -/
lemma isReadAvailable_installCopy (s : SiteId) (v : VarId) :
    (installCopy T ts σ p).isReadAvailable s v =
      (σ.isReadAvailable s v || decide (s = p.1 ∧ v = p.2.1)) := by
  by_cases hs : s = p.1
  · subst hs
    by_cases hv : v = p.2.1
    · subst hv
      simp [installCopy, isReadAvailable, sites_modifySite, Site.assignVar, Site.setReadAvailable]
    · simp [installCopy, isReadAvailable, sites_modifySite, Site.assignVar, Site.setReadAvailable,
        hv]
  · simp [installCopy, isReadAvailable, sites_modifySite, hs]

/-- A store brings no site up. -/
lemma isWriteAvailable_installCopy (s : SiteId) :
    (installCopy T ts σ p).isWriteAvailable s = σ.isWriteAvailable s := by
  by_cases hs : s = p.1
  · subst hs
    simp [installCopy, isWriteAvailable, sites_modifySite, Site.assignVar, Site.setReadAvailable]
  · simp [installCopy, isWriteAvailable, sites_modifySite, hs]

end Stores

/-- What a sequence of stores leaves as it was. -/
structure SameLocks (σ σ' : State) : Prop where
  excl : ∀ s v, (σ'.getVariable s v).exclusiveLockOwner = (σ.getVariable s v).exclusiveLockOwner
  shared : ∀ s v, (σ'.getVariable s v).sharedLockOwners = (σ.getVariable s v).sharedLockOwners
  up : ∀ s, σ'.isWriteAvailable s = σ.isWriteAvailable s
  transactions : σ'.transactions = σ.transactions
  lockTable : σ'.lockTable = σ.lockTable
  waitForGraph : σ'.waitForGraph = σ.waitForGraph
  transactionsSet : σ'.transactionsSet = σ.transactionsSet
  siteWaitingMap : σ'.siteWaitingMap = σ.siteWaitingMap
  queue : σ'.blockedTransactionsQueue = σ.blockedTransactionsQueue
  request : σ'.request = σ.request

lemma sameLocks_installCopy (σ : State) (T : TranId) (ts : Timestamp)
    (p : SiteId × VarId × Value) : SameLocks σ (installCopy T ts σ p) where
  excl s v := by
    rw [getVariable_installCopy]
    split_ifs <;> rfl
  shared s v := by
    rw [getVariable_installCopy]
    split_ifs <;> rfl
  up := isWriteAvailable_installCopy T ts σ p
  transactions := rfl
  lockTable := rfl
  waitForGraph := rfl
  transactionsSet := rfl
  siteWaitingMap := rfl
  queue := rfl
  request := rfl

lemma SameLocks.trans {σ σ₁ σ₂ : State} (h : SameLocks σ σ₁) (h' : SameLocks σ₁ σ₂) :
    SameLocks σ σ₂ where
  excl s v := (h'.excl s v).trans (h.excl s v)
  shared s v := (h'.shared s v).trans (h.shared s v)
  up s := (h'.up s).trans (h.up s)
  transactions := h'.transactions.trans h.transactions
  lockTable := h'.lockTable.trans h.lockTable
  waitForGraph := h'.waitForGraph.trans h.waitForGraph
  transactionsSet := h'.transactionsSet.trans h.transactionsSet
  siteWaitingMap := h'.siteWaitingMap.trans h.siteWaitingMap
  queue := h'.queue.trans h.queue
  request := h'.request.trans h.request

lemma sameLocks_foldl (T : TranId) (ts : Timestamp) (l : List (SiteId × VarId × Value))
    (σ : State) : SameLocks σ (l.foldl (installCopy T ts) σ) := by
  induction l generalizing σ with
  | nil => exact ⟨fun _ _ => rfl, fun _ _ => rfl, fun _ => rfl, rfl, rfl, rfl, rfl, rfl, rfl, rfl⟩
  | cons p l ih => exact (sameLocks_installCopy σ T ts p).trans (ih _)

/-- A commit changes no lock when it stores its values. -/
lemma sameLocks_installAll (σ : State) (T : TranId) (ts : Timestamp) (t : Transaction) :
    SameLocks σ (σ.installAll o T ts t) := by
  rw [installAll_eq]
  exact sameLocks_foldl T ts (stores o t) σ

/-- Every store has its entry in the trace. -/
lemma trace_foldl_installCopy (T : TranId) (ts : Timestamp) (l : List (SiteId × VarId × Value))
    (σ : State) :
    (l.foldl (installCopy T ts) σ).trace = σ.trace ++ l.map (storeEvent T ts) := by
  induction l generalizing σ with
  | nil => simp
  | cons p l ih =>
      rw [List.foldl_cons, ih, List.map_cons, List.append_cons]
      rfl

/-- The readable copies after some stores. -/
lemma isReadAvailable_foldl_installCopy (T : TranId) (ts : Timestamp)
    (l : List (SiteId × VarId × Value)) (σ : State) (s : SiteId) (v : VarId) :
    (l.foldl (installCopy T ts) σ).isReadAvailable s v = true ↔
      σ.isReadAvailable s v = true ∨ ∃ x, (s, v, x) ∈ l := by
  induction l generalizing σ with
  | nil => simp
  | cons p l ih =>
      obtain ⟨s', v', x'⟩ := p
      rw [List.foldl_cons, ih, isReadAvailable_installCopy, Bool.or_eq_true, decide_eq_true_iff,
        or_assoc]
      refine or_congr_right ⟨?_, ?_⟩
      · rintro (⟨rfl, rfl⟩ | ⟨x, hx⟩)
        · exact ⟨x', List.mem_cons_self⟩
        · exact ⟨x, List.mem_cons_of_mem _ hx⟩
      · rintro ⟨x, hx⟩
        rcases List.mem_cons.mp hx with heq | hx
        · cases heq
          exact Or.inl ⟨rfl, rfl⟩
        · exact Or.inr ⟨x, hx⟩

open Classical in
/-- The stores give each copy that they reach the value that `f` has for it. -/
lemma value_foldl_installCopy (T : TranId) (ts : Timestamp) {f : SiteId → VarId → Option Value}
    {l : List (SiteId × VarId × Value)} (hl : ∀ s v x, (s, v, x) ∈ l → f s v = some x)
    (σ : State) (s : SiteId) (v : VarId) :
    ((l.foldl (installCopy T ts) σ).getVariable s v).value =
      if ∃ x, (s, v, x) ∈ l then (f s v).getD (σ.getVariable s v).value
      else (σ.getVariable s v).value := by
  induction l generalizing σ with
  | nil => simp
  | cons p l ih =>
      obtain ⟨s', v', x'⟩ := p
      have hp : f s' v' = some x' := hl s' v' x' List.mem_cons_self
      rw [List.foldl_cons, ih fun s v x h => hl s v x (List.mem_cons_of_mem _ h),
        getVariable_installCopy]
      dsimp only
      by_cases hsv : s = s' ∧ v = v'
      · obtain ⟨rfl, rfl⟩ := hsv
        rw [if_pos (show ∃ x, (s, v, x) ∈ (s, v, x') :: l from ⟨x', List.mem_cons_self⟩)]
        simp [hp, Variable.setValue]
      · have hmem : (∃ x, (s, v, x) ∈ (s', v', x') :: l) ↔ ∃ x, (s, v, x) ∈ l := by
          refine exists_congr fun x => ⟨fun h => ?_, List.mem_cons_of_mem _⟩
          exact (List.mem_cons.mp h).resolve_left fun h => hsv (by cases h; exact ⟨rfl, rfl⟩)
        simp only [hsv, if_false, hmem]

/-! ### The trace -/

lemma trace_installAll (σ : State) (T : TranId) (ts : Timestamp) (t : Transaction) :
    (σ.installAll o T ts t).trace = σ.trace ++ (stores o t).map (storeEvent T ts) := by
  rw [installAll_eq, trace_foldl_installCopy]

/-- A read under a lock has at most one entry in the trace. -/
lemma trace_readFirst (σ : State) (T : TranId) (v : VarId) (l : List SiteId) :
    (σ.readFirst T v l).trace = σ.trace ++ σ.firstRead T v l := by
  cases l with
  | nil => exact (List.append_nil _).symm
  | cons s l => rfl

lemma trace_modifyTransaction {f : Transaction → Transaction}
    (h : σ.modifyTransaction T f = .ok σ') : σ'.trace = σ.trace := by
  obtain ⟨t, -, rfl⟩ := modifyTransaction_eq_ok.mp h
  rfl

/-- Every abort has its entry in the trace. -/
lemma trace_foldlM_abort {l : List TranId}
    (h : l.foldlM (fun σ T => σ.abortTransaction o T) σ = .ok σ') :
    σ'.trace = σ.trace ++ l.map Event.aborted := by
  induction l generalizing σ with
  | nil =>
      cases h
      simp
  | cons T l ih =>
      rw [List.foldlM_cons, Container.bind_eq_ok] at h
      obtain ⟨σ₁, h1, h⟩ := h
      rw [ih h, (gone_abortTransaction h1).2.2, List.append_assoc, List.map_cons,
        List.singleton_append]

/-- **The trace grows by the entries of the outcome.** -/
theorem Outcome.trace {r : Request} {es : List Event} (h : Outcome o σ r es σ') :
    σ'.trace = σ.trace ++ es := by
  cases h with
  | dumped => rfl
  | created => rfl
  | failed h =>
      rw [execFail, Container.bind_eq_ok] at h
      obtain ⟨σ₁, h1, h⟩ := h
      cases h
      rw [trace_emit, trace_foldlM_abort h1, List.append_assoc]
      rfl
  | recovered => exact (recovered_execRecover σ o _).trace
  | unavailable | missingUnavailable | missingNothing => rfl
  | waitsForLock => rfl
  | waitsForSite _ _ h | missingWaits _ _ _ h =>
      rcases waitForSite_cases h with ⟨-, rfl⟩ | ⟨-, σ₁, h1, rfl⟩
      · rfl
      · rw [trace_emit, ← trace_modifyTransaction h1]
        rfl
  | writeLocks _ h1 h2 =>
      rw [trace_emit, (Quiet.assignWriteLock h2).trace, (Quiet.updateValuesAt h1).trace]
  | rewritesOdd _ _ h _ => rw [trace_emit, trace_modifyTransaction h]
  | rewritesEven => rfl
  | readsVersion _ _ _ _ _ h => rw [trace_emit, trace_modifyTransaction h]
  | readAborts _ _ _ _ h | missingAborts _ _ _ h => exact (gone_abortTransaction h).2.2
  | sharesOdd _ _ _ _ _ h1 h2 =>
      rw [trace_emit, trace_emit, trace_modifyTransaction h2, (Quiet.assignShareLock h1).trace,
        List.append_assoc]
      rfl
  | sharesEven _ _ _ _ h =>
      rw [trace_emit, (Quiet.assignShareLock h).trace, trace_readFirst, List.append_assoc]
  | commits _ _ h =>
      rw [trace_emit, (gone_releaseLocks h).2.2, trace_installAll, List.append_assoc]
  | commitFails _ _ h =>
      rw [trace_emit, (gone_abortTransaction h).2.2, List.append_assoc]
      rfl

end State

end RepCRec
