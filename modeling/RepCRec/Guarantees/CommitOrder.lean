import RepCRec.Engine.Sites
import RepCRec.Guarantees.Replication
import RepCRec.Refinement.Blocking
import RepCRec.Refinement.Serving
import RepCRec.Refinement.Stamps

/-!
The order of the versions of a copy. A commit stores under the timestamp with which the end of its
transaction was issued, and this end may have waited in the queue. The versions are stored under
increasing timestamps as long as no write gets a lock on a copy with a version that is younger than
the blocked end of its own transaction (`versions_in_commit_order`); then the current value of a
copy is its youngest version. Without this a commit may store below a version that is there already
(`late_commit`).
-/

namespace RepCRec

open Container (IterOrder SortedByKey)

namespace State

variable {o : IterOrder} {σ σ' : State} {r : Request} {es : List Event} {T : TranId} {v : VarId}
  {s : SiteId} {x : Value} {e : Timestamp} {l l' : List Feed}

/-! ### Blocked ends and granted writes -/

/-- A write does not get the lock of a copy that has a version as young as a blocked end of its
transaction. -/
def GrantedInOrder (σ : State) : Request → Prop
  | .write _ T v _ => LockGranted (σ.tryAcquireWriteLock T v) → ∀ e ∈ σ.queuedEnds T,
      ∀ s ∈ (σ.tryAcquireWriteLock T v).siteIdSet, ∀ p ∈ (σ.getVariable s v).versions, p.1 < e
  | _ => True

/-- A blocked end was blocked before the request. -/
lemma Outcome.queuedEnds_subset (h : Outcome o σ r es σ') (he : e ∈ σ'.queuedEnds T) :
    e ∈ σ.queuedEnds T := by
  obtain ⟨rs, hrs, hr⟩ := mem_queuedEnds.mp he
  obtain ⟨-, ⟨rfl, -, hw⟩ | hq⟩ := h.mem_of_lookup_queue hrs hr
  · obtain ⟨-, hrw, -⟩ := h.waits hw
    cases hrw
  · exact mem_queuedEnds.mpr hq

/-- A pending write was pending before the request, or the lock for it has just been granted. -/
lemma Outcome.pending_cases (hg : σ.Good) (h : Outcome o σ r es σ') (hp : σ'.pending T s v ≠ none) :
    σ.pending T s v ≠ none ∨ ∃ ts x, r = .write ts T v x ∧
      LockGranted (σ.tryAcquireWriteLock T v) ∧ s ∈ (σ.tryAcquireWriteLock T v).siteIdSet := by
  let B := fun T s v => σ.pending T s v ≠ none ∨ ∃ ts x, r = Request.write ts T v x ∧
    LockGranted (σ.tryAcquireWriteLock T v) ∧ s ∈ (σ.tryAcquireWriteLock T v).siteIdSet
  have hall : σ'.TransactionsAll fun T t => ∀ s v, t.writeRecords.get? s v ≠ none → B T s v := by
    refine TransactionsAll.exec (fun T t ht s v hx => Or.inl ?_) h (fun T t hw _ s v hx => ?_)
      (fun ht hw _ s v hx => ht s v (hw ▸ hx)) fun {ts T v x s t} heq hwr ht s' v' hx => ?_
    · simpa [State.pending, ht] using hx
    · rw [hw, AccessMap.get?_empty] at hx
      exact absurd rfl hx
    · rw [Transaction.updateValues, AccessMap.get?_set] at hx
      split_ifs at hx with hsv
      · obtain ⟨rfl, rfl⟩ := hsv
        rcases hwr with ⟨hgr, hs⟩ | ⟨-, -, hown⟩
        · exact Or.inr ⟨ts, x, heq, hgr, hs⟩
        · exact Or.inl (hg.inv.pending_iff.mpr (beq_iff_eq.mp hown))
      · exact ht s' v' hx
  obtain ⟨x, hx⟩ := Option.ne_none_iff_exists'.mp hp
  obtain ⟨t, ht, hx⟩ := Option.bind_eq_some_iff.mp hx
  exact hall T t ht s v (by simp [hx])

/-- A request stores at most once into a copy: a commit, if its transaction has a pending write
there. -/
lemma Outcome.installsAt_cases (h : Outcome o σ r es σ') (s : SiteId) (v : VarId) :
    installsAt es s v = [] ∨ ∃ e T x, r = .finish e T ∧ σ.pending T s v = some x ∧
      T ∉ σ'.transactions ∧ installsAt es s v = [(e, x)] := by
  refine or_iff_not_imp_left.mpr fun hne => ?_
  obtain ⟨p, hp⟩ := List.exists_mem_of_ne_nil _ hne
  obtain ⟨T, hi⟩ := mem_installsAt.mp hp
  have hc := h.committed_of_installs hi
  obtain ⟨rfl, t, ht, -, hx⟩ := h.installs_mem hi
  refine ⟨_, T, p.2, rfl, by simp [pending, ht, hx],
    fun hT => (h.mem_transactions.mp hT).2.1 hc, ?_⟩
  cases h with
  | @commits ts _ t' _ ht' _ _ =>
      rw [ht] at ht'
      cases ht'
      have hend : installsAt [.committed T] s v = [] := rfl
      rw [installsAt_append, hend, List.append_nil, installsAt_stores, hx]
      rfl
  | commitFails => simp at hc
  | unavailable ha => cases ha
  | waitsForLock ha => cases ha

/-! ### The order of the stores -/

/-- The stores into each copy carry increasing timestamps, and a blocked end is later than the
versions of the copies that its transaction has written to. -/
structure CommitOrdered (l : List Feed) (σ : State) : Prop where
  stamped : Stamped l σ
  sorted : ∀ s v, SortedByKey Prod.fst (installsAt σ.trace s v)
  awaited : ∀ {T e s v}, e ∈ σ.queuedEnds T → σ.pending T s v ≠ none →
    ∀ p ∈ installsAt σ.trace s v, p.1 < e

namespace CommitOrdered

lemma stamp_nonneg (h : CommitOrdered l σ) {p : Timestamp × Value}
    (hp : p ∈ installsAt σ.trace s v) :
    0 ≤ p.1 := by
  obtain ⟨T, hi⟩ := mem_installsAt.mp hp
  exact h.stamped.stamp hi

/-- The versions of a copy are the stores, after the initial one. -/
lemma sorted_versions (h : CommitOrdered l σ) (s : SiteId) (v : VarId) :
    SortedByKey Prod.fst ((-1, (v.id : Value) * 10) :: installsAt σ.trace s v) ∧
      (σ.getVariable s v).versions = (-1, (v.id : Value) * 10) :: installsAt σ.trace s v := by
  have hs : SortedByKey Prod.fst ((-1, (v.id : Value) * 10) :: installsAt σ.trace s v) := by
    refine List.pairwise_cons.mpr ⟨fun p hp => ?_, h.sorted s v⟩
    have h0 : (0 : ℤ) ≤ p.1 := h.stamp_nonneg hp
    exact (show (-1 : ℤ) < 0 by decide).trans_le h0
  refine ⟨hs, (h.stamped.stored s v).versions.trans ?_⟩
  exact Container.assignAll_of_sorted hs

/-- The end of the next instruction is later than all stores. -/
lemma lt_of_pending (h : CommitOrdered l σ) {y : Feed} (hy : AdmissibleNext l y)
    (hr : y.insr.request y.timestamp = .ok r) {p : Timestamp × Value}
    (hp : p ∈ installsAt σ.trace s v) : p.1 < r.timestamp := by
  obtain ⟨T, hi⟩ := mem_installsAt.mp hp
  exact Executes.lt_of_pending hy hr (h.stamped.fed hi).1

lemma congr (h : CommitOrdered l σ) (hs : σ'.sites = σ.sites)
    (ht : σ'.transactions = σ.transactions) (htr : σ'.trace = σ.trace)
    (hq : ∀ {T e}, e ∈ σ'.queuedEnds T → e ∈ σ.queuedEnds T) : CommitOrdered l σ' where
  stamped := h.stamped.congr hs ht htr
  sorted s v := htr ▸ h.sorted s v
  awaited {T e s v} he hp := by
    rw [pending, ht] at hp
    rw [htr]
    exact h.awaited (hq he) hp

lemma abortTransaction (h : CommitOrdered l σ) (ha : σ.abortTransaction o T = .ok σ') :
    CommitOrdered l σ' := by
  obtain ⟨hg, hq, htr⟩ := gone_abortTransaction ha
  have hin : ∀ s v, installsAt σ'.trace s v = installsAt σ.trace s v := fun s v => by
    rw [htr, installsAt_append]
    exact List.append_nil _
  refine ⟨h.stamped.abortTransaction ha, fun s v => hin s v ▸ h.sorted s v,
    fun {T' e s v} he hp => ?_⟩
  rw [hin]
  obtain ⟨rs, hrs, hr⟩ := mem_queuedEnds.mp he
  rw [hq, Dict.lookup_erase] at hrs
  split_ifs at hrs
  refine h.awaited (mem_queuedEnds.mpr ⟨rs, hrs, hr⟩) ?_
  rw [pending, transactions_abortTransaction ha, Dict.lookup_erase] at hp
  split_ifs at hp
  · exact absurd rfl hp
  · exact hp

lemma enqueue (h : CommitOrdered l σ) {y : Feed} (hy : AdmissibleNext l y)
    (hr : y.insr.request y.timestamp = .ok r) :
    CommitOrdered (l ++ [y]) (σ.addRequestToBlockedQueue r) := by
  refine ⟨(h.stamped.snoc y).congr rfl rfl rfl, h.sorted, fun {T e s v} he hp p hmem => ?_⟩
  obtain ⟨rs, hrs, hin⟩ := mem_queuedEnds.mp he
  rcases mem_of_addRequest hrs hin with ⟨rfl, -⟩ | hq
  · exact h.lt_of_pending hy hr hmem
  · exact h.awaited (mem_queuedEnds.mpr hq) hp p hmem

/-- A commit stores above the versions that are there. -/
theorem exec (ha : Admissible l) (he : Serves l l' r σ) (hR : Reached l σ)
    (h : CommitOrdered l σ) (hC : σ.GrantedInOrder r) (hout : Outcome o σ r es σ') :
    CommitOrdered l' σ' := by
  refine ⟨h.stamped.exec ha he.executes hR hout, fun s v => ?_, fun {T e s v} hend hp p hmem => ?_⟩
  · rw [hout.trace, installsAt_append]
    rcases hout.installsAt_cases s v with hnil | ⟨e, T, x, rfl, hp, -, heq⟩
    · rw [hnil, List.append_nil]
      exact h.sorted s v
    · rw [heq]
      refine List.pairwise_append.mpr
        ⟨h.sorted s v, List.pairwise_singleton _ _, fun p hmem q hq => ?_⟩
      rw [List.mem_singleton.mp hq]
      cases he with
      | pending hx hr _ _ => exact h.lt_of_pending hx hr hmem
      | queued hs =>
          -- the end stands in the queue while it is executed
          obtain ⟨t, ht, -⟩ := Option.bind_eq_some_iff.mp hp
          have hq : σ.Queued (.finish e T) := hs.queued (Dict.mem_of_lookup ht)
          exact h.awaited (mem_queuedEnds.mpr hq) (by simp [hp]) p hmem
  · have hend' := hout.queuedEnds_subset hend
    rw [hout.trace, installsAt_append, List.mem_append] at hmem
    rcases hout.pending_cases hR.good hp with hp' | ⟨ts, x, rfl, hgr, hs⟩
    · rcases hmem with hmem | hmem
      · exact h.awaited hend' hp' p hmem
      · rcases hout.installsAt_cases s v with hnil | ⟨e', T', x, rfl, hpT, hdead, -⟩
        · rw [hnil] at hmem
          cases hmem
        · -- the transaction that commits is the only one with a pending write there
          have hT : T = T' := hR.good.inv.excl_excl (hR.good.inv.pending_iff.mp hp')
            (hR.good.inv.pending_iff.mp
              (by rw [show σ.view.pending T' s v = some x from hpT]; simp))
          obtain ⟨x', hx'⟩ := Option.ne_none_iff_exists'.mp hp
          obtain ⟨t, ht, -⟩ := Option.bind_eq_some_iff.mp hx'
          exact absurd (Dict.mem_of_lookup (hT ▸ ht)) hdead
    · rcases hmem with hmem | hmem
      · refine hC hgr e hend' s hs p ?_
        rw [(h.sorted_versions s v).2]
        exact List.mem_cons_of_mem _ hmem
      · rcases hout.installsAt_cases s v with hnil | ⟨_, _, _, heq, -⟩
        · rw [hnil] at hmem
          cases hmem
        · cases heq

/-- The current value of a copy is that of its last version. -/
lemma getLast?_versions (h : CommitOrdered l σ) (s : SiteId) (v : VarId) :
    ∃ k, (σ.getVariable s v).versions.getLast? = some (k, (σ.getVariable s v).value) := by
  rw [(h.sorted_versions s v).2, (h.stamped.stored s v).value, List.getLast?_cons]
  cases installsAt σ.trace s v |>.getLast? with
  | none => exact ⟨-1, rfl⟩
  | some p => exact ⟨p.1, rfl⟩

end CommitOrdered

instance (σ : State) : ∀ r, Decidable (σ.GrantedInOrder r)
  | .write _ T v _ => inferInstanceAs (Decidable (LockGranted (σ.tryAcquireWriteLock T v) →
      ∀ e ∈ σ.queuedEnds T, ∀ s ∈ (σ.tryAcquireWriteLock T v).siteIdSet,
        ∀ p ∈ (σ.getVariable s v).versions, p.1 < e))
  | .read _ _ _ | .create _ _ _ | .finish _ _ | .dump _ | .fail _ _ | .recover _ _ |
    .missing _ _ => inferInstanceAs (Decidable True)

end State

theorem commitOrdered_invariant :
    ServingInvariant (fun r τ => τ.GrantedInOrder r) State.CommitOrdered where
  initial := ⟨(stamped_invariant fun _ _ => True).initial, fun _ _ => List.Pairwise.nil,
    fun h => by cases h⟩
  graph h _ := h.congr rfl rfl rfl fun he => he
  request h := h.congr rfl rfl rfl fun he => he
  abort _ h ha := h.abortTransaction ha
  dequeue h := h.congr rfl rfl rfl fun he => by
    obtain ⟨rs, hrs, hr⟩ := State.mem_queuedEnds.mp he
    rw [Dict.lookup_erase] at hrs
    split_ifs at hrs
    exact State.mem_queuedEnds.mpr ⟨rs, hrs, hr⟩
  enqueue hx hr _ h _ _ _ := h.enqueue hx hr
  exec ha he hR h hC _ hout := h.exec ha he hR hC hout
  mono {l y σ} _ h := ⟨h.stamped.snoc y, h.sorted, h.awaited⟩

section Runs

variable {l : List Feed} {σ : State}

/-- **The versions of a copy are stored in the order of their timestamps**, and its current value is
that of the youngest one, which is read at every timestamp from then on; if no write gets the lock
of a copy that has a version as young as a blocked end of its transaction. -/
theorem versions_in_commit_order (ha : Admissible l)
    (hgrant : ∀ r τ, CalledDuring l r τ → τ.GrantedInOrder r) (hr : Reaches l σ) (s : SiteId)
    (v : VarId) :
    SortedByKey Prod.fst (installsAt σ.trace s v) ∧
    (σ.getVariable s v).versions = (-1, (v.id : Value) * 10) :: installsAt σ.trace s v ∧
    ∃ k, (k, (σ.getVariable s v).value) ∈ (σ.getVariable s v).versions ∧
      (∀ p ∈ (σ.getVariable s v).versions, p.1 ≤ k) ∧
      ∀ t, k ≤ t → (σ.getVariable s v).getValue t = (σ.getVariable s v).getValue := by
  have h := commitOrdered_invariant.reaches ha hgrant hr
  obtain ⟨hs, hver⟩ := h.sorted_versions s v
  obtain ⟨k, hk⟩ := h.getLast?_versions s v
  have hle : ∀ p ∈ (σ.getVariable s v).versions, p.1 ≤ k :=
    SortedByKey.le_of_getLast? (hver ▸ hs) hk
  refine ⟨h.sorted s v, hver, k, List.mem_of_getLast? hk, hle, fun t ht => ?_⟩
  have hcurrent : (σ.getVariable s v).getValue = some (σ.getVariable s v).value := rfl
  rw [hcurrent, Variable.getValue]
  split_ifs
  · rfl
  · rw [Container.floor_of_le fun p hp => (hle p hp).trans ht, hk]
    rfl

/-- A write and an end wait for a transaction that is aborted. -/
def delayedRun : List Feed :=
  inOrder Schedule.stored [.begin 1, .begin 2, .write 1 2 5, .write 2 2 6, .finish 2, .fail 1]

theorem versions_in_commit_order_delayedRun : ∃ σ, Reaches delayedRun σ ∧
    (4, 6) ∈ installsAt σ.trace ⟨2, by decide, by decide⟩ x2 ∧
    ∀ s v, SortedByKey Prod.fst (installsAt σ.trace s v) := by
  obtain ⟨-, hdirect, htaken⟩ := forall_of_feedCalls (l := delayedRun) (D := fun _ _ => True)
    (A := fun r τ => τ.GrantedInOrder r) (C := fun r τ => τ.GrantedInOrder r) (by decide +kernel)
    (by decide +kernel)
  obtain ⟨σ, hσ, hmem⟩ := exists_ok_of_eval (x := run delayedRun)
    (f := fun σ => decide ((4, 6) ∈ installsAt σ.trace ⟨2, by decide, by decide⟩ x2)) (a := true)
    (by decide +kernel)
  refine ⟨σ, .run hσ, of_decide_eq_true hmem, fun s v => (versions_in_commit_order
    (by decide +kernel) (fun r τ hc => ?_) (.run hσ) s v).1⟩
  exact hc.cases.elim (hdirect r τ) (htaken r τ)

/-- A write and an end wait for a transaction that commits. -/
def lateRun : List Feed :=
  inOrder Schedule.stored [.begin 1, .begin 2, .write 1 2 5, .write 2 2 6, .finish 2, .finish 1]

/-- **A late commit**: it stores below the version of a commit that was executed before it, so the
current value is not that of the youngest version. -/
theorem late_commit : Admissible lateRun ∧ ∃ σ, Reaches lateRun σ ∧
    installsAt σ.trace x2.home x2 = [(5, 5), (4, 6)] ∧
    ¬SortedByKey Prod.fst (installsAt σ.trace x2.home x2) ∧
    (σ.getVariable x2.home x2).versions = [(-1, 20), (4, 6), (5, 5)] ∧
    (σ.getVariable x2.home x2).getValue = some 6 ∧
    (σ.getVariable x2.home x2).getValue 5 = some 5 := by
  obtain ⟨σ, hσ, hf⟩ := exists_ok_of_eval (x := run lateRun)
    (f := fun σ => (installsAt σ.trace x2.home x2, (σ.getVariable x2.home x2).versions,
      (σ.getVariable x2.home x2).getValue, (σ.getVariable x2.home x2).getValue 5))
    (a := ([(5, 5), (4, 6)], [(-1, 20), (4, 6), (5, 5)], some 6, some 5)) (by decide +kernel)
  simp only [Prod.mk.injEq] at hf
  obtain ⟨h1, h2, h3, h4⟩ := hf
  refine ⟨by decide +kernel, σ, .run hσ, h1, fun hs => ?_, h2, h3, h4⟩
  rw [h1] at hs
  exact absurd ((List.pairwise_cons.mp hs).1 _ (List.mem_singleton_self _)) (by decide)

end Runs

end RepCRec
