import RepCRec.Engine.SiteWaits
import RepCRec.Refinement.Blocking
import RepCRec.Refinement.Serving
import RepCRec.Replication.Unfailed

/-!
Runs without site failures. All copies stay readable, so that no transaction waits for a site, only
a deadlock aborts a transaction (`Outcome.not_aborted`), and at most one transaction holds a lock on
a variable (`Unfailed.holder_unique`).
-/

namespace RepCRec

open AvailableCopies (Action Steps Step)
open Container (IterOrder SortedByKey)

/-- The actions with the events that they come from. -/
inductive Event.Acts : Event → Action SiteId VarId TranId Value → Prop where
  | created {T b} : Acts (.created T b) (.create T)
  | sharedLock {T v L} : Acts (.sharedLock T v L) (.lockShared T v {s | s ∈ L})
  | writeLock {T v L x} : L ≠ [] → Acts (.writeLock T v L x) (.lockExcl T v {s | s ∈ L} x)
  | rewrites {T v x} : v.isOdd = true → Acts (.rewrites T v x) (.overwrite T v {v.home} x)
  | committed {T} : Acts (.committed T) (.commit T)
  | aborted {T} : Acts (.aborted T) (.abort T)
  | failed {s} : Acts (.failed s) (.fail s)
  | recovered {s} : Acts (.recovered s) (.recover s)

lemma Event.acts_of_action? {e : Event} {a : Action SiteId VarId TranId Value}
    (h : e.action? = some a) : e.Acts a := by
  cases e with
  | writeLock T v L x =>
      rw [action?] at h
      split_ifs at h with hL
      cases h
      exact .writeLock hL
  | rewrites T v x =>
      rw [action?] at h
      split_ifs at h with hv
      cases h
      exact .rewrites hv
  | _ => cases h <;> constructor

lemma mem_actions {es : List Event} {a : Action SiteId VarId TranId Value} (h : a ∈ actions es) :
    ∃ e ∈ es, e.Acts a := by
  obtain ⟨e, he, ha⟩ := List.mem_filterMap.mp h
  exact ⟨e, he, Event.acts_of_action? ha⟩

namespace State

variable {o : IterOrder} {σ σ' : State} {r : Request} {es : List Event} {T T' : TranId} {v : VarId}
  {l l' : List Feed}

/-- What holds of the states of a run without site failures. -/
structure Unfailed (σ : State) : Prop where
  copies : AvailableCopies.Unfailed σ.view
  site : ∀ T, T ∉ σ.siteWaitingMap
  nodup : ∀ T, (σ.waitsFor T).Nodup

/-- The request is not the failure of a site. -/
def SparesSites (r : Request) : Prop := ∀ ts s, r ≠ .fail ts s

namespace Unfailed

lemma isWriteAvailable (h : σ.Unfailed) (s : SiteId) : σ.isWriteAvailable s = true := h.copies.up s

lemma isReadAvailable (h : σ.Unfailed) (s : SiteId) (v : VarId) : σ.isReadAvailable s v = true :=
  h.copies.readable s v

lemma holdsLock_iff (h : σ.Unfailed) (hg : σ.Good) :
    σ.HoldsLock T v ↔ ∃ s, σ.view.Holds T s v := by
  constructor
  · rintro ⟨s, -, -, hs | hx⟩
    · have hs' : T ∈ (σ.getVariable s v).sharedLockOwners := of_decide_eq_true hs
      exact ⟨s, Or.inr hs'⟩
    · exact ⟨s, Or.inl (beq_iff_eq.mp hx)⟩
  · rintro ⟨s, hl⟩
    refine ⟨s, mem_copySites.mpr (hg.inv.mem_copies hl), h.isWriteAvailable s, ?_⟩
    rcases hl with hx | hs
    · exact Or.inr (beq_iff_eq.mpr hx)
    · have hs' : T ∈ (σ.getVariable s v).sharedLockOwners := hs
      exact Or.inl (decide_eq_true hs')

/-- **At most one transaction holds a lock on a variable.** -/
theorem holder_unique (h : σ.Unfailed) (hg : σ.Good) (hl : σ.HoldsLock T v)
    (hl' : σ.HoldsLock T' v) : T = T' := by
  obtain ⟨s, hs⟩ := (h.holdsLock_iff hg).mp hl
  obtain ⟨s', hs'⟩ := (h.holdsLock_iff hg).mp hl'
  exact h.copies.holder hs hs'

/-- A free variable is locked by no transaction. -/
lemma not_holdsLock_of_available (h : σ.Unfailed) (hg : σ.Good)
    (hst : (σ.tryAcquireWriteLock T v).status = .availableToAssign) : ¬σ.HoldsLock T' v := by
  intro hl
  obtain ⟨s, hs⟩ := (h.holdsLock_iff hg).mp hl
  obtain ⟨hx, hsh⟩ := available_free hg hst s (hg.inv.mem_copies hs) (h.isWriteAvailable s) T'
  exact hs.elim hx hsh

end Unfailed

/-! ### What a request changes -/

/-- **Only a deadlock aborts a transaction.** -/
lemma Outcome.not_aborted (h : Outcome o σ r es σ') (hu : σ.Unfailed) (hr : SparesSites r)
    (hm : ∀ ts m, r ≠ .missing ts m) : .aborted T ∉ es := by
  intro hab
  have hA := h.aborted_iff.mp hab
  cases r with
  | fail ts s => exact hr ts s rfl
  | read ts T' v =>
      obtain ⟨-, -, hno, -⟩ := hA
      have hre := hu.isReadAvailable v.home v
      rw [hno] at hre
      cases hre
  | finish ts T' =>
      obtain ⟨-, t, -, hno⟩ := hA
      exact hno ⟨fun s _ => hu.isWriteAvailable s, fun s v _ _ => hu.isReadAvailable s v⟩
  | missing ts m => exact hm ts m rfl
  | _ => exact hA

/-- A conflict on a copy comes from a transaction that holds a lock on it. -/
lemma Conflicts.holdsLock (hu : σ.Unfailed) {s : SiteId} (hs : s ∈ copySites v)
    (h : Conflicts (σ.getVariable s v) T) : ∃ G, σ.HoldsLock G v := by
  rcases h with h | h | h
  · rw [Variable.hasSharedLockExcludeSelf, Bool.and_eq_true, Bool.not_eq_true',
      List.isEmpty_eq_false_iff] at h
    obtain ⟨G, hG⟩ := List.exists_mem_of_ne_nil _ h.1
    exact ⟨G, s, hs, hu.isWriteAvailable s, Or.inl (decide_eq_true hG)⟩
  · cases hx : (σ.getVariable s v).exclusiveLockOwner with
    | none => simp [Variable.hasExclusiveLockExcludeSelf, hx] at h
    | some G => exact ⟨G, s, hs, hu.isWriteAvailable s, Or.inr (beq_iff_eq.mpr hx)⟩
  · exact ⟨T, s, hs, hu.isWriteAvailable s, Or.inl h⟩

/-- A request that does not begin a transaction is executed in a run without site failures. -/
structure Execution (o : IterOrder) (σ : State) (r : Request) (es : List Event) (σ' : State) :
    Prop where
  outcome : Outcome o σ r es σ'
  good : σ.Good
  unfailed : σ.Unfailed
  good' : σ'.Good
  unfailed' : σ'.Unfailed
  spares : SparesSites r
  not_missing : ∀ ts m, r ≠ .missing ts m
  not_begin : r.isBegin = false

namespace Execution

lemma not_aborted (h : Execution o σ r es σ') : .aborted T ∉ es :=
  h.outcome.not_aborted h.unfailed h.spares h.not_missing

lemma live_iff (h : Execution o σ r es σ') :
    T ∈ σ'.transactions ↔ T ∈ σ.transactions ∧ .committed T ∉ es := by
  refine ⟨fun hT => ?_, fun hT => ?_⟩
  · obtain ⟨hlive, hc, -⟩ := h.outcome.live h.not_begin hT
    exact ⟨hlive, hc⟩
  · exact h.outcome.mem_transactions.mpr ⟨Or.inl hT.1, hT.2, h.not_aborted⟩

/-- The steps of the request on the replicated variables. -/
lemma steps (h : Execution o σ r es σ') :
    Steps RepCRec.copies σ.view (actions es) σ'.view := by
  exact (h.outcome.simulates_of_fresh h.good fun hb => absurd hb (by simp [h.not_begin])).steps

/-- A transaction keeps its locks until it ends. -/
lemma holdsLock (h : Execution o σ r es σ') (hl : σ.HoldsLock T v) (hc : .committed T ∉ es) :
    σ'.HoldsLock T v := by
  obtain ⟨s, hs⟩ := (h.unfailed.holdsLock_iff h.good).mp hl
  refine (h.unfailed'.holdsLock_iff h.good').mpr
    ⟨s, h.steps.holds hs (fun hmem => ?_) fun hmem => ?_⟩
  · obtain ⟨e, he, hact⟩ := mem_actions hmem
    cases hact
    exact hc he
  · obtain ⟨e, he, hact⟩ := mem_actions hmem
    cases hact
    exact h.not_aborted he

/-- A lock was held before the request, or the request has taken it. -/
lemma held (h : Execution o σ r es σ') (hl : σ'.HoldsLock T v) :
    σ.HoldsLock T v ∨ r.access? = some (T, v) := by
  obtain ⟨s, hs⟩ := (h.unfailed'.holdsLock_iff h.good').mp hl
  rcases h.steps.held hs with hold | ⟨a, ha, hlock⟩
  · exact Or.inl ((h.unfailed.holdsLock_iff h.good).mpr ⟨s, hold⟩)
  · obtain ⟨e, he, hact⟩ := mem_actions ha
    refine Or.inr ?_
    rcases hlock with ⟨L, rfl⟩ | ⟨L, x, rfl⟩
    · cases hact
      obtain ⟨ts, rfl⟩ := h.outcome.sharedLock_mem he
      rfl
    · cases hact
      obtain ⟨ts, rfl⟩ := h.outcome.writeLock_mem he
      rfl

/-- After a write the variable is locked: by its transaction, or by the one that it waits for. -/
lemma locked_of_write {ts : Timestamp} {x : Value} (h : Execution o σ (.write ts T v x) es σ') :
    ∃ G, σ'.HoldsLock G v ∧ (G = T ∨ σ.HoldsLock G v) := by
  have hkept : ∀ {G}, σ.HoldsLock G v → σ'.HoldsLock G v := fun hl => h.holdsLock hl fun hc => by
    obtain ⟨ts', heq⟩ := h.outcome.committed_mem hc
    cases heq
  have hu := h.unfailed
  cases hout : h.outcome with
  | unavailable _ hv hup =>
      rw [hu.isWriteAvailable] at hup
      cases hup
  | waitsForLock ha hmem hup hconf =>
      cases ha
      obtain ⟨G, hG⟩ := hconf.holdsLock hu hmem
      exact ⟨G, hkept hG, Or.inr hG⟩
  | writeLocks hgr =>
      have hmem : v.home ∈ (σ.tryAcquireWriteLock T v).siteIdSet :=
        (granted_sites hgr v.home).mpr ⟨home_mem_copies v, hu.copies.up v.home⟩
      have hact : actions [.writeLock T v (σ.tryAcquireWriteLock T v).siteIdSet x] =
          [.lockExcl T v {s | s ∈ (σ.tryAcquireWriteLock T v).siteIdSet} x] := by
        simp [actions, Event.action?, List.ne_nil_of_mem hmem]
      have hs := h.steps
      rw [hact] at hs
      exact ⟨T, (h.unfailed'.holdsLock_iff h.good').mpr ⟨v.home, hs.of_single.locked hmem⟩,
        Or.inl rfl⟩
  | rewritesOdd hv hx =>
      have hl : σ.HoldsLock T v := ⟨v.home, mem_copySites.mpr (home_mem_copies v),
        hu.isWriteAvailable _, Or.inr hx⟩
      exact ⟨T, hkept hl, Or.inl rfl⟩
  | @rewritesEven _ _ _ _ s hv hx =>
      have hl : σ.HoldsLock T v := ⟨s, mem_copySites.mpr (mem_copies_of_even hv s),
        hu.isWriteAvailable _, Or.inr hx⟩
      exact ⟨T, hkept hl, Or.inl rfl⟩

/-- A request that is in the queue leaves the queue as it is. -/
lemma lookup_queue {rs : List Request} (h : Execution o σ r es σ')
    (hq : σ.blockedTransactionsQueue.lookup r.transactionId = some rs) (hr : r ∈ rs)
    (hs : SortedByKey Request.timestamp rs) (T : TranId) :
    σ'.blockedTransactionsQueue.lookup T = σ.blockedTransactionsQueue.lookup T := by
  rw [h.outcome.lookup_queue, queueAfter, if_neg h.not_aborted]
  split_ifs with hw
  · rw [← hw.1, hq, Option.getD_some, hs.insertByKey_of_mem hr]
  · rfl

end Execution

/-- A transaction that does not wait anew waits for no other one than before. -/
lemma Outcome.subset_waitsFor (h : Outcome o σ r es σ') (hne : ∀ v, r.access? ≠ some (T, v))
    {X : TranId}
    (hX : X ∈ σ'.waitsFor T) : X ∈ σ.waitsFor T := by
  refine h.index_induction (P := fun σ₁ => ∀ X ∈ σ₁.waitsFor T, X ∈ σ.waitsFor T) (fun _ => id)
    (fun hs ih X hX => ih X (hs.waitsFor T ▸ hX))
    (fun _ hg ih X hX => ih X (hg.subset_waitsFor hX).1)
    (fun _ _ _ _ _ => id) (fun T' v s ha _ _ _ _ X hX => ?_) (fun _ _ _ _ _ _ _ _ => id)
    (fun _ _ _ _ _ _ _ _ _ _ => id) (fun _ ih => ih) (fun _ _ _ hrec X hX => ?_) X hX
  · rcases mem_assignWaitForGraph.mp hX with hX | ⟨rfl, -⟩
    · exact hX
    · exact absurd ha (hne v)
  · rwa [waitsFor, hrec.waitForGraph] at hX

/-- A transaction that waits only for one that commits waits no longer. -/
lemma Outcome.waitsFor_of_committed {T' : TranId} (h : Outcome o σ r es σ')
    (hc : .committed T' ∈ es)
    (hw : σ.waitsFor T = [T']) : σ'.waitsFor T = [] := by
  obtain ⟨ts, rfl⟩ := h.committed_mem hc
  cases h with
  | @commits ts T' t σ₁ ht hok h1 =>
      have hl := left_releaseLocks h1
      have hsame := (sameLocks_installAll (o := o) σ T' ts t).waitForGraph
      rw [waitsFor, waitForGraph_emit]
      have := hl.waits T
      rw [waitsFor] at this
      rw [this, if_pos (Or.inr ?_)]
      rw [waitsFor, hsame, ← waitsFor, hw]
      simp
  | commitFails => simp at hc
  | unavailable ha => cases ha
  | waitsForLock ha => cases ha

/-! ### The invariant -/

namespace Unfailed

lemma congr (h : σ.Unfailed) (hv : σ'.view = σ.view) (hs : σ'.siteWaitingMap = σ.siteWaitingMap)
    (hw : ∀ T, σ'.waitsFor T = σ.waitsFor T) : σ'.Unfailed :=
  ⟨hv ▸ h.copies, fun T => hs ▸ h.site T, fun T => hw T ▸ h.nodup T⟩

lemma abortTransaction (h : σ.Unfailed) (hg : σ.Good) (ha : σ.abortTransaction o T = .ok σ') :
    σ'.Unfailed := by
  have hl := left_abortTransaction ha
  refine ⟨h.copies.steps hg.inv (simulates_abortTransaction hg ha).steps fun s hmem => ?_,
    fun T' => hl.siteWaitingMap ▸ h.site T', hl.nodup_waitsFor h.nodup⟩
  obtain ⟨e, he, hact⟩ := mem_actions hmem
  cases hact
  simp at he

/-- A request does not fail a site, and sends no transaction to wait for one. -/
theorem exec (h : σ.Unfailed) (hg : σ.Good) (hr : SparesSites r)
    (hm : ∀ ts m, r ≠ .missing ts m)
    (hfresh : r.isBegin = true → r.transactionId ∉ σ.transactions) (hout : Outcome o σ r es σ') :
    σ'.Unfailed := by
  refine ⟨?_, fun T hT => ?_, hout.nodup_waitsFor h.nodup⟩
  · refine h.copies.steps hg.inv (hout.simulates_of_fresh hg hfresh).steps fun s hmem => ?_
    obtain ⟨e, he, hact⟩ := mem_actions hmem
    cases hact
    obtain ⟨ts, rfl⟩ := hout.failed_mem he
    exact hr ts s rfl
  · obtain ⟨s, hs⟩ := Dict.exists_lookup hT
    rcases hout.siteWaitingMap_cases hs with ⟨hold, -⟩ | ⟨ts, v, rfl, ⟨-, hno⟩, -⟩ | ⟨ts, v, rfl, -⟩
    · exact h.site T (Dict.mem_of_lookup hold)
    · rw [h.isReadAvailable] at hno
      cases hno
    · exact absurd rfl (hm ts _)

end Unfailed

end State

/-- **A run without site failures.** -/
theorem unfailed_invariant :
    ServingInvariant (fun r _ => State.SparesSites r) fun _ => State.Unfailed where
  initial := ⟨.of_initial State.view_initial, fun T => by simp [State.initial],
    fun T => by simp [State.initial, State.waitsFor]⟩
  graph h hw := h.congr rfl rfl hw
  request h := h.congr rfl rfl fun _ => rfl
  abort hR h ha := h.abortTransaction hR.good ha
  dequeue h := h.congr rfl rfl fun _ => rfl
  enqueue _ _ _ h _ _ _ := h.congr rfl rfl fun _ => rfl
  exec ha he hR h hr _ hout := by
    refine h.exec hR.good hr (he.executes.ne_missing ha) (fun hb => ?_) hout
    exact fun hlive => (he.executes.fresh hb).1 (hR.known.live hlive)
  mono _ h := h

end RepCRec
