import RepCRec.Engine.Accesses
import RepCRec.Refinement.Ending

/-!
Every request that the engine executes is a run of the protocol: `Outcome.simulates` finds the
entries that the request adds to the trace, and their actions lead from the view before the
request to the view after it.
-/

namespace RepCRec

open AvailableCopies (Config Steps Step)
open Container (IterOrder bind_eq_ok)

namespace State

variable {σ σ' σ'' : State} {T : TranId} {v : VarId} {o : IterOrder}

/-! ### What the lock manager has seen -/

lemma granted_sites (hgr : LockGranted (σ.tryAcquireWriteLock T v)) (s : SiteId) :
    s ∈ (σ.tryAcquireWriteLock T v).siteIdSet ↔ s ∈ copies v ∧ σ.view.up s := by
  rw [mem_siteIdSet hgr, mem_copySites]
  rfl

/-- Who may stand on a copy that does not stand in the way of `T`. -/
lemma Passes.free (hg : σ.Good) {s : SiteId} (hp : Passes (σ.getVariable s v) T) (T' : TranId) :
    ¬σ.view.excl T' s v ∧ (σ.view.shared T' s v → T' = T) := by
  rcases hp with ⟨hs, -⟩ | ⟨h1, h2, h3, h4⟩
  · have hs : T ∈ (σ.getVariable s v).sharedLockOwners := by
      simpa [Variable.hasSharedLock] using hs
    exact ⟨fun hx => hg.inv.excl_shared hx hs, fun hs' => hg.inv.shared_shared hs' hs⟩
  · refine ⟨fun hx => ?_, fun hs => ?_⟩
    · have hx : (σ.getVariable s v).exclusiveLockOwner = some T' := hx
      simp [Variable.hasExclusiveLockExcludeSelf, Variable.hasExclusiveLock, hx] at h2 h4
      exact h4 h2
    · have hs : T' ∈ (σ.getVariable s v).sharedLockOwners := hs
      have hne : (σ.getVariable s v).sharedLockOwners ≠ [] := List.ne_nil_of_mem hs
      simp [Variable.hasSharedLockExcludeSelf, Variable.hasSharedLock, hne] at h1 h3
      exact absurd h1 h3

lemma granted_free (hg : σ.Good) (hgr : LockGranted (σ.tryAcquireWriteLock T v)) :
    ∀ s ∈ copies v, σ.view.up s → ∀ T', ¬σ.view.excl T' s v ∧ (σ.view.shared T' s v → T' = T) := by
  rcases tryAcquireWriteLock_answer σ T v with ⟨-, -, hls⟩ | ha
  · rw [hls] at hgr
    simp [LockGranted] at hgr
  generalize σ.tryAcquireWriteLock T v = ls at hgr ha
  cases ha with
  | waits => simp [LockGranted] at hgr
  | owns => simp [LockGranted] at hgr
  | grants _ hL hp hst => exact fun s hs hup T' => (hp s (mem_copySites.mpr hs) hup).free hg T'

/-- Nobody locks a copy when the lock is available. -/
lemma available_free (hg : σ.Good)
    (hst : (σ.tryAcquireWriteLock T v).status = .availableToAssign) :
    ∀ s ∈ copies v, σ.view.up s → ∀ T', ¬σ.view.excl T' s v ∧ ¬σ.view.shared T' s v := by
  intro s hs hup T'
  obtain ⟨hx, hT⟩ := granted_free hg (Or.inr hst) s hs hup T'
  refine ⟨hx, fun hsh => ?_⟩
  obtain rfl := hT hsh
  rcases tryAcquireWriteLock_answer σ T' v with ⟨-, -, hls⟩ | ha
  · rw [hls] at hst
    cases hst
  generalize σ.tryAcquireWriteLock T' v = ls at hst ha
  cases ha with
  | waits => cases hst
  | owns => cases hst
  | grants _ hL hp hiff =>
      have hno := (hiff.mp hst).2 s (mem_copySites.mpr hs) hup
      simp only [Variable.hasSharedLock, decide_eq_false_iff_not] at hno
      exact hno hsh

/-! ### Simulation -/

/-- The trace of `σ'` extends that of `σ` by the entries `es`, which are a run of the protocol
from view to view; each store among them is of a write that is pending in the protocol. -/
structure Simulates (σ : State) (es : List Event) (σ' : State) : Prop where
  trace : σ'.trace = σ.trace ++ es
  steps : Steps copies σ.view (actions es) σ'.view
  wf : σ'.Wf
  stores : ∀ {es₁ T s v x ts es₂}, es = es₁ ++ .installs T s v x ts :: es₂ →
    ∃ c, Steps copies σ.view (actions es₁) c ∧ c.pending T s v = some x

namespace Simulates

variable {es es' : List Event}

lemma good (h : Simulates σ es σ') (hg : σ.Good) : σ'.Good :=
  ⟨AvailableCopies.Inv.steps h.steps hg.inv, h.wf⟩

lemma trans (h : Simulates σ es σ') (h' : Simulates σ' es' σ'') :
    Simulates σ (es ++ es') σ'' where
  trace := by rw [h'.trace, h.trace, List.append_assoc]
  steps := by
    rw [actions_append]
    exact h.steps.append h'.steps
  wf := h'.wf
  stores := by
    intro es₁ T s v x ts es₂ heq
    rcases List.append_eq_append_iff.mp heq with ⟨l, rfl, h2⟩ | ⟨l, h1, h2⟩
    · obtain ⟨c, hc, hp⟩ := h'.stores h2
      exact ⟨c, by rw [actions_append]; exact h.steps.append hc, hp⟩
    · cases l with
      | nil =>
          obtain ⟨c, hc, hp⟩ := h'.stores
            (show es' = [] ++ Event.installs T s v x ts :: es₂ from h2.symm)
          rw [List.append_nil] at h1
          subst h1
          exact ⟨c, by simpa [actions] using h.steps.append hc, hp⟩
      | cons e l =>
          cases h2
          exact h.stores h1

/-- A change that the view does not show. -/
lemma of_view_eq (hw : σ'.Wf) (hv : σ'.view = σ.view) (ht : σ'.trace = σ.trace) :
    Simulates σ [] σ' where
  trace := by rw [ht, List.append_nil]
  steps := hv ▸ .nil
  wf := hw
  stores h := by simp at h

/-- A step of the protocol. -/
lemma of_step {e : Event} {a : AvailableCopies.Action SiteId VarId TranId Value}
    (hw : σ'.Wf) (ht : σ'.trace = σ.trace ++ [e]) (ha : e.action? = some a)
    (hs : Step copies σ.view a σ'.view) : Simulates σ [e] σ' where
  trace := ht
  steps := by
    rw [actions, List.filterMap_cons_some ha]
    exact .single hs
  wf := hw
  stores := by
    intro es₁ T s v x ts es₂ heq
    have hmem : Event.installs T s v x ts ∈ [e] := heq ▸ by simp
    rw [List.mem_singleton] at hmem
    subst hmem
    cases ha

/-- Entries of the trace that are neither steps nor stores. -/
lemma emit (hw : σ.Wf) {e : Event} (ha : e.action? = none)
    (hne : ∀ T s v x ts, e ≠ .installs T s v x ts) : Simulates σ [e] (σ.emit e) where
  trace := rfl
  steps := by
    rw [actions, List.filterMap_cons_none ha, view_emit σ (Event.store_of_ne hne)]
    exact .nil
  wf := hw.emit e
  stores := by
    intro es₁ T s v x ts es₂ heq
    have hmem : Event.installs T s v x ts ∈ [e] := heq ▸ by simp
    exact absurd (List.mem_singleton.mp hmem).symm (hne T s v x ts)

end Simulates

/-! ### The outcomes -/

open Simulates

lemma simulates_abortTransaction (hg : σ.Good) (h : σ.abortTransaction o T = .ok σ') :
    Simulates σ [.aborted T] σ' := by
  obtain ⟨hv, hw, ht⟩ := view_abortTransaction hg.wf hg.onCopies h
  refine .of_step hw ht rfl ?_
  rw [hv]
  exact .abort

lemma simulates_execCreate (hg : σ.Good) {ts : Timestamp} {isReadOnly : Bool}
    (hT : T ∉ σ.transactions) :
    Simulates σ [.created T isReadOnly] (σ.execCreate ts T isReadOnly) := by
  have hv : (σ.execCreate ts T isReadOnly).view = σ.view.create T := by
    ext1
    case live =>
      funext T'
      simp [view, execCreate, addTransaction, Config.create, or_comm]
    case pending =>
      funext T' s v
      by_cases h : T' = T
      · subst h
        have hno : AList.lookup T' σ.transactions = none := AList.lookup_eq_none.mpr hT
        simp [view, execCreate, addTransaction, Config.create, pending, hno]
      · simp [view, execCreate, addTransaction, Config.create, pending, h]
    case db =>
      simp only [view, execCreate, Config.create, trace_emit, committed_append]
      rfl
    all_goals rfl
  refine .of_step ⟨?_, ?_, hg.wf.excl_table, hg.wf.shared_table, hg.wf.shared_nodup⟩ rfl rfl
    (hv ▸ .create hT)
  · intro T' t ht
    simp only [execCreate, addTransaction, transactions_emit, Dict.lookup_insert] at ht
    split_ifs at ht with h
    · cases ht
      exact h.symm
    · exact hg.wf.transactionId ht
  · intro T' t ht
    simp only [execCreate, addTransaction, transactions_emit, Dict.lookup_insert] at ht
    split_ifs at ht with h
    · cases ht
      exact Transaction.recorded_empty rfl rfl
    · exact hg.wf.recorded ht

lemma live_of_modifyTransaction {f : Transaction → Transaction}
    (h : σ.modifyTransaction T f = .ok σ') : T ∈ σ.transactions := by
  obtain ⟨t, ht, -⟩ := modifyTransaction_eq_ok.mp h
  exact Dict.mem_of_lookup ht

/-- A write recorded at some site is one of a live transaction. -/
lemma live_of_updateValuesAt {L : List SiteId} {s : SiteId} {x : Value} (hs : s ∈ L)
    (h : σ.updateValuesAt o T L v x = .ok σ') : T ∈ σ.transactions := by
  rw [updateValuesAt] at h
  cases hl : o.visit L with
  | nil => simp [(o.visit_eq_nil).mp hl] at hs
  | cons s' l =>
      rw [hl, List.foldlM_cons, bind_eq_ok] at h
      obtain ⟨σ₁, h1, -⟩ := h
      exact live_of_modifyTransaction h1

/-- A write that is granted takes the lock on every copy that is up. -/
lemma simulates_writeLocks (hg : σ.Good) {x : Value} {σ₁ σ₂ : State}
    (hgr : LockGranted (σ.tryAcquireWriteLock T v))
    (h1 : σ.updateValuesAt o T (σ.tryAcquireWriteLock T v).siteIdSet v x = .ok σ₁)
    (h2 : σ₁.assignWriteLock o T (σ.tryAcquireWriteLock T v).siteIdSet v = .ok σ₂) :
    Simulates σ [.writeLock T v (σ.tryAcquireWriteLock T v).siteIdSet x]
      (σ₂.emit (.writeLock T v (σ.tryAcquireWriteLock T v).siteIdSet x)) := by
  have hL := granted_sites hgr
  have hfree := granted_free hg hgr
  generalize (σ.tryAcquireWriteLock T v).siteIdSet = L at h1 h2 hL ⊢
  obtain ⟨hv₁, hw₁⟩ := view_updateValuesAt hg.wf h1
  have hup₁ : ∀ s ∈ L, σ₁.isWriteAvailable s = true := fun s hs =>
    (congrFun (congrArg Config.up hv₁) s).mpr ((hL s).mp hs).2
  have hfree₁ : ∀ s ∈ L, ∀ T', σ₁.view.excl T' s v → T' = T := by
    intro s hs T' hx
    rw [hv₁] at hx
    obtain ⟨hc, hup⟩ := (hL s).mp hs
    exact absurd hx (hfree s hc hup T').1
  obtain ⟨hv₂, hw₂⟩ := view_assignWriteLock hw₁ hup₁ hfree₁ h2
  have hv : σ₂.view = σ.view.lockExcl T v {s | s ∈ L} x := by rw [hv₂, hv₁]; rfl
  have ht : σ₂.trace = σ.trace :=
    ((Quiet.updateValuesAt h1).trans (Quiet.assignWriteLock h2)).trace
  cases hnil : L with
  | nil =>
      subst hnil
      have hv₀ : σ₂.view = σ.view := by simpa [Config.lockExcl] using hv
      exact (of_view_eq hw₂ hv₀ ht).trans (Simulates.emit hw₂ rfl (by simp))
  | cons s L' =>
      rw [← hnil]
      have hs : s ∈ L := hnil ▸ List.mem_cons_self
      have hlive : σ.view.live T := live_of_updateValuesAt hs h1
      have hv' : (σ₂.emit (.writeLock T v L x)).view = σ.view.lockExcl T v {s | s ∈ L} x := by
        rw [view_emit σ₂ fun _ => rfl, hv]
      refine of_step (a := .lockExcl T v {s | s ∈ L} x) (hw₂.emit _) ?_ ?_ ?_
      · rw [trace_emit, ht]
      · simp [Event.action?, hnil]
      · exact hv' ▸ .lockExcl hlive hfree hL

/-- A write by the owner of the only copy replaces its pending value. -/
lemma simulates_rewritesOdd (hg : σ.Good) {x : Value} (hv : v.isOdd = true)
    (hx : (σ.getVariable v.home v).hasExclusiveLock T = true)
    (h : (σ.modifyTransaction T fun t => t.updateValues v.home v x) = .ok σ') :
    Simulates σ [.rewrites T v x] (σ'.emit (.rewrites T v x)) := by
  have hex : (σ.getVariable v.home v).exclusiveLockOwner = some T := by
    simpa only [Variable.hasExclusiveLock, beq_iff_eq] using hx
  have hview : (σ'.emit (.rewrites T v x)).view = σ.view.setPending T v {v.home} x := by
    rw [view_emit σ' fun _ => rfl, view_updateValues h]
  have ht : σ'.trace = σ.trace :=
    (Quiet.modifyTransaction (f := fun t => t.updateValues v.home v x) (fun _ => rfl) h).trace
  refine of_step (a := .overwrite T v {v.home} x) ((hg.wf.updateValues h).emit _) ?_ ?_ ?_
  · rw [trace_emit, ht]
  · simp [Event.action?, hv]
  · refine hview ▸ .overwrite fun s => ⟨fun hs => ?_, fun hs => hg.inv.excl_copies hs hv⟩
    rw [Set.mem_singleton_iff] at hs
    exact hs ▸ hex

/-- A read that is granted takes the lock on every copy that is readable. -/
lemma simulates_shares (hg : σ.Good) {L : List SiteId} (hT : T ∈ σ.transactions)
    (hst : (σ.tryAcquireWriteLock T v).status = .availableToAssign)
    (hL : ∀ s, s ∈ L ↔ s ∈ (σ.tryAcquireWriteLock T v).siteIdSet ∧
      σ.isReadAvailable s v = true)
    (hv : σ'.view = σ.view.lockShared T v {s | s ∈ L}) (hw : σ'.Wf) (ht : σ'.trace = σ.trace) :
    Simulates σ [.sharedLock T v L] (σ'.emit (.sharedLock T v L)) := by
  have hv' : (σ'.emit (.sharedLock T v L)).view = σ.view.lockShared T v {s | s ∈ L} := by
    rw [view_emit σ' fun _ => rfl, hv]
  refine of_step (a := .lockShared T v {s | s ∈ L}) (hw.emit _) ?_ rfl ?_
  · rw [trace_emit, ht]
  · refine hv' ▸ .lockShared hT (available_free hg hst) fun s => ?_
    have hs := granted_sites (Or.inr hst) s
    rw [Set.mem_ofPred_eq, hL, hs, and_assoc]
    rfl

/-- The stores of a commit, the release of the locks and the end of the transaction. -/
lemma view_commits (hg : σ.Good) {ts : Timestamp} {t : Transaction}
    (ht : σ.transactions.lookup T = some t)
    (h : ((σ.installAll o T ts t).releaseLocks o T).evictTransaction T = .ok σ') :
    σ'.view = (σ.view.install T (committed σ'.trace)).finish T ∧ σ'.Wf ∧
      σ'.trace = σ.trace ++ (stores o t).map (storeEvent T ts) ∧
      σ.view.DbAfter T (committed σ'.trace) := by
  obtain ⟨hv₁, hdb⟩ := view_installAll (o := o) hg ht ts
  have hl := sameLocks_installAll (o := o) σ T ts t
  have htr : (σ.installAll o T ts t).trace = σ.trace ++ (stores o t).map (storeEvent T ts) := by
    rw [installAll_eq, trace_foldl_installCopy]
  generalize σ.installAll o T ts t = σ₁ at h hv₁ hdb hl htr
  have hlk : ∀ T', σ₁.lockedVars T' = σ.lockedVars T' := fun T' => by
    rw [lockedVars, lockedVars, hl.lockTable]
  have hw₁ : σ₁.Wf := by
    refine ⟨?_, ?_, ?_, ?_, fun s v => ?_⟩
    · rw [hl.transactions]
      exact hg.wf.transactionId
    · rw [hl.transactions]
      exact hg.wf.recorded
    · intro T' s v hx
      rw [hv₁] at hx
      rw [hlk]
      exact hg.wf.excl_table hx
    · intro T' s v hs
      rw [hv₁] at hs
      rw [hlk]
      exact hg.wf.shared_table hs
    · rw [hl.shared]
      exact hg.wf.shared_nodup s v
  have hc₁ : σ₁.OnCopies := by
    intro T' s v hx
    rw [hv₁] at hx
    exact hg.onCopies hx
  have htr₂ : σ'.trace = σ₁.trace := by
    have hr : (σ₁.releaseLocks o T).trace = σ₁.trace := (Quiet.releaseLocks σ₁ o T).trace
    rw [← hr]
    exact trace_evictTransaction h
  rw [htr₂]
  refine ⟨?_, (wf_releaseLocks hw₁ hc₁ o T).evictTransaction h, htr, hdb⟩
  rw [view_evictTransaction h, view_releaseLocks hw₁ hc₁, hv₁]
  rfl

lemma simulates_commits (hg : σ.Good) {ts : Timestamp} {t : Transaction}
    (ht : σ.transactions.lookup T = some t)
    (h : ((σ.installAll o T ts t).releaseLocks o T).evictTransaction T = .ok σ') :
    Simulates σ ((stores o t).map (storeEvent T ts) ++ [.committed T])
      (σ'.emit (.committed T)) := by
  obtain ⟨hv, hw, htr, hdb⟩ := view_commits hg ht h
  have hlive : σ.view.live T := live_iff.mpr ⟨t, ht⟩
  have hno : ∀ l : List (SiteId × VarId × Value), actions (l.map (storeEvent T ts)) = [] := by
    intro l
    rw [actions, List.filterMap_eq_nil_iff]
    intro e he
    obtain ⟨p, -, rfl⟩ := List.mem_map.mp he
    rfl
  refine ⟨?_, ?_, hw.emit _, ?_⟩
  · rw [trace_emit, htr, List.append_assoc]
  · rw [actions_append, hno, view_emit σ' fun _ => rfl, hv]
    exact .single (.commit hlive hdb)
  · intro es₁ T' s v x ts' es₂ heq
    refine ⟨σ.view, ?_, ?_⟩
    all_goals rcases List.append_eq_append_iff.mp heq with ⟨l, -, h2⟩ | ⟨l, h1, h2⟩
    · obtain ⟨rfl, hc⟩ | ⟨-, hc⟩ := List.singleton_eq_append_iff.mp h2 <;> simp at hc
    · have hnil := hno (stores o t)
      rw [h1, actions_append, List.append_eq_nil_iff] at hnil
      rw [hnil.1]
      exact .nil
    · obtain ⟨rfl, hc⟩ | ⟨-, hc⟩ := List.singleton_eq_append_iff.mp h2 <;> simp at hc
    · cases l with
      | nil => simp at h2
      | cons e l =>
          cases h2
          have hmem : Event.installs T' s v x ts' ∈ (stores o t).map (storeEvent T ts) :=
            h1 ▸ by simp
          obtain ⟨p, hp, heq⟩ := List.mem_map.mp hmem
          cases heq
          simpa only [view, pending, ht, Option.bind_some] using mem_stores.mp hp

/-! ### Sites -/

section Sites

variable {s : SiteId} {f : Site → Site}

/-- A change of the availability of a site. -/
lemma view_modifySite (hf : ∀ st, (f st).vars = st.vars) :
    (σ.modifySite s f).view = { σ.view with
      up := fun s' => if s' = s then (f (σ.sites s)).writeAvailable = true else σ.view.up s'
      readable := fun s' v => if s' = s then (f (σ.sites s)).readAvailable v = true
        else σ.view.readable s' v } := by
  ext1
  case up =>
    funext s'
    simp only [view, isWriteAvailable, sites_modifySite]
    split_ifs <;> rfl
  case readable =>
    funext s' v
    simp only [view, isReadAvailable, sites_modifySite]
    split_ifs <;> rfl
  case value => funext s' v; simp only [view, getVariable_modifySite hf]
  case excl => funext T s' v; simp only [view, getVariable_modifySite hf]
  case shared => funext T s' v; simp only [view, getVariable_modifySite hf]
  all_goals rfl

lemma Wf.modifySite (hw : σ.Wf) (hf : ∀ st, (f st).vars = st.vars) : (σ.modifySite s f).Wf where
  transactionId := hw.transactionId
  recorded := hw.recorded
  excl_table h := hw.excl_table (by rwa [view_modifySite hf] at h)
  shared_table h := hw.shared_table (by rwa [view_modifySite hf] at h)
  shared_nodup s' v := by
    rw [getVariable_modifySite hf]
    exact hw.shared_nodup s' v

lemma view_setUnavailable (σ : State) (s : SiteId) :
    (σ.modifySite s Site.setUnavailable).view = σ.view.failSite s := by
  rw [view_modifySite (f := Site.setUnavailable) fun _ => rfl]
  ext1
  case up =>
    funext s'
    by_cases h : s' = s <;> simp [Config.failSite, Site.setUnavailable, h]
  case readable =>
    funext s' v
    by_cases h : s' = s <;> simp [Config.failSite, Site.setUnavailable, h]
  all_goals rfl

end Sites

/-- The aborts of a failing site come before the failure in the protocol, and after it in the
engine, which has marked the site already. -/
lemma foldlM_abort_down {s : SiteId} {c : Config SiteId VarId TranId Value}
    (hc : AvailableCopies.Inv copies c) {l : List TranId} (hv : σ.view = c.failSite s)
    (hw : σ.Wf) (h : l.foldlM (fun σ T => σ.abortTransaction o T) σ = .ok σ') :
    ∃ c', Steps copies c (actions (l.map Event.aborted)) c' ∧ σ'.view = c'.failSite s ∧
      σ'.Wf ∧ σ'.trace = σ.trace ++ l.map Event.aborted ∧
      ∀ T v, c'.pending T s v ≠ none → T ∉ l ∧ c.pending T s v ≠ none := by
  induction l generalizing σ c with
  | nil =>
      rw [List.foldlM_nil, Container.pure_eq_ok] at h
      subst h
      exact ⟨c, .nil, hv, hw, by simp, fun T v hp => ⟨by simp, hp⟩⟩
  | cons T l ih =>
      rw [List.foldlM_cons, bind_eq_ok] at h
      obtain ⟨σ₁, h1, h2⟩ := h
      have hoc : σ.OnCopies := by
        intro T' s' v hl
        rw [hv] at hl
        exact hl.elim hc.excl_copies hc.shared_copies
      obtain ⟨hv₁, hw₁, ht₁⟩ := view_abortTransaction hw hoc h1
      rw [hv] at hv₁
      have hstep : Step copies c (.abort T) (c.finish T) := .abort
      obtain ⟨c', hs, hv', hw', ht', hp⟩ := ih (hc.step hstep) hv₁ hw₁ h2
      refine ⟨c', .cons hstep hs, hv', hw', ?_, fun T' v hp' => ?_⟩
      · rw [ht', ht₁, List.map_cons, List.append_assoc, List.singleton_append]
      · obtain ⟨hl, hpend⟩ := hp T' v hp'
        by_cases hT : T' = T
        · simp [Config.finish, Config.forget, hT] at hpend
        · exact ⟨List.not_mem_cons_of_ne_of_not_mem hT hl,
            by simpa [Config.finish, Config.forget, Config.release, hT] using hpend⟩

/-- A failure aborts the transactions with writes at the site. -/
lemma simulates_execFail (hg : σ.Good) {s : SiteId} (h : σ.execFail o s = .ok σ') :
    Simulates σ ((o.visit (σ.writersAt o s)).map Event.aborted ++ [.failed s]) σ' := by
  rw [execFail, bind_eq_ok] at h
  obtain ⟨σ₁, h1, h2⟩ := h
  cases h2
  obtain ⟨c', hs, hv, hw, ht, hp⟩ := foldlM_abort_down hg.inv (view_setUnavailable σ s)
    (hg.wf.modifySite fun _ => rfl) h1
  refine ⟨?_, ?_, hw.emit _, ?_⟩
  · rw [trace_emit, ht, List.append_assoc]
    rfl
  · rw [actions_append, view_emit σ₁ fun _ => rfl, hv]
    refine hs.append (.single (.fail fun T v => ?_))
    by_contra hne
    obtain ⟨hno, hpend⟩ := hp T v hne
    -- a transaction with a pending write at the site was among the aborted ones
    refine hno ((o.mem_visit).mpr (mem_writersAt.mpr ?_))
    obtain ⟨x, hx⟩ := Option.ne_none_iff_exists'.mp hpend
    obtain ⟨t, ht, hx⟩ := Option.bind_eq_some_iff.mp hx
    obtain ⟨vars, he, -⟩ := AccessMap.get?_eq_some.mp hx
    refine ⟨t, ht, ?_⟩
    rw [(hg.wf.recorded ht).same]
    exact List.mem_keys_of_mem he
  · intro es₁ T' s' v x ts es₂ heq
    have hmem : Event.installs T' s' v x ts ∈
        (o.visit (σ.writersAt o s)).map Event.aborted ++ [Event.failed s] := heq ▸ by simp
    simp at hmem

/-- The variables that become readable when a site recovers are those with their only copy at
the site. -/
lemma mem_uniqueVars {s : SiteId} : v ∈ uniqueVars s ↔ copies v = {s} := by
  have hv := v.one_le
  have hv' := v.le_varCount
  have hs := s.one_le
  have hs' := s.le_siteCount
  have hof : ∀ n : ℤ, v ∈ (VarId.ofInt? n).toList ↔ n.toNat = v.id := by
    intro n
    rw [VarId.ofInt?, Option.mem_toList]
    split_ifs with h
    · rw [Option.some.injEq, VarId.ext_iff]
    · simp only [false_iff]
      omega
  rw [copies_eq_singleton, VarId.isOdd, beq_iff_eq, SiteId.ext_iff, VarId.home, uniqueVars]
  dsimp only [siteCount, varCount] at *
  split_ifs with hodd
  · rw [List.mem_append, hof, hof]
    omega
  · simp only [List.not_mem_nil, false_iff]
    omega

lemma view_foldl_setReadAvailable (s : SiteId) (l : List VarId) (hw : σ.Wf) :
    (l.foldl (fun σ v => σ.modifySite s fun st => st.setReadAvailable v) σ).view =
      { σ.view with readable := fun s' w => σ.view.readable s' w ∨ (s' = s ∧ w ∈ l) } ∧
    (l.foldl (fun σ v => σ.modifySite s fun st => st.setReadAvailable v) σ).Wf ∧
    (l.foldl (fun σ v => σ.modifySite s fun st => st.setReadAvailable v) σ).trace = σ.trace := by
  induction l generalizing σ with
  | nil => exact ⟨by simp, hw, rfl⟩
  | cons v l ih =>
      have hf : ∀ st : Site, (st.setReadAvailable v).vars = st.vars := fun _ => rfl
      obtain ⟨hv, hw', ht⟩ := ih (hw.modifySite (s := s) hf)
      refine ⟨?_, hw', ht⟩
      rw [List.foldl_cons, hv, view_modifySite hf]
      ext1
      case readable =>
        funext s' w
        by_cases hs : s' = s
        · subst hs
          by_cases hw : w = v
          · subst hw
            simp [Site.setReadAvailable]
          · simp [Site.setReadAvailable, hw, view, isReadAvailable]
        · simp [hs]
      case up =>
        funext s'
        by_cases hs : s' = s
        · subst hs
          simp [Site.setReadAvailable, view, isWriteAvailable]
        · simp [hs]
      all_goals rfl

lemma simulates_execRecover (hg : σ.Good) (s : SiteId) :
    Simulates σ [.recovered s] (σ.execRecover o s) := by
  have hw₁ : (σ.modifySite s Site.setWriteAvailable).Wf := hg.wf.modifySite fun _ => rfl
  obtain ⟨hv, hw, ht⟩ := view_foldl_setReadAvailable s (uniqueVars s) hw₁
  refine of_step (a := .recover s) (hw.congr rfl rfl rfl) ?_ rfl ?_
  · exact congrArg (· ++ [Event.recovered s]) ht
  · have hview : (σ.execRecover o s).view = σ.view.recoverSite copies s := by
      rw [execRecover, view_emit _ fun _ => rfl]
      refine (view_congr rfl rfl rfl).trans (hv.trans ?_)
      rw [view_modifySite (f := Site.setWriteAvailable) fun _ => rfl]
      ext1
      case up =>
        funext s'
        by_cases hs : s' = s <;> simp [Config.recoverSite, Site.setWriteAvailable, hs]
      case readable =>
        funext s' v
        simp only [Config.recoverSite, mem_uniqueVars]
        by_cases hs : s' = s
        · subst hs
          simp [Site.setWriteAvailable, view, isReadAvailable]
        · simp [hs]
      all_goals rfl
    exact hview ▸ .recover

/-! ### All requests -/

/-- A request that is queued does nothing in the protocol. -/
lemma simulates_queued (σ' : State) (hw : σ'.Wf) (hv : σ'.view = σ.view)
    (ht : σ'.trace = σ.trace) (r : Request) {e : Event} (ha : e.action? = none)
    (hne : ∀ T s v x ts, e ≠ .installs T s v x ts) :
    Simulates σ [e] ((σ'.addRequestToBlockedQueue r).emit e) := by
  have hw' : (σ'.addRequestToBlockedQueue r).Wf := hw.congr rfl rfl rfl
  have hq : Simulates σ [] (σ'.addRequestToBlockedQueue r) :=
    of_view_eq hw' ((view_congr rfl rfl rfl).trans hv) ht
  exact hq.trans (Simulates.emit hw' ha hne)

/-- Waiting for a site does nothing in the protocol. -/
lemma simulates_waitForSite (hg : σ.Good) {r : Request} {n : ℤ} {s : SiteId}
    (h : σ.waitForSite r T n s = .ok σ') : Simulates σ [.waitsForSite r] σ' := by
  rcases waitForSite_cases h with ⟨-, rfl⟩ | ⟨-, σ₁, h1, rfl⟩
  · exact simulates_queued σ hg.wf rfl rfl _ rfl (by simp)
  · have hw : σ₁.Wf := hg.wf.modifyTransaction (f := fun t => t.setWaitingVarId n)
      (fun _ => rfl) (fun _ ht => ⟨ht.same, ht.proper⟩) h1
    have hv₁ : σ₁.view = σ.view :=
      view_modifyTransaction (f := fun t => t.setWaitingVarId n) (fun _ => rfl) h1
    have ht₁ : σ₁.trace = σ.trace := trace_modifyTransaction h1
    exact simulates_queued (σ₁.addToSiteWaitingMap T s) (hw.congr rfl rfl rfl)
      ((view_congr rfl rfl rfl).trans hv₁) ht₁ _ rfl (by simp)

/-- The read of the first site does nothing in the protocol. -/
lemma simulates_readFirst (hg : σ.Good) (l : List SiteId) :
    Simulates σ (σ.firstRead T v l) (σ.readFirst T v l) ∧ (σ.readFirst T v l).sites = σ.sites ∧
      (σ.readFirst T v l).waitForGraph = σ.waitForGraph ∧
      (σ.readFirst T v l).transactions = σ.transactions := by
  cases l with
  | nil => exact ⟨of_view_eq hg.wf rfl rfl, rfl, rfl, rfl⟩
  | cons s l => exact ⟨Simulates.emit hg.wf rfl (by simp), rfl, rfl, rfl⟩

/-- Recording a read and reporting it do nothing in the protocol. -/
lemma simulates_readHistory (hw : σ.Wf) {s : SiteId} {x : Value}
    (h : (σ.modifyTransaction T fun t => t.addReadHistory s v x) = .ok σ') :
    Simulates σ [.reads T s v x] (σ'.emit (.reads T s v x)) := by
  have hw' : σ'.Wf := hw.modifyTransaction (f := fun t => t.addReadHistory s v x)
    (fun _ => rfl) (fun _ ht => ⟨ht.same, ht.proper⟩) h
  have hv' : σ'.view = σ.view :=
    view_modifyTransaction (f := fun t => t.addReadHistory s v x) (fun _ => rfl) h
  exact (of_view_eq hw' hv' (trace_modifyTransaction h)).trans (Simulates.emit hw' rfl (by simp))

/-- **Simulation**: the outcome of every request is a run of the protocol. A transaction must
not be created while it is live. -/
theorem Outcome.simulates (hg : σ.Good) {r : Request} {es : List Event}
    (h : Outcome o σ r es σ')
    (hfresh : ∀ ts T isReadOnly, r = .create ts T isReadOnly → T ∉ σ.transactions) :
    Simulates σ es σ' := by
  cases h with
  | dumped => exact Simulates.emit hg.wf rfl (by simp)
  | created => exact simulates_execCreate hg (hfresh _ _ _ rfl)
  | failed h => exact simulates_execFail hg h
  | recovered => exact simulates_execRecover hg _
  | unavailable | missingUnavailable | missingNothing => exact Simulates.emit hg.wf rfl (by simp)
  | waitsForLock =>
      exact simulates_queued (σ := σ) (σ.assignWaitForGraph o _ _) (hg.wf.congr rfl rfl rfl)
        (view_congr rfl rfl rfl) rfl r rfl (by simp)
  | waitsForSite _ _ h | missingWaits _ _ _ h => exact simulates_waitForSite hg h
  | writeLocks hgr h1 h2 => exact simulates_writeLocks hg hgr h1 h2
  | rewritesOdd hv hx h _ => exact simulates_rewritesOdd hg hv hx h
  | rewritesEven hv hx _ => exact Simulates.emit hg.wf (by simp [Event.action?, hv]) (by simp)
  | readsVersion ht hro hs hr hx h => exact simulates_readHistory hg.wf h
  | readAborts _ _ _ _ h | missingAborts _ _ _ h => exact simulates_abortTransaction hg h
  | @sharesOdd ts T v t σ₁ σ₂ ht hro hv hst hr h1 h2 =>
      obtain ⟨hv₁, hw₁⟩ := view_assignShareLock hg.wf h1
      have hL : ∀ s, s ∈ (σ.tryAcquireWriteLock T v).siteIdSet ↔
          s ∈ (σ.tryAcquireWriteLock T v).siteIdSet ∧ σ.isReadAvailable s v = true := by
        intro s
        rw [siteIdSet_of_odd hv (Or.inr hst), List.mem_singleton]
        exact ⟨fun hs => ⟨hs, hs ▸ hr⟩, And.left⟩
      have hw₂ : σ₂.Wf := hw₁.modifyTransaction (f := fun t => t.addReadHistory _ _ _)
        (fun _ => rfl) (fun _ ht => ⟨ht.same, ht.proper⟩) h2
      have hv₂ : σ₂.view = σ₁.view :=
        view_modifyTransaction (f := fun t => t.addReadHistory _ _ _) (fun _ => rfl) h2
      have ht₂ : σ₂.trace = σ.trace := by
        rw [trace_modifyTransaction h2, (Quiet.assignShareLock h1).trace]
      have hs := simulates_shares hg (Dict.mem_of_lookup ht) hst hL
        ((hv₂.trans hv₁).trans (by simp only [← hL])) hw₂ ht₂
      exact hs.trans (Simulates.emit hs.wf rfl (by simp))
  | @sharesEven ts T v t σ₁ ht hro hv hst h =>
      obtain ⟨hr, hsites, hgraph, htran⟩ := simulates_readFirst (T := T) (v := v) hg
        (o.visit (σ.tryAcquireWriteLock T v).siteIdSet)
      have hls := tryAcquireWriteLock_congr (T := T) (v := v) hsites hgraph
      generalize σ.readFirst T v _ = σ₀ at h hr hsites hgraph htran hls
      obtain ⟨hv₁, hw₁⟩ := view_assignShareLock hr.wf h
      have hread : ∀ s, σ₀.isReadAvailable s v = σ.isReadAvailable s v := fun s => by
        rw [isReadAvailable, hsites, isReadAvailable]
      have hL : ∀ s, s ∈ (σ.tryAcquireWriteLock T v).siteIdSet.filter
          (fun s => σ.isReadAvailable s v) ↔
          s ∈ (σ₀.tryAcquireWriteLock T v).siteIdSet ∧ σ₀.isReadAvailable s v = true := by
        intro s
        rw [List.mem_filter, hls, hread]
      have hs := simulates_shares (hr.good hg)
        (htran ▸ Dict.mem_of_lookup ht) (hls ▸ hst) hL
        (hv₁.trans (by simp only [hL, hls])) hw₁ (Quiet.assignShareLock h).trace
      exact hr.trans hs
  | commits ht hok h => exact simulates_commits hg ht h
  | commitFails ht hno h =>
      have hs := simulates_abortTransaction hg h
      exact hs.trans (Simulates.emit hs.wf rfl (by simp))

/-- A begin is executed for a transaction that is not live. -/
lemma Outcome.simulates_of_fresh (hg : σ.Good) {r : Request} {es : List Event}
    (h : Outcome o σ r es σ') (hfresh : r.isBegin = true → r.transactionId ∉ σ.transactions) :
    Simulates σ es σ' := by
  refine h.simulates hg fun ts T isReadOnly hr => ?_
  subst hr
  exact hfresh rfl

end State

end RepCRec
