import RepCRec.Engine.Log
import RepCRec.Guarantees.BlockedRequests

/-!
The order in which the requests of one transaction take effect. They take effect in the order in
which they were issued, if nothing of a transaction with blocked requests is granted when its
instruction is executed, and everything that is taken from the queue is granted
(`requests_in_order`). The engine executes the reads and writes of a blocked transaction on the
spot, and grants them when their variables are free (`overtaking_write`).
-/

namespace RepCRec

open Container (IterOrder SortedByKey)

/-- A lock is granted at some site, a value is read, a pending write is recorded, or a transaction
commits. -/
def Event.isEffect : Event → Bool
  | .writeLock _ _ L _ => !L.isEmpty
  | .sharedLock _ _ L => !L.isEmpty
  | .rewrites _ v _ => v.isOdd
  | .reads _ _ _ _ => true
  | .committed _ => true
  | _ => false

/-- A request with these entries has taken effect. -/
def Effective (es : List Event) : Prop := ∃ e ∈ es, e.isEffect = true

instance (es : List Event) : Decidable (Effective es) :=
  inferInstanceAs (Decidable (∃ e ∈ es, e.isEffect = true))

/-- The requests that have blocked and have not taken effect since. -/
def blockedAfter (L : Log) : List Request :=
  L.foldl (fun rs p =>
    if State.Waits p.1 p.2 then p.1 :: rs
    else if Effective p.2 then rs.filter fun r => decide (r ≠ p.1)
    else rs) []

/-- Whenever a request takes effect, no earlier one of its transaction has blocked without having
taken effect since. -/
def InIssueOrder (L : Log) : Prop :=
  ∀ L₁ r es L₂, L = L₁ ++ (r, es) :: L₂ → Effective es →
    ∀ r' ∈ blockedAfter L₁, r'.transactionId = r.transactionId → r.timestamp ≤ r'.timestamp

section Log

variable {L : Log} {r r' : Request} {es : List Event}

lemma mem_blockedAfter_snoc (h : r' ∈ blockedAfter (L ++ [(r, es)])) :
    (r' = r ∧ State.Waits r es) ∨ (r' ∈ blockedAfter L ∧ (Effective es → r' ≠ r)) := by
  rw [blockedAfter, List.foldl_append, ← blockedAfter, List.foldl_cons, List.foldl_nil] at h
  dsimp only at h
  split_ifs at h with hw he
  · rcases List.mem_cons.mp h with rfl | h
    · exact Or.inl ⟨rfl, hw⟩
    · by_cases heq : r' = r
      · exact Or.inl ⟨heq, hw⟩
      · exact Or.inr ⟨h, fun _ => heq⟩
  · obtain ⟨h, hne⟩ := List.mem_filter.mp h
    exact Or.inr ⟨h, fun _ => of_decide_eq_true hne⟩
  · exact Or.inr ⟨h, fun he' => absurd he' he⟩

lemma InIssueOrder.snoc (h : InIssueOrder L) (hr : Effective es → ∀ r' ∈ blockedAfter L,
    r'.transactionId = r.transactionId → r.timestamp ≤ r'.timestamp) :
    InIssueOrder (L ++ [(r, es)]) := by
  intro L₁ r₁ es₁ L₂ heq he r' hr' hT
  rcases List.eq_nil_or_concat L₂ with rfl | ⟨L₃, p, rfl⟩
  · obtain ⟨rfl, hp⟩ := List.append_inj' heq rfl
    cases hp
    exact hr he r' hr' hT
  · have heq' : L ++ [(r, es)] = (L₁ ++ (r₁, es₁) :: L₃) ++ [p] := heq.trans (by simp)
    obtain ⟨rfl, -⟩ := List.append_inj' heq' rfl
    exact h L₁ r₁ es₁ L₃ rfl he r' hr' hT

end Log

namespace State

variable {o : IterOrder} {σ σ' τ : State} {r r' : Request} {es : List Event} {T : TranId}
  {l : List Feed} {L : Log} {sch : Schedule}

/-- The request is granted at some site: a lock of a read or write is available there, an odd
variable is locked for its write already, or a copy is readable for a read-only transaction. -/
def LetThrough (σ : State) : Request → Prop
  | .write _ T v _ =>
      (LockGranted (σ.tryAcquireWriteLock T v) ∧ (σ.tryAcquireWriteLock T v).siteIdSet ≠ []) ∨
        (v.isOdd = true ∧ (σ.tryAcquireWriteLock T v).status = .hasWriteLock)
  | .read _ T v => ∃ t, σ.transactions.lookup T = some t ∧
      if t.isReadOnly then ∃ s ∈ copySites v, σ.isReadAvailable s v = true
      else (σ.tryAcquireWriteLock T v).status = .availableToAssign ∧
        (σ.tryAcquireWriteLock T v).siteIdSet ≠ [] ∧
        (v.isOdd = true → σ.isReadAvailable v.home v = true)
  | _ => False

instance (σ : State) : ∀ r, Decidable (σ.LetThrough r)
  | .write _ _ _ _ => inferInstanceAs (Decidable (_ ∨ _))
  | .read _ T v => decidable_of_iff
      (∃ t ∈ σ.transactions.lookup T, if t.isReadOnly then
        ∃ s ∈ copySites v, σ.isReadAvailable s v = true
      else (σ.tryAcquireWriteLock T v).status = .availableToAssign ∧
        (σ.tryAcquireWriteLock T v).siteIdSet ≠ [] ∧
        (v.isOdd = true → σ.isReadAvailable v.home v = true)) Iff.rfl
  | .create _ _ _ | .finish _ _ | .dump _ | .fail _ _ | .recover _ _ | .missing _ _ =>
      inferInstanceAs (Decidable False)

/-- What takes effect is a request of a live transaction. -/
lemma Outcome.live_of_effective (h : Outcome o σ r es σ') (he : Effective es) :
    r.transactionId ∈ σ.transactions := by
  have hlive : ∀ {T t}, σ.transactions.lookup T = some t → T ∈ σ.transactions := fun h =>
    Dict.mem_of_lookup h
  cases h with
  | @writeLocks ts T v x _ _ _ h1 =>
      have hL : (σ.tryAcquireWriteLock T v).siteIdSet ≠ [] := by
        simpa [Effective, Event.isEffect] using he
      by_contra hT
      rw [updateValuesAt_of_dead (T := T) hT hL] at h1
      cases h1
  | @rewritesOdd ts T v x _ _ _ h1 =>
      by_contra hT
      rw [modifyTransaction_of_dead (T := T) hT] at h1
      cases h1
  | rewritesEven hv => simp [Effective, Event.isEffect, hv] at he
  | readsVersion ht => exact hlive ht
  | sharesOdd ht => exact hlive ht
  | sharesEven ht => exact hlive ht
  | commits ht => exact hlive ht
  | failed => simp [Effective, Event.isEffect] at he
  | _ => simp [Effective, Event.isEffect] at he

/-- The transaction of a read that a lock is asked for is no read-only one. -/
lemma letThrough_read {ts : Timestamp} {v : VarId} {t : Transaction}
    (ht : σ.transactions.lookup T = some t) (hro : t.isReadOnly = false) :
    σ.LetThrough (.read ts T v) ↔ (σ.tryAcquireWriteLock T v).status = .availableToAssign ∧
      (σ.tryAcquireWriteLock T v).siteIdSet ≠ [] ∧
      (v.isOdd = true → σ.isReadAvailable v.home v = true) := by
  constructor
  · rintro ⟨t', ht', h⟩
    rw [ht] at ht'
    cases ht'
    rwa [if_neg (by simp [hro])] at h
  · exact fun h => ⟨t, ht, by rwa [if_neg (by simp [hro])]⟩

/-- The same of a read-only one. -/
lemma letThrough_readOnly {ts : Timestamp} {v : VarId} {t : Transaction}
    (ht : σ.transactions.lookup T = some t) (hro : t.isReadOnly = true) :
    σ.LetThrough (.read ts T v) ↔ ∃ s ∈ copySites v, σ.isReadAvailable s v = true := by
  constructor
  · rintro ⟨t', ht', h⟩
    rw [ht] at ht'
    cases ht'
    rwa [if_pos hro] at h
  · exact fun h => ⟨t, ht, by rwa [if_pos hro]⟩

/-- No lock is granted at a site that is down. -/
lemma status_of_down {v : VarId} (hv : v.isOdd = true) (hup : σ.isWriteAvailable v.home = false) :
    (σ.tryAcquireWriteLock T v).status = .siteUnavailable := by
  rw [tryAcquireWriteLock, if_pos hv, if_pos (by simp [hup])]

/-- A read or write takes effect exactly when it is let through. -/
lemma Outcome.effective_iff (hg : σ.Good) (h : Outcome o σ r es σ')
    (hrw : r.isReadWrite = true) : Effective es ↔ σ.LetThrough r := by
  cases h with
  | @unavailable r T v ha hv hup hr =>
      refine iff_of_false (by simp [Effective, Event.isEffect]) fun hlt => ?_
      cases r with
      | write ts T' v' x =>
          cases ha
          simp [LetThrough, LockGranted, status_of_down (T := T) hv hup] at hlt
      | read ts T' v' =>
          cases ha
          rw [hg.isWriteAvailable_of_readable (hr ts rfl)] at hup
          cases hup
      | _ => cases ha
  | @waitsForLock r T v s ha _ _ _ hst hro =>
      refine iff_of_false (by simp [Effective, Event.isEffect]) fun hlt => ?_
      cases r with
      | write ts T' v' x =>
          cases ha
          simp [LetThrough, LockGranted, hst] at hlt
      | read ts T' v' =>
          cases ha
          obtain ⟨t, ht, hro⟩ := hro ts rfl
          rw [letThrough_read ht hro, hst] at hlt
          cases hlt.1
      | _ => cases ha
  | @waitsForSite ts T v _ hv hr =>
      refine iff_of_false (by simp [Effective, Event.isEffect]) ?_
      rintro ⟨t, -, h⟩
      split_ifs at h
      · obtain ⟨s, hs, hrs⟩ := h
        rw [copySites, if_pos hv, List.mem_singleton] at hs
        rw [hs, hr] at hrs
        cases hrs
      · rw [h.2.2 hv] at hr
        cases hr
  | @writeLocks ts T v x _ _ hgr =>
      have hst : ¬(σ.tryAcquireWriteLock T v).status = .hasWriteLock := by
        rcases hgr with hgr | hgr <;> simp [hgr]
      simp [Effective, Event.isEffect, LetThrough, hgr, hst]
  | rewritesOdd hv _ _ hst =>
      exact iff_of_true (by simp [Effective, Event.isEffect, hv]) (Or.inr ⟨hv, hst⟩)
  | rewritesEven hv _ hst =>
      refine iff_of_false (by simp [Effective, Event.isEffect, hv]) ?_
      simp [LetThrough, LockGranted, hst, hv]
  | readsVersion ht hro hs hr =>
      exact iff_of_true (by simp [Effective, Event.isEffect])
        ((letThrough_readOnly ht hro).mpr ⟨_, hs, hr⟩)
  | readAborts ht hro hv hno =>
      refine iff_of_false (by simp [Effective, Event.isEffect]) fun hlt => ?_
      obtain ⟨s, -, hr⟩ := (letThrough_readOnly ht hro).mp hlt
      rw [hno] at hr
      cases hr
  | sharesOdd ht hro hv hst hr =>
      refine iff_of_true (by simp [Effective, Event.isEffect])
        ((letThrough_read ht hro).mpr ⟨hst, ?_, fun _ => hr⟩)
      rw [siteIdSet_of_odd hv (Or.inr hst)]
      exact List.cons_ne_nil _ _
  | @sharesEven ts T v t σ₁ ht hro hv hst =>
      rw [letThrough_read ht hro]
      cases hL : o.visit (σ.tryAcquireWriteLock T v).siteIdSet with
      | nil =>
          have hnil := (o.visit_eq_nil).mp hL
          simp [hnil, firstRead, Effective, Event.isEffect]
      | cons s l =>
          have hne : (σ.tryAcquireWriteLock T v).siteIdSet ≠ [] := fun hnil => by
            rw [hnil, (o.visit_eq_nil).mpr rfl] at hL
            cases hL
          refine iff_of_true ⟨.reads T s v (σ.getVariable s v).value, ?_, rfl⟩ ⟨hst, hne, ?_⟩
          · exact List.mem_append_left _ List.mem_cons_self
          · simp [hv]
  | missingUnavailable | missingNothing | missingWaits | missingAborts =>
      simp [Effective, Event.isEffect, LetThrough]
  | _ => cases hrw

/-! ### What has blocked -/

/-- What has blocked, and has not taken effect since, is accounted for by `A`, unless its
transaction is gone. -/
def Accounted (l : List Feed) (L : Log) (A : Request → Prop) (σ : State) : Prop :=
  ∀ r ∈ blockedAfter L, r.isReadWrite = true ∧ Begun l r.transactionId ∧
    (A r ∨ r.transactionId ∉ σ.transactions)

namespace Accounted

variable {A A' : Request → Prop} {x : Feed}

lemma mono (h : Accounted l L A σ) (hA : ∀ r, A r → A' r) : Accounted l L A' σ := fun r hr =>
  ⟨(h r hr).1, (h r hr).2.1, (h r hr).2.2.imp (hA r) id⟩

lemma snoc (h : Accounted l L A σ) (x : Feed) : Accounted (l ++ [x]) L A σ := fun r hr =>
  ⟨(h r hr).1, begun_snoc.mpr (Or.inl (h r hr).2.1), (h r hr).2.2⟩

/-- A request is executed: it is accounted for if it waits, and the others are still. -/
lemma exec (h : Accounted l L A σ) (hout : Outcome o σ r es σ')
    (hdead : ∀ T, Begun l T → T ∉ σ.transactions → T ∉ σ'.transactions)
    (hA : ∀ r', A r' → r'.isReadWrite = true → (Effective es → r' ≠ r) →
      A' r' ∨ .aborted r'.transactionId ∈ es)
    (hnew : Waits r es → Begun l r.transactionId ∧ A' r) :
    Accounted l (L ++ [(r, es)]) A' σ' := by
  intro r' hr'
  rcases mem_blockedAfter_snoc hr' with ⟨rfl, hw⟩ | ⟨hr', hne⟩
  · obtain ⟨-, hrw, -⟩ := hout.waits hw
    exact ⟨hrw, (hnew hw).1, Or.inl (hnew hw).2⟩
  · obtain ⟨hrw, hb, hacc⟩ := h r' hr'
    refine ⟨hrw, hb, ?_⟩
    rcases hacc with hacc | hno
    · refine (hA r' hacc hrw hne).imp id fun hab hlive => ?_
      exact (hout.mem_transactions.mp hlive).2.2 hab
    · exact Or.inr (hdead _ hb hno)

lemma settled : Settled fun σ => Accounted l L σ.Queued σ where
  graph h _ := h
  abort := by
    intro o T σ σ' h ha r hr
    obtain ⟨hrw, hb, hq⟩ := h r hr
    obtain ⟨hgone, hqueue, -⟩ := gone_abortTransaction ha
    refine ⟨hrw, hb, ?_⟩
    rw [hgone.mem_transactions, Queued, hqueue, Dict.lookup_erase]
    by_cases hT : r.transactionId = T
    · exact Or.inr fun hlive => hlive.2 hT
    · rw [if_neg hT]
      exact hq.imp id fun hno hlive => hno hlive.1
  request h := h

end Accounted

/-- The transactions that are gone stay so, unless they are begun. -/
lemma Outcome.not_mem_transactions (h : Outcome o σ r es σ')
    (hb : r.isBegin = true → r.transactionId ≠ T) (hT : T ∉ σ.transactions) :
    T ∉ σ'.transactions := fun hT' => by
  rcases (h.mem_transactions.mp hT').1 with hT' | ⟨b, hc⟩
  · exact hT hT'
  · obtain ⟨ts, rfl⟩ := h.created_mem hc
    exact hb rfl rfl

/-! ### The walk over the queue -/

/-- Before the transactions `rest`: the blocked requests of those that were not served are in the
queue. -/
structure OrderedWalk (l : List Feed) (L : Log) (rest fin : List TranId) (σ : State) : Prop where
  walk : InWalk l rest fin σ
  order : InIssueOrder L
  accounted : Accounted l L (fun r => r.transactionId ∉ fin ∧ σ.Queued r) σ

/-- While the requests `rs` of `T` are still to be executed, its blocked requests are among them. -/
structure OrderedSet (l : List Feed) (L : Log) (T : TranId) (rs : List Request)
    (rest fin : List TranId) (σ : State) : Prop where
  set : InSet l T rs rest fin σ
  order : InIssueOrder L
  accounted : Accounted l L (fun r => (r.transactionId = T ∧ r ∈ rs) ∨
    (r.transactionId ≠ T ∧ r.transactionId ∉ fin ∧ σ.Queued r)) σ

lemma OrderedSet.exec {rs : List Request} {rest fin : List TranId} (ha : Admissible l)
    (h : OrderedSet l L T (r :: rs) rest fin σ) (hC : r.isReadWrite = true → σ.LetThrough r)
    (hx : σ.exec o r = .ok σ') : OrderedSet l (L ++ [(r, added σ σ')]) T rs rest fin σ' := by
  obtain ⟨es, hout⟩ := exec_outcome hx
  rw [hout.added_eq]
  obtain ⟨hq, hT⟩ := h.set.queueable r List.mem_cons_self
  have heff : r.isReadWrite = true → Effective es := fun hrw =>
    (hout.effective_iff h.set.reached.good hrw).mpr (hC hrw)
  refine ⟨h.set.exec ha hx, h.order.snoc fun he r' hr' hT' => ?_, h.accounted.exec hout ?_ ?_ ?_⟩
  · -- the requests of `T` that are still blocked come later in its queue
    obtain ⟨-, -, (⟨-, hmem⟩ | ⟨hne, -⟩) | hno⟩ := h.accounted r' hr'
    · rcases List.mem_cons.mp hmem with rfl | hmem
      · exact le_rfl
      · exact ((List.pairwise_cons.mp h.set.sorted).1 r' hmem).le
    · exact absurd (hT'.trans hT) hne
    · exact absurd (hT' ▸ hout.live_of_effective he) hno
  · exact fun T' _ => hout.not_mem_transactions fun hb => by simp [hq.not_begin] at hb
  · rintro r' (⟨hT', hmem⟩ | ⟨hne, hfin, hqueued⟩) hrw hne'
    · rcases List.mem_cons.mp hmem with rfl | hmem
      · exact absurd rfl (hne' (heff hrw))
      · exact Or.inl (Or.inl ⟨hT', hmem⟩)
    · exact (hout.queued hqueued).imp (fun hq => Or.inr ⟨hne, hfin, hq⟩) id
  · intro hw
    obtain ⟨-, hrw, hes⟩ := hout.waits hw
    have he := heff hrw
    rcases hes with rfl | rfl <;> simp [Effective, Event.isEffect] at he

lemma logRule_ordered (ha : Admissible l) (sch : Schedule) :
    LogRule sch (fun r τ => r.isReadWrite = true → τ.LetThrough r) (OrderedWalk l) (OrderedSet l)
      InIssueOrder where
  skip h hs :=
    ⟨(walkRule_waiting (C := fun _ _ => True) ha sch).skip h.walk hs, h.order, h.accounted⟩
  enter := by
    intro L T rs rest fin σ h hq _ _
    refine ⟨h.walk.enter hq, h.order, h.accounted.mono ?_⟩
    rintro r ⟨hfin, hr⟩
    by_cases hT : r.transactionId = T
    · obtain ⟨rs', hrs', hr⟩ := hr
      rw [hT, hq] at hrs'
      cases hrs'
      exact Or.inl ⟨hT, hr⟩
    · exact Or.inr ⟨hT, hfin, hr⟩
  exec h hC hx := h.exec ha hC hx
  leave := by
    intro L T rest fin σ h hT
    refine ⟨(walkRule_waiting (C := fun _ _ => True) ha sch).leave h.set hT, h.order,
      h.accounted.mono ?_⟩
    rintro r (⟨-, hr⟩ | ⟨hne, hfin, hr⟩)
    · cases hr
    · exact ⟨fun hmem => (List.mem_insert_iff.mp hmem).elim hne hfin, hr⟩
  outside h := h.order
  inside h := h.order

/-- What holds after the instructions `l`, with the log `L`. -/
structure Ordered (l : List Feed) (L : Log) (σ : State) : Prop where
  reached : Reached l σ
  waiting : Waiting (· = -1) σ
  order : InIssueOrder L
  accounted : Accounted l L σ.Queued σ

end State

/-- A request that is fed is new to the queue. -/
lemma fresh_of_next {l : List Feed} {x : Feed} {r r' : Request} {T : TranId} {rs : List Request}
    {σ : State} (h : State.Reached l σ) (hx : AdmissibleNext l x)
    (hr : x.insr.request x.timestamp = .ok r) (hq : σ.blockedTransactionsQueue.lookup T = some rs)
    (hr' : r' ∈ rs) : r'.timestamp ≠ r.timestamp := by
  obtain ⟨y, hy, hry⟩ := (h.known.queued hq hr').1.fed
  rw [timestamp_of_request hry, timestamp_of_request hr]
  exact (hx.later y hy).ne

theorem ordered_invariant : LogInvariant
    (fun r τ => r.transactionId ∈ τ.blockedTransactionsQueue → ¬τ.LetThrough r)
    (fun r τ => r.isReadWrite = true → τ.LetThrough r) State.Ordered InIssueOrder where
  initial := ⟨(waiting_invariant fun _ _ => True).initial.1,
    (waiting_invariant fun _ _ => True).initial.2,
    by simp [InIssueOrder], by simp [State.Accounted, blockedAfter]⟩
  log h := h.order
  settled l L ha := by
    have hW := (waiting_invariant fun _ _ => True).settled l ha
    have hA : State.Settled fun σ => State.Accounted l L σ.Queued σ := State.Accounted.settled
    refine ⟨fun h hw => ?_, fun h hab => ?_, fun h => ?_⟩
    · exact ⟨(hW.graph ⟨h.1, h.2⟩ hw).1, (hW.graph ⟨h.1, h.2⟩ hw).2, h.3, hA.graph h.4 hw⟩
    · exact ⟨(hW.abort ⟨h.1, h.2⟩ hab).1, (hW.abort ⟨h.1, h.2⟩ hab).2, h.3, hA.abort h.4 hab⟩
    · exact ⟨(hW.request ⟨h.1, h.2⟩).1, (hW.request ⟨h.1, h.2⟩).2, h.3, hA.request h.4⟩
  mono ha hx h := by
    obtain ⟨h1, h2⟩ := (waiting_invariant fun _ _ => True).mono ha hx ⟨h.1, h.2⟩
    exact ⟨h1, h2, h.3, h.4.snoc _⟩
  walks l sch ha := by
    refine ⟨_, _, State.logRule_ordered ha sch, fun {L σ} h => ?_, fun {L fin σ} h => ?_⟩
    · exact ⟨.start h.1 h.2, h.3, h.4.mono fun r hr => ⟨by simp, hr⟩⟩
    · obtain ⟨h1, h2⟩ := h.walk.finish sch.finish
      refine ⟨h1, h2, h.order, h.accounted.mono ?_⟩
      rintro r ⟨hfin, rs, hrs, hr⟩
      refine ⟨rs, ?_, hr⟩
      rw [State.dequeueAll, Dict.lookup_foldl_erase, if_neg (by rwa [IterOrder.mem_visit]), hrs]
  exec := by
    intro l x r L o σ σ' ha hx hr h hD hst hb he
    obtain ⟨h1, h2⟩ := ((waiting_invariant fun _ _ => True).leads ha hx hr).exec ⟨h.1, h.2⟩ trivial
      hst hb he
    obtain ⟨es, hout⟩ := State.exec_outcome he
    rw [hout.added_eq]
    refine ⟨h1, h2, h.order.snoc fun heff r' hr' hT => ?_, (h.accounted.exec hout ?_ ?_ ?_).snoc x⟩
    · -- its transaction is live, and has no blocked requests
      obtain ⟨-, -, ⟨rs, hrs, -⟩ | hno⟩ := h.accounted r' hr'
      · have hq : r.transactionId ∈ σ.blockedTransactionsQueue :=
          AList.lookup_isSome.mp (by rw [← hT, hrs]; rfl)
        have hrw : r.isReadWrite = true := hb (by simp [State.isBlocked, hq])
        exact absurd ((hout.effective_iff h.reached.good hrw).mp heff) (hD hq)
      · exact absurd (hT ▸ hout.live_of_effective heff) hno
    · rintro T ⟨y, hy, hT⟩
      refine hout.not_mem_transactions fun hbegin heq => ?_
      exact hx.begin_once _ (begun_of_request hr hbegin) y hy (heq ▸ hT)
    · exact fun r' hq _ _ => hout.queued hq
    · intro hw
      obtain ⟨-, hrw, -⟩ := hout.waits hw
      refine ⟨hx.access_after_begin _ (accessing_of_request hr hrw), hout.queued_of_waits hw ?_⟩
      exact fun rs r' hq hr' hts => absurd hts (fresh_of_next h.reached hx hr hq hr')
  enqueue := by
    intro l x r L σ ha hx hr h hst hb hrw
    obtain ⟨h1, h2⟩ := ((waiting_invariant fun _ _ => True).leads ha hx hr).enqueue ⟨h.1, h.2⟩ hst
      hb hrw
    exact ⟨h1, h2, h.3,
      fun r' hr' => ((h.accounted.snoc x).mono fun r'' hq => hq.addRequest r) r' hr'⟩

section Runs

variable {l : List Feed}

/-- **The requests of one transaction take effect in the order in which they were issued**, if
nothing of a transaction with blocked requests is let through when its instruction is executed, and
every read or write that is taken from the queue is let through. -/
theorem requests_in_order (ha : Admissible l)
    (hdirect : ∀ r τ, DirectDuring l r τ → r.transactionId ∈ τ.blockedTransactionsQueue →
      ¬τ.LetThrough r)
    (htaken : ∀ r τ, TakenDuring l r τ → r.isReadWrite = true → τ.LetThrough r) :
    ∀ L, LogOf l L → InIssueOrder L := fun _ hL =>
  ordered_invariant.logOf ha hdirect htaken hL

/-- Two writes of a transaction wait, and take effect when the other one ends. -/
def queuedRun : List Feed :=
  inOrder Schedule.stored
    [.begin 1, .begin 2, .write 1 1 5, .write 2 1 6, .write 2 1 7, .finish 2, .finish 1]

theorem requests_in_order_queuedRun :
    (∃ p ∈ runLog queuedRun, p.1 = .write 4 2 x1 7 ∧ Effective p.2) ∧
    ∀ L, LogOf queuedRun L → InIssueOrder L := by
  obtain ⟨-, hdirect, htaken⟩ := forall_of_feedCalls (l := queuedRun) (D := fun _ _ => True)
    (A := fun r τ => r.transactionId ∈ τ.blockedTransactionsQueue → ¬τ.LetThrough r)
    (C := fun r τ => r.isReadWrite = true → τ.LetThrough r) (by decide +kernel) (by decide +kernel)
  exact ⟨by decide +kernel, requests_in_order (by decide +kernel) hdirect htaken⟩

/-- A write of a transaction waits, and the next one is granted. -/
def overtakingRun : List Feed :=
  inOrder Schedule.stored [.begin 1, .begin 2, .write 1 2 5, .write 2 2 6, .write 2 1 7]

/-- **A write overtakes another one** of its transaction. -/
theorem overtaking_write : Admissible overtakingRun ∧ ¬InIssueOrder (runLog overtakingRun) := by
  have hlog : runLog overtakingRun = (runLog overtakingRun).take 4 ++
      (.write 4 2 x1 7, [.writeLock 2 x1 [x1.home] 7]) :: [] := by decide +kernel
  refine ⟨by decide +kernel, fun h => ?_⟩
  have hle := h _ _ _ _ hlog (by decide) (.write 3 2 x2 6) (by decide +kernel) rfl
  exact absurd hle (by decide)

end Runs

end RepCRec
