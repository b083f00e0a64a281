import RepCRec.Engine.Status
import RepCRec.Guarantees.Replication
import RepCRec.Refinement.Unfailed

/-!
The order in which waiters for one variable are served. A write that is the earliest blocked request
of its transaction waits for the lock of its variable (`awaited?`). When the lock is free it goes to
the oldest of these writes (`ServedInOrder`), if no call frees an awaited lock in its deadlock
resolution and the walk over the queue visits the transactions in an order that frees no lock after
its waiters were visited, and lets no younger request overtake (`waiters_served_in_order`). The
order in which the walk visits the transactions is that of a hash table, so this can fail
(`overtaken_write`).
-/

namespace RepCRec

open Container (IterOrder SortedByKey insertByKey)

/-- The variable and the timestamp of a write. -/
def Request.written? : Request → Option (VarId × Timestamp)
  | .write ts _ v _ => some (v, ts)
  | _ => none

namespace State

variable {o : IterOrder} {σ σ' σ₁ τ : State} {r : Request} {es : List Event} {T T' G : TranId}
  {v : VarId} {ts ts' : Timestamp} {l l' : List Feed} {sch : Schedule} {rest fin : List TranId}

/-! ### Waiting writes -/

def blockedRequests (σ : State) (T : TranId) : List Request :=
  (σ.blockedTransactionsQueue.lookup T).getD []

/-- The variable and the timestamp of the write that is the earliest blocked request of the live
transaction `T`. -/
def awaited? (σ : State) (T : TranId) : Option (VarId × Timestamp) :=
  if T ∈ σ.transactions then (σ.blockedRequests T).head?.bind Request.written? else none

/-- The request takes the lock on the variable `v`, which is free. -/
def TakesLock (σ : State) (r : Request) (T : TranId) (v : VarId) : Prop :=
  r.access? = some (T, v) ∧ (σ.tryAcquireWriteLock T v).status = .availableToAssign ∧
    ∃ t, σ.transactions.lookup T = some t ∧ ∀ ts, r = .read ts T v → t.isReadOnly = false

/-- A lock that the request takes goes to the oldest of the writes that wait for it. -/
def ServedInOrder (σ : State) (r : Request) : Prop :=
  ∀ T v, σ.TakesLock r T v → ∀ T' ts', σ.awaited? T' = some (v, ts') →
    σ.awaited? T = some (v, r.timestamp) ∧ r.timestamp ≤ ts'

/-- A live transaction without a blocked end holds a lock on `v`. -/
def StaysLocked (σ : State) (v : VarId) : Prop :=
  ∃ G ∈ σ.transactions.keys, σ.HoldsLock G v ∧ σ.queuedEnds G = []

/-- The walk may visit `T` before `T'`: `T` does not take the lock that `T'` waits for, unless its
own waiting write is older, and `T'` does not free the lock that `T` waits for. -/
def Yields (σ : State) (T T' : TranId) : Prop :=
  (∀ p ∈ σ.awaited? T', ∀ r ∈ σ.blockedRequests T, r.access? = some (T, p.1) →
    σ.HoldsLock T p.1 ∨ σ.StaysLocked p.1 ∨
      (σ.awaited? T = some (p.1, r.timestamp) ∧ r.timestamp < p.2)) ∧
  ∀ p ∈ σ.awaited? T, σ.HoldsLock T' p.1 → σ.queuedEnds T' = []

/-- The walk over the transactions `ks` frees and grants the locks in order. -/
structure FreesInOrder (σ : State) (ks : List TranId) : Prop where
  yields : ks.Pairwise σ.Yields
  sent : ∀ T ∈ ks, ∀ p ∈ σ.awaited? T,
    σ.StaysLocked p.1 ∨ ∀ X ∈ σ.waitsFor T, σ.HoldsLock X p.1

/-- Each lock that a write waits for is held by a live transaction. -/
def AwaitedLocked (σ : State) : Prop :=
  ∀ T ∈ σ.transactions.keys, ∀ p ∈ σ.awaited? T, ∃ G ∈ σ.transactions.keys, σ.HoldsLock G p.1

/-- The deadlock resolution of a call frees no lock that a write waits for, or the call executes the
pending request at once, and the request does not access a variable that a write waits for. -/
def ResolvesSafely (sch : Schedule) (σ : State) : Prop :=
  (σ.detectDeadlock sch.detect).map Prod.fst = some false ∨
    ∀ τ ∈ (σ.resolved sch).toOption, τ.AwaitedLocked ∨
      ∀ r ∈ τ.request, τ.isStale r = false ∧ τ.isBlocked r.transactionId = false ∧
        ∀ a ∈ r.access?, ∀ T ∈ τ.transactions.keys, ∀ p ∈ τ.awaited? T, p.1 ≠ a.2

instance (σ : State) (T : TranId) (v : VarId) : Decidable (σ.HoldsLock T v) :=
  inferInstanceAs (Decidable (∃ s ∈ copySites v, _ ∧ _))

instance (σ : State) (v : VarId) : Decidable (σ.StaysLocked v) :=
  inferInstanceAs (Decidable (∃ G ∈ σ.transactions.keys, _ ∧ _))

instance (σ : State) : DecidableRel σ.Yields := fun T T' =>
  inferInstanceAs (Decidable ((∀ p ∈ σ.awaited? T', ∀ r ∈ σ.blockedRequests T,
    r.access? = some (T, p.1) → σ.HoldsLock T p.1 ∨ σ.StaysLocked p.1 ∨
      (σ.awaited? T = some (p.1, r.timestamp) ∧ r.timestamp < p.2)) ∧
    ∀ p ∈ σ.awaited? T, σ.HoldsLock T' p.1 → σ.queuedEnds T' = []))

instance (σ : State) (ks : List TranId) : Decidable (σ.FreesInOrder ks) :=
  decidable_of_iff (ks.Pairwise σ.Yields ∧ ∀ T ∈ ks, ∀ p ∈ σ.awaited? T,
    σ.StaysLocked p.1 ∨ ∀ X ∈ σ.waitsFor T, σ.HoldsLock X p.1)
    ⟨fun h => ⟨h.1, h.2⟩, fun h => ⟨h.yields, h.sent⟩⟩

instance (σ : State) : Decidable σ.AwaitedLocked :=
  inferInstanceAs (Decidable (∀ T ∈ σ.transactions.keys, ∀ p ∈ σ.awaited? T,
    ∃ G ∈ σ.transactions.keys, σ.HoldsLock G p.1))

instance (sch : Schedule) (σ : State) : Decidable (σ.ResolvesSafely sch) :=
  inferInstanceAs (Decidable (_ ∨ ∀ τ ∈ (σ.resolved sch).toOption, τ.AwaitedLocked ∨
    ∀ r ∈ τ.request, τ.isStale r = false ∧ τ.isBlocked r.transactionId = false ∧
      ∀ a ∈ r.access?, ∀ T ∈ τ.transactions.keys, ∀ p ∈ τ.awaited? T, p.1 ≠ a.2))

lemma awaited?_eq_some {p : VarId × Timestamp} : σ.awaited? T = some p ↔ T ∈ σ.transactions ∧
    ∃ T' x, (σ.blockedRequests T).head? = some (.write p.2 T' p.1 x) := by
  rw [awaited?]
  split_ifs with hT
  · simp only [hT, true_and]
    cases (σ.blockedRequests T).head? with
    | none => simp
    | some r =>
        cases r with
        | write ts T' v x => simp [Request.written?, Prod.ext_iff, and_comm]
        | _ => simp [Request.written?]
  · simp [hT]

lemma mem_blockedRequests : r ∈ σ.blockedRequests T ↔
    ∃ q, σ.blockedTransactionsQueue.lookup T = some q ∧ r ∈ q := Dict.mem_getD

lemma Good.live_of_holdsLock (hg : σ.Good) (hl : σ.HoldsLock T v) : T ∈ σ.transactions := by
  by_contra hno
  exact hg.not_holdsLock hno hl

lemma mem_keys : T ∈ σ.transactions.keys ↔ T ∈ σ.transactions := AList.mem_keys.symm

/-- A blocked request by which a transaction commits is its end. -/
lemma queuedEnds_ne_nil (hout : Outcome o σ r es σ') (hr : r ∈ σ₁.blockedRequests r.transactionId)
    (hc : .committed G ∈ es) : σ₁.queuedEnds G ≠ [] := by
  obtain ⟨ts, rfl⟩ := hout.committed_mem hc
  exact List.ne_nil_of_mem (mem_queuedEnds.mpr (mem_blockedRequests.mp hr))

/-! ### The walk over the queue -/

/-- The walk that began in `σ₁` and still has to visit `rest` has reached `σ`: it has taken no locks
for `rest`, and only those have left that held no lock for good. -/
structure Walking (σ₁ : State) (rest : List TranId) (σ : State) : Prop where
  queue : ∀ T, σ.blockedTransactionsQueue.lookup T = σ₁.blockedTransactionsQueue.lookup T
  live : ∀ {T}, T ∈ σ.transactions → T ∈ σ₁.transactions
  stays : ∀ {G}, G ∈ σ₁.transactions → σ₁.queuedEnds G = [] → G ∈ σ.transactions
  kept : ∀ {G v}, σ₁.HoldsLock G v → G ∈ σ.transactions → σ.HoldsLock G v
  old : ∀ {G v}, G ∈ rest → σ.HoldsLock G v → σ₁.HoldsLock G v
  sent : ∀ {T p}, T ∈ rest → σ.awaited? T = some p →
    σ₁.StaysLocked p.1 ∨ ∀ X ∈ σ.waitsFor T, σ.HoldsLock X p.1

namespace Walking

lemma start (h : σ.FreesInOrder rest) : Walking σ rest σ :=
  ⟨fun _ => rfl, id, fun hG _ => hG, fun hl _ => hl, fun _ hl => hl,
    fun hT hp => h.sent _ hT _ hp⟩

lemma tail (h : Walking σ₁ (T :: rest) σ) : Walking σ₁ rest σ :=
  ⟨h.queue, h.live, h.stays, h.kept, fun hG => h.old (List.mem_cons_of_mem T hG),
    fun hT => h.sent (List.mem_cons_of_mem T hT)⟩

lemma blockedRequests (h : Walking σ₁ rest σ) (T : TranId) :
    σ.blockedRequests T = σ₁.blockedRequests T := by
  rw [State.blockedRequests, h.queue, State.blockedRequests]

lemma queuedEnds (h : Walking σ₁ rest σ) (T : TranId) : σ.queuedEnds T = σ₁.queuedEnds T := by
  rw [State.queuedEnds, h.queue, State.queuedEnds]

lemma awaited (h : Walking σ₁ rest σ) {p : VarId × Timestamp} (hp : σ.awaited? T = some p) :
    σ₁.awaited? T = some p := by
  obtain ⟨hT, hq⟩ := awaited?_eq_some.mp hp
  exact awaited?_eq_some.mpr ⟨h.live hT, h.blockedRequests T ▸ hq⟩

/-- What was locked for good is still locked. -/
lemma locked (h : Walking σ₁ rest σ) (hs : σ₁.StaysLocked v) :
    ∃ G, σ.HoldsLock G v ∧ σ₁.queuedEnds G = [] := by
  obtain ⟨G, hG, hl, he⟩ := hs
  exact ⟨G, h.kept hl (h.stays (mem_keys.mp hG) he), he⟩

/-- Executing a blocked request of a transaction that is not among the `rest`. -/
theorem exec (h : Walking σ₁ rest σ) (hx : Execution o σ r es σ') (hrest : r.transactionId ∉ rest)
    {rs : List Request} (hq : σ₁.blockedTransactionsQueue.lookup r.transactionId = some rs)
    (hr : r ∈ rs) (hs : SortedByKey Request.timestamp rs) : Walking σ₁ rest σ' := by
  have hqueue := hx.lookup_queue (h.queue r.transactionId ▸ hq) hr hs
  have hr₁ : r ∈ σ₁.blockedRequests r.transactionId := by
    rw [State.blockedRequests, hq]
    exact hr
  refine ⟨fun T => (hqueue T).trans (h.queue T), fun hT => h.live (hx.live_iff.mp hT).1,
    fun {G} hG he => ?_, fun {G v} hl hG => ?_, fun {G v} hG hl => ?_, fun {T p} hT hp => ?_⟩
  · exact hx.live_iff.mpr ⟨h.stays hG he, fun hc => queuedEnds_ne_nil hx.outcome hr₁ hc he⟩
  · obtain ⟨hG', hc⟩ := hx.live_iff.mp hG
    exact hx.holdsLock (h.kept hl hG') hc
  · rcases hx.held hl with hl | ha
    · exact h.old hG hl
    · exact absurd (Request.transactionId_of_access ha ▸ hG) hrest
  · have hp' : σ.awaited? T = some p := by
      obtain ⟨hlive, hw⟩ := awaited?_eq_some.mp hp
      rw [State.blockedRequests, hqueue] at hw
      exact awaited?_eq_some.mpr ⟨(hx.live_iff.mp hlive).1, hw⟩
    refine (h.sent hT hp').imp id fun hall X hX => ?_
    have hX' := hx.outcome.subset_waitsFor (fun v ha =>
      hrest (Request.transactionId_of_access ha ▸ hT)) hX
    refine hx.holdsLock (hall X hX') fun hc => ?_
    -- all those that the transaction waits for hold the same lock
    have hw : σ.waitsFor T = [X] := by
      have hone : ∀ Y ∈ σ.waitsFor T, Y = X := fun Y hY =>
        hx.unfailed.holder_unique hx.good (hall Y hY) (hall X hX')
      exact Container.eq_singleton_of_nodup (hx.unfailed.nodup T) hX' hone
    rw [hx.outcome.waitsFor_of_committed hc hw] at hX
    cases hX

end Walking

/-- The variable `v`, for which `T` waits, is locked: by `T`, or by a transaction that does not end
in the rest of the walk. -/
def Guarded (σ₁ : State) (rest : List TranId) (σ : State) (T : TranId) (v : VarId) : Prop :=
  ∃ G, σ.HoldsLock G v ∧ (G = T ∨ (G ∈ rest → σ₁.queuedEnds G = []))

/-- Before the walk visits the transactions `rest`. -/
structure WalkOrdered (σ₁ : State) (rest : List TranId) (σ : State) : Prop where
  walking : Walking σ₁ rest σ
  yields : rest.Pairwise σ₁.Yields
  guards : ∀ {T p}, σ.awaited? T = some p → T ∉ rest → Guarded σ₁ rest σ T p.1

/-- While the walk has the requests `rs` of `T` still to execute. -/
structure SetOrdered (σ₁ : State) (T : TranId) (rs : List Request) (rest : List TranId)
    (σ : State) : Prop where
  walking : Walking σ₁ rest σ
  yields : (T :: rest).Pairwise σ₁.Yields
  blocked : ∀ r ∈ rs, r ∈ σ₁.blockedRequests T
  guards : ∀ {T' p}, σ.awaited? T' = some p → T' ∉ rest →
    (T' = T ∧ σ₁.blockedRequests T = rs) ∨ Guarded σ₁ (T :: rest) σ T' p.1

lemma WalkOrdered.start (h : σ.FreesInOrder rest)
    (hrest : ∀ T ∈ σ.blockedTransactionsQueue, T ∈ rest) : WalkOrdered σ rest σ where
  walking := .start h
  yields := h.yields
  guards {T p} hp hT := by
    obtain ⟨-, T', x, hq⟩ := awaited?_eq_some.mp hp
    obtain ⟨q, hl, -⟩ := mem_blockedRequests.mp (List.mem_of_head? hq)
    exact absurd (hrest T (Dict.mem_of_lookup hl)) hT

/-- A transaction that is not served waits for one that does not end in the walk. -/
lemma WalkOrdered.skip (h : WalkOrdered σ₁ (T :: rest) σ) (hu : σ.Unfailed)
    (hs : σ.blockedTransactionsQueue.lookup T = none ∨ σ.isWaitingForLock T = true ∨
      σ.isTransactionWaitingForSite T = true) : WalkOrdered σ₁ rest σ where
  walking := h.walking.tail
  yields := (List.pairwise_cons.mp h.yields).2
  guards {T' p} hp hT' := by
    by_cases heq : T' = T
    · subst heq
      have hp₁ := h.walking.awaited hp
      rcases hs with hq | hw | hsite
      · obtain ⟨-, T₂, x, hq'⟩ := awaited?_eq_some.mp hp
        simp [blockedRequests, hq] at hq'
      · obtain ⟨X, hX⟩ := List.exists_mem_of_ne_nil (σ.waitsFor T')
          (by simpa [isWaitingForLock] using hw)
        rcases h.walking.sent List.mem_cons_self hp with hs | hall
        · obtain ⟨G, hG, he⟩ := h.walking.locked hs
          exact ⟨G, hG, Or.inr fun _ => he⟩
        · refine ⟨X, hall X hX, Or.inr fun hXr => ?_⟩
          exact ((List.pairwise_cons.mp h.yields).1 X hXr).2 p hp₁
            (h.walking.old (List.mem_cons_of_mem T' hXr) (hall X hX))
      · exact absurd (of_decide_eq_true hsite) (hu.site T')
    · obtain ⟨G, hG, he⟩ := h.guards hp (by simp [heq, hT'])
      exact ⟨G, hG, he.imp id fun he hGr => he (List.mem_cons_of_mem T hGr)⟩

lemma WalkOrdered.enter {rs : List Request} (h : WalkOrdered σ₁ (T :: rest) σ)
    (hq : σ.blockedTransactionsQueue.lookup T = some rs) : SetOrdered σ₁ T rs rest σ where
  walking := h.walking.tail
  yields := h.yields
  blocked r hr := by
    rw [← h.walking.blockedRequests, blockedRequests, hq]
    exact hr
  guards {T' p} hp hT' := by
    by_cases heq : T' = T
    · refine Or.inl ⟨heq, ?_⟩
      rw [← h.walking.blockedRequests, blockedRequests, hq, Option.getD_some]
    · exact Or.inr (h.guards hp (by simp [heq, hT']))

lemma SetOrdered.leave (h : SetOrdered σ₁ T [] rest σ) : WalkOrdered σ₁ rest σ where
  walking := h.walking
  yields := (List.pairwise_cons.mp h.yields).2
  guards {T' p} hp hT' := by
    rcases h.guards hp hT' with ⟨rfl, hnil⟩ | ⟨G, hG, he⟩
    · obtain ⟨-, T₂, x, hq⟩ := awaited?_eq_some.mp (h.walking.awaited hp)
      rw [hnil] at hq
      cases hq
    · exact ⟨G, hG, he.imp id fun he hGr => he (List.mem_cons_of_mem T hGr)⟩

/-- Executing a request of `T` leaves the variables locked for which the visited transactions
wait. -/
theorem SetOrdered.exec {rs : List Request} (h : SetOrdered σ₁ T (r :: rs) rest σ)
    (hx : Execution o σ r es σ') (hT : r.transactionId = T) (hrest : T ∉ rest)
    (hs : ∀ {T q}, σ₁.blockedTransactionsQueue.lookup T = some q →
      SortedByKey Request.timestamp q) : SetOrdered σ₁ T rs rest σ' := by
  subst hT
  have hr₁ := h.blocked r List.mem_cons_self
  obtain ⟨q, hq, hmem⟩ := mem_blockedRequests.mp hr₁
  refine ⟨h.walking.exec hx hrest hq hmem (hs hq), h.yields,
    fun r' hr' => h.blocked r' (List.mem_cons_of_mem r hr'), fun {T' p} hp hT' => Or.inr ?_⟩
  have hlive := (awaited?_eq_some.mp hp).1
  have hp' : σ.awaited? T' = some p := by
    obtain ⟨-, hw⟩ := awaited?_eq_some.mp hp
    rw [blockedRequests, hx.lookup_queue (h.walking.queue _ ▸ hq) hmem (hs hq)] at hw
    exact awaited?_eq_some.mpr ⟨(hx.live_iff.mp hlive).1, hw⟩
  rcases h.guards hp' hT' with ⟨rfl, hfirst⟩ | ⟨G, hG, he⟩
  · -- the first request of the transaction is the write that waited
    obtain ⟨-, T₂, x, hq'⟩ := awaited?_eq_some.mp (h.walking.awaited hp')
    rw [hfirst] at hq'
    cases hq'
    obtain ⟨G, hG, hold⟩ := hx.locked_of_write
    refine ⟨G, hG, or_iff_not_imp_left.mpr fun hne hGr => ?_⟩
    have hGr' : G ∈ rest := (List.mem_cons.mp hGr).resolve_left hne
    exact ((List.pairwise_cons.mp h.yields).1 G hGr').2 p (h.walking.awaited hp')
      (h.walking.old hGr' (hold.resolve_left hne))
  · refine ⟨G, hx.holdsLock hG fun hc => ?_, he⟩
    rcases he with rfl | he
    · exact (hx.live_iff.mp hlive).2 hc
    · obtain ⟨ts, rfl⟩ := hx.outcome.committed_mem hc
      exact queuedEnds_ne_nil hx.outcome hr₁ hc (he List.mem_cons_self)

/-- **A request that the walk executes is served in order.** -/
theorem SetOrdered.served {rs : List Request} (h : SetOrdered σ₁ T (r :: rs) rest σ)
    (hg : σ.Good) (hu : σ.Unfailed) (hT : r.transactionId = T) : σ.ServedInOrder r := by
  rintro T₀ v ⟨hacc, hst, t, ht, -⟩ T' ts' hp
  have hfree : ∀ G, ¬σ.HoldsLock G v := fun G => hu.not_holdsLock_of_available hg hst
  have hr₁ := h.blocked r List.mem_cons_self
  obtain rfl : T = T₀ := hT.symm.trans (Request.transactionId_of_access hacc)
  by_cases hrest : T' ∈ rest
  · have hlive : T ∈ σ.transactions := Dict.mem_of_lookup ht
    have hy := ((List.pairwise_cons.mp h.yields).1 T' hrest).1 _ (h.walking.awaited hp) r hr₁ hacc
    rcases hy with hl | hl | ⟨hw, hlt⟩
    · exact absurd (h.walking.kept hl hlive) (hfree T)
    · obtain ⟨G, hG, -⟩ := h.walking.locked hl
      exact absurd hG (hfree G)
    · obtain ⟨-, hq⟩ := awaited?_eq_some.mp hw
      exact ⟨awaited?_eq_some.mpr ⟨hlive, h.walking.blockedRequests T ▸ hq⟩, hlt.le⟩
  · rcases h.guards hp hrest with ⟨rfl, hfirst⟩ | ⟨G, hG, -⟩
    · obtain ⟨-, T₂, x, hq⟩ := awaited?_eq_some.mp (h.walking.awaited hp)
      rw [hfirst] at hq
      cases hq
      exact ⟨hp, le_refl ts'⟩
    · exact absurd hG (hfree G)

/-- **The walk keeps the order**, in a run without site failures. -/
lemma walkRule_ordered (ha : Admissible l) (hR : Reached l' σ₁) (sch : Schedule) :
    WalkRule sch (fun r _ => SparesSites r)
      (fun ks fin σ => (InWalk l ks fin σ ∧ σ.Unfailed) ∧ WalkOrdered σ₁ ks σ)
      fun T rs rest fin σ =>
        (InSet l T rs rest fin σ ∧ σ.Unfailed) ∧ SetOrdered σ₁ T rs rest σ := by
  have hbase := unfailed_invariant.walkRule ha sch
  refine ⟨fun h hs => ⟨hbase.skip h.1 hs, h.2.skip h.1.2 hs⟩,
    fun h hq hw hsite => ⟨hbase.enter h.1 hq hw hsite, h.2.enter hq⟩,
    fun {T r rs rest fin σ σ'} h hr hx => ?_, fun h hT => ⟨hbase.leave h.1 hT, h.2.leave⟩⟩
  have h' := hbase.exec h.1 hr hx
  obtain ⟨es, hout⟩ := exec_outcome hx
  obtain ⟨hq, hT⟩ := h.1.1.queueable r List.mem_cons_self
  have hx' : Execution _ σ r es σ' := ⟨hout, h.1.1.reached.good, h.1.2, h'.1.reached.good, h'.2, hr,
    hq.fed.ne_missing ha, hq.not_begin⟩
  refine ⟨h', h.2.exec hx' hT (List.nodup_cons.mp h.1.1.nodup).1 hR.known.sorted⟩

/-! ### Between the walks -/

namespace AwaitedLocked

lemma congr (h : σ.AwaitedLocked) (hs : σ'.sites = σ.sites) (ht : σ'.transactions = σ.transactions)
    (hp : ∀ {T p}, σ'.awaited? T = some p → σ.awaited? T = some p) : σ'.AwaitedLocked := by
  intro T hT p hpT
  rw [ht] at hT
  obtain ⟨G, hG, s, hmem, hl⟩ := h T hT p (hp hpT)
  refine ⟨G, ht ▸ hG, s, hmem, ?_⟩
  rw [isWriteAvailable, getVariable, hs]
  exact hl

/-- What is not a write waits for no lock. -/
lemma enqueue (h : σ.AwaitedLocked) (hrw : r.isReadWrite = false) :
    (σ.addRequestToBlockedQueue r).AwaitedLocked := by
  refine h.congr rfl rfl fun {T p} hp => ?_
  obtain ⟨hT, T', x, hq⟩ := awaited?_eq_some.mp hp
  refine awaited?_eq_some.mpr ⟨hT, T', x, ?_⟩
  rw [blockedRequests, addRequest_lookup] at hq
  split_ifs at hq with heq
  · rcases Container.head?_insertByKey Request.timestamp r (σ.blockedRequests T) with hr | hold
    · cases hr.symm.trans hq
      cases hrw
    · exact hold.symm.trans hq
  · exact hq

/-- A read or write that is executed frees no lock, and waits for one that is held. -/
lemma exec (h : σ.AwaitedLocked) (hx : Execution o σ r es σ') (hrw : r.isReadWrite = true) :
    σ'.AwaitedLocked := by
  have hc : ∀ T, .committed T ∉ es := fun T hmem => by
    obtain ⟨ts, rfl⟩ := hx.outcome.committed_mem hmem
    cases hrw
  intro T hT p hp
  obtain ⟨hlive, T', x, hq⟩ := awaited?_eq_some.mp hp
  have hcases : (σ.blockedRequests T).head? = some (.write p.2 T' p.1 x) ∨
      r = .write p.2 T' p.1 x := by
    rw [blockedRequests, hx.outcome.lookup_queue, queueAfter, if_neg hx.not_aborted] at hq
    split_ifs at hq with hw
    · rcases Container.head?_insertByKey Request.timestamp r (σ.blockedRequests T) with hr | hold
      · exact Or.inr (Option.some.inj (hr.symm.trans hq))
      · exact Or.inl (hold.symm.trans hq)
    · exact Or.inl hq
  rcases hcases with hold | rfl
  · have hT' := mem_keys.mpr (hx.live_iff.mp hlive).1
    obtain ⟨G, -, hG⟩ := h T hT' p (awaited?_eq_some.mpr ⟨mem_keys.mp hT', T', x, hold⟩)
    have hG' := hx.holdsLock hG (hc G)
    exact ⟨G, mem_keys.mpr (hx.good'.live_of_holdsLock hG'), hG'⟩
  · obtain ⟨G, hG, -⟩ := hx.locked_of_write
    exact ⟨G, mem_keys.mpr (hx.good'.live_of_holdsLock hG), hG⟩

/-- If a lock is free, no write waits for it. -/
lemma served (h : σ.AwaitedLocked) (hg : σ.Good) (hu : σ.Unfailed) : σ.ServedInOrder r := by
  rintro T v ⟨-, hst, -⟩ T' ts' hp
  obtain ⟨G, -, hG⟩ := h T' (mem_keys.mpr (awaited?_eq_some.mp hp).1) _ hp
  exact absurd hG (hu.not_holdsLock_of_available hg hst)

/-- The resolution of the deadlocks of a call. -/
lemma resolved (h : σ.AwaitedLocked) (hs : σ.ResolvesSafely sch) (hτ : σ.resolved sch = .ok τ) :
    τ.AwaitedLocked ∨ ∀ r ∈ τ.request, τ.isStale r = false ∧ τ.isBlocked r.transactionId = false ∧
      ∀ a ∈ r.access?, ∀ T ∈ τ.transactions.keys, ∀ p ∈ τ.awaited? T, p.1 ≠ a.2 := by
  rcases hs with hno | hs
  · refine Or.inl ?_
    obtain ⟨⟨b, σ₂⟩, hd, rfl⟩ := Option.map_eq_some_iff.mp hno
    obtain ⟨⟨g, rfl⟩, -⟩ := detectDeadlock_spec hd
    rw [State.resolved, resolveDeadlocks, hd] at hτ
    cases hτ
    exact h.congr rfl rfl id
  · exact hs τ (by rw [hτ]; rfl)

end AwaitedLocked

/-- After the walk the locks are held that the blocked writes wait for. -/
lemma WalkOrdered.finish (h : WalkOrdered σ₁ [] σ) (hg : σ.Good) (L : List TranId) :
    ({ σ.dequeueAll L with request := none } : State).AwaitedLocked := by
  intro T hT p hp
  have hp' : σ.awaited? T = some p := by
    obtain ⟨hlive, T', x, hq⟩ := awaited?_eq_some.mp hp
    refine awaited?_eq_some.mpr ⟨hlive, T', x, ?_⟩
    rw [blockedRequests, dequeueAll, Dict.lookup_foldl_erase] at hq
    split_ifs at hq
    · cases hq
    · exact hq
  obtain ⟨G, hG, -⟩ := h.guards hp' List.not_mem_nil
  exact ⟨G, mem_keys.mpr (hg.live_of_holdsLock hG), hG⟩

end State

section Runs

variable {l : List Feed} {sch : Schedule} {σ σ' σ₁ τ : State} {r : Request}

/-- A run without failures executes no failure of a site. -/
lemma sparesSites_of_called (hfail : ∀ x ∈ l, ∀ s, x.insr ≠ .fail s) (h : CalledDuring l r τ) :
    State.SparesSites r := by
  rintro ts s rfl
  obtain ⟨x, hx, hreq⟩ := fed_of_called h
  generalize hi : x.insr = i at hreq
  cases makes_of_request hreq with
  | fail => exact hfail x hx _ hi

/-- What holds of the walk of a call in a run without failures. -/
lemma walkOrdered_start (ha : Admissible l) (hfail : ∀ x ∈ l, ∀ s, x.insr ≠ .fail s)
    (hc : CallOf l sch σ) (hw : State.WalkStarts sch σ σ₁)
    (hord : σ₁.FreesInOrder (sch.walk.visit σ₁.blockedTransactionsQueue.keys)) :
    ∃ l', Admissible l' ∧ State.Reached l' σ₁ ∧
      (State.InWalk l' (sch.walk.visit σ₁.blockedTransactionsQueue.keys) [] σ₁ ∧ σ₁.Unfailed) ∧
      State.WalkOrdered σ₁ (sch.walk.visit σ₁.blockedTransactionsQueue.keys) σ₁ := by
  obtain ⟨l', ha', ⟨hR, hW⟩, hu⟩ := unfailed_invariant.invariant.walkStarts ha
    (fun r τ => sparesSites_of_called hfail) hc hw
  refine ⟨l', ha', hR, ⟨.start hR hW, hu⟩, .start hord fun T hT => ?_⟩
  exact sch.walk.mem_visit.mpr (AList.mem_keys.mp hT)

/-- Every call that resolves safely and walks in order leaves the awaited locks held. -/
lemma awaitedLocked_of_call (ha : Admissible l) (hfail : ∀ x ∈ l, ∀ s, x.insr ≠ .fail s)
    (hc : CallOf l sch σ) (hres : σ.ResolvesSafely sch)
    (hwalk : ∀ σ₁, State.WalkStarts sch σ σ₁ →
      σ₁.FreesInOrder (sch.walk.visit σ₁.blockedTransactionsQueue.keys))
    (hK : σ.AwaitedLocked) (hx : State.executeInstructions sch σ = .ok σ') : σ'.AwaitedLocked := by
  have hspares : ∀ r τ, CalledDuring l r τ → State.SparesSites r := fun r τ =>
    sparesSites_of_called hfail
  rcases State.executeInstructions_cases hx with ⟨r, τ, hτ, hr, hst, rfl⟩ |
    ⟨r, τ, σ₁, hd, hb, hex, rfl⟩ | ⟨r, τ, hτ, hr, hst, hb, hrw, rfl⟩ | ⟨σ₁, hw, hs⟩
  · rcases hK.resolved hres hτ with hK | hsafe
    · exact hK.congr rfl rfl id
    · have hno := (hsafe r hr).1
      rw [hst] at hno
      cases hno
  · have hKτ : τ.AwaitedLocked := (hK.resolved hres hd.1).resolve_right fun hsafe => by
      have hno := (hsafe r hd.2.1).2.1
      rw [hb] at hno
      cases hno
    have hrw := hd.2.2.2 hb
    have hsp := hspares r τ ⟨sch, σ, hc, Or.inl hd⟩
    have hfed : Fed l r := fed_of_called ⟨sch, σ, hc, Or.inl hd⟩
    obtain ⟨l₁, l₂, ha₁, ha₂, hP, -, hl⟩ := unfailed_invariant.invariant.callOf ha hspares hc
    obtain ⟨hPτ, hreq⟩ := (unfailed_invariant.invariant.settled l₁ ha₁).calledDirectly hP hd
    have hP₁ := (hl r hreq).exec hPτ hsp hd.2.2.1 hd.2.2.2 hex
    obtain ⟨es, hout⟩ := State.exec_outcome hex
    have hbegin : r.isBegin = false := by cases r <;> first | rfl | cases hrw
    have hx : State.Execution _ τ r es σ₁ :=
      ⟨hout, hPτ.1.1.good, hPτ.2, hP₁.1.1.good, hP₁.2, hsp, hfed.ne_missing ha, hbegin⟩
    exact (hKτ.exec hx hrw).congr rfl rfl id
  · have hKτ : τ.AwaitedLocked := (hK.resolved hres hτ).resolve_right fun hsafe => by
      have hno := (hsafe r hr).2.1
      rw [hb] at hno
      cases hno
    exact (hKτ.enqueue hrw).congr rfl rfl id
  · obtain ⟨l', ha', hR, hin, hord⟩ := walkOrdered_start ha hfail hc hw (hwalk σ₁ hw)
    rw [State.serveBlocked, Container.bind_eq_ok] at hs
    obtain ⟨⟨fin, σ₂⟩, hwalk, hs⟩ := hs
    cases hs
    have hI := (State.walkRule_ordered ha' hR sch).walk ⟨hin, hord⟩
      (fun r τ hcw => hspares r τ ⟨sch, σ, hc, Or.inr ⟨σ₁, hw, hcw⟩⟩) hwalk
    exact hI.2.finish hI.1.1.reached.good _

/-- **Waiters for one variable are served in the order of their writes**, in a run without site
failures in which every call resolves its deadlocks safely and frees the locks in order. -/
theorem waiters_served_in_order (ha : Admissible l) (hfail : ∀ x ∈ l, ∀ s, x.insr ≠ .fail s)
    (hres : ∀ sch σ, CallOf l sch σ → σ.ResolvesSafely sch)
    (hwalk : ∀ sch σ σ₁, CallOf l sch σ → State.WalkStarts sch σ σ₁ →
      σ₁.FreesInOrder (sch.walk.visit σ₁.blockedTransactionsQueue.keys))
    (hc : CalledDuring l r τ) : τ.ServedInOrder r := by
  have hspares : ∀ r τ, CalledDuring l r τ → State.SparesSites r := fun r τ =>
    sparesSites_of_called hfail
  obtain ⟨sch, σ, hcall, hd | ⟨σ₁, hw, hcw⟩⟩ := hc
  · have hK : σ.AwaitedLocked := hcall.induction (fun T hT => by simp [State.initial] at hT)
      (fun h => h.congr rfl rfl id) fun {sch σ σ'} hc hK hx =>
        awaitedLocked_of_call ha hfail hc (hres sch σ hc) (fun σ₁ => hwalk sch σ σ₁ hc) hK hx
    rcases hK.resolved (hres sch σ hcall) hd.1 with hK | hsafe
    · obtain ⟨l', hR, hu⟩ := unfailed_invariant.called ha hspares ⟨sch, σ, hcall, Or.inl hd⟩
      exact hK.served hR.good hu
    · rintro T v ⟨hacc, -⟩ T' ts' hp
      obtain ⟨hlive, -⟩ := State.awaited?_eq_some.mp hp
      exact absurd rfl ((hsafe r hd.2.1).2.2 _ hacc T' (State.mem_keys.mpr hlive) _ hp)
  · obtain ⟨l', ha', hR, hin, hord⟩ := walkOrdered_start ha hfail hcall hw (hwalk sch σ σ₁ hcall hw)
    obtain ⟨T, rs, rest, fin, hJ⟩ := (State.walkRule_ordered ha' hR sch).called [] ⟨hin, hord⟩
      (fun r τ hcw => hspares r τ ⟨sch, σ, hcall, Or.inr ⟨σ₁, hw, hcw⟩⟩) hcw
    exact hJ.2.served hJ.1.1.reached.good hJ.1.2 (hJ.1.1.queueable r List.mem_cons_self).2

/-- Two writes wait for the lock of a transaction that ends. -/
def waitersRun (o : IterOrder) : List Feed :=
  inOrder { Schedule.stored with walk := o } [.begin 1, .begin 2, .begin 3, .write 1 2 5,
    .write 2 2 6, .write 3 2 7, .finish 1, .finish 2, .finish 3]

/-- The walk visits the older waiter first. -/
theorem waiters_served_in_order_waitersRun : ∃ τ,
    CalledDuring (waitersRun .reversed) (.write 4 2 x2 6) τ ∧ τ.awaited? 3 = some (x2, 5) ∧
      (τ.tryAcquireWriteLock 2 x2).status = .availableToAssign ∧
      τ.ServedInOrder (.write 4 2 x2 6) := by
  obtain ⟨hcalls, -⟩ := forall_of_feedCalls (l := waitersRun .reversed)
    (D := fun sch σ => σ.ResolvesSafely sch ∧ ∀ σ₁ ∈ State.walkStart sch σ,
      σ₁.FreesInOrder (sch.walk.visit σ₁.blockedTransactionsQueue.keys))
    (A := fun _ _ => True) (C := fun _ _ => True) (by decide +kernel) (by decide +kernel)
  obtain ⟨σ, τ, hc, ht, hf⟩ := exists_takenFromQueue (l := (waitersRun .reversed).take 6)
    (x := ⟨.finish 1, 6, { Schedule.stored with walk := .reversed }⟩) (r := .write 4 2 x2 6)
    (f := fun τ => (τ.awaited? 3, (τ.tryAcquireWriteLock 2 x2).status))
    (a := (some (x2, 5), .availableToAssign)) ((waitersRun .reversed).drop 7) (by decide +kernel)
  simp only [Prod.mk.injEq] at hf
  have hcalled : CalledDuring (waitersRun .reversed) (.write 4 2 x2 6) τ :=
    ⟨_, σ, hc, Or.inr ht⟩
  exact ⟨τ, hcalled, hf.1, hf.2, waiters_served_in_order (by decide +kernel)
    (by simp [waitersRun, inOrder]) (fun sch σ hc => (hcalls sch σ hc).1)
    (fun sch σ σ₁ hc hw => (hcalls sch σ hc).2 σ₁ (State.walkStart_of_walkStarts hw)) hcalled⟩

/-- **An overtaken write**: two writes wait for a variable, and the walk gives the lock to the
younger one, because it visits its transaction first. -/
theorem overtaken_write : Admissible (waitersRun .stored) ∧
    (∀ x ∈ waitersRun .stored, ∀ s, x.insr ≠ .fail s) ∧ ∃ τ σ',
      CalledDuring (waitersRun .stored) (.write 5 3 x2 7) τ ∧
      τ.awaited? 2 = some (x2, 4) ∧ τ.awaited? 3 = some (x2, 5) ∧
      (∀ T ∈ τ.transactions.keys, ¬τ.HoldsLock T x2) ∧
      τ.TakesLock (.write 5 3 x2 7) 3 x2 ∧ ¬τ.ServedInOrder (.write 5 3 x2 7) ∧
      τ.exec .stored (.write 5 3 x2 7) = .ok σ' ∧ σ'.HoldsLock 3 x2 := by
  obtain ⟨σ, τ, hc, ht, hf⟩ := exists_takenFromQueue (l := (waitersRun .stored).take 6)
    (x := ⟨.finish 1, 6, { Schedule.stored with walk := .stored }⟩) (r := .write 5 3 x2 7)
    (f := fun τ => (decide (τ.awaited? 2 = some (x2, 4) ∧ τ.awaited? 3 = some (x2, 5) ∧
      (∀ T ∈ τ.transactions.keys, ¬τ.HoldsLock T x2) ∧
      (τ.tryAcquireWriteLock 3 x2).status = .availableToAssign ∧ 3 ∈ τ.transactions),
      (τ.exec .stored (.write 5 3 x2 7)).toOption.map fun σ' : State =>
        decide (σ'.HoldsLock 3 x2)))
    (a := (true, some true)) ((waitersRun .stored).drop 7) (by decide +kernel)
  simp only [Prod.mk.injEq] at hf
  obtain ⟨h2, h3, hfree, hst, hlive⟩ := of_decide_eq_true hf.1
  obtain ⟨σ', hx, hl⟩ := exists_ok_of_eval hf.2
  obtain ⟨t, ht'⟩ := Dict.exists_lookup hlive
  have htake : τ.TakesLock (.write 5 3 x2 7) 3 x2 :=
    ⟨rfl, hst, t, ht', fun ts heq => by cases heq⟩
  refine ⟨by decide +kernel, by simp [waitersRun, inOrder], τ, σ', ⟨_, σ, hc, Or.inr ht⟩, h2, h3,
    hfree, htake,
    fun hserved => ?_, hx, of_decide_eq_true hl⟩
  exact absurd (hserved 3 x2 htake 2 4 h2).2 (by decide)

end Runs

end RepCRec
