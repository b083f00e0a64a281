import RepCRec.Guarantees.DrainLoop

/-!
When the loop that drains the queue does not end. A transaction in the queue that waits for several
others, and is no victim of the deadlocks, waits forever: the edges of a transaction go one by one
only when the last one goes (`stuck_forever`). So the loop ends exactly when there is no such
transaction (`loop_ends_iff`).
-/

namespace RepCRec

open Container (IterOrder Acyclic bind_eq_ok ok_bind)

namespace State

variable {σ σ' τ : State} {o : IterOrder} {r : Request} {es : List Event} {T T' : TranId}
  {l : List Feed} {sch : Schedule} {E : TranId → Timestamp → Prop}

/-- The edges of a transaction that waits for several others stay when one of them leaves. -/
lemma Outcome.waitsFor_of_several (h : Outcome o σ r es σ') (hr : r.transactionId ≠ T)
    (hlen : 2 ≤ (σ.waitsFor T).length) (hc : .committed T ∉ es) (hab : .aborted T ∉ es) :
    σ'.waitsFor T = σ.waitsFor T := by
  refine h.index_induction (P := fun σ₁ => σ₁.waitsFor T = σ.waitsFor T) rfl
    (fun hs ih => hs.waitsFor T ▸ ih) (fun {X _ _} hX hl ih => ?_) (fun _ _ _ _ => rfl)
    (fun T' v s ha _ _ _ _ => ?_) (fun _ _ _ _ _ _ _ => rfl) (fun _ _ _ _ _ _ _ _ _ => rfl)
    (fun _ ih => ih) fun _ _ _ hrec => ?_
  · refine (hl.waitsFor_of_several ?_ (ih ▸ hlen)).trans ih
    rintro rfl
    exact hX.elim hc hab
  · refine waitsFor_assignWaitForGraph_of_ne fun heq => hr ?_
    exact (Request.transactionId_of_access ha).trans heq.symm
  · rw [waitsFor, hrec.waitForGraph, waitsFor]

/-- A live transaction in the queue waits for several others, and is no victim of the deadlocks. -/
structure Stuck (T : TranId) (σ : State) : Prop where
  queued : T ∈ σ.blockedTransactionsQueue
  live : T ∈ σ.transactions
  several : 2 ≤ (σ.waitsFor T).length
  spared : ¬σ.Sacrificed T

/-- The walk that began in `σ₁` has served `fin`: it has not served `T`, and has added no edges but
to those that it has served. -/
structure PassedBy (σ₁ : State) (T : TranId) (fin : List TranId) (σ : State) : Prop where
  queued : T ∈ σ.blockedTransactionsQueue
  live : T ∈ σ.transactions
  waits : σ.waitsFor T = σ₁.waitsFor T
  unserved : T ∉ fin
  edges : ∀ {T'}, T' ∉ fin → σ.waitsFor T' = σ₁.waitsFor T' ∨ σ.waitsFor T' = []

lemma PassedBy.exec {σ₁ : State} {fin : List TranId} (h : PassedBy σ₁ T fin σ)
    (hlen : 2 ≤ (σ₁.waitsFor T).length) (hr : r.transactionId ∈ fin)
    (hf : ∀ ts s, r ≠ .fail ts s) (hm : ∀ ts m, r ≠ .missing ts m) (hout : Outcome o σ r es σ') :
    PassedBy σ₁ T fin σ' := by
  have hne : r.transactionId ≠ T := fun heq => h.unserved (heq ▸ hr)
  have hab : .aborted T ∉ es := fun hes => by
    have ha := hout.aborted_iff.mp hes
    cases r with
    | fail ts s => exact hf ts s rfl
    | finish ts T' => exact hne ha.1
    | read ts T' v => exact hne ha.1
    | missing ts m => exact hm ts m rfl
    | _ => exact ha
  have hc : .committed T ∉ es := fun hes => by
    obtain ⟨ts, rfl⟩ := hout.committed_mem hes
    exact hne rfl
  refine ⟨hout.mem_queue.mpr ⟨hab, Or.inl h.queued⟩,
    hout.mem_transactions.mpr ⟨Or.inl h.live, hc, hab⟩,
    (hout.waitsFor_of_several hne (h.waits ▸ hlen) hc hab).trans h.waits, h.unserved,
    fun {T'} hT' => ?_⟩
  have hne' : r.transactionId ≠ T' := fun heq => hT' (heq ▸ hr)
  exact (hout.waitsFor_cases hne').elim (fun heq => heq ▸ h.edges hT') Or.inr

/-- **The walk passes by** a transaction that waits for several others. -/
lemma walkRule_passedBy {σ₁ : State} (ha : Admissible l) (hno : ¬Begun l (-1))
    (hlen : 2 ≤ (σ₁.waitsFor T).length) (sch : Schedule) :
    WalkRule sch (fun _ _ => True) (fun ks fin σ => InWalk l ks fin σ ∧ PassedBy σ₁ T fin σ)
      fun T' rs rest fin σ => InSet l T' rs rest fin σ ∧ PassedBy σ₁ T (fin.insert T') σ := by
  have hbase := walkRule_waiting ha sch (C := fun _ _ => True)
  refine ⟨fun h hs => ⟨hbase.skip h.1 hs, h.2⟩, fun {T' rs rest fin σ} h hq hw hs => ?_,
    fun {T' r rs rest fin σ σ'} h hC hx => ?_, fun h hT => ⟨hbase.leave h.1 hT, h.2⟩⟩
  · have hne : T ≠ T' := by
      rintro rfl
      rw [← h.2.waits] at hlen
      cases hnil : σ.waitsFor T with
      | nil => simp [hnil] at hlen
      | cons X Xs => simp [isWaitingForLock, hnil] at hw
    refine ⟨hbase.enter h.1 hq hw hs, h.2.queued, h.2.live, h.2.waits, ?_,
      fun hfin => h.2.edges fun hT => hfin (List.mem_insert_of_mem hT)⟩
    simp [List.mem_insert_iff, hne, h.2.unserved]
  · obtain ⟨es, hout⟩ := exec_outcome hx
    obtain ⟨hr, hrT⟩ := h.1.queueable r List.mem_cons_self
    subst hrT
    have hm := hr.fed.ne_missing ha
    refine ⟨hbase.exec h.1 hC hx, h.2.exec hlen List.mem_insert_self (fun ts s heq => ?_) hm hout⟩
    subst heq
    exact hno hr.begun

/-- A transaction that is passed by is stuck after the walk, when the others are without edges once
they were served. -/
lemma Stuck.serve (ha : Admissible l) (hno : ¬Begun l (-1)) (hR : Reached l τ)
    (hW : Waiting (· = -1) τ) (hE : EndsQueued E [] τ) (hac : Acyclic τ.WaitsFor)
    (hq : T ∈ τ.blockedTransactionsQueue) (hT : T ∈ τ.transactions)
    (hlen : 2 ≤ (τ.waitsFor T).length) (hs : State.serveBlocked sch τ = .ok σ')
    (hlink : ∀ T', σ'.waitsFor T' ≠ [] → T' ∈ σ'.transactions ∧ ∃ ts, E T' ts) : Stuck T σ' := by
  rw [serveBlocked, bind_eq_ok] at hs
  obtain ⟨⟨fin, σ₂⟩, hwalk, hs⟩ := hs
  cases hs
  have hP := ((walkRule_passedBy ha hno hlen sch).walk
    ⟨.start hR hW, hq, hT, rfl, List.not_mem_nil, fun _ => Or.inl rfl⟩ (fun _ _ _ => trivial)
    hwalk).2
  have hends := ((walkRule_ends ha sch E).walk ⟨.start hR hW, hE⟩ (fun _ _ _ => trivial) hwalk).2
  refine ⟨?_, hP.live, ?_, not_sacrificed (hac.mono fun {T₁ T₂} hedge => ?_)⟩
  · rw [← AList.lookup_isSome, Dict.lookup_foldl_erase, if_neg fun h =>
      hP.unserved (sch.finish.mem_visit.mp h)]
    exact AList.lookup_isSome.mpr hP.queued
  · exact hP.waits.symm ▸ hlen
  · -- a transaction with an edge is live, and was not served
    obtain ⟨hlive, ts, hts⟩ := hlink T₁ (List.ne_nil_of_mem hedge)
    have hmem : T₂ ∈ σ₂.waitsFor T₁ := hedge
    rcases hP.edges (hends T₁ ts hlive hts).1 with heq | hnil
    · rwa [heq] at hmem
    · rw [hnil] at hmem
      cases hmem

/-! ### Entries that are erased -/

/-- The walk goes on if the entry that it stands on is not erased. -/
lemma mem_queue_of_execBlocked {rs : List Request} {b : Bool} {σ₁ : State}
    (hx : execBlocked sch T rs b σ = .ok (true, σ')) (hc : CalledInSet sch rs σ r τ)
    (h1 : τ.exec (sch.exec r.timestamp) r = .ok σ₁) : T ∈ σ₁.blockedTransactionsQueue := by
  have hflag : ∀ {rs b σ}, execBlocked sch T rs b σ = .ok (true, σ') → b = true := by
    intro rs
    induction rs with
    | nil =>
        intro b σ hx
        cases hx
        rfl
    | cons r rs ih =>
        intro b σ hx
        rw [execBlocked, bind_eq_ok] at hx
        obtain ⟨σ₂, -, hx⟩ := hx
        exact (Bool.and_eq_true_iff.mp (ih hx)).1
  induction rs generalizing σ b with
  | nil => cases hc
  | cons r' rs ih =>
      rw [execBlocked, bind_eq_ok] at hx
      obtain ⟨σ₂, h2, hx⟩ := hx
      rcases hc with ⟨rfl, rfl⟩ | ⟨σ₃, h3, hc⟩
      · cases h1.symm.trans h2
        exact of_decide_eq_true (Bool.and_eq_true_iff.mp (hflag hx)).2
      · cases h3.symm.trans h2
        exact ih hx hc

/-! ### Rounds that do nothing -/

lemma drain_of_finished {sch : ℕ → Schedule} {n : ℕ} (hf : σ.isAllInstructionsFinished = true) :
    drain sch n σ = .ok (true, σ) := by
  cases n with
  | zero => rw [drain, hf]
  | succ n => rw [drain, hf, if_pos rfl]

lemma walkBlocked_of_waits {ks fin : List TranId} (h : ∀ T, σ.waitsFor T ≠ []
    ∨ T ∉ σ.blockedTransactionsQueue) : walkBlocked sch ks fin σ = .ok (fin, σ) := by
  induction ks with
  | nil => rfl
  | cons T ks ih =>
      rw [walkBlocked]
      cases hq : σ.blockedTransactionsQueue.lookup T with
      | none => exact ih
      | some rs =>
          have hw := (h T).resolve_right (not_not.mpr (Dict.mem_of_lookup hq))
          have hwait : σ.isWaitingForLock T = true := by simp [isWaitingForLock, hw]
          simp only [hwait, Bool.not_true, Bool.false_and, Bool.false_eq_true, if_false]
          exact ih

/-- A round in which everyone waits and there is no deadlock changes nothing but the entries of the
wait-for graph that have no targets. -/
lemma idle_round (hr : σ.request = none) (hac : Acyclic σ.WaitsFor)
    (hw : ∀ T ∈ σ.blockedTransactionsQueue, σ.waitsFor T ≠ []) (sch : Schedule) :
    ∃ σ', executeInstructions sch σ = .ok σ' ∧ σ'.request = none ∧
      σ'.blockedTransactionsQueue = σ.blockedTransactionsQueue ∧
      ∀ T, σ'.waitsFor T = σ.waitsFor T := by
  obtain ⟨b, ρ, hd, hb⟩ := detectDeadlock_iff σ sch.detect
  have hfalse : b = false := by
    rw [← Bool.not_eq_true]
    exact fun h => hb.mp h hac
  subst hfalse
  obtain ⟨⟨g, rfl⟩, hsame⟩ := detectDeadlock_spec hd
  have hτ : σ.resolved sch = .ok { σ with waitForGraph := g } := by
    rw [resolved, State.resolveDeadlocks, hd]
  have hwalk : ∀ ks, walkBlocked sch ks [] { σ with waitForGraph := g } =
      .ok ([], { σ with waitForGraph := g }) := fun ks => walkBlocked_of_waits fun T => by
    rw [hsame]
    exact (em (T ∈ σ.blockedTransactionsQueue)).imp (hw T) id
  rw [executeInstructions_of_walkStarts (Or.inl ⟨hτ, hr⟩), serveBlocked, hwalk, ok_bind]
  refine ⟨_, rfl, rfl, ?_, hsame⟩
  have hnil : sch.finish.visit ([] : List TranId) = [] := sch.finish.visit_eq_nil.mpr rfl
  dsimp only
  rw [hnil]
  rfl

/-- **The loop spins**, if everyone in the queue waits and there is no deadlock. -/
theorem spins {sch : ℕ → Schedule} (hr : σ.request = none) (hac : Acyclic σ.WaitsFor)
    (hne : σ.blockedTransactionsQueue.keys ≠ [])
    (hw : ∀ T ∈ σ.blockedTransactionsQueue, σ.waitsFor T ≠ []) (n : ℕ) :
    ∃ σ', drain sch n σ = .ok (false, σ') := by
  have hf : σ.isAllInstructionsFinished = false := by
    rw [← Bool.not_eq_true, isAllInstructionsFinished_iff hr]
    exact hne
  induction n generalizing σ sch with
  | zero => exact ⟨σ, by rw [drain, hf]⟩
  | succ n ih =>
      obtain ⟨σ', hx, hr', hq, hsame⟩ := idle_round hr hac hw (sch 0)
      rw [drain_succ hf hx]
      refine ih hr' (hac.mono fun {T T'} hedge => ?_) (hq ▸ hne) (fun T hT => ?_) ?_
      · rw [WaitsFor, ← hsame]
        exact hedge
      · rw [hsame]
        exact hw T (hq ▸ hT)
      · rw [← Bool.not_eq_true, isAllInstructionsFinished_iff hr', hq]
        exact hne

end State

section Runs

variable {l : List Feed} {σ σ' : State} {T : TranId}

/-- A round of the loop leaves a stuck transaction stuck. -/
lemma stuck_round {sch : Schedule} (ha : Admissible l) (hc : Closing l) (hno : ¬Begun l (-1))
    (hr : Reaches l σ) (hE : State.EndsQueued (fun T ts => Fed l (.finish ts T)) [] σ)
    (hs : State.Stuck T σ) (hx : State.executeInstructions sch σ = .ok σ') :
    State.Stuck T σ' ∧ State.EndsQueued (fun T ts => Fed l (.finish ts T)) [] σ' := by
  have hf : σ.isAllInstructionsFinished = false := by
    rw [← Bool.not_eq_true, State.isAllInstructionsFinished_iff
      ((waiting_invariant fun _ _ => True).reaches ha (by simp) hr).2]
    exact List.ne_nil_of_mem (AList.mem_keys.mp hs.queued)
  obtain ⟨τ, hτ, hstart, hac, hlive⟩ := exists_walkStart ha hr hf sch
  have hround := hx
  rw [State.executeInstructions_of_walkStarts hstart] at hx
  have hEτ := (State.EndsQueued.settled.resolveDeadlocks hE hτ).1
  have hthin := State.Thinned.resolved hτ
  have hT := (hlive T).mpr ⟨hs.live, hs.spared⟩
  have hkeep := hthin.kept hT hs.several
  have hW := waiting_invariant fun _ _ => True
  obtain ⟨hR, hWτ⟩ := ((hW.settled l ha).resolveDeadlocks (hW.reaches ha (by simp) hr).1 hτ).1
  refine ⟨State.Stuck.serve ha hno hR hWτ hEτ hac (hthin.queued hT hs.queued) hT
    (hkeep ▸ hs.several) hx fun T' hT' => ?_, hEτ.serve ha hR hWτ hx⟩
  -- the others that still wait are live, since no transaction `-1` was begun
  have hr' : Reaches l σ' := .round hr hf hround
  have hK := ((known_invariant fun _ _ => True).reaches ha (by simp) hr').1
  refine ⟨(((linked_invariant fun _ _ => True).reaches ha (by simp) hr').live hT').resolve_left ?_,
    hc.exists_finish (hK.waits hT')⟩
  rintro rfl
  exact hno (hK.waits hT')

/-- **A stuck transaction is stuck forever.** -/
theorem stuck_forever {sch : ℕ → Schedule} {n : ℕ} {b : Bool} (ha : Admissible l) (hc : Closing l)
    (hno : ¬Begun l (-1)) (hr : Reaches l σ)
    (hE : State.EndsQueued (fun T ts => Fed l (.finish ts T)) [] σ) (hs : State.Stuck T σ)
    (hd : State.drain sch n σ = .ok (b, σ')) : State.Stuck T σ' := by
  induction n generalizing σ sch with
  | zero =>
      cases hd
      exact hs
  | succ n ih =>
      rw [State.drain] at hd
      split_ifs at hd with hf
      · cases hd
        exact hs
      · rw [bind_eq_ok] at hd
        obtain ⟨σ₁, h1, hd⟩ := hd
        obtain ⟨hs₁, hE₁⟩ := stuck_round ha hc hno hr hE hs h1
        exact ih (.round hr (by simpa using hf) h1) hE₁ hs₁ hd

/-- The loop ends only if nobody is stuck. -/
lemma unstuck_of_drains {sch : ℕ → Schedule} (ha : Admissible l) (hc : Closing l)
    (hno : ¬Begun l (-1)) (hr : run l = .ok σ) (h : State.Drains sch σ) : σ.Unstuck := by
  obtain ⟨n, σ', hd, hq⟩ := h
  intro T hT hlen
  by_contra hspared
  have hW := ((waiting_invariant fun _ _ => True).run ha (by simp) hr).2
  have hlive : T ∈ σ.transactions := by
    refine (hW.live hT).resolve_right fun heq => hno ?_
    exact heq ▸ ((known_invariant fun _ _ => True).run ha (by simp) hr).queue hT
  have hstuck := stuck_forever ha hc hno (.run hr) (endsQueued_run ha hr)
    ⟨hT, hlive, hlen, hspared⟩ hd
  have hmem := AList.mem_keys.mp hstuck.queued
  rw [hq] at hmem
  cases hmem

/-- The rounds of a loop that ends return. -/
lemma exists_round_of_drains {sch : ℕ → Schedule} {n : ℕ} {τ : State}
    (hd : State.drain sch n σ = .ok (false, τ)) (h : State.Drains sch σ) :
    τ.isAllInstructionsFinished = false ∧ ∃ σ', State.executeInstructions (sch n) τ = .ok σ' := by
  obtain ⟨m, σ₂, hm, -⟩ := h
  induction n generalizing σ sch m with
  | zero =>
      cases hf : σ.isAllInstructionsFinished with
      | true =>
          rw [State.drain, hf] at hd
          cases hd
      | false =>
          rw [State.drain, hf] at hd
          cases hd
          refine ⟨hf, ?_⟩
          cases m with
          | zero =>
              rw [State.drain, hf] at hm
              cases hm
          | succ m =>
              rw [State.drain, hf, if_neg Bool.false_ne_true, bind_eq_ok] at hm
              obtain ⟨σ₁, h1, -⟩ := hm
              exact ⟨σ₁, h1⟩
  | succ n ih =>
      cases hf : σ.isAllInstructionsFinished with
      | true =>
          rw [State.drain, hf] at hd
          cases hd
      | false =>
          rw [State.drain, hf, if_neg Bool.false_ne_true, bind_eq_ok] at hd
          obtain ⟨σ₁, h1, hd⟩ := hd
          cases m with
          | zero =>
              rw [State.drain, hf] at hm
              cases hm
          | succ m =>
              exact ih hd m ((State.drain_succ hf h1).symm.trans hm)

/-- The rounds of a loop that ends abort no transaction that is in the queue. -/
lemma sparesQueued_of_drains {sch : ℕ → Schedule} (ha : Admissible l) (hno : ¬Begun l (-1))
    (hr : run l = .ok σ) (h : State.Drains sch σ) : State.SparesQueued sch σ := by
  intro n τ r τ' hd ⟨τ₁, hstart, hin⟩ hab
  obtain ⟨-, σ', hx⟩ := exists_round_of_drains hd h
  have hW := waiting_invariant fun _ _ => True
  obtain ⟨hP, hn⟩ := hW.reaches ha (by simp) (reaches_drain (.run hr) hd)
  obtain ⟨hR, hWτ⟩ := (hW.settled l ha).walkStarts id (fun r hr => by rw [hn] at hr; cases hr)
    (C := fun _ _ => True) (fun _ _ _ => trivial) hP hstart
  rw [State.executeInstructions_of_walkStarts hstart, State.serveBlocked, bind_eq_ok] at hx
  obtain ⟨⟨fin, σ₂⟩, hwalk, -⟩ := hx
  have hrule := State.walkRule_waiting ha (sch n) (C := fun _ _ => True)
  obtain ⟨T, rs, rest, fin₁, σ₀, σ₁, hJ, -, hset, hc, -⟩ :=
    hrule.set_of_called (.start hR hWτ) (fun _ _ _ => trivial) hwalk hin
  obtain ⟨rs', hJ'⟩ := hrule.calledInSet hJ (fun _ _ _ => trivial) hc
  obtain ⟨hr', hrT⟩ := hJ'.queueable r List.mem_cons_self
  cases r with
  | fail ts s => exact hno hr'.begun
  | finish ts T' =>
      obtain rfl : T' = T := hrT
      have hab' := hab
      obtain ⟨t, ht, -⟩ := hab'
      obtain ⟨σ₃, h3⟩ : ∃ σ₃, τ'.exec ((sch n).exec ts) (.finish ts T') = .ok σ₃ :=
        State.exists_exec_finish (Dict.mem_of_lookup ht)
      obtain ⟨es, hout⟩ := State.exec_outcome h3
      have hmem := State.mem_queue_of_execBlocked hset hc h3
      exact (hout.mem_queue.mp hmem).1 (hout.aborted_iff.mpr ⟨rfl, hab⟩)
  | _ => exact hab

/-- **The final loop.** After a run in which every transaction is ended, and every site that fails
recovers later, and which raises no exception: the loop that drains the queue ends, and leaves the
queue empty, if whoever is in the queue then waits for at most one transaction, or is a victim of
the next deadlocks, and the rounds of the loop abort nobody who is in the queue. When a transaction
`-1` was begun, failures and recoveries may be in the queue; then, moreover, nobody in the queue
must wait for a site. If no transaction `-1` was begun, the loop ends in no other case. -/
theorem loop_ends_iff (ha : Admissible l) (hc : Closing l) (hr : run l = .ok σ) (sch : ℕ → Schedule)
    (hx : ∀ n e, State.drain sch n σ = .error e → ¬e.IsException) :
    ((Begun l (-1) → ∀ T ∈ σ.blockedTransactionsQueue, T ∉ σ.siteWaitingMap) → σ.Unstuck →
      State.SparesQueued sch σ → State.Drains sch σ) ∧
    (¬Begun l (-1) → (State.Drains sch σ ↔ σ.Unstuck ∧ State.SparesQueued sch σ)) := by
  have hends : (Begun l (-1) → ∀ T ∈ σ.blockedTransactionsQueue, T ∉ σ.siteWaitingMap) → σ.Unstuck →
      State.SparesQueued sch σ → State.Drains sch σ := fun hsite hun hkeep =>
    drains_of_unstuck ha hc hr sch hx hkeep hsite hun
  refine ⟨hends, fun hno => ⟨fun h => ?_, fun h => hends (fun hb => absurd hb hno) h.1 h.2⟩⟩
  exact ⟨unstuck_of_drains ha hc hno hr h, sparesQueued_of_drains ha hno hr h⟩

/-- The third transaction waits for the second one, which waits for the first one. -/
def chainRun : List Feed :=
  inOrder Schedule.stored [.begin 1, .begin 2, .begin 3, .write 1 2 5, .write 2 4 6, .write 2 2 7,
    .write 3 4 8, .finish 2, .finish 3, .finish 1]

theorem loop_ends_iff_chainRun : ∃ σ, run chainRun = .ok σ ∧
    σ.blockedTransactionsQueue.keys = [3] ∧ σ.Unstuck ∧
    State.SparesQueued (fun _ => Schedule.stored) σ := by
  obtain ⟨σ, hr, hf⟩ := exists_ok_of_eval (x := run chainRun)
    (f := fun σ => (σ.blockedTransactionsQueue.keys,
      (State.executeInstructions Schedule.stored σ).toOption.map State.isAllInstructionsFinished))
    (a := ([3], some true)) (by decide +kernel)
  rw [Prod.mk.injEq] at hf
  obtain ⟨σ', hx, hfin⟩ := exists_ok_of_eval hf.2
  have hfσ : σ.isAllInstructionsFinished = false := by
    rw [← Bool.not_eq_true, State.isAllInstructionsFinished_iff (request_run hr), hf.1]
    simp
  have hround : ∀ n, State.drain (fun _ => Schedule.stored) (n + 1) σ = .ok (true, σ') := by
    intro n
    rw [State.drain_succ hfσ hx, State.drain_of_finished hfin]
  have hno : ¬Begun chainRun (-1) := by
    rw [Begun]
    decide +kernel
  have hdrains : State.Drains (fun _ => Schedule.stored) σ := by
    refine ⟨1, σ', hround 0, ?_⟩
    exact (State.isAllInstructionsFinished_iff (State.request_executeInstructions hx)).mp hfin
  refine ⟨σ, hr, hf.1, ((loop_ends_iff (by decide +kernel) (by decide +kernel) hr _
    fun n e he => ?_).2 hno).mp hdrains⟩
  cases n with
  | zero => cases he
  | succ n =>
      rw [hround n] at he
      cases he

/-- The third transaction waits for both others, which end one after the other. -/
def stuckRun : List Feed :=
  inOrder Schedule.stored [.begin 1, .begin 2, .begin 3, .write 1 2 5, .write 2 4 6, .write 3 2 7,
    .write 3 4 8, .finish 1, .finish 2, .finish 3]

/-- **The final loop spins**: all transactions have ended but one, which waits for two of them. -/
theorem loop_spins : Admissible stuckRun ∧ Closing stuckRun ∧ ∃ σ, run stuckRun = .ok σ ∧
    (∀ T, T ∈ σ.transactions ↔ T = 3) ∧
    ∀ (sch : ℕ → Schedule) n, ∃ σ', State.drain sch n σ = .ok (false, σ') := by
  obtain ⟨σ, hr, hf⟩ := exists_ok_of_eval (x := run stuckRun)
    (f := fun σ => (σ.blockedTransactionsQueue.keys, σ.transactions.keys, σ.waitsFor 3,
      (σ.detectDeadlock Schedule.stored.detect).map Prod.fst))
    (a := ([3], [3], [2, 1], some false)) (by decide +kernel)
  simp only [Prod.mk.injEq] at hf
  obtain ⟨hq, ht, hw, hd⟩ := hf
  have hac : Acyclic σ.WaitsFor := by
    obtain ⟨b, ρ, hd', hb⟩ := State.detectDeadlock_iff σ Schedule.stored.detect
    rw [hd'] at hd
    cases hd
    exact not_not.mp (mt hb.mpr Bool.false_ne_true)
  refine ⟨by decide +kernel, by decide +kernel, σ, hr, fun T => ?_, fun sch n =>
    State.spins (request_run hr) hac (by simp [hq]) (fun T hT => ?_) n⟩
  · rw [AList.mem_keys, ht, List.mem_singleton]
  · rw [AList.mem_keys, hq, List.mem_singleton] at hT
    rw [hT, hw]
    simp

end Runs

end RepCRec
