import RepCRec.Engine.OpenRun

/-!
The log of a run: the requests that it executes, in the order in which it executes them, each with
the entries that its execution adds to the trace (`callLog`, `runLog`, `LogAfter`). A property of a
run together with its log is a `LogInvariant`; the walk over the queue has a rule with the log so
far (`LogRule`). What such an invariant says of the log holds at every moment of the run
(`LogInvariant.callLog`).
-/

namespace RepCRec

open Container (IterOrder bind_eq_ok ok_bind)

/-- The requests that were executed, with the entries that they added to the trace. -/
abbrev Log : Type := List (Request × List Event)

namespace State

variable {sch : Schedule} {σ σ' τ : State} {o : IterOrder} {r : Request} {es : List Event}

/-- The entries that the trace of `σ'` has beyond those of `σ`. -/
def added (σ σ' : State) : List Event := σ'.trace.drop σ.trace.length

lemma Outcome.added_eq (h : Outcome o σ r es σ') : added σ σ' = es := by
  rw [added, h.trace, List.drop_left]

/-- The entry of the log for a request that is executed, unless it throws. -/
def logEntry (sch : Schedule) (p : Request × State) : Option (Request × List Event) :=
  match p.2.exec (sch.exec p.1.timestamp) p.1 with
  | .ok σ' => some (p.1, added p.2 σ')
  | .error _ => none

/-- The log of one call of `executeInstructions`. -/
def callLog (sch : Schedule) (σ : State) : Log :=
  (callsDirectly sch σ ++ callsFromQueue sch σ).filterMap (logEntry sch)

lemma logEntry_of_ok (h : σ.exec (sch.exec r.timestamp) r = .ok σ') :
    logEntry sch (r, σ) = some (r, added σ σ') := by
  rw [logEntry, h]

lemma logEntry_of_error {e : Fault} (h : σ.exec (sch.exec r.timestamp) r = .error e) :
    logEntry sch (r, σ) = none := by
  rw [logEntry, h]

/-- A call executes nothing when it drops or queues the pending request, or when it throws
before. -/
lemma callLog_eq_nil (h : ∀ τ, σ.resolved sch = .ok τ → ∃ r, τ.request = some r ∧
    (τ.isStale r || (τ.isBlocked r.transactionId && !r.isReadWrite)) = true) :
    callLog sch σ = [] := by
  rw [callLog, callsDirectly, callsFromQueue, walkStart]
  cases hτ : σ.resolved sch with
  | error e => rfl
  | ok τ =>
      obtain ⟨r, hr, hb⟩ := h τ hτ
      have hb' : (τ.isStale r || τ.isBlocked r.transactionId) = true := by
        revert hb
        cases τ.isStale r <;> cases τ.isBlocked r.transactionId <;> simp
      simp only [hr, hb, hb', if_true]
      rfl

/-- The log of a call that walks the queue without a pending request. -/
lemma callLog_of_none (hτ : σ.resolved sch = .ok τ) (hr : τ.request = none) :
    callLog sch σ = (callsInWalk sch (sch.walk.visit τ.blockedTransactionsQueue.keys) τ).filterMap
      (logEntry sch) := by
  have hd : callsDirectly sch σ = [] := by simp only [callsDirectly, hτ, hr]
  have hw : walkStart sch σ = some τ := by simp only [walkStart, hτ, hr]
  rw [callLog, hd, callsFromQueue, hw]
  rfl

/-- The log of a call that executes the pending request of a blocked transaction. -/
lemma callLog_of_blocked (h : CalledDirectly sch σ r τ) (hb : τ.isBlocked r.transactionId = true) :
    callLog sch σ = [(r, τ)].filterMap (logEntry sch) := by
  have hw : walkStart sch σ = none := by
    simp only [walkStart, h.1, h.2.1, hb, Bool.or_true, if_true]
  rw [callLog, callsDirectly_of_called h, callsFromQueue, hw]
  rfl

/-- The log of a call that executes the pending request, and walks the queue. -/
lemma callLog_of_called (h : CalledDirectly sch σ r τ) (hb : τ.isBlocked r.transactionId = false)
    (hx : τ.exec (sch.exec r.timestamp) r = .ok σ') :
    callLog sch σ = (r, added τ σ') :: (callsInWalk sch
      (sch.walk.visit σ'.blockedTransactionsQueue.keys) σ').filterMap (logEntry sch) := by
  have hw : walkStart sch σ = some σ' := by
    simp only [walkStart, h.1, h.2.1, h.2.2.1, hb, hx, Bool.or_false, Bool.false_eq_true, if_false]
    rfl
  rw [callLog, callsDirectly_of_called h, callsFromQueue, hw, List.singleton_append,
    List.filterMap_cons, logEntry_of_ok hx]

lemma callLog_of_throws {e : Fault} (h : CalledDirectly sch σ r τ)
    (hx : τ.exec (sch.exec r.timestamp) r = .error e) : callLog sch σ = [] := by
  have hw : walkStart sch σ = none := by
    simp only [walkStart, h.1, h.2.1, hx, Except.toOption, ite_self]
  rw [callLog, callsDirectly_of_called h, callsFromQueue, hw, List.append_nil, List.filterMap_cons,
    logEntry_of_error hx]
  rfl

/-! ### The walk over the queue -/

/-- A loop invariant of the walk over the blocked queue, as in `WalkRule`, with the log so far; `Q`
is what follows from it for the log. -/
structure LogRule (sch : Schedule) (C : Request → State → Prop)
    (I : Log → List TranId → List TranId → State → Prop)
    (J : Log → TranId → List Request → List TranId → List TranId → State → Prop)
    (Q : Log → Prop) : Prop where
  skip : ∀ {L T rest fin σ}, I L (T :: rest) fin σ → (σ.blockedTransactionsQueue.lookup T = none ∨
    σ.isWaitingForLock T = true ∨ σ.isTransactionWaitingForSite T = true) → I L rest fin σ
  enter : ∀ {L T rs rest fin σ}, I L (T :: rest) fin σ →
    σ.blockedTransactionsQueue.lookup T = some rs → σ.isWaitingForLock T = false →
    σ.isTransactionWaitingForSite T = false → J L T rs rest fin σ
  exec : ∀ {L T r rs rest fin σ σ'}, J L T (r :: rs) rest fin σ → C r σ →
    σ.exec (sch.exec r.timestamp) r = .ok σ' → J (L ++ [(r, added σ σ')]) T rs rest fin σ'
  leave : ∀ {L T rest fin σ}, J L T [] rest fin σ → T ∈ σ.blockedTransactionsQueue →
    I L rest (fin.insert T) σ
  outside : ∀ {L rest fin σ}, I L rest fin σ → Q L
  inside : ∀ {L T rs rest fin σ}, J L T rs rest fin σ → Q L

namespace LogRule

variable {C : Request → State → Prop} {I : Log → List TranId → List TranId → State → Prop}
  {J : Log → TranId → List Request → List TranId → List TranId → State → Prop} {Q : Log → Prop}
  {L : Log} {T : TranId} {rest fin fin' : List TranId}

/-- The log of the requests of one transaction. -/
lemma set (h : LogRule sch C I J Q) {rs : List Request} (hJ : J L T rs rest fin σ)
    (hC : ∀ r τ, CalledInSet sch rs σ r τ → C r τ) :
    Q (L ++ (callsInSet sch rs σ).filterMap (logEntry sch)) ∧
      ∀ b σ', (b = true → T ∈ σ.blockedTransactionsQueue) →
        execBlocked sch T rs b σ = .ok (true, σ') →
        J (L ++ (callsInSet sch rs σ).filterMap (logEntry sch)) T [] rest fin σ' ∧
          T ∈ σ'.blockedTransactionsQueue := by
  induction rs generalizing σ L with
  | nil =>
      rw [callsInSet, List.filterMap_nil, List.append_nil]
      refine ⟨h.inside hJ, fun b σ' hb hx => ?_⟩
      cases hx
      exact ⟨hJ, hb rfl⟩
  | cons r rs ih =>
      rw [callsInSet]
      cases h1 : σ.exec (sch.exec r.timestamp) r with
      | error e =>
          rw [List.filterMap_cons, logEntry_of_error h1]
          refine ⟨by simpa using h.inside hJ, fun b σ' _ hx => ?_⟩
          rw [execBlocked, h1] at hx
          cases hx
      | ok σ₁ =>
          have hJ₁ := h.exec hJ (hC r σ (Or.inl ⟨rfl, rfl⟩)) h1
          obtain ⟨ih1, ih2⟩ := ih hJ₁ fun r' τ hc => hC r' τ (Or.inr ⟨σ₁, h1, hc⟩)
          rw [List.append_assoc, List.singleton_append] at ih1 ih2
          rw [List.filterMap_cons, logEntry_of_ok h1]
          refine ⟨ih1, fun b σ' hb hx => ?_⟩
          rw [execBlocked, h1, ok_bind] at hx
          refine ih2 _ σ' (fun hb => ?_) hx
          exact of_decide_eq_true (Bool.and_eq_true_iff.mp hb).2

/-- **The rule for the walk with its log.** -/
theorem walk (h : LogRule sch C I J Q) {ks : List TranId} (hI : I L ks fin σ)
    (hC : ∀ r τ, CalledInWalk sch ks σ r τ → C r τ) :
    Q (L ++ (callsInWalk sch ks σ).filterMap (logEntry sch)) ∧
      ∀ fin' σ', walkBlocked sch ks fin σ = .ok (fin', σ') →
        I (L ++ (callsInWalk sch ks σ).filterMap (logEntry sch)) [] fin' σ' := by
  induction ks generalizing σ L fin with
  | nil =>
      rw [callsInWalk, List.filterMap_nil, List.append_nil]
      refine ⟨h.outside hI, fun fin' σ' hx => ?_⟩
      cases hx
      exact hI
  | cons T ks ih =>
      rw [callsInWalk]
      simp only [CalledInWalk] at hC
      simp only [walkBlocked]
      cases hq : σ.blockedTransactionsQueue.lookup T with
      | none =>
          simp only [hq] at hC
          exact ih (h.skip hI (Or.inl hq)) hC
      | some rs =>
          simp only [hq] at hC
          dsimp only
          split_ifs at hC ⊢ with hw
          · simp only [Bool.and_eq_true, Bool.not_eq_true'] at hw
            obtain ⟨hQ, hset⟩ := h.set (h.enter hI hq hw.1 hw.2)
              fun r τ hc => hC r τ (Or.inl hc)
            rw [List.filterMap_append, ← List.append_assoc]
            rcases hx : execBlocked sch T rs true σ with e | ⟨b, σ₁⟩
            · exact ⟨by simpa using hQ, fun fin' σ' h' => by cases h'⟩
            · cases b with
              | false => exact ⟨by simpa using hQ, fun fin' σ' h' => by cases h'⟩
              | true =>
                  obtain ⟨hJ, hT⟩ := hset true σ₁
                    (fun _ => Dict.mem_of_lookup hq) hx
                  exact ih (h.leave hJ hT) fun r τ hc => hC r τ (Or.inr ⟨σ₁, hx, hc⟩)
          · simp only [Bool.and_eq_true, Bool.not_eq_true', not_and_or, Bool.not_eq_false] at hw
            exact ih (h.skip hI (Or.inr hw)) hC

end LogRule

end State

/-! ### The log of a run -/

/-- The log of the call for an instruction that is fed. -/
def State.feedLog (σ : State) (x : Feed) : Log :=
  match x.insr.request x.timestamp with
  | .ok r => State.callLog x.schedule { σ with request := some r }
  | .error _ => []

/-- The log of the calls for the instructions, up to the first one that throws. -/
def runLogFrom : Except Fault State → List Feed → Log
  | .ok σ, x :: l => σ.feedLog x ++ runLogFrom (σ.feed x) l
  | _, _ => []

def runLog (l : List Feed) : Log := runLogFrom (.ok State.initial) l

/-- The run reaches `σ` with the log `L`. -/
inductive Logged (l : List Feed) : Log → State → Prop where
  | run {σ} : run l = .ok σ → Logged l (runLog l) σ
  | round {L σ σ' sch} : Logged l L σ → σ.isAllInstructionsFinished = false →
      State.executeInstructions sch σ = .ok σ' → Logged l (L ++ State.callLog sch σ) σ'

/-- The logs of the run: of the calls for its instructions, and with some calls that drain the
queue, of which the last one may throw. -/
inductive LogOf (l : List Feed) : Log → Prop where
  | run : LogOf l (runLog l)
  | round {L σ sch} : Logged l L σ → σ.isAllInstructionsFinished = false →
      LogOf l (L ++ State.callLog sch σ)

lemma runLogFrom_snoc (s : Except Fault State) (l : List Feed) (x : Feed) :
    runLogFrom s (l ++ [x]) = runLogFrom s l ++
      match s >>= fun σ => l.foldlM State.feed σ with
      | .ok σ => σ.feedLog x
      | .error _ => [] := by
  induction l generalizing s with
  | nil => cases s <;> simp [runLogFrom]
  | cons y l ih =>
      cases s with
      | error e => simp [runLogFrom]
      | ok σ =>
          rw [List.cons_append, runLogFrom, ih, runLogFrom, List.append_assoc]
          rfl

lemma runLog_snoc_of_ok {l : List Feed} {σ : State} (h : run l = .ok σ) (x : Feed) :
    runLog (l ++ [x]) = runLog l ++ σ.feedLog x := by
  rw [runLog, runLogFrom_snoc, ok_bind, show l.foldlM State.feed State.initial = _ from h]
  rfl

lemma runLog_snoc_of_error {l : List Feed} {e : Fault} (h : run l = .error e) (x : Feed) :
    runLog (l ++ [x]) = runLog l := by
  rw [runLog, runLogFrom_snoc, ok_bind, show l.foldlM State.feed State.initial = _ from h]
  exact List.append_nil _

lemma Logged.reaches {l : List Feed} {L : Log} {σ : State} (h : Logged l L σ) : Reaches l σ := by
  induction h with
  | run hr => exact .run hr
  | round _ hf hx ih => exact .round ih hf hx

/-- Properties of runs with their logs: what the calls after the instructions `l` keep, and what
each instruction leads to, when `D` holds of the pending requests that are executed, and `C` of
those that are taken from the queue. `Q` is what follows for the log. -/
structure LogInvariant (D C : Request → State → Prop) (P : List Feed → Log → State → Prop)
    (Q : Log → Prop) : Prop where
  initial : P [] [] State.initial
  log : ∀ {l L σ}, P l L σ → Q L
  settled : ∀ l L, Admissible l → State.Settled (P l L)
  mono : ∀ {l x L σ}, Admissible l → AdmissibleNext l x → P l L σ → P (l ++ [x]) L σ
  walks : ∀ l sch, Admissible l → ∃ I J, State.LogRule sch C I J Q ∧
    (∀ {L σ}, P l L σ → I L (sch.walk.visit σ.blockedTransactionsQueue.keys) [] σ) ∧
    ∀ {L fin σ}, I L [] fin σ → P l L { σ.dequeueAll (sch.finish.visit fin) with request := none }
  exec : ∀ {l x r L o σ σ'}, Admissible l → AdmissibleNext l x →
    x.insr.request x.timestamp = .ok r → P l L σ → D r σ → σ.isStale r = false →
    (σ.isBlocked r.transactionId = true → r.isReadWrite = true) → σ.exec o r = .ok σ' →
    P (l ++ [x]) (L ++ [(r, State.added σ σ')]) σ'
  enqueue : ∀ {l x r L σ}, Admissible l → AdmissibleNext l x →
    x.insr.request x.timestamp = .ok r → P l L σ → σ.isStale r = false →
    σ.isBlocked r.transactionId = true → r.isReadWrite = false →
    P (l ++ [x]) L (σ.addRequestToBlockedQueue r)

namespace LogInvariant

variable {D C : Request → State → Prop} {P : List Feed → Log → State → Prop} {Q : Log → Prop}
  {l l' : List Feed} {L : Log} {x : Feed} {r : Request} {σ τ : State} {sch : Schedule}

/-- The walk over the queue, with its log. -/
lemma serve (h : LogInvariant D C P Q) (ha : Admissible l) (hP : P l L σ)
    (hC : ∀ r τ, State.CalledInWalk sch (sch.walk.visit σ.blockedTransactionsQueue.keys) σ r τ →
      C r τ) :
    Q (L ++ (State.callsInWalk sch (sch.walk.visit σ.blockedTransactionsQueue.keys) σ).filterMap
      (State.logEntry sch)) ∧
    ∀ σ', State.serveBlocked sch σ = .ok σ' → P l (L ++ (State.callsInWalk sch
      (sch.walk.visit σ.blockedTransactionsQueue.keys) σ).filterMap (State.logEntry sch)) σ' := by
  obtain ⟨I, J, hrule, hstart, hend⟩ := h.walks l sch ha
  obtain ⟨hQ, hwalk⟩ := hrule.walk (hstart hP) hC
  refine ⟨hQ, fun σ' hs => ?_⟩
  rw [State.serveBlocked, bind_eq_ok] at hs
  obtain ⟨⟨fin, σ₁⟩, h1, hs⟩ := hs
  cases hs
  exact hend (hwalk fin σ₁ h1)

/-- A call without a pending request. -/
lemma callLog_none (h : LogInvariant D C P Q) (ha : Admissible l) (hP : P l L σ)
    (hn : σ.request = none) (hC : ∀ r τ, State.CalledFromQueue sch σ r τ → C r τ) :
    Q (L ++ State.callLog sch σ) ∧
      ∀ σ', State.executeInstructions sch σ = .ok σ' → P l (L ++ State.callLog sch σ) σ' := by
  cases hτ : σ.resolved sch with
  | error e =>
      have hnil : State.callLog sch σ = [] := State.callLog_eq_nil fun τ h => by
        rw [hτ] at h
        cases h
      rw [hnil, List.append_nil]
      refine ⟨h.log hP, fun σ' hx => ?_⟩
      rw [State.executeInstructions, show State.resolveDeadlocks _ _ σ = _ from hτ] at hx
      cases hx
  | ok τ =>
      obtain ⟨hP', hreq⟩ := (h.settled l L ha).resolveDeadlocks hP hτ
      have hr : τ.request = none := hreq.trans hn
      have hst : State.WalkStarts sch σ τ := Or.inl ⟨hτ, hr⟩
      rw [State.callLog_of_none hτ hr, State.executeInstructions_of_walkStarts hst]
      exact h.serve ha hP' fun r τ' hc => hC r τ' ⟨τ, hst, hc⟩

/-- The call for an instruction. -/
lemma callLog_feed (h : LogInvariant D C P Q) (ha : Admissible l) (hx : AdmissibleNext l x)
    (hr : x.insr.request x.timestamp = .ok r) (hP : P l L σ) (hn : σ.request = some r)
    (hD : ∀ r τ, State.CalledDirectly sch σ r τ → D r τ)
    (hC : ∀ r τ, State.CalledFromQueue sch σ r τ → C r τ) :
    Q (L ++ State.callLog sch σ) ∧ ∀ σ', State.executeInstructions sch σ = .ok σ' →
      P (l ++ [x]) (L ++ State.callLog sch σ) σ' := by
  have ha' : Admissible (l ++ [x]) := (admissible_snoc l x).mpr ⟨ha, hx⟩
  have hs := h.settled l L ha
  have hs' := h.settled (l ++ [x])
  by_cases hdir : ∃ τ, State.CalledDirectly sch σ r τ
  · obtain ⟨τ, hc⟩ := hdir
    obtain ⟨hP', -⟩ := hs.calledDirectly hP hc
    rw [State.executeInstructions_of_called hc]
    cases he : τ.exec (sch.exec r.timestamp) r with
    | error e =>
        rw [State.callLog_of_throws hc he, List.append_nil]
        refine ⟨h.log hP, fun σ' hok => ?_⟩
        cases hok
    | ok σ₁ =>
        have hP₁ := h.exec ha hx hr hP' (hD r τ hc) hc.2.2.1 hc.2.2.2 he
        rw [ok_bind]
        cases hb : τ.isBlocked r.transactionId with
        | true =>
            rw [State.callLog_of_blocked hc hb, List.filterMap_cons, State.logEntry_of_ok he,
              if_pos rfl]
            refine ⟨h.log hP₁, fun σ' hok => ?_⟩
            cases hok
            exact (hs' _ ha').request hP₁
        | false =>
            have hst : State.WalkStarts sch σ σ₁ := Or.inr ⟨r, τ, hc, hb, he⟩
            rw [State.callLog_of_called hc hb he, List.append_cons, if_neg Bool.false_ne_true]
            exact h.serve ha' hP₁ fun r' τ' hc' => hC r' τ' ⟨σ₁, hst, hc'⟩
  · have hcalled : ∀ {r' τ}, ¬State.CalledDirectly sch σ r' τ := fun {r' τ} hc => by
      obtain ⟨-, hreq⟩ := hs.calledDirectly hP hc
      rw [hn] at hreq
      cases hreq
      exact hdir ⟨τ, hc⟩
    have hnil : State.callLog sch σ = [] := State.callLog_eq_nil fun τ hτ => by
      have hreq := (hs.resolveDeadlocks hP hτ).2.trans hn
      refine ⟨r, hreq, ?_⟩
      by_contra hb
      simp only [Bool.or_eq_true, Bool.and_eq_true, Bool.not_eq_true', not_or, not_and,
        Bool.not_eq_true, Bool.not_eq_false] at hb
      exact hcalled ⟨hτ, hreq, hb.1, hb.2⟩
    rw [hnil, List.append_nil]
    refine ⟨h.log hP, fun σ' hok => ?_⟩
    rcases State.executeInstructions_cases hok with ⟨r', τ, hτ, -, -, rfl⟩ |
      ⟨r', τ, σ₁, hc, -⟩ | ⟨r', τ, hτ, hreq, hst, hb, hrw, rfl⟩ |
      ⟨σ₁, ⟨hτ, hreq⟩ | ⟨r', τ, hc, -⟩, -⟩
    · exact (hs' L ha').request (h.mono ha hx (hs.resolveDeadlocks hP hτ).1)
    · exact absurd hc hcalled
    · obtain ⟨hP', hreq'⟩ := hs.resolveDeadlocks hP hτ
      rw [hreq', hn] at hreq
      cases hreq
      exact (hs' L ha').request (h.enqueue ha hx hr hP' hst hb hrw)
    · rw [(hs.resolveDeadlocks hP hτ).2, hn] at hreq
      cases hreq
    · exact absurd hc hcalled

/-- The property holds after every run. -/
lemma run (h : LogInvariant D C P Q) (ha : Admissible l)
    (hD : ∀ sch σ r τ, FeedCall l sch σ → State.CalledDirectly sch σ r τ → D r τ)
    (hC : ∀ sch σ r τ, FeedCall l sch σ → State.CalledFromQueue sch σ r τ → C r τ) :
    Q (runLog l) ∧ ∀ σ, run l = .ok σ → P l (runLog l) σ := by
  induction l using List.reverseRecOn with
  | nil =>
      refine ⟨h.log h.initial, fun σ hr => ?_⟩
      cases hr
      exact h.initial
  | append_singleton l x ih =>
      obtain ⟨hl, hx⟩ := (admissible_snoc l x).mp ha
      obtain ⟨ihQ, ihP⟩ := ih hl (fun sch σ r τ hc => hD sch σ r τ (hc.append [x]))
        fun sch σ r τ hc => hC sch σ r τ (hc.append [x])
      cases hrun : RepCRec.run l with
      | error e =>
          rw [runLog_snoc_of_error hrun, run_snoc, hrun]
          exact ⟨ihQ, fun σ hr => by cases hr⟩
      | ok σ₀ =>
          rw [runLog_snoc_of_ok hrun, State.feedLog, run_snoc, hrun, ok_bind]
          cases hreq : x.insr.request x.timestamp with
          | error e =>
              rw [List.append_nil]
              refine ⟨ihQ, fun σ hr => ?_⟩
              obtain ⟨r, hr', -⟩ := feed_eq_ok.mp hr
              rw [hreq] at hr'
              cases hr'
          | ok r =>
              have hcall : FeedCall (l ++ [x]) x.schedule { σ₀ with request := some r } :=
                ⟨l, x, [], σ₀, r, rfl, hrun, hreq, rfl, rfl⟩
              obtain ⟨hQ, hP⟩ := h.callLog_feed hl hx hreq
                ((h.settled l _ hl).request (ihP σ₀ hrun)) rfl
                (fun r τ => hD _ _ r τ hcall) fun r τ => hC _ _ r τ hcall
              refine ⟨hQ, fun σ hr => ?_⟩
              obtain ⟨r', hr', hx'⟩ := feed_eq_ok.mp hr
              rw [hreq] at hr'
              cases hr'
              exact hP σ hx'

/-- The property holds in every state that is reached, with the log so far. -/
lemma logged (h : LogInvariant D C P Q) (ha : Admissible l) (hD : ∀ r τ, DirectDuring l r τ → D r τ)
    (hC : ∀ r τ, TakenDuring l r τ → C r τ) (hL : Logged l L σ) : P l L σ := by
  induction hL with
  | run hr =>
      exact (h.run ha (fun sch σ r τ hc hd => hD r τ ⟨sch, σ, Or.inl hc, hd⟩)
        fun sch σ r τ hc hq => hC r τ ⟨sch, σ, Or.inl hc, hq⟩).2 _ hr
  | @round L σ σ' sch hL hf hx ih =>
      have hn := ((known_invariant fun _ _ => True).reaches ha (fun _ _ _ => trivial) hL.reaches).2
      exact (h.callLog_none ha ih hn fun r τ hq =>
        hC r τ ⟨sch, σ, Or.inr ⟨hL.reaches, hf⟩, hq⟩).2 σ' hx

/-- **What an invariant says of the log** holds of every log of the run. -/
theorem logOf (h : LogInvariant D C P Q) (ha : Admissible l)
    (hD : ∀ r τ, DirectDuring l r τ → D r τ)
    (hC : ∀ r τ, TakenDuring l r τ → C r τ) (hL : LogOf l L) : Q L := by
  cases hL with
  | run =>
      exact (h.run ha (fun sch σ r τ hc hd => hD r τ ⟨sch, σ, Or.inl hc, hd⟩)
        fun sch σ r τ hc hq => hC r τ ⟨sch, σ, Or.inl hc, hq⟩).1
  | @round L σ sch hL hf =>
      have hn := ((known_invariant fun _ _ => True).reaches ha (fun _ _ _ => trivial) hL.reaches).2
      exact (h.callLog_none ha (h.logged ha hD hC hL) hn
        fun r τ hq => hC r τ ⟨sch, σ, Or.inr ⟨hL.reaches, hf⟩, hq⟩).1

end LogInvariant

end RepCRec
