import RepCRec.Engine.Known

/-!
Runs of the engine. A run feeds instructions one by one through `addInstruction` and
`executeInstructions`, each with its timestamp and with the orders in which the unordered
containers are visited (`Feed`). It is `Admissible` when the timestamps increase, the variables
and sites exist, each transaction is begun at most once, reads and writes come after the begin
of their transaction, and nothing of a transaction comes after its end.

A run executes requests at several moments (`CalledDuring`, and `TakenDuring` for those taken
from the blocked queue). What the executions keep is an `Invariant`: it holds in every state
that is reached and at each of these moments (`Invariant.reaches`, `Invariant.called`). The
first one is about the indexes of the engine (`known_invariant`).
-/

namespace RepCRec

open Container (bind_eq_ok)

namespace Instruction

/-- The transaction that the instruction begins. -/
def begun? : Instruction → Option TranId
  | .begin T => some T
  | .beginRO T => some T
  | _ => none

/-- The transaction of a read or write. -/
def accessing? : Instruction → Option TranId
  | .read T _ => some T
  | .write T _ _ => some T
  | _ => none

/-- The transaction that the instruction ends. -/
def ended? : Instruction → Option TranId
  | .finish T => some T
  | _ => none

/-- The transaction that the instruction names. -/
def tranId? : Instruction → Option TranId
  | .begin T => some T
  | .beginRO T => some T
  | .read T _ => some T
  | .write T _ _ => some T
  | .finish T => some T
  | _ => none

/-- The instruction is known and its variable and site exist. -/
def inRange : Instruction → Bool
  | .unknown => false
  | .read _ v => decide (1 ≤ v ∧ v ≤ varCount)
  | .write _ v _ => decide (1 ≤ v ∧ v ≤ varCount)
  | .recover s => decide (1 ≤ s ∧ s ≤ siteCount)
  | .fail s => decide (1 ≤ s ∧ s ≤ siteCount)
  | _ => true

end Instruction

/-- One instruction of a run. -/
structure Feed where
  insr : Instruction
  timestamp : Timestamp
  schedule : Schedule

/-- The instruction may follow the instructions of the past. -/
structure AdmissibleNext (past : List Feed) (x : Feed) : Prop where
  nonneg : 0 ≤ x.timestamp
  later : ∀ y ∈ past, y.timestamp < x.timestamp
  inRange : x.insr.inRange = true
  begin_once : ∀ T ∈ x.insr.begun?, ∀ y ∈ past, T ∉ y.insr.begun?
  access_after_begin : ∀ T ∈ x.insr.accessing?, ∃ y ∈ past, T ∈ y.insr.begun?
  nothing_after_end : ∀ T ∈ x.insr.tranId?, ∀ y ∈ past, T ∉ y.insr.ended?

instance (past : List Feed) (x : Feed) : Decidable (AdmissibleNext past x) :=
  decidable_of_iff
    (0 ≤ x.timestamp ∧ (∀ y ∈ past, y.timestamp < x.timestamp) ∧ x.insr.inRange = true ∧
      (∀ T ∈ x.insr.begun?, ∀ y ∈ past, T ∉ y.insr.begun?) ∧
      (∀ T ∈ x.insr.accessing?, ∃ y ∈ past, T ∈ y.insr.begun?) ∧
      ∀ T ∈ x.insr.tranId?, ∀ y ∈ past, T ∉ y.insr.ended?)
    ⟨fun ⟨h1, h2, h3, h4, h5, h6⟩ => ⟨h1, h2, h3, h4, h5, h6⟩,
      fun ⟨h1, h2, h3, h4, h5, h6⟩ => ⟨h1, h2, h3, h4, h5, h6⟩⟩

/-- The instructions may follow the past, one after the other. -/
def AdmissibleFrom : List Feed → List Feed → Prop
  | _, [] => True
  | past, x :: l => AdmissibleNext past x ∧ AdmissibleFrom (past ++ [x]) l

instance decidableAdmissibleFrom : ∀ past l, Decidable (AdmissibleFrom past l)
  | _, [] => inferInstanceAs (Decidable True)
  | past, x :: l =>
      have := decidableAdmissibleFrom (past ++ [x]) l
      inferInstanceAs (Decidable (AdmissibleNext past x ∧ AdmissibleFrom (past ++ [x]) l))

/-- An admissible run. -/
def Admissible (l : List Feed) : Prop := AdmissibleFrom [] l

instance (l : List Feed) : Decidable (Admissible l) :=
  inferInstanceAs (Decidable (AdmissibleFrom [] l))

lemma admissibleFrom_append (past l₁ l₂ : List Feed) :
    AdmissibleFrom past (l₁ ++ l₂) ↔ AdmissibleFrom past l₁ ∧ AdmissibleFrom (past ++ l₁) l₂ := by
  induction l₁ generalizing past with
  | nil => simp [AdmissibleFrom]
  | cons x l₁ ih => simp [AdmissibleFrom, ih, and_assoc]

lemma admissible_append (l₁ l₂ : List Feed) :
    Admissible (l₁ ++ l₂) ↔ Admissible l₁ ∧ AdmissibleFrom l₁ l₂ := by
  simp [Admissible, admissibleFrom_append]

lemma admissible_snoc (l : List Feed) (x : Feed) :
    Admissible (l ++ [x]) ↔ Admissible l ∧ AdmissibleNext l x := by
  simp [admissible_append, AdmissibleFrom]

/-- The transaction is begun in the run. -/
def Begun (l : List Feed) (T : TranId) : Prop := ∃ x ∈ l, T ∈ x.insr.begun?

lemma begun_snoc {l : List Feed} {x : Feed} {T : TranId} :
    Begun (l ++ [x]) T ↔ Begun l T ∨ T ∈ x.insr.begun? := by
  simp [Begun, or_and_right, exists_or]

section Request

variable {insr : Instruction} {ts : Timestamp} {r : Request}

/-- The request that is made of an instruction. -/
inductive Makes (ts : Timestamp) : Instruction → Request → Prop where
  | begin {T} : Makes ts (.begin T) (.create ts T false)
  | beginRO {T} : Makes ts (.beginRO T) (.create ts T true)
  | read {T n v} : VarId.ofInt? n = some v → Makes ts (.read T n) (.read ts T v)
  | write {T n v x} : VarId.ofInt? n = some v → Makes ts (.write T n x) (.write ts T v x)
  | recover {n s} : SiteId.ofInt? n = some s → Makes ts (.recover n) (.recover ts s)
  | fail {n s} : SiteId.ofInt? n = some s → Makes ts (.fail n) (.fail ts s)
  | dump : Makes ts .dump (.dump ts)
  | finish {T} : Makes ts (.finish T) (.finish ts T)
  | missingRead {T n} (h : VarId.ofInt? n = none) :
      Makes ts (.read T n) (.missing ts (.read T ⟨n, h⟩))
  | missingWrite {T n x} (h : VarId.ofInt? n = none) :
      Makes ts (.write T n x) (.missing ts (.write T ⟨n, h⟩ x))
  | missingRecover {n} (h : SiteId.ofInt? n = none) :
      Makes ts (.recover n) (.missing ts (.recover ⟨n, h⟩))
  | missingFail {n} (h : SiteId.ofInt? n = none) : Makes ts (.fail n) (.missing ts (.fail ⟨n, h⟩))

lemma makes_of_request (h : insr.request ts = .ok r) : Makes ts insr r := by
  cases insr with
  | begin | beginRO | dump | finish =>
      cases h
      constructor
  | unknown => cases h
  | read | write | recover | fail =>
      rw [Instruction.request] at h
      split at h
      · cases h
        constructor
        assumption
      · cases h
        constructor

lemma request_of_makes (h : Makes ts insr r) : insr.request ts = .ok r := by
  cases h with
  | begin | beginRO | dump | finish => rfl
  | read h | write h | recover h | fail h | missingRead h | missingWrite h | missingRecover h
  | missingFail h =>
      rw [Instruction.request]
      split <;> simp_all

lemma timestamp_of_request (h : insr.request ts = .ok r) : r.timestamp = ts := by
  cases makes_of_request h <;> rfl

/-- A begin creates the transaction that the instruction names. -/
lemma begun_of_request (h : insr.request ts = .ok r) (hb : r.isBegin = true) :
    r.transactionId ∈ insr.begun? := by
  cases makes_of_request h with
  | begin | beginRO => rfl
  | _ => cases hb

/-- A read or write is one of the transaction that the instruction names. -/
lemma accessing_of_request (h : insr.request ts = .ok r) (hrw : r.isReadWrite = true) :
    r.transactionId ∈ insr.accessing? := by
  cases makes_of_request h with
  | read | write | missingRead | missingWrite => rfl
  | _ => cases hrw

/-- The request of an end ends the transaction that the instruction names. -/
lemma ended_of_request {T : TranId} {ts' : Timestamp} (h : insr.request ts = .ok (.finish ts' T)) :
    T ∈ insr.ended? := by
  cases makes_of_request h
  rfl

lemma tranId_of_begun {T : TranId} (h : T ∈ insr.begun?) : T ∈ insr.tranId? := by
  cases insr with
  | begin | beginRO => exact h
  | _ => cases h

/-- A request other than those without a transaction is one of the transaction that the
instruction names. -/
lemma tranId_of_request (h : insr.request ts = .ok r) (hne : r.transactionId ≠ -1) :
    r.transactionId ∈ insr.tranId? := by
  cases makes_of_request h with
  | recover | fail | dump | missingRecover | missingFail => exact absurd rfl hne
  | _ => rfl

/-- An instruction whose variable or site exists. -/
lemma ne_missing_of_inRange (hin : insr.inRange = true) (h : insr.request ts = .ok r)
    (ts' : Timestamp) (m : Missing) : r ≠ .missing ts' m := by
  rintro rfl
  cases makes_of_request h with
  | missingRead hn | missingWrite hn => exact VarId.ofInt?_eq_none.mp hn (of_decide_eq_true hin)
  | missingRecover hn | missingFail hn => exact SiteId.ofInt?_eq_none.mp hn (of_decide_eq_true hin)

end Request

namespace State

/-- The state before the first instruction. -/
def initial : State := {}

/-- One turn of the loop over the instructions. -/
def feed (σ : State) (x : Feed) : Except Fault State := do
  executeInstructions x.schedule (← addInstruction x.insr x.timestamp σ)

end State

/-- The state after the instructions, unless one of them faults. -/
def run (l : List Feed) : Except Fault State := l.foldlM State.feed State.initial

/-- The run of the instructions at the timestamps `0, 1, 2, ...`. -/
def inOrder (sch : Schedule) (insrs : List Instruction) : List Feed :=
  insrs.zipIdx.map fun p => ⟨p.1, p.2, sch⟩

/-- A computation whose result has been looked at. -/
lemma exists_ok_of_eval {α β : Type} {x : Except Fault β} {f : β → α} {a : α}
    (h : x.toOption.map f = some a) : ∃ b, x = .ok b ∧ f b = a := by
  cases hx : x with
  | error e => simp [hx, Except.toOption] at h
  | ok b => exact ⟨b, rfl, by simpa [hx, Except.toOption] using h⟩

lemma run_snoc (l : List Feed) (x : Feed) : run (l ++ [x]) = run l >>= fun σ => σ.feed x := by
  simp [run, List.foldlM_append]

/-- An instruction is fed: it becomes a request, and the engine is called. -/
lemma feed_eq_ok {σ σ' : State} {x : Feed} : σ.feed x = .ok σ' ↔
    ∃ r, x.insr.request x.timestamp = .ok r ∧
      State.executeInstructions x.schedule { σ with request := some r } = .ok σ' := by
  rw [State.feed, State.addInstruction, bind_eq_ok]
  constructor
  · rintro ⟨σ₁, h1, h2⟩
    rw [bind_eq_ok] at h1
    obtain ⟨r, hr, h1⟩ := h1
    cases h1
    exact ⟨r, hr, h2⟩
  · rintro ⟨r, hr, h⟩
    exact ⟨_, by rw [hr]; rfl, h⟩

lemma request_run {l : List Feed} {σ : State} (h : run l = .ok σ) : σ.request = none := by
  induction l using List.reverseRecOn generalizing σ with
  | nil =>
      cases h
      rfl
  | append_singleton l x ih =>
      rw [run_snoc, bind_eq_ok] at h
      obtain ⟨σ₁, -, h⟩ := h
      obtain ⟨r, -, h⟩ := feed_eq_ok.mp h
      exact State.request_executeInstructions h

/-! ### States and moments of a run -/

/-- The run reaches `σ`: after its last instruction, or after some rounds of the loop that drains
the blocked queue. -/
inductive Reaches (l : List Feed) : State → Prop where
  | run {σ} : run l = .ok σ → Reaches l σ
  | round {σ σ' sch} : Reaches l σ → σ.isAllInstructionsFinished = false →
      State.executeInstructions sch σ = .ok σ' → Reaches l σ'

lemma reaches_drain {l : List Feed} {σ σ' : State} {sch : ℕ → Schedule} {n : ℕ} {b : Bool}
    (h : Reaches l σ) (hd : State.drain sch n σ = .ok (b, σ')) : Reaches l σ' := by
  induction n generalizing σ sch with
  | zero =>
      cases hd
      exact h
  | succ n ih =>
      rw [State.drain] at hd
      split_ifs at hd with hf
      · cases hd
        exact h
      · rw [bind_eq_ok] at hd
        obtain ⟨σ₁, h1, hd⟩ := hd
        exact ih (.round h (by simpa using hf) h1) hd

/-- The run calls `executeInstructions` for an instruction, in the state `σ` with the pending
request. -/
def FeedCall (l : List Feed) (sch : Schedule) (σ : State) : Prop :=
  ∃ l₁ x l₂ σ₀ r, l = l₁ ++ x :: l₂ ∧ run l₁ = .ok σ₀ ∧
    x.insr.request x.timestamp = .ok r ∧ sch = x.schedule ∧ σ = { σ₀ with request := some r }

/-- The run calls `executeInstructions`: for an instruction, or to drain the queue. -/
def CallOf (l : List Feed) (sch : Schedule) (σ : State) : Prop :=
  FeedCall l sch σ ∨ (Reaches l σ ∧ σ.isAllInstructionsFinished = false)

lemma FeedCall.append {l : List Feed} {sch : Schedule} {σ : State} (h : FeedCall l sch σ)
    (l' : List Feed) : FeedCall (l ++ l') sch σ := by
  obtain ⟨l₁, x, l₂, σ₀, r, rfl, h⟩ := h
  exact ⟨l₁, x, l₂ ++ l', σ₀, r, by simp, h⟩

/-- The run executes the request `r` in the state `τ`. -/
def CalledDuring (l : List Feed) (r : Request) (τ : State) : Prop :=
  ∃ sch σ, CallOf l sch σ ∧ State.Called sch σ r τ

/-- The run takes the request `r` from the blocked queue and executes it in the state `τ`. -/
def TakenDuring (l : List Feed) (r : Request) (τ : State) : Prop :=
  ∃ sch σ, CallOf l sch σ ∧ State.CalledFromQueue sch σ r τ

/-- The run executes the request `r` when its instruction is fed, in the state `τ`. -/
def DirectDuring (l : List Feed) (r : Request) (τ : State) : Prop :=
  ∃ sch σ, CallOf l sch σ ∧ State.CalledDirectly sch σ r τ

/-- The state in which the run of `l` executes the request of the instruction that follows. -/
def callState (l : List Feed) (x : Feed) : Except Fault State := do
  let σ ← run l
  let r ← x.insr.request x.timestamp
  State.resolved x.schedule { σ with request := some r }

/-- A request that is executed in a run, in a state that has been looked at. -/
lemma exists_calledDuring {α : Type} {l : List Feed} {x : Feed} {r : Request} {f : State → α}
    {a : α} (l' : List Feed)
    (h : (callState l x).toOption.map (fun τ => (decide (τ.request = some r) && !τ.isStale r &&
      (!τ.isBlocked r.transactionId || r.isReadWrite), f τ)) = some (true, a)) :
    ∃ τ, CalledDuring (l ++ x :: l') r τ ∧ f τ = a := by
  obtain ⟨τ, hτ, hf⟩ := exists_ok_of_eval h
  simp only [Prod.mk.injEq, Bool.and_eq_true, decide_eq_true_iff, Bool.not_eq_true',
    Bool.or_eq_true] at hf
  obtain ⟨⟨⟨hreq, hst⟩, hb⟩, hf⟩ := hf
  rw [callState, bind_eq_ok] at hτ
  obtain ⟨σ, hσ, hτ⟩ := hτ
  rw [bind_eq_ok] at hτ
  obtain ⟨r', hr', hτ⟩ := hτ
  refine ⟨τ, ⟨_, _, Or.inl ⟨l, x, l', σ, r', rfl, hσ, hr', rfl, rfl⟩,
    Or.inl ⟨hτ, hreq, hst, fun hbl => ?_⟩⟩, hf⟩
  exact hb.resolve_left (by simp [hbl])

/-- The call for the instruction that follows: the states in which it starts and returns. -/
def feedCall (l : List Feed) (x : Feed) : Except Fault (State × State) := do
  let σ ← run l
  let r ← x.insr.request x.timestamp
  let σ := { σ with request := some r }
  return (σ, ← State.executeInstructions x.schedule σ)

lemma callOf_of_feedCall {l₁ : List Feed} {x : Feed} {σ σ' : State} (l₂ : List Feed)
    (h : feedCall l₁ x = .ok (σ, σ')) : CallOf (l₁ ++ x :: l₂) x.schedule σ ∧
      State.executeInstructions x.schedule σ = .ok σ' := by
  rw [feedCall, bind_eq_ok] at h
  obtain ⟨σ₀, hrun, h⟩ := h
  rw [bind_eq_ok] at h
  obtain ⟨r, hr, h⟩ := h
  rw [bind_eq_ok] at h
  obtain ⟨σ₁, hx, h⟩ := h
  cases h
  exact ⟨Or.inl ⟨l₁, x, l₂, σ₀, r, rfl, hrun, hr, rfl, rfl⟩, hx⟩

/-- A call in a run that takes a request from the queue, in states that have been looked at. -/
lemma exists_takenDuring {α : Type} {l : List Feed} {x : Feed} {r : Request}
    {f : State → State → State → α} {a : α} (l' : List Feed)
    (h : ((feedCall l x).toOption.bind fun p =>
      ((State.callsFromQueue x.schedule p.1).find? fun q => q.1 = r).map fun q =>
        f p.1 p.2 q.2) = some a) :
    ∃ σ σ' τ, CallOf (l ++ x :: l') x.schedule σ ∧
      State.executeInstructions x.schedule σ = .ok σ' ∧
      State.CalledFromQueue x.schedule σ r τ ∧ f σ σ' τ = a := by
  obtain ⟨⟨σ, σ'⟩, hp, h⟩ := Option.bind_eq_some_iff.mp h
  obtain ⟨⟨r', τ⟩, hq, hf⟩ := Option.map_eq_some_iff.mp h
  have hr : r' = r := by simpa using List.find?_some hq
  subst hr
  have hcall : feedCall l x = .ok (σ, σ') := by
    cases hx : feedCall l x with
    | error e => simp [hx, Except.toOption] at hp
    | ok p => simpa [hx, Except.toOption] using hp
  obtain ⟨hc, hx⟩ := callOf_of_feedCall l' hcall
  exact ⟨σ, σ', τ, hc, hx, State.calledFromQueue_of_mem (List.mem_of_find?_eq_some hq), hf⟩

/-- The state in which the run of `l` calls for the instruction that follows. -/
def pendingState (l : List Feed) (x : Feed) : Except Fault State := do
  let σ ← run l
  let r ← x.insr.request x.timestamp
  return { σ with request := some r }

/-- A request that is taken from the queue in a run, whether or not the call returns. -/
lemma exists_takenFromQueue {α : Type} {l : List Feed} {x : Feed} {r : Request}
    {f : State → α} {a : α} (l' : List Feed)
    (h : ((pendingState l x).toOption.bind fun σ =>
      ((State.callsFromQueue x.schedule σ).find? fun q => q.1 = r).map fun q => f q.2) = some a) :
    ∃ σ τ, CallOf (l ++ x :: l') x.schedule σ ∧ State.CalledFromQueue x.schedule σ r τ ∧
      f τ = a := by
  obtain ⟨σ, hσ, h⟩ := Option.bind_eq_some_iff.mp h
  obtain ⟨⟨r', τ⟩, hq, hf⟩ := Option.map_eq_some_iff.mp h
  have hr : r' = r := by simpa using List.find?_some hq
  subst hr
  have hok : pendingState l x = .ok σ := by
    cases hx : pendingState l x with
    | error e => simp [hx, Except.toOption] at hσ
    | ok p => simpa [hx, Except.toOption] using hσ
  rw [pendingState, bind_eq_ok] at hok
  obtain ⟨σ₀, hrun, hok⟩ := hok
  rw [bind_eq_ok] at hok
  obtain ⟨r₀, hreq, hok⟩ := hok
  cases hok
  exact ⟨_, τ, Or.inl ⟨l, x, l', σ₀, r₀, rfl, hrun, hreq, rfl, rfl⟩,
    State.calledFromQueue_of_mem (List.mem_of_find?_eq_some hq), hf⟩

/-- The calls for the instructions of a run. -/
def feedCalls (l : List Feed) : List (Schedule × State) :=
  (List.range l.length).filterMap fun i => l[i]?.bind fun x =>
    (pendingState (l.take i) x).toOption.map fun σ => (x.schedule, σ)

/-- A run that leaves the queue empty makes no calls to drain it. -/
lemma mem_feedCalls {l : List Feed} {sch : Schedule} {σ : State}
    (hfin : (run l).toOption.map State.isAllInstructionsFinished = some true)
    (h : CallOf l sch σ) : (sch, σ) ∈ feedCalls l := by
  have hreach : ∀ {σ}, Reaches l σ → σ.isAllInstructionsFinished = true := by
    intro σ h
    induction h with
    | run hr => simpa [hr, Except.toOption] using hfin
    | round _ hf _ ih =>
        rw [ih] at hf
        cases hf
  rcases h with ⟨l₁, x, l₂, σ₀, r, rfl, hrun, hr, rfl, rfl⟩ | ⟨h, hf⟩
  · refine List.mem_filterMap.mpr ⟨l₁.length, by simp, ?_⟩
    simp [pendingState, hrun, hr, bind, Except.bind, Except.toOption, pure, Except.pure]
  · rw [hreach h] at hf
    cases hf

section Induction

variable {l : List Feed} {P : State → Prop} {σ : State}

/-- What each call keeps holds after every part of the instructions. -/
lemma run_induction (initial : P State.initial)
    (request : ∀ {σ q}, P σ → P { σ with request := q })
    (call : ∀ {sch σ σ'}, FeedCall l sch σ → P σ → State.executeInstructions sch σ = .ok σ' → P σ')
    {l₁ l₂ : List Feed} (hl : l = l₁ ++ l₂) (hr : run l₁ = .ok σ) : P σ := by
  induction l₁ using List.reverseRecOn generalizing l₂ σ with
  | nil =>
      cases hr
      exact initial
  | append_singleton l₁ x ih =>
      rw [run_snoc, bind_eq_ok] at hr
      obtain ⟨σ₁, h1, hf⟩ := hr
      obtain ⟨r, hreq, hx⟩ := feed_eq_ok.mp hf
      rw [List.append_assoc] at hl
      exact call ⟨l₁, x, l₂, σ₁, r, hl, h1, hreq, rfl, rfl⟩ (request (ih hl h1)) hx

/-- **Induction over the calls of a run.** -/
theorem Reaches.induction (initial : P State.initial)
    (request : ∀ {σ q}, P σ → P { σ with request := q })
    (call : ∀ {sch σ σ'}, CallOf l sch σ → P σ → State.executeInstructions sch σ = .ok σ' → P σ')
    (hr : Reaches l σ) : P σ := by
  induction hr with
  | run h =>
      exact run_induction initial request (fun hc => call (Or.inl hc)) (List.append_nil l).symm h
  | round hr hf hx ih => exact call (Or.inr ⟨hr, hf⟩) ih hx

/-- What the calls keep holds at each call. -/
lemma CallOf.induction {sch : Schedule} (initial : P State.initial)
    (request : ∀ {σ q}, P σ → P { σ with request := q })
    (call : ∀ {sch σ σ'}, CallOf l sch σ → P σ → State.executeInstructions sch σ = .ok σ' → P σ')
    (hc : CallOf l sch σ) : P σ := by
  rcases hc with ⟨l₁, x, l₂, σ₀, r, hl, hrun, -, -, rfl⟩ | ⟨hr, -⟩
  · exact request (run_induction initial request (fun hc => call (Or.inl hc)) hl hrun)
  · exact hr.induction initial request call

end Induction

lemma DirectDuring.called {l : List Feed} {r : Request} {τ : State} (h : DirectDuring l r τ) :
    CalledDuring l r τ := by
  obtain ⟨sch, σ, hc, h⟩ := h
  exact ⟨sch, σ, hc, Or.inl h⟩

lemma TakenDuring.called {l : List Feed} {r : Request} {τ : State} (h : TakenDuring l r τ) :
    CalledDuring l r τ := by
  obtain ⟨sch, σ, hc, h⟩ := h
  exact ⟨sch, σ, hc, Or.inr h⟩

/-- What is asked of the calls of a run that leaves the queue empty, and of the requests that they
execute, can be looked up. -/
lemma forall_of_feedCalls {l : List Feed} {D : Schedule → State → Prop}
    {A C : Request → State → Prop}
    (hfin : (run l).toOption.map State.isAllInstructionsFinished = some true)
    (h : ∀ c ∈ feedCalls l, D c.1 c.2 ∧ (∀ q ∈ State.callsDirectly c.1 c.2, A q.1 q.2) ∧
      ∀ q ∈ State.callsFromQueue c.1 c.2, C q.1 q.2) :
    (∀ sch σ, CallOf l sch σ → D sch σ) ∧ (∀ r τ, DirectDuring l r τ → A r τ) ∧
      ∀ r τ, TakenDuring l r τ → C r τ := by
  refine ⟨fun sch σ hc => (h _ (mem_feedCalls hfin hc)).1, ?_, ?_⟩
  · rintro r τ ⟨sch, σ, hc, hd⟩
    refine (h _ (mem_feedCalls hfin hc)).2.1 (r, τ) ?_
    rw [State.callsDirectly_of_called hd]
    exact List.mem_singleton_self _
  · rintro r τ ⟨sch, σ, hc, hq⟩
    exact (h _ (mem_feedCalls hfin hc)).2.2 (r, τ) (State.mem_callsFromQueue hq)

/-- A request is executed when its instruction is fed, or taken from the queue. -/
lemma CalledDuring.cases {l : List Feed} {r : Request} {τ : State} (h : CalledDuring l r τ) :
    DirectDuring l r τ ∨ TakenDuring l r τ := by
  obtain ⟨sch, σ, hc, hd | hq⟩ := h
  · exact Or.inl ⟨sch, σ, hc, hd⟩
  · exact Or.inr ⟨sch, σ, hc, hq⟩

/-- Invariants of runs: what the calls after the instructions `l` keep, what holds where they take
a request from the queue, and what each instruction leads to, when `C` holds of every request
that is executed. -/
structure Invariant (C : Request → State → Prop) (P : List Feed → State → Prop)
    (W : List Feed → Request → State → Prop) : Prop where
  initial : P [] State.initial
  settled : ∀ l, Admissible l → State.Settled (P l)
  walks : ∀ l, Admissible l → State.Walks C (P l) (W l)
  mono : ∀ {l x σ}, Admissible l → AdmissibleNext l x → P l σ → P (l ++ [x]) σ
  leads : ∀ {l x r}, Admissible l → AdmissibleNext l x → x.insr.request x.timestamp = .ok r →
    State.Leads C (P l) (P (l ++ [x])) r

namespace Invariant

variable {C : Request → State → Prop} {P : List Feed → State → Prop}
  {W : List Feed → Request → State → Prop} {l : List Feed} {r : Request} {σ τ : State}
  {sch : Schedule}

/-- **Invariants hold after every run.** -/
theorem run (hi : Invariant C P W) (ha : Admissible l)
    (hC : ∀ sch σ r τ, FeedCall l sch σ → State.Called sch σ r τ → C r τ)
    (hr : run l = .ok σ) : P l σ := by
  induction l using List.reverseRecOn generalizing σ with
  | nil =>
      cases hr
      exact hi.initial
  | append_singleton l x ih =>
      rw [run_snoc, bind_eq_ok] at hr
      obtain ⟨σ₁, h1, hf⟩ := hr
      obtain ⟨hl, hx⟩ := (admissible_snoc l x).mp ha
      have hP := ih hl (fun sch σ r τ hc => hC sch σ r τ (hc.append [x])) h1
      obtain ⟨r, hreq, h⟩ := feed_eq_ok.mp hf
      refine (hi.walks _ ha).executeInstructions (hi.settled l hl) (hi.settled _ ha)
        (hi.mono hl hx) (fun r' hr' => ?_)
        (fun r τ hc => hC _ _ r τ ⟨l, x, [], σ₁, _, rfl, h1, hreq, rfl, rfl⟩ hc)
        ((hi.settled l hl).request hP) h
      cases hr'
      exact hi.leads hl hx hreq

/-- **Invariants hold in every state that is reached.** -/
theorem reaches (hi : Invariant C P W) (ha : Admissible l)
    (hC : ∀ r τ, CalledDuring l r τ → C r τ) (h : Reaches l σ) : P l σ ∧ σ.request = none := by
  induction h with
  | run hr =>
      exact ⟨hi.run ha (fun sch σ r τ hc hq => hC r τ ⟨sch, σ, Or.inl hc, hq⟩) hr, request_run hr⟩
  | @round σ σ' sch h hf hx ih =>
      obtain ⟨hP, hn⟩ := ih
      refine ⟨(hi.walks l ha).executeInstructions (hi.settled l ha) (hi.settled l ha) id
        (fun r hr => by simp [hn] at hr)
        (fun r τ hq => hC r τ ⟨sch, σ, Or.inr ⟨h, hf⟩, hq⟩) hP hx,
        State.request_executeInstructions hx⟩

/-- A call of a run starts with the invariant of the instructions before, and continues with
that of the instructions so far. -/
lemma callOf (hi : Invariant C P W) (ha : Admissible l)
    (hC : ∀ r τ, CalledDuring l r τ → C r τ) (hc : CallOf l sch σ) :
    ∃ l₁ l₂, Admissible l₁ ∧ Admissible l₂ ∧ P l₁ σ ∧ (∀ {σ'}, P l₁ σ' → P l₂ σ') ∧
      ∀ r, σ.request = some r → State.Leads C (P l₁) (P l₂) r := by
  rcases hc with ⟨l₁, x, l₂, σ₀, r, rfl, hrun, hreq, rfl, rfl⟩ | ⟨h, -⟩
  · have hC₁ : ∀ sch σ r τ, FeedCall l₁ sch σ → State.Called sch σ r τ → C r τ :=
      fun sch σ r τ hc hq => hC r τ ⟨sch, σ, Or.inl (hc.append (x :: l₂)), hq⟩
    rw [List.append_cons, admissible_append] at ha
    obtain ⟨hl, hx⟩ := (admissible_snoc l₁ x).mp ha.1
    refine ⟨l₁, l₁ ++ [x], hl, ha.1, (hi.settled l₁ hl).request (hi.run hl hC₁ hrun),
      hi.mono hl hx, fun r' hr' => ?_⟩
    cases hr'
    exact hi.leads hl hx hreq
  · obtain ⟨hP, hn⟩ := hi.reaches ha hC h
    exact ⟨l, l, ha, ha, hP, id, fun r hr => by simp [hn] at hr⟩

/-- Invariants hold where the walk over the queue starts. -/
theorem walkStarts (hi : Invariant C P W) (ha : Admissible l)
    (hC : ∀ r τ, CalledDuring l r τ → C r τ) (hc : CallOf l sch σ)
    (h : State.WalkStarts sch σ τ) : ∃ l', Admissible l' ∧ P l' τ := by
  obtain ⟨l₁, l₂, h1, h2, hP, hPQ, hl⟩ := hi.callOf ha hC hc
  exact ⟨l₂, h2, (hi.settled l₁ h1).walkStarts hPQ hl
    (fun r τ hd => hC r τ ⟨sch, σ, hc, Or.inl hd⟩) hP h⟩

/-- **What holds at every request that is taken from the queue.** -/
theorem taken (hi : Invariant C P W) (ha : Admissible l)
    (hC : ∀ r τ, CalledDuring l r τ → C r τ) (h : TakenDuring l r τ) :
    ∃ l', Admissible l' ∧ W l' r τ := by
  obtain ⟨sch, σ, hc, h⟩ := h
  obtain ⟨l₁, l₂, h1, h2, hP, hPQ, hl⟩ := hi.callOf ha hC hc
  exact ⟨l₂, h2, (hi.walks l₂ h2).calledFromQueue (hi.settled l₁ h1) hPQ hl hP
    (fun r τ hq => hC r τ ⟨sch, σ, hc, hq⟩) h⟩

/-- What follows from an invariant at a request that is executed at once, and at one that is taken
from the queue, holds at every request that is executed. -/
theorem called_of (hi : Invariant C P W) {R : List Feed → State → Prop}
    (hP : ∀ {l τ}, P l τ → R l τ) (hW : ∀ {l r τ}, W l r τ → R l τ) (ha : Admissible l)
    (hC : ∀ r τ, CalledDuring l r τ → C r τ) (h : CalledDuring l r τ) :
    ∃ l', Admissible l' ∧ R l' τ := by
  obtain ⟨sch, σ, hc, hd | hq⟩ := h
  · obtain ⟨l₁, l₂, h1, h2, hσ, -, -⟩ := hi.callOf ha hC hc
    exact ⟨l₁, h1, hP ((hi.settled l₁ h1).calledDirectly hσ hd).1⟩
  · obtain ⟨l', h1, h2⟩ := hi.taken ha hC ⟨sch, σ, hc, hq⟩
    exact ⟨l', h1, hW h2⟩

/-- **Invariants hold at every request that is executed**, if they hold in the walk. -/
theorem called (hi : Invariant C P W) (hW : ∀ {l r τ}, W l r τ → P l τ) (ha : Admissible l)
    (hC : ∀ r τ, CalledDuring l r τ → C r τ) (h : CalledDuring l r τ) :
    ∃ l', Admissible l' ∧ P l' τ :=
  hi.called_of id hW ha hC h

end Invariant

/-! ### The indexes along a run -/

/-- The request is that of one of the instructions. -/
def Fed (l : List Feed) (r : Request) : Prop :=
  ∃ x ∈ l, x.insr.request x.timestamp = .ok r

/-- The requests that may be in the queue after the instructions. -/
structure Queueable (l : List Feed) (r : Request) : Prop where
  fed : Fed l r
  begun : Begun l r.transactionId
  not_begin : r.isBegin = false

lemma Fed.snoc {l : List Feed} {r : Request} (h : Fed l r) (x : Feed) : Fed (l ++ [x]) r := by
  obtain ⟨y, hy, hr⟩ := h
  exact ⟨y, List.mem_append_left _ hy, hr⟩

lemma fed_snoc {l : List Feed} {x : Feed} {r r' : Request}
    (hx : x.insr.request x.timestamp = .ok r) : Fed (l ++ [x]) r' ↔ Fed l r' ∨ r = r' := by
  simp [Fed, or_and_right, exists_or, hx]

lemma Queueable.snoc {l : List Feed} {r : Request} (h : Queueable l r) (x : Feed) :
    Queueable (l ++ [x]) r :=
  ⟨h.fed.snoc x, begun_snoc.mpr (Or.inl h.begun), h.not_begin⟩

section Fed

variable {l : List Feed} {r r' : Request} {ts : Timestamp} {T : TranId}

lemma Admissible.pairwise (ha : Admissible l) : l.Pairwise fun y x =>
    y.timestamp < x.timestamp ∧ ∀ T ∈ x.insr.tranId?, T ∉ y.insr.ended? := by
  induction l using List.reverseRecOn with
  | nil => exact List.Pairwise.nil
  | append_singleton l x ih =>
      obtain ⟨hl, hx⟩ := (admissible_snoc l x).mp ha
      refine List.pairwise_append.mpr ⟨ih hl, List.pairwise_singleton _ x, fun y hy z hz => ?_⟩
      rw [List.mem_singleton.mp hz]
      exact ⟨hx.later y hy, fun T hT => hx.nothing_after_end T hT y hy⟩

lemma Admissible.nonneg (ha : Admissible l) {x : Feed} (hx : x ∈ l) : 0 ≤ x.timestamp := by
  induction l using List.reverseRecOn with
  | nil => cases hx
  | append_singleton l y ih =>
      obtain ⟨hl, hy⟩ := (admissible_snoc l y).mp ha
      rcases List.mem_append.mp hx with hx | hx
      · exact ih hl hx
      · rw [List.mem_singleton.mp hx]
        exact hy.nonneg

lemma Admissible.inRange (ha : Admissible l) {x : Feed} (hx : x ∈ l) : x.insr.inRange = true := by
  induction l using List.reverseRecOn with
  | nil => cases hx
  | append_singleton l y ih =>
      obtain ⟨hl, hy⟩ := (admissible_snoc l y).mp ha
      rcases List.mem_append.mp hx with hx | hx
      · exact ih hl hx
      · rw [List.mem_singleton.mp hx]
        exact hy.inRange

/-- The variable or site of a request of an admissible run exists. -/
lemma Fed.ne_missing (ha : Admissible l) (h : Fed l r) (ts : Timestamp) (m : Missing) :
    r ≠ .missing ts m := by
  rintro rfl
  obtain ⟨x, hx, hr⟩ := h
  exact ne_missing_of_inRange (ha.inRange hx) hr ts m rfl

/-- Two instructions of a run are the same one, or one of them is earlier. -/
lemma Admissible.cases (ha : Admissible l) {x y : Feed} (hx : x ∈ l) (hy : y ∈ l) :
    x = y ∨ (y.timestamp < x.timestamp ∧ ∀ T ∈ x.insr.tranId?, T ∉ y.insr.ended?) ∨
      (x.timestamp < y.timestamp ∧ ∀ T ∈ y.insr.tranId?, T ∉ x.insr.ended?) := by
  obtain ⟨l₁, l₂, rfl⟩ := List.append_of_mem hx
  have hp := List.pairwise_append.mp ha.pairwise
  rcases List.mem_append.mp hy with hy | hy
  · exact Or.inr (Or.inl (hp.2.2 y hy x List.mem_cons_self))
  · rcases List.mem_cons.mp hy with rfl | hy
    · exact Or.inl rfl
    · exact Or.inr (Or.inr ((List.pairwise_cons.mp hp.2.1).1 y hy))

/-- The timestamp of a request tells the request. -/
lemma Fed.eq_of_timestamp (ha : Admissible l) (h : Fed l r) (h' : Fed l r')
    (hts : r.timestamp = r'.timestamp) : r = r' := by
  obtain ⟨x, hx, hr⟩ := h
  obtain ⟨y, hy, hr'⟩ := h'
  have hxy : x.timestamp = y.timestamp := by
    rw [← timestamp_of_request hr, hts, timestamp_of_request hr']
  rcases ha.cases hx hy with rfl | ⟨hlt, -⟩ | ⟨hlt, -⟩
  · rw [hr] at hr'
    exact Except.ok.inj hr'
  · exact absurd hxy hlt.ne'
  · exact absurd hxy hlt.ne

/-- The end of a transaction is its last request. -/
lemma Fed.le_of_finish (ha : Admissible l) (hf : Fed l (.finish ts T)) (h : Fed l r)
    (hT : r.transactionId = T) (hne : T ≠ -1) : r.timestamp ≤ ts := by
  obtain ⟨x, hx, hfin⟩ := hf
  obtain ⟨y, hy, hr⟩ := h
  have hxT : T ∈ x.insr.ended? := ended_of_request hfin
  have hyT : T ∈ y.insr.tranId? := hT ▸ tranId_of_request hr (hT ▸ hne)
  have hxts : ts = x.timestamp := timestamp_of_request hfin
  have hyts : r.timestamp = y.timestamp := timestamp_of_request hr
  rcases ha.cases hx hy with rfl | ⟨hlt, -⟩ | ⟨-, hno⟩
  · rw [hyts, hxts]
  · rw [hyts, hxts]
    exact hlt.le
  · exact absurd hxT (hno T hyT)

end Fed

lemma known_kept {C : Request → State → Prop} {l : List Feed} :
    State.Kept C (State.Known (Begun l) (Queueable l)) (Queueable l) :=
  State.Known.kept fun hq => hq.begun

/-- **The indexes along a run.** -/
theorem known_invariant (C : Request → State → Prop) : Invariant C
    (fun l => State.Known (Begun l) (Queueable l))
    (fun l r τ => State.Known (Begun l) (Queueable l) τ ∧ Queueable l r) where
  initial := by
    refine ⟨fun h => ?_, fun h => ?_, fun h => ?_, fun h => ?_, fun h => ?_, fun h => ?_⟩
    all_goals simp [State.initial, State.waitsFor] at h
  settled _ _ := State.Known.settled
  walks _ _ := known_kept.walks
  mono _ _ h := h.mono (fun h => begun_snoc.mpr (Or.inl h)) fun h => h.snoc _
  leads := by
    intro l x r _ hx hr
    refine State.Known.leads (fun h => begun_snoc.mpr (Or.inl h)) (fun h => h.snoc x)
      (fun h => ?_) (fun hb => ?_) fun hb hT => ⟨⟨x, by simp, hr⟩, hT, hb⟩
    · rcases h with hb | hrw
      · exact begun_snoc.mpr (Or.inr (begun_of_request hr hb))
      · exact begun_snoc.mpr (Or.inl (hx.access_after_begin _ (accessing_of_request hr hrw)))
    · rintro ⟨y, hy, hT⟩
      exact hx.begin_once _ (begun_of_request hr hb) y hy hT

end RepCRec
