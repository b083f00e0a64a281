import RepCRec.Engine.Queue
import RepCRec.Engine.Run

/-!
Invariants of runs that need not be admissible. `RunRule` is about one property of states that the
engine keeps as long as every instruction meets its own condition `pre` in the state in which it is
fed; the property then holds in every state that is reached, and at every request that is executed
(`RunRule.reaches`, `RunRule.called`). The first use of it: a request that is executed in a run is
the request of one of its instructions (`fed_of_called`).
-/

namespace RepCRec

open Container (IterOrder bind_eq_ok)

/-- Every instruction of the run meets the condition `pre` in the state in which it is fed. -/
def FedUnder (pre : Feed → State → Prop) (l : List Feed) : Prop :=
  ∀ l₁ x l₂ σ, l = l₁ ++ x :: l₂ → run l₁ = .ok σ → pre x σ

lemma FedUnder.of_append {pre : Feed → State → Prop} {l l' : List Feed}
    (h : FedUnder pre (l ++ l')) : FedUnder pre l := fun l₁ x l₂ σ heq hr =>
  h l₁ x (l₂ ++ l') σ (by rw [heq, List.append_assoc, List.cons_append]) hr

/-- The property `P` is kept by whatever the engine does when an instruction that meets `pre` is
fed, and when the queue is served, as long as `D` holds of every call, `A` of every pending request
that is executed, and `C` of every request that is taken from the queue, where `W` holds. -/
structure GuardedRule (D : Schedule → State → Prop) (A C : Request → State → Prop)
    (P : State → Prop) (W : Request → State → Prop) (pre : Feed → State → Prop) : Prop where
  initial : P State.initial
  request : ∀ {σ q}, P σ → P { σ with request := q }
  resolved : ∀ {sch σ τ}, P σ → D sch σ → σ.resolved sch = .ok τ → P τ
  walks : State.Walks C P W
  pre_request : ∀ {x σ q}, P σ → pre x σ → pre x { σ with request := q }
  pre_resolved : ∀ {x sch σ τ}, P σ → pre x σ → σ.resolved sch = .ok τ → pre x τ
  leads : ∀ {x r}, x.insr.request x.timestamp = .ok r →
    State.Leads A (fun σ => P σ ∧ pre x σ) P r

namespace GuardedRule

variable {D : Schedule → State → Prop} {A C W : Request → State → Prop} {P : State → Prop}
  {pre : Feed → State → Prop} {l : List Feed} {r : Request} {σ τ : State} {sch : Schedule}

/-- The property holds after every run. -/
lemma run (h : GuardedRule D A C P W pre) (hl : FedUnder pre l)
    (hD : ∀ sch σ, FeedCall l sch σ → D sch σ)
    (hA : ∀ sch σ r τ, FeedCall l sch σ → State.CalledDirectly sch σ r τ → A r τ)
    (hC : ∀ sch σ r τ, FeedCall l sch σ → State.CalledFromQueue sch σ r τ → C r τ)
    (hr : run l = .ok σ) : P σ := by
  induction l using List.reverseRecOn generalizing σ with
  | nil =>
      cases hr
      exact h.initial
  | append_singleton l x ih =>
      rw [run_snoc, bind_eq_ok] at hr
      obtain ⟨σ₁, h1, hf⟩ := hr
      have hP := ih hl.of_append (fun sch σ hc => hD sch σ (hc.append [x]))
        (fun sch σ r τ hc => hA sch σ r τ (hc.append [x]))
        (fun sch σ r τ hc => hC sch σ r τ (hc.append [x])) h1
      obtain ⟨r, hreq, hx⟩ := feed_eq_ok.mp hf
      have hcall : FeedCall (l ++ [x]) x.schedule { σ₁ with request := some r } :=
        ⟨l, x, [], σ₁, r, rfl, h1, hreq, rfl, rfl⟩
      have hpre := h.pre_request (q := some r) hP (hl l x [] σ₁ rfl h1)
      refine State.executeInstructions_induction (P := fun σ => P σ ∧ pre x σ) (Q := P)
        (fun τ hτ => ⟨h.resolved (h.request hP) (hD _ _ hcall) hτ,
          h.pre_resolved (h.request hP) hpre hτ⟩) h.request And.left (fun r' hr' => ?_)
        (fun r τ hc => hA _ _ r τ hcall hc) (fun {σ₂ _} hw hP₂ hs => ?_) hx
      · cases hr'
        exact h.leads hreq
      · exact h.walks.serve hP₂ (fun r τ hc => hC _ _ r τ hcall ⟨σ₂, hw, hc⟩) hs

/-- **The property holds in every state that is reached.** -/
theorem reaches (h : GuardedRule D A C P W pre) (hl : FedUnder pre l)
    (hD : ∀ sch σ, CallOf l sch σ → D sch σ) (hA : ∀ r τ, DirectDuring l r τ → A r τ)
    (hC : ∀ r τ, TakenDuring l r τ → C r τ) (hr : Reaches l σ) : P σ ∧ σ.request = none := by
  induction hr with
  | run hr =>
      exact ⟨h.run hl (fun sch σ hc => hD sch σ (Or.inl hc))
        (fun sch σ r τ hc hd => hA r τ ⟨sch, σ, Or.inl hc, hd⟩)
        (fun sch σ r τ hc hq => hC r τ ⟨sch, σ, Or.inl hc, hq⟩) hr, request_run hr⟩
  | @round σ σ' sch hr hf hx ih =>
      obtain ⟨hP, hn⟩ := ih
      have hcall : CallOf l sch σ := Or.inr ⟨hr, hf⟩
      refine ⟨State.executeInstructions_induction (P := P) (Q := P) (C := A)
        (fun τ hτ => h.resolved hP (hD _ _ hcall) hτ) h.request id (fun r hr => by simp [hn] at hr)
        (fun r τ hc => hA r τ ⟨sch, σ, hcall, hc⟩) (fun {σ₂ _} hw hP₂ hs => ?_) hx,
        State.request_executeInstructions hx⟩
      exact h.walks.serve hP₂ (fun r τ hc => hC r τ ⟨sch, σ, hcall, σ₂, hw, hc⟩) hs

/-- A call of a run: the property holds, and once its deadlocks are resolved, also the condition of
its instruction. -/
lemma callOf (h : GuardedRule D A C P W pre) (hl : FedUnder pre l)
    (hD : ∀ sch σ, CallOf l sch σ → D sch σ) (hA : ∀ r τ, DirectDuring l r τ → A r τ)
    (hC : ∀ r τ, TakenDuring l r τ → C r τ) (hc : CallOf l sch σ) :
    P σ ∧ ∃ Q : State → Prop, (∀ {σ}, Q σ → P σ) ∧ (∀ τ, σ.resolved sch = .ok τ → Q τ) ∧
      ∀ r, σ.request = some r → State.Leads A Q P r := by
  rcases hc with ⟨l₁, x, l₂, σ₀, r, rfl, hrun, hreq, rfl, rfl⟩ | ⟨hr, hf⟩
  · have hP₀ := h.run hl.of_append (fun sch σ hc => hD sch σ (Or.inl (hc.append (x :: l₂))))
      (fun sch σ r τ hc hd => hA r τ ⟨sch, σ, Or.inl (hc.append (x :: l₂)), hd⟩)
      (fun sch σ r τ hc hq => hC r τ ⟨sch, σ, Or.inl (hc.append (x :: l₂)), hq⟩) hrun
    have hP := h.request (q := some r) hP₀
    have hcall : CallOf (l₁ ++ x :: l₂) x.schedule { σ₀ with request := some r } :=
      Or.inl ⟨l₁, x, l₂, σ₀, r, rfl, hrun, hreq, rfl, rfl⟩
    refine ⟨hP, fun σ => P σ ∧ pre x σ, And.left, fun τ hτ => ⟨h.resolved hP (hD _ _ hcall) hτ,
      h.pre_resolved hP (h.pre_request hP₀ (hl l₁ x l₂ σ₀ rfl hrun)) hτ⟩, fun r' hr' => ?_⟩
    cases hr'
    exact h.leads hreq
  · obtain ⟨hP, hn⟩ := h.reaches hl hD hA hC hr
    exact ⟨hP, P, id, fun τ hτ => h.resolved hP (hD _ _ (Or.inr ⟨hr, hf⟩)) hτ,
      fun r hr => by simp [hn] at hr⟩

/-- **What holds at every request that is taken from the queue.** -/
theorem taken (h : GuardedRule D A C P W pre) (hl : FedUnder pre l)
    (hD : ∀ sch σ, CallOf l sch σ → D sch σ) (hA : ∀ r τ, DirectDuring l r τ → A r τ)
    (hC : ∀ r τ, TakenDuring l r τ → C r τ) (ht : TakenDuring l r τ) : W r τ := by
  obtain ⟨sch, σ, hc, σ₁, hw, hq⟩ := ht
  obtain ⟨-, Q, hQP, hσ, hlead⟩ := h.callOf hl hD hA hC hc
  refine h.walks.called (State.walkStarts_induction hσ hQP hlead (fun r τ hd => ?_) hw)
    (fun r τ hq => hC r τ ⟨sch, σ, hc, σ₁, hw, hq⟩) hq
  exact hA r τ ⟨sch, σ, hc, hd⟩

/-- **The property holds at every request that is executed**, if it holds in the walk. -/
theorem called (h : GuardedRule D A C P W pre) (hW : ∀ {r τ}, W r τ → P τ) (hl : FedUnder pre l)
    (hD : ∀ sch σ, CallOf l sch σ → D sch σ) (hA : ∀ r τ, DirectDuring l r τ → A r τ)
    (hC : ∀ r τ, TakenDuring l r τ → C r τ) (hc : CalledDuring l r τ) : P τ := by
  obtain ⟨sch, σ, hcall, hd | hq⟩ := hc
  · obtain ⟨-, Q, hQP, hσ, -⟩ := h.callOf hl hD hA hC hcall
    exact hQP (hσ τ hd.1)
  · exact hW (h.taken hl hD hA hC ⟨sch, σ, hcall, hq⟩)

end GuardedRule

/-- The property `P` is kept by whatever the engine does when an instruction that meets `pre` is
fed, and when the queue is served, as long as `C` holds of every request that is executed; and `W`
holds where a request is taken from the queue. -/
structure RunRule (C : Request → State → Prop) (P : State → Prop) (W : Request → State → Prop)
    (pre : Feed → State → Prop) : Prop where
  initial : P State.initial
  settled : State.Settled P
  walks : State.Walks C P W
  pre_settled : ∀ x, State.Settled fun σ => P σ ∧ pre x σ
  leads : ∀ {x r}, x.insr.request x.timestamp = .ok r →
    State.Leads C (fun σ => P σ ∧ pre x σ) P r

namespace RunRule

variable {C W : Request → State → Prop} {P : State → Prop} {pre : Feed → State → Prop}
  {l : List Feed} {r : Request} {σ τ : State} {sch : Schedule}

/-- Nothing is asked of the calls, and the same of all requests that are executed. -/
lemma guarded (h : RunRule C P W pre) : GuardedRule (fun _ _ => True) C C P W pre where
  initial := h.initial
  request := h.settled.request
  resolved hP _ hτ := (h.settled.resolveDeadlocks hP hτ).1
  walks := h.walks
  pre_request {x _ _} hP hpre := ((h.pre_settled x).request ⟨hP, hpre⟩).2
  pre_resolved {x _ _ _} hP hpre hτ := ((h.pre_settled x).resolveDeadlocks ⟨hP, hpre⟩ hτ).1.2
  leads := h.leads

/-- **The property holds in every state that is reached.** -/
theorem reaches (h : RunRule C P W pre) (hl : FedUnder pre l)
    (hC : ∀ r τ, CalledDuring l r τ → C r τ) (hr : Reaches l σ) : P σ ∧ σ.request = none :=
  h.guarded.reaches hl (fun _ _ _ => trivial) (fun r τ hd => hC r τ hd.called)
    (fun r τ ht => hC r τ ht.called) hr

/-- The property holds before every call of a run. -/
lemma callOf (h : RunRule C P W pre) (hl : FedUnder pre l)
    (hC : ∀ r τ, CalledDuring l r τ → C r τ) (hc : CallOf l sch σ) : P σ :=
  (h.guarded.callOf hl (fun _ _ _ => trivial) (fun r τ hd => hC r τ hd.called)
    (fun r τ ht => hC r τ ht.called) hc).1

/-- **What holds at every request that is taken from the queue.** -/
theorem taken (h : RunRule C P W pre) (hl : FedUnder pre l)
    (hC : ∀ r τ, CalledDuring l r τ → C r τ) (ht : TakenDuring l r τ) : W r τ :=
  h.guarded.taken hl (fun _ _ _ => trivial) (fun r τ hd => hC r τ hd.called)
    (fun r τ ht => hC r τ ht.called) ht

/-- **The property holds at every request that is executed**, if it holds in the walk. -/
theorem called (h : RunRule C P W pre) (hW : ∀ {r τ}, W r τ → P τ) (hl : FedUnder pre l)
    (hC : ∀ r τ, CalledDuring l r τ → C r τ) (hc : CalledDuring l r τ) : P τ :=
  h.guarded.called hW hl (fun _ _ _ => trivial) (fun r τ hd => hC r τ hd.called)
    (fun r τ ht => hC r τ ht.called) hc

end RunRule

/-- What every execution is known to keep, where `A` holds of the requests of the instructions. -/
lemma State.Kept.runRule {C : Request → State → Prop} {P : State → Prop} {A : Request → Prop}
    {pre : Feed → Prop} (hk : State.Kept C P A) (hinit : P State.initial)
    (hpre : ∀ {x r}, pre x → x.insr.request x.timestamp = .ok r → A r)
    (henq : ∀ {σ r}, P σ → A r → P (σ.addRequestToBlockedQueue r)) :
    RunRule C P (fun r τ => P τ ∧ A r) fun x _ => pre x where
  initial := hinit
  settled := hk.toSettled
  walks := hk.walks
  pre_settled _ := ⟨fun h hw => ⟨hk.graph h.1 hw, h.2⟩, fun h ha => ⟨hk.abort h.1 ha, h.2⟩,
    fun h => ⟨hk.request h.1, h.2⟩⟩
  leads hr := ⟨fun h hC _ _ hx => hk.exec h.1 (hpre h.2 hr) hC hx,
    fun h _ _ _ => henq h.1 (hpre h.2 hr)⟩

/-! ### The requests that are executed -/

lemma fedUnder_mem (l : List Feed) : FedUnder (fun x _ => x ∈ l) l := by
  rintro l₁ x l₂ σ rfl -
  exact List.mem_append_right l₁ List.mem_cons_self

/-- The blocked requests are requests of the instructions in `l`. -/
def State.QueuedFrom (l : List Feed) (σ : State) : Prop :=
  ∀ T rs r, σ.blockedTransactionsQueue.lookup T = some rs → r ∈ rs → Fed l r

lemma State.queuedFrom_iff {l : List Feed} {σ : State} :
    σ.QueuedFrom l ↔ σ.QueueAll fun _ r => Fed l r := Iff.rfl

lemma State.QueuedFrom.kept {C : Request → State → Prop} {l : List Feed} :
    State.Kept C (State.QueuedFrom l) (Fed l) where
  graph h _ := h
  abort h ha := (State.queuedFrom_iff.mp h).abortTransaction ha
  request h := h
  queued h hl hr := h _ _ _ hl hr
  exec h hr _ hx := by
    obtain ⟨es, hout⟩ := State.exec_outcome hx
    exact (State.queuedFrom_iff.mp h).exec hr hout
  dequeue h := (State.queuedFrom_iff.mp h).of_lookup fun hl => by
    rw [Dict.lookup_erase] at hl
    split_ifs at hl
    exact hl

lemma runRule_queuedFrom (l : List Feed) : RunRule (fun _ _ => True) (State.QueuedFrom l)
    (fun r τ => τ.QueuedFrom l ∧ Fed l r) fun x _ => x ∈ l :=
  State.QueuedFrom.kept.runRule (fun T rs r h => by cases h) (fun hx hr => ⟨_, hx, hr⟩)
    fun h hr => (State.queuedFrom_iff.mp h).enqueue hr

/-- **A request that is executed** is that of an instruction of the run. -/
theorem fed_of_called {l : List Feed} {r : Request} {τ : State} (hc : CalledDuring l r τ) :
    Fed l r := by
  obtain ⟨sch, σ, hcall, hd | hq⟩ := hc
  · have hr : σ.request = some r := by
      refine (State.Settled.calledDirectly (P := fun _ => True) ?_ trivial hd).2
      exact ⟨fun _ _ => trivial, fun _ _ => trivial, fun _ => trivial⟩
    rcases hcall with ⟨l₁, x, l₂, σ₀, r₀, rfl, -, hreq, -, rfl⟩ | ⟨hr', -⟩
    · cases hr
      exact ⟨x, List.mem_append_right l₁ List.mem_cons_self, hreq⟩
    · rw [((runRule_queuedFrom l).reaches (fedUnder_mem l) (fun _ _ _ => trivial) hr').2] at hr
      cases hr
  · exact ((runRule_queuedFrom l).taken (fedUnder_mem l) (fun _ _ _ => trivial)
      ⟨sch, σ, hcall, hq⟩).2

end RepCRec
