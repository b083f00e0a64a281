import RepCRec.Engine.Deadlock
import RepCRec.Engine.Frame
import RepCRec.Engine.TransactionManager

/-!
The moments at which one call of `executeInstructions` executes a request: the pending request
(`CalledDirectly`), or a request that is taken from the blocked queue (`CalledFromQueue`), each
in the state of that moment.

What every execution keeps is kept by the whole call, and holds at each of these moments:
`Settled` and `Leads` collect the obligations before the walk over the queue, `Walks` those of the
walk, and `Walks.executeInstructions` and `Walks.calledFromQueue` are the rules. The walk has a
rule with a loop invariant of its own (`WalkRule`), and one for what all executions keep (`Kept`).
-/

namespace RepCRec

open Container (IterOrder bind_eq_ok ok_bind)

namespace State

variable {sch : Schedule} {σ σ' τ : State}

/-! ### The moments -/

/-- Executing the blocked requests of `T` from `σ` executes `r` in `τ`. -/
def CalledInSet (sch : Schedule) : List Request → State → Request → State → Prop
  | [], _, _, _ => False
  | r' :: rest, σ, r, τ => (r = r' ∧ τ = σ) ∨
      ∃ σ', σ.exec (sch.exec r'.timestamp) r' = .ok σ' ∧ CalledInSet sch rest σ' r τ

/-- The walk over the keys of the blocked queue executes `r` in `τ`. -/
def CalledInWalk (sch : Schedule) : List TranId → State → Request → State → Prop
  | [], _, _, _ => False
  | T :: rest, σ, r, τ =>
      match σ.blockedTransactionsQueue.lookup T with
      | none => CalledInWalk sch rest σ r τ
      | some requestSet =>
          if !σ.isWaitingForLock T && !σ.isTransactionWaitingForSite T then
            CalledInSet sch requestSet σ r τ ∨
              ∃ σ', execBlocked sch T requestSet true σ = .ok (true, σ') ∧
                CalledInWalk sch rest σ' r τ
          else CalledInWalk sch rest σ r τ

/-- The state when the deadlocks are resolved. -/
def resolved (sch : Schedule) (σ : State) : Except Fault State :=
  resolveDeadlocks sch.detect (σ.transactions.keys.length + 1) σ

/-- The pending request `r` is executed in `τ`. -/
def CalledDirectly (sch : Schedule) (σ : State) (r : Request) (τ : State) : Prop :=
  σ.resolved sch = .ok τ ∧ τ.request = some r ∧ τ.isStale r = false ∧
    (τ.isBlocked r.transactionId = true → r.isReadWrite = true)

/-- The walk over the blocked queue starts in `σ₁`: there is no pending request, or it has been
executed and its transaction was not blocked. -/
def WalkStarts (sch : Schedule) (σ σ₁ : State) : Prop :=
  (σ.resolved sch = .ok σ₁ ∧ σ₁.request = none) ∨
    ∃ r τ, CalledDirectly sch σ r τ ∧ τ.isBlocked r.transactionId = false ∧
      τ.exec (sch.exec r.timestamp) r = .ok σ₁

/-- The request `r` is taken from the blocked queue and executed in `τ`. -/
def CalledFromQueue (sch : Schedule) (σ : State) (r : Request) (τ : State) : Prop :=
  ∃ σ₁, WalkStarts sch σ σ₁ ∧
    CalledInWalk sch (sch.walk.visit σ₁.blockedTransactionsQueue.keys) σ₁ r τ

/-- The request `r` is executed in `τ`. -/
def Called (sch : Schedule) (σ : State) (r : Request) (τ : State) : Prop :=
  CalledDirectly sch σ r τ ∨ CalledFromQueue sch σ r τ

/-- The requests that are executed from a set of blocked requests, each with its state. -/
def callsInSet (sch : Schedule) : List Request → State → List (Request × State)
  | [], _ => []
  | r :: rest, σ => (r, σ) ::
      match σ.exec (sch.exec r.timestamp) r with
      | .ok σ' => callsInSet sch rest σ'
      | .error _ => []

/-- The requests that the walk over the keys of the blocked queue executes. -/
def callsInWalk (sch : Schedule) : List TranId → State → List (Request × State)
  | [], _ => []
  | T :: rest, σ =>
      match σ.blockedTransactionsQueue.lookup T with
      | none => callsInWalk sch rest σ
      | some requestSet =>
          if !σ.isWaitingForLock T && !σ.isTransactionWaitingForSite T then
            callsInSet sch requestSet σ ++
              match execBlocked sch T requestSet true σ with
              | .ok (true, σ') => callsInWalk sch rest σ'
              | _ => []
          else callsInWalk sch rest σ

/-- The state in which the walk over the blocked queue starts. -/
def walkStart (sch : Schedule) (σ : State) : Option State :=
  match σ.resolved sch with
  | .error _ => none
  | .ok τ =>
      match τ.request with
      | none => some τ
      | some r =>
          if τ.isStale r || τ.isBlocked r.transactionId then none
          else (τ.exec (sch.exec r.timestamp) r).toOption

/-- The pending request, if the call executes it. -/
def callsDirectly (sch : Schedule) (σ : State) : List (Request × State) :=
  match σ.resolved sch with
  | .error _ => []
  | .ok τ =>
      match τ.request with
      | none => []
      | some r =>
          if τ.isStale r || (τ.isBlocked r.transactionId && !r.isReadWrite) then [] else [(r, τ)]

/-- The requests that the call takes from the queue. -/
def callsFromQueue (sch : Schedule) (σ : State) : List (Request × State) :=
  match walkStart sch σ with
  | none => []
  | some σ₁ => callsInWalk sch (sch.walk.visit σ₁.blockedTransactionsQueue.keys) σ₁

section Lists

variable {r : Request}

lemma calledInSet_of_mem {rs : List Request} (h : (r, τ) ∈ callsInSet sch rs σ) :
    CalledInSet sch rs σ r τ := by
  induction rs generalizing σ with
  | nil => cases h
  | cons r' rs ih =>
      rw [callsInSet] at h
      rcases List.mem_cons.mp h with heq | h
      · cases heq
        exact Or.inl ⟨rfl, rfl⟩
      · split at h
        · next σ' hx => exact Or.inr ⟨σ', hx, ih h⟩
        · cases h

lemma calledInWalk_of_mem {ks : List TranId} (h : (r, τ) ∈ callsInWalk sch ks σ) :
    CalledInWalk sch ks σ r τ := by
  induction ks generalizing σ with
  | nil => cases h
  | cons T ks ih =>
      rw [callsInWalk] at h
      simp only [CalledInWalk]
      cases hq : σ.blockedTransactionsQueue.lookup T with
      | none =>
          simp only [hq] at h
          exact ih h
      | some rs =>
          simp only [hq] at h
          split_ifs at h ⊢ with hw
          · rcases List.mem_append.mp h with h | h
            · exact Or.inl (calledInSet_of_mem h)
            · split at h
              · next σ' hx => exact Or.inr ⟨σ', hx, ih h⟩
              · cases h
          · exact ih h

lemma walkStarts_of_walkStart (h : walkStart sch σ = some τ) : WalkStarts sch σ τ := by
  rw [walkStart] at h
  split at h
  · cases h
  · next τ₀ hτ =>
      split at h
      · next hr =>
          cases h
          exact Or.inl ⟨hτ, hr⟩
      · next r hr =>
          split_ifs at h with hb
          simp only [Bool.or_eq_true, not_or, Bool.not_eq_true] at hb
          cases hx : τ₀.exec (sch.exec r.timestamp) r with
          | error e => simp [hx, Except.toOption] at h
          | ok σ₁ =>
              have heq : σ₁ = τ := by simpa [hx, Except.toOption] using h
              exact Or.inr ⟨r, τ₀, ⟨hτ, hr, hb.1, by simp [hb.2]⟩, hb.2, heq ▸ hx⟩

lemma calledFromQueue_of_mem (h : (r, τ) ∈ callsFromQueue sch σ) :
    CalledFromQueue sch σ r τ := by
  rw [callsFromQueue] at h
  split at h
  · cases h
  · next σ₁ hw => exact ⟨σ₁, walkStarts_of_walkStart hw, calledInWalk_of_mem h⟩

lemma mem_callsInSet {rs : List Request} (h : CalledInSet sch rs σ r τ) :
    (r, τ) ∈ callsInSet sch rs σ := by
  induction rs generalizing σ with
  | nil => cases h
  | cons r' rs ih =>
      rw [callsInSet]
      rcases h with ⟨rfl, rfl⟩ | ⟨σ', hx, h⟩
      · exact List.mem_cons_self
      · rw [hx]
        exact List.mem_cons_of_mem _ (ih h)

lemma mem_callsInWalk {ks : List TranId} (h : CalledInWalk sch ks σ r τ) :
    (r, τ) ∈ callsInWalk sch ks σ := by
  induction ks generalizing σ with
  | nil => cases h
  | cons T ks ih =>
      rw [callsInWalk]
      simp only [CalledInWalk] at h
      cases hq : σ.blockedTransactionsQueue.lookup T with
      | none =>
          simp only [hq] at h
          exact ih h
      | some rs =>
          simp only [hq] at h
          dsimp only
          split_ifs at h ⊢ with hw
          · rcases h with h | ⟨σ', hx, h⟩
            · exact List.mem_append_left _ (mem_callsInSet h)
            · rw [hx]
              exact List.mem_append_right _ (ih h)
          · exact ih h

lemma walkStart_of_walkStarts (h : WalkStarts sch σ τ) : walkStart sch σ = some τ := by
  rcases h with ⟨hτ, hr⟩ | ⟨r, τ₀, hc, hb, hx⟩
  · simp only [walkStart, hτ, hr]
  · simp only [walkStart, hc.1, hc.2.1, hc.2.2.1, hb, hx, Bool.or_false, Bool.false_eq_true,
      if_false]
    rfl

lemma mem_callsFromQueue (h : CalledFromQueue sch σ r τ) : (r, τ) ∈ callsFromQueue sch σ := by
  obtain ⟨σ₁, hw, h⟩ := h
  rw [callsFromQueue, walkStart_of_walkStarts hw]
  exact mem_callsInWalk h

lemma callsDirectly_of_called (h : CalledDirectly sch σ r τ) : callsDirectly sch σ = [(r, τ)] := by
  rw [callsDirectly, h.1]
  dsimp only
  rw [h.2.1]
  dsimp only
  rw [if_neg]
  rw [h.2.2.1, Bool.false_or, Bool.and_eq_true, Bool.not_eq_true']
  rintro ⟨hb, hno⟩
  rw [h.2.2.2 hb] at hno
  cases hno

end Lists

/-- The ways in which a call of `executeInstructions` returns: the pending request is dropped,
executed alone, or queued, or the blocked queue is walked. -/
lemma executeInstructions_cases (h : executeInstructions sch σ = .ok σ') :
    (∃ r τ, σ.resolved sch = .ok τ ∧ τ.request = some r ∧ τ.isStale r = true ∧
      σ' = { τ with request := none }) ∨
    (∃ r τ σ₁, CalledDirectly sch σ r τ ∧ τ.isBlocked r.transactionId = true ∧
      τ.exec (sch.exec r.timestamp) r = .ok σ₁ ∧ σ' = { σ₁ with request := none }) ∨
    (∃ r τ, σ.resolved sch = .ok τ ∧ τ.request = some r ∧ τ.isStale r = false ∧
      τ.isBlocked r.transactionId = true ∧ r.isReadWrite = false ∧
      σ' = { τ.addRequestToBlockedQueue r with request := none }) ∨
    (∃ σ₁, WalkStarts sch σ σ₁ ∧ serveBlocked sch σ₁ = .ok σ') := by
  rw [executeInstructions, bind_eq_ok] at h
  obtain ⟨τ, hτ, h⟩ := h
  cases hr : τ.request with
  | none =>
      simp only [hr] at h
      exact Or.inr (Or.inr (Or.inr ⟨τ, Or.inl ⟨hτ, hr⟩, h⟩))
  | some r =>
      simp only [hr] at h
      split_ifs at h with hst hb hrw
      · cases h
        exact Or.inl ⟨r, τ, hτ, hr, hst, rfl⟩
      · rw [bind_eq_ok] at h
        obtain ⟨σ₁, h1, h⟩ := h
        cases h
        exact Or.inr (Or.inl ⟨r, τ, σ₁, ⟨hτ, hr, by simpa using hst, fun _ => hrw⟩, hb, h1, rfl⟩)
      · cases h
        exact Or.inr (Or.inr (Or.inl
          ⟨r, τ, hτ, hr, by simpa using hst, hb, by simpa using hrw, rfl⟩))
      · rw [bind_eq_ok] at h
        obtain ⟨σ₁, h1, h⟩ := h
        rw [Bool.not_eq_true] at hst hb
        exact Or.inr (Or.inr (Or.inr ⟨σ₁,
          Or.inr ⟨r, τ, ⟨hτ, hr, hst, by simp [hb]⟩, hb, h1⟩, h⟩))

lemma executeInstructions_of_walkStarts (h : WalkStarts sch σ τ) :
    executeInstructions sch σ = serveBlocked sch τ := by
  rcases h with ⟨hτ, hr⟩ | ⟨r, τ', ⟨hτ, hr, hst, -⟩, hb, hx⟩
  · rw [executeInstructions, show resolveDeadlocks _ _ σ = _ from hτ, ok_bind]
    simp only [hr]
  · rw [executeInstructions, show resolveDeadlocks _ _ σ = _ from hτ, ok_bind]
    simp only [hr, hst, hb, hx, ok_bind, Bool.false_eq_true, if_false]

/-- A call that executes the pending request. -/
lemma executeInstructions_of_called {r : Request} (h : CalledDirectly sch σ r τ) :
    executeInstructions sch σ = τ.exec (sch.exec r.timestamp) r >>= fun σ₁ =>
      if τ.isBlocked r.transactionId then .ok { σ₁ with request := none }
      else serveBlocked sch σ₁ := by
  obtain ⟨hτ, hr, hst, hb⟩ := h
  rw [executeInstructions, show resolveDeadlocks _ _ σ = _ from hτ, ok_bind]
  simp only [hr, hst, Bool.false_eq_true, if_false]
  split_ifs with hbl hrw
  · rfl
  · exact absurd (hb hbl) hrw
  · rfl

/-- A call takes the pending request away. -/
lemma request_executeInstructions (h : executeInstructions sch σ = .ok σ') : σ'.request = none := by
  rcases executeInstructions_cases h with ⟨_, _, _, _, _, rfl⟩ | ⟨_, _, _, _, _, _, rfl⟩ |
    ⟨_, _, _, _, _, _, _, rfl⟩ | ⟨σ₁, _, hs⟩
  · rfl
  · rfl
  · rfl
  · rw [serveBlocked, bind_eq_ok] at hs
    obtain ⟨⟨fin, σ₂⟩, _, h⟩ := hs
    cases h
    rfl

/-! ### The walk over the queue -/

/-- A loop invariant of the walk over the blocked queue. `I rest finished` holds before the keys
`rest`, and `J T rs rest finished` while the requests `rs` of `T` are still to be executed; `C`
is what is assumed of every request that is taken from the queue. -/
structure WalkRule (sch : Schedule) (C : Request → State → Prop)
    (I : List TranId → List TranId → State → Prop)
    (J : TranId → List Request → List TranId → List TranId → State → Prop) : Prop where
  skip : ∀ {T rest fin σ}, I (T :: rest) fin σ → (σ.blockedTransactionsQueue.lookup T = none ∨
    σ.isWaitingForLock T = true ∨ σ.isTransactionWaitingForSite T = true) → I rest fin σ
  enter : ∀ {T rs rest fin σ}, I (T :: rest) fin σ →
    σ.blockedTransactionsQueue.lookup T = some rs → σ.isWaitingForLock T = false →
    σ.isTransactionWaitingForSite T = false → J T rs rest fin σ
  exec : ∀ {T r rs rest fin σ σ'}, J T (r :: rs) rest fin σ → C r σ →
    σ.exec (sch.exec r.timestamp) r = .ok σ' → J T rs rest fin σ'
  leave : ∀ {T rest fin σ}, J T [] rest fin σ → T ∈ σ.blockedTransactionsQueue →
    I rest (fin.insert T) σ

namespace WalkRule

variable {C : Request → State → Prop} {I : List TranId → List TranId → State → Prop}
  {J : TranId → List Request → List TranId → List TranId → State → Prop} {T : TranId}
  {rest fin fin' : List TranId} {r : Request} {τ : State}

lemma set (h : WalkRule sch C I J) {rs : List Request} {b : Bool} (hJ : J T rs rest fin σ)
    (hC : ∀ r τ, CalledInSet sch rs σ r τ → C r τ) (hb : b = true → T ∈ σ.blockedTransactionsQueue)
    (hx : execBlocked sch T rs b σ = .ok (true, σ')) :
    J T [] rest fin σ' ∧ T ∈ σ'.blockedTransactionsQueue := by
  induction rs generalizing σ b with
  | nil =>
      cases hx
      exact ⟨hJ, hb rfl⟩
  | cons r rs ih =>
      rw [execBlocked, bind_eq_ok] at hx
      obtain ⟨σ₁, h1, hx⟩ := hx
      refine ih (h.exec hJ (hC r σ (Or.inl ⟨rfl, rfl⟩)) h1)
        (fun r' τ hc => hC r' τ (Or.inr ⟨σ₁, h1, hc⟩)) (fun hb => ?_) hx
      exact of_decide_eq_true (Bool.and_eq_true_iff.mp hb).2

lemma calledInSet (h : WalkRule sch C I J) {rs : List Request} (hJ : J T rs rest fin σ)
    (hC : ∀ r τ, CalledInSet sch rs σ r τ → C r τ) (hc : CalledInSet sch rs σ r τ) :
    ∃ rs', J T (r :: rs') rest fin τ := by
  induction rs generalizing σ with
  | nil => cases hc
  | cons r' rs ih =>
      rcases hc with ⟨rfl, rfl⟩ | ⟨σ₁, h1, hc⟩
      · exact ⟨rs, hJ⟩
      · exact ih (h.exec hJ (hC r' σ (Or.inl ⟨rfl, rfl⟩)) h1)
          (fun r'' τ' hc' => hC r'' τ' (Or.inr ⟨σ₁, h1, hc'⟩)) hc

/-- **The rule for the walk.** -/
theorem walk (h : WalkRule sch C I J) {ks : List TranId} (hI : I ks fin σ)
    (hC : ∀ r τ, CalledInWalk sch ks σ r τ → C r τ)
    (hx : walkBlocked sch ks fin σ = .ok (fin', σ')) : I [] fin' σ' := by
  induction ks generalizing σ fin with
  | nil =>
      cases hx
      exact hI
  | cons T ks ih =>
      rw [walkBlocked] at hx
      simp only [CalledInWalk] at hC
      cases hq : σ.blockedTransactionsQueue.lookup T with
      | none =>
          simp only [hq] at hx hC
          exact ih (h.skip hI (Or.inl hq)) hC hx
      | some rs =>
          simp only [hq] at hx hC
          split_ifs at hx hC with hw
          · simp only [Bool.and_eq_true, Bool.not_eq_true'] at hw
            rw [bind_eq_ok] at hx
            obtain ⟨⟨b, σ₁⟩, h1, hx⟩ := hx
            dsimp only at hx
            split_ifs at hx with hb
            subst hb
            obtain ⟨hJ, hT⟩ := h.set (h.enter hI hq hw.1 hw.2)
              (fun r τ hc => hC r τ (Or.inl hc))
              (fun _ => Dict.mem_of_lookup hq) h1
            exact ih (h.leave hJ hT) (fun r τ hc => hC r τ (Or.inr ⟨σ₁, h1, hc⟩)) hx
          · simp only [Bool.and_eq_true, Bool.not_eq_true', not_and_or, Bool.not_eq_false] at hw
            exact ih (h.skip hI (Or.inr hw)) hC hx

/-- **The rule for the requests taken from the queue.** -/
theorem called (h : WalkRule sch C I J) {ks : List TranId} (fin : List TranId) (hI : I ks fin σ)
    (hC : ∀ r τ, CalledInWalk sch ks σ r τ → C r τ) (hc : CalledInWalk sch ks σ r τ) :
    ∃ T rs rest fin', J T (r :: rs) rest fin' τ := by
  induction ks generalizing σ fin with
  | nil => cases hc
  | cons T ks ih =>
      simp only [CalledInWalk] at hC hc
      cases hq : σ.blockedTransactionsQueue.lookup T with
      | none =>
          simp only [hq] at hc hC
          exact ih fin (h.skip hI (Or.inl hq)) hC hc
      | some rs =>
          simp only [hq] at hc hC
          split_ifs at hc hC with hw
          · simp only [Bool.and_eq_true, Bool.not_eq_true'] at hw
            have hJ := h.enter hI hq hw.1 hw.2
            have hCs : ∀ r τ, CalledInSet sch rs σ r τ → C r τ :=
              fun r τ hc => hC r τ (Or.inl hc)
            rcases hc with hc | ⟨σ₁, h1, hc⟩
            · obtain ⟨rs', hJ'⟩ := h.calledInSet hJ hCs hc
              exact ⟨T, rs', ks, fin, hJ'⟩
            · obtain ⟨hJ', hT⟩ := h.set hJ hCs (fun _ => Dict.mem_of_lookup hq) h1
              exact ih _ (h.leave hJ' hT) (fun r τ hc => hC r τ (Or.inr ⟨σ₁, h1, hc⟩)) hc
          · simp only [Bool.and_eq_true, Bool.not_eq_true', not_and_or, Bool.not_eq_false] at hw
            exact ih fin (h.skip hI (Or.inr hw)) hC hc

lemma subset_finished {ks : List TranId} (hx : walkBlocked sch ks fin σ = .ok (fin', σ')) :
    fin ⊆ fin' := by
  induction ks generalizing σ fin with
  | nil =>
      cases hx
      exact fun _ h => h
  | cons T ks ih =>
      rw [walkBlocked] at hx
      split at hx
      · exact ih hx
      · split_ifs at hx
        · rw [bind_eq_ok] at hx
          obtain ⟨⟨b, σ₁⟩, -, hx⟩ := hx
          dsimp only at hx
          split_ifs at hx
          exact fun T' hT => ih hx (List.mem_insert_of_mem hT)
        · exact ih hx

/-- A property that every execution keeps may be added to a rule. -/
lemma and (h : WalkRule sch C I J) {P : State → Prop}
    (hP : ∀ {T r rs rest fin σ σ'}, J T (r :: rs) rest fin σ → P σ → C r σ →
      σ.exec (sch.exec r.timestamp) r = .ok σ' → P σ') :
    WalkRule sch C (fun ks fin σ => I ks fin σ ∧ P σ) fun T rs rest fin σ =>
      J T rs rest fin σ ∧ P σ where
  skip hI hs := ⟨h.skip hI.1 hs, hI.2⟩
  enter hI hq hw hs := ⟨h.enter hI.1 hq hw hs, hI.2⟩
  exec hJ hC hx := ⟨h.exec hJ.1 hC hx, hP hJ.1 hJ.2 hC hx⟩
  leave hJ hT := ⟨h.leave hJ.1 hT, hJ.2⟩

/-- A request that a walk executes is in the set of a transaction that the walk finishes. -/
lemma set_of_called (h : WalkRule sch C I J) {ks : List TranId} (hI : I ks fin σ)
    (hC : ∀ r τ, CalledInWalk sch ks σ r τ → C r τ)
    (hx : walkBlocked sch ks fin σ = .ok (fin', σ')) (hc : CalledInWalk sch ks σ r τ) :
    ∃ T rs rest fin₁ σ₀ σ₁, J T rs rest fin₁ σ₀ ∧ (∀ r τ, CalledInSet sch rs σ₀ r τ → C r τ) ∧
      execBlocked sch T rs true σ₀ = .ok (true, σ₁) ∧ CalledInSet sch rs σ₀ r τ ∧ T ∈ fin' := by
  induction ks generalizing σ fin with
  | nil => cases hc
  | cons T ks ih =>
      rw [walkBlocked] at hx
      simp only [CalledInWalk] at hC hc
      cases hq : σ.blockedTransactionsQueue.lookup T with
      | none =>
          simp only [hq] at hx hC hc
          exact ih (h.skip hI (Or.inl hq)) hC hx hc
      | some rs =>
          simp only [hq] at hx hC hc
          split_ifs at hx hC hc with hw
          · simp only [Bool.and_eq_true, Bool.not_eq_true'] at hw
            rw [bind_eq_ok] at hx
            obtain ⟨⟨b, σ₁⟩, h1, hx⟩ := hx
            dsimp only at hx
            split_ifs at hx with hb
            subst hb
            have hJ := h.enter hI hq hw.1 hw.2
            have hCs : ∀ r τ, CalledInSet sch rs σ r τ → C r τ :=
              fun r τ hc => hC r τ (Or.inl hc)
            rcases hc with hc | ⟨σ₂, h2, hc⟩
            · exact ⟨T, rs, ks, fin, σ, σ₁, hJ, hCs, h1, hc,
                subset_finished hx List.mem_insert_self⟩
            · rw [h1] at h2
              cases h2
              obtain ⟨hJ', hmem⟩ := h.set hJ hCs (fun _ => Dict.mem_of_lookup hq) h1
              exact ih (h.leave hJ' hmem) (fun r τ hc => hC r τ (Or.inr ⟨σ₁, h1, hc⟩)) hx hc
          · simp only [Bool.and_eq_true, Bool.not_eq_true', not_and_or, Bool.not_eq_false] at hw
            exact ih (h.skip hI (Or.inr hw)) hC hx hc

/-- The transaction of a request that is taken from the queue is finished after the walk. -/
lemma mem_finished (h : WalkRule sch C I J)
    (hT : ∀ {T r rs rest fin σ}, J T (r :: rs) rest fin σ → r.transactionId = T)
    {ks : List TranId} (hI : I ks fin σ) (hC : ∀ r τ, CalledInWalk sch ks σ r τ → C r τ)
    (hx : walkBlocked sch ks fin σ = .ok (fin', σ')) (hc : CalledInWalk sch ks σ r τ) :
    r.transactionId ∈ fin' := by
  obtain ⟨T, rs, rest, fin₁, σ₀, σ₁, hJ, hCs, -, hc, hfin⟩ := h.set_of_called hI hC hx hc
  obtain ⟨rs', hJ'⟩ := h.calledInSet hJ hCs hc
  rw [hT hJ']
  exact hfin

end WalkRule

/-! ### What every execution keeps -/

/-- Resolving deadlocks keeps `P`. -/
structure Settled (P : State → Prop) : Prop where
  graph : ∀ {σ g}, P σ → (∀ T, ({ σ with waitForGraph := g } : State).waitsFor T = σ.waitsFor T) →
    P { σ with waitForGraph := g }
  abort : ∀ {o T σ σ'}, P σ → σ.abortTransaction o T = .ok σ' → P σ'
  request : ∀ {σ q}, P σ → P { σ with request := q }

/-- What a call of `executeInstructions` does beside executing the pending request keeps `P`,
where `A` holds of all requests in the queue, and `C` is assumed when they are executed. -/
structure Kept (C : Request → State → Prop) (P : State → Prop) (A : Request → Prop) : Prop
    extends Settled P where
  queued : ∀ {σ T rs r}, P σ → σ.blockedTransactionsQueue.lookup T = some rs → r ∈ rs → A r
  exec : ∀ {o r σ σ'}, P σ → A r → C r σ → σ.exec o r = .ok σ' → P σ'
  dequeue : ∀ {σ T}, P σ →
    P { σ with blockedTransactionsQueue := σ.blockedTransactionsQueue.erase T }

/-- The execution of the pending request `r`, for which `C` is assumed, and its entry in the queue
lead from `P` to `Q`. -/
structure Leads (C : Request → State → Prop) (P Q : State → Prop) (r : Request) : Prop where
  exec : ∀ {o σ σ'}, P σ → C r σ → σ.isStale r = false →
    (σ.isBlocked r.transactionId = true → r.isReadWrite = true) → σ.exec o r = .ok σ' → Q σ'
  enqueue : ∀ {σ}, P σ → σ.isStale r = false → σ.isBlocked r.transactionId = true →
    r.isReadWrite = false → Q (σ.addRequestToBlockedQueue r)

section Rules

variable {C : Request → State → Prop} {P Q : State → Prop} {A A' : Request → Prop} {r : Request}
  {τ : State}

lemma Settled.resolveDeadlocks (hk : Settled P) {o : IterOrder} {fuel : ℕ} (hσ : P σ)
    (h : σ.resolveDeadlocks o fuel = .ok σ') : P σ' ∧ σ'.request = σ.request := by
  induction fuel generalizing σ with
  | zero => cases h
  | succ fuel ih =>
      rw [State.resolveDeadlocks] at h
      cases hd : σ.detectDeadlock o with
      | none => simp [hd] at h
      | some p =>
          obtain ⟨b, σ₁⟩ := p
          obtain ⟨⟨g, hg⟩, hw⟩ := detectDeadlock_spec hd
          have h₁ : P σ₁ := hg ▸ hk.graph hσ (hg ▸ hw)
          have hreq : σ₁.request = σ.request := by rw [hg]
          cases b with
          | false =>
              simp only [hd] at h
              cases h
              exact ⟨h₁, hreq⟩
          | true =>
              simp only [hd] at h
              cases ht : σ₁.transactionsSet with
              | nil => simp [ht] at h
              | cons t l =>
                  simp only [ht] at h
                  rw [bind_eq_ok] at h
                  obtain ⟨σ₂, h2, h⟩ := h
                  obtain ⟨h3, h4⟩ := ih (hk.abort h₁ h2) h
                  exact ⟨h3, (h4.trans (gone_abortTransaction h2).1.request).trans hreq⟩

lemma Settled.calledDirectly (hk : Settled P) (hσ : P σ) (h : CalledDirectly sch σ r τ) :
    P τ ∧ σ.request = some r := by
  obtain ⟨h1, h2⟩ := hk.resolveDeadlocks hσ h.1
  exact ⟨h1, h2 ▸ h.2.1⟩

/-- Resolving deadlocks leaves the pending request. -/
lemma request_resolved (h : σ.resolved sch = .ok τ) : τ.request = σ.request := by
  have hk : Settled fun _ => True := ⟨fun _ _ => trivial, fun _ _ => trivial, fun _ => trivial⟩
  exact (hk.resolveDeadlocks trivial h).2

/-- The rule for the start of the walk, when `P` holds once the deadlocks are resolved. -/
lemma walkStarts_induction (hP : ∀ τ, σ.resolved sch = .ok τ → P τ) (hPQ : ∀ {σ}, P σ → Q σ)
    (hr : ∀ r, σ.request = some r → Leads C P Q r) (hC : ∀ r τ, CalledDirectly sch σ r τ → C r τ)
    (h : WalkStarts sch σ τ) : Q τ := by
  rcases h with ⟨h, -⟩ | ⟨r, τ₁, hc, -, hx⟩
  · exact hPQ (hP τ h)
  · have hreq : σ.request = some r := (request_resolved hc.1).symm.trans hc.2.1
    exact (hr r hreq).exec (hP τ₁ hc.1) (hC r τ₁ hc) hc.2.2.1 hc.2.2.2 hx

/-- The rule for a call, without the walk, when `P` holds once the deadlocks are resolved. -/
lemma executeInstructions_induction (hP : ∀ τ, σ.resolved sch = .ok τ → P τ)
    (hQ : ∀ {σ q}, Q σ → Q { σ with request := q }) (hPQ : ∀ {σ}, P σ → Q σ)
    (hr : ∀ r, σ.request = some r → Leads C P Q r) (hC : ∀ r τ, CalledDirectly sch σ r τ → C r τ)
    (hs : ∀ {σ₁ σ'}, WalkStarts sch σ σ₁ → Q σ₁ → State.serveBlocked sch σ₁ = .ok σ' → Q σ')
    (h : executeInstructions sch σ = .ok σ') : Q σ' := by
  have hreq : ∀ {τ r}, σ.resolved sch = .ok τ → τ.request = some r → σ.request = some r :=
    fun hτ hr => (request_resolved hτ).symm.trans hr
  rcases executeInstructions_cases h with ⟨r, τ, hτ, -, -, rfl⟩ | ⟨r, τ, σ₁, hc, -, hx, rfl⟩ |
    ⟨r, τ, hτ, hτr, hst, hb, hrw, rfl⟩ | ⟨σ₁, hw, h⟩
  · exact hQ (hPQ (hP τ hτ))
  · exact hQ ((hr r (hreq hc.1 hc.2.1)).exec (hP τ hc.1) (hC r τ hc) hc.2.2.1 hc.2.2.2 hx)
  · exact hQ ((hr r (hreq hτ hτr)).enqueue (hP τ hτ) hst hb hrw)
  · exact hs hw (walkStarts_induction hP hPQ hr hC hw) h

lemma Settled.walkStarts (hP : Settled P) (hPQ : ∀ {σ}, P σ → Q σ)
    (hr : ∀ r, σ.request = some r → Leads C P Q r) (hC : ∀ r τ, CalledDirectly sch σ r τ → C r τ)
    (hσ : P σ) (h : WalkStarts sch σ τ) : Q τ :=
  walkStarts_induction (fun _ hτ => (hP.resolveDeadlocks hσ hτ).1) hPQ hr hC h

/-- The rule for a call, without the walk. -/
lemma Settled.executeInstructions (hP : Settled P) (hQ : Settled Q) (hPQ : ∀ {σ}, P σ → Q σ)
    (hr : ∀ r, σ.request = some r → Leads C P Q r) (hC : ∀ r τ, CalledDirectly sch σ r τ → C r τ)
    (hs : ∀ {σ₁ σ'}, WalkStarts sch σ σ₁ → Q σ₁ → State.serveBlocked sch σ₁ = .ok σ' → Q σ')
    (hσ : P σ) (h : executeInstructions sch σ = .ok σ') : Q σ' :=
  executeInstructions_induction (fun _ hτ => (hP.resolveDeadlocks hσ hτ).1) hQ.request hPQ hr hC hs
    h

/-- The walk over the queue keeps `P`, and `W` holds where it executes a request, when `C` is
assumed of these requests. -/
structure Walks (C : Request → State → Prop) (P : State → Prop) (W : Request → State → Prop) :
    Prop where
  serve : ∀ {sch σ σ'}, P σ → (∀ r τ, CalledInWalk sch (sch.walk.visit
    σ.blockedTransactionsQueue.keys) σ r τ → C r τ) → State.serveBlocked sch σ = .ok σ' → P σ'
  called : ∀ {sch σ r τ}, P σ → (∀ r τ, CalledInWalk sch (sch.walk.visit
    σ.blockedTransactionsQueue.keys) σ r τ → C r τ) → CalledInWalk sch (sch.walk.visit
    σ.blockedTransactionsQueue.keys) σ r τ → W r τ

/-- The queue without the entries in `l`. -/
def dequeueAll (σ : State) (l : List TranId) : State :=
  { σ with blockedTransactionsQueue := l.foldl (fun q T => q.erase T) σ.blockedTransactionsQueue }

/-- A loop invariant that holds before the walk, and gives `P` after it. -/
lemma WalkRule.walks {W : Request → State → Prop} {I : List TranId → List TranId → State → Prop}
    {J : TranId → List Request → List TranId → List TranId → State → Prop}
    (h : ∀ sch, WalkRule sch C I J)
    (hstart : ∀ {o : IterOrder} {σ}, P σ → I (o.visit σ.blockedTransactionsQueue.keys) [] σ)
    (hend : ∀ {o : IterOrder} {fin σ}, I [] fin σ →
      P { σ.dequeueAll (o.visit fin) with request := none })
    (hW : ∀ {T r rs rest fin τ}, J T (r :: rs) rest fin τ → W r τ) : Walks C P W where
  serve := by
    intro sch σ σ' hσ hC hs
    rw [State.serveBlocked, bind_eq_ok] at hs
    obtain ⟨⟨fin, σ₁⟩, h1, hs⟩ := hs
    cases hs
    exact hend ((h sch).walk (hstart hσ) hC h1)
  called := by
    intro sch σ r τ hσ hC hc
    obtain ⟨T, rs, rest, fin, hJ⟩ := (h sch).called [] (hstart hσ) hC hc
    exact hW hJ

lemma Kept.dequeueAll (hk : Kept C P A) (l : List TranId) (hσ : P σ) : P (σ.dequeueAll l) := by
  induction l generalizing σ with
  | nil => exact hσ
  | cons T l ih => exact ih (hk.dequeue (T := T) hσ)

/-- What every execution keeps is kept by the walk. -/
lemma Kept.walks (hk : Kept C P A) : Walks C P fun r τ => P τ ∧ A r := by
  refine WalkRule.walks (I := fun _ _ => P) (J := fun _ rs _ _ σ => P σ ∧ ∀ r ∈ rs, A r)
    (fun sch => ⟨fun h _ => h, fun h hq _ _ => ⟨h, fun _ hr => hk.queued h hq hr⟩,
      fun h hC hx => ⟨hk.exec h.1 (h.2 _ List.mem_cons_self) hC hx,
        fun r' hr' => h.2 r' (List.mem_cons_of_mem _ hr')⟩, fun h _ => h.1⟩)
    id (fun h => hk.request (hk.dequeueAll _ h)) fun h => ⟨h.1, h.2 _ List.mem_cons_self⟩

namespace Walks

variable {W : Request → State → Prop}

lemma calledFromQueue (hw : Walks C Q W) (hP : Settled P) (hPQ : ∀ {σ}, P σ → Q σ)
    (hr : ∀ r, σ.request = some r → Leads C P Q r) (hσ : P σ)
    (hC : ∀ r τ, Called sch σ r τ → C r τ) (h : CalledFromQueue sch σ r τ) : W r τ := by
  obtain ⟨σ₁, h1, h2⟩ := h
  exact hw.called (hP.walkStarts hPQ hr (fun r τ hc => hC r τ (Or.inl hc)) hσ h1)
    (fun r τ hc => hC r τ (Or.inr ⟨σ₁, h1, hc⟩)) h2

/-- **The rule for a call**: what the walk keeps is kept by the whole call; the pending request
may lead from one invariant to another. -/
theorem executeInstructions (hw : Walks C Q W) (hP : Settled P) (hQ : Settled Q)
    (hPQ : ∀ {σ}, P σ → Q σ) (hr : ∀ r, σ.request = some r → Leads C P Q r)
    (hC : ∀ r τ, Called sch σ r τ → C r τ) (hσ : P σ)
    (h : executeInstructions sch σ = .ok σ') : Q σ' :=
  hP.executeInstructions hQ hPQ hr (fun r τ hc => hC r τ (Or.inl hc))
    (fun {σ₁ _} hst hq h => hw.serve hq (fun r τ hc => hC r τ (Or.inr ⟨σ₁, hst, hc⟩)) h) hσ h

end Walks

end Rules

end State

end RepCRec
