import RepCRec.Orders.Requests

/-!
Runs in two orders of the loops over unordered containers. Where the walks over the blocked queue
visit the same transactions in the same order, the orders in which the requests are executed leave
alike states, or the same fault (`Alike.executeInstructions`, `alike_run`).
-/

namespace RepCRec

open Container (IterOrder Agree ok_bind)

/-- The schedules walk over the blocked queue in the same order. -/
def Schedule.SameWalk (sch sch' : Schedule) : Prop :=
  ∀ l : List TranId, sch'.walk.visit l = sch.walk.visit l

namespace State

variable {O : Observer} {sch sch' : Schedule} {σ σ' : State} {T : TranId} {r : Request}

namespace Alike

lemma isBlocked (h : σ.Alike O σ') (T : TranId) : σ'.isBlocked T = σ.isBlocked T := by
  rw [State.isBlocked, State.isBlocked, h.isWaitingForLock, h.queue, h.isTransactionWaitingForSite]

/-- The same requests are dropped. -/
lemma isStale (h : σ.Alike O σ') (r : Request) : σ'.isStale r = σ.isStale r := by
  rw [State.isStale, State.isStale]
  simp only [h.transactions.mem_iff]

/-! ### Resolving deadlocks -/

/-- `detect_deadlock` finds a cycle in both states or in neither, whatever the orders of the search.
-/
lemma detectDeadlock (h : σ.Alike O σ') (o o' : IterOrder) :
    ∃ b ρ ρ', σ.detectDeadlock o = some (b, ρ) ∧ σ'.detectDeadlock o' = some (b, ρ') ∧
      ρ.Alike O ρ' := by
  obtain ⟨b, ρ, hd, hb⟩ := detectDeadlock_iff σ o
  obtain ⟨b', ρ', hd', hb'⟩ := detectDeadlock_iff σ' o'
  have hw : σ'.WaitsFor = σ.WaitsFor := by
    funext T T'
    exact propext (h.waitsFor T).mem_iff.symm
  obtain rfl : b' = b := by rw [Bool.eq_iff_iff, hb, hb', hw]
  obtain ⟨⟨g, rfl⟩, hg⟩ := detectDeadlock_spec hd
  obtain ⟨⟨g', rfl⟩, hg'⟩ := detectDeadlock_spec hd'
  refine ⟨b', _, _, hd, hd', { h with waitsFor := fun T => ?_ }⟩
  rw [hg, hg']
  exact h.waitsFor T

/-- The same victims are aborted, one after the other. -/
lemma resolveDeadlocks (h : σ.Alike O σ') (o o' : IterOrder) (n : ℕ) :
    Agree (Alike O) (State.resolveDeadlocks o n σ) (State.resolveDeadlocks o' n σ') := by
  induction n generalizing σ σ' with
  | zero => exact .error _
  | succ n ih =>
      obtain ⟨b, ρ, ρ', hd, hd', hρ⟩ := h.detectDeadlock o o'
      rw [State.resolveDeadlocks, State.resolveDeadlocks, hd, hd']
      cases b with
      | false => exact .ok hρ
      | true =>
          dsimp only
          rw [hρ.transactionsSet]
          cases ρ.transactionsSet with
          | nil => exact .error _
          | cons t l =>
              exact (hρ.abortTransaction o o' t.transactionId).bind fun _ _ h₁ => ih h₁

/-- The deadlocks are resolved in both states, and the results are alike. -/
lemma resolved (h : σ.Alike O σ') (sch sch' : Schedule) :
    Agree (Alike O) (σ.resolved sch) (σ'.resolved sch') := by
  rw [State.resolved, State.resolved, h.transactions.keys]
  exact h.resolveDeadlocks _ _ _

/-! ### The walk over the blocked queue -/

/-- The queued requests of one transaction, in two orders. -/
lemma execBlocked (h : σ.Alike O σ') (T : TranId) (sch' : Schedule) {rs : List Request}
    (hO : ∀ r τ, CalledInSet sch rs σ r τ → O.Blind τ r) (b : Bool) :
    Agree (PairAlike O) (State.execBlocked sch T rs b σ) (State.execBlocked sch' T rs b σ') := by
  induction rs generalizing σ σ' b with
  | nil => exact .ok ⟨rfl, h⟩
  | cons r rs ih =>
      rw [State.execBlocked, State.execBlocked]
      refine (h.exec (sch.exec r.timestamp) (sch'.exec r.timestamp)
        (hO r σ (Or.inl ⟨rfl, rfl⟩))).bind_of_ok fun σ₁ σ₁' hx h₁ => ?_
      rw [h₁.queue]
      exact ih h₁ (fun r' τ hc => hO r' τ (Or.inr ⟨σ₁, hx, hc⟩)) _

/-- The walk over the same keys of the blocked queue. -/
lemma walkBlocked (h : σ.Alike O σ') {ks : List TranId}
    (hO : ∀ r τ, CalledInWalk sch ks σ r τ → O.Blind τ r) (fin : List TranId) :
    Agree (PairAlike O) (State.walkBlocked sch ks fin σ) (State.walkBlocked sch' ks fin σ') := by
  induction ks generalizing σ σ' fin with
  | nil => exact .ok ⟨rfl, h⟩
  | cons T ks ih =>
      rw [State.walkBlocked, State.walkBlocked, h.queue]
      simp only [CalledInWalk] at hO
      cases hq : σ.blockedTransactionsQueue.lookup T with
      | none =>
          simp only [hq] at hO ⊢
          exact ih h hO fin
      | some rs =>
          simp only [hq, h.isWaitingForLock, h.isTransactionWaitingForSite] at hO ⊢
          split_ifs at hO ⊢ with hw
          · refine (h.execBlocked T sch' (fun r τ hc => hO r τ (Or.inl hc)) true).bind_of_ok ?_
            rintro ⟨kept, σ₁⟩ ⟨kept', σ₁'⟩ hx ⟨rfl, h₁⟩
            dsimp only at hx h₁ ⊢
            split_ifs with hk
            · subst hk
              exact ih h₁ (fun r τ hc => hO r τ (Or.inr ⟨σ₁, hx, hc⟩)) _
            · exact .error _
          · exact ih h hO fin

lemma serveBlocked (h : σ.Alike O σ') (hw : sch.SameWalk sch')
    (hO : ∀ r τ, CalledInWalk sch (sch.walk.visit σ.blockedTransactionsQueue.keys) σ r τ →
      O.Blind τ r) :
    Agree (Alike O) (State.serveBlocked sch σ) (State.serveBlocked sch' σ') := by
  rw [State.serveBlocked, State.serveBlocked, h.queue, hw]
  refine (h.walkBlocked hO []).bind ?_
  rintro ⟨fin, σ₁⟩ ⟨fin', σ₁'⟩ ⟨rfl, h₁⟩
  dsimp only at h₁ ⊢
  refine .pure { h₁ with request := rfl, queue := ?_ }
  rw [h₁.queue]
  exact (perm_visit sch'.finish sch.finish (.refl fin')).foldl_eq'
    (fun T _ T' _ m => AList.erase_erase T T' m) σ₁.blockedTransactionsQueue

/-- **A call of the engine** from alike states. -/
theorem executeInstructions (h : σ.Alike O σ') (hw : sch.SameWalk sch')
    (hO : ∀ r τ, Called sch σ r τ → O.Blind τ r) :
    Agree (Alike O) (State.executeInstructions sch σ) (State.executeInstructions sch' σ') := by
  refine (h.resolved sch sch').bind_of_ok fun τ τ' hτ h₁ => ?_
  rw [h₁.request]
  cases hr : τ.request with
  | none =>
      refine h₁.serveBlocked hw fun r ρ hc => hO r ρ (Or.inr ⟨τ, Or.inl ⟨hτ, hr⟩, hc⟩)
  | some r =>
      dsimp only
      rw [h₁.isStale, h₁.isBlocked]
      split_ifs with hst hb hrw
      · exact .pure { h₁ with request := rfl }
      · refine (h₁.exec _ _ (hO r τ (Or.inl ?_))).bind fun _ _ h₂ =>
          .pure { h₂ with request := rfl }
        exact ⟨hτ, hr, by simpa using hst, fun _ => hrw⟩
      · exact .pure { h₁.addRequestToBlockedQueue r with request := rfl }
      · rw [Bool.not_eq_true] at hst hb
        have hd : CalledDirectly sch σ r τ := ⟨hτ, hr, hst, by simp [hb]⟩
        refine (h₁.exec _ _ (hO r τ (Or.inl hd))).bind_of_ok fun σ₁ σ₁' hx h₂ => ?_
        exact h₂.serveBlocked hw fun r' ρ hc =>
          hO r' ρ (Or.inr ⟨σ₁, Or.inr ⟨r, τ, hd, hb, hx⟩, hc⟩)

end Alike

end State

/-- The same instruction at the same time, with the same order of the walk over the queue. -/
structure Feed.SameWalk (x x' : Feed) : Prop where
  insr : x'.insr = x.insr
  timestamp : x'.timestamp = x.timestamp
  schedule : x.schedule.SameWalk x'.schedule

variable {O : Observer} {l l' : List Feed}

/-- The rest of a run, from alike states on. -/
lemma alike_foldlM (past : List Feed) {σ σ' : State} (hl : List.Forall₂ Feed.SameWalk l l')
    (hrun : run past = .ok σ) (h : σ.Alike O σ')
    (hO : ∀ r τ, CalledDuring (past ++ l) r τ → O.Blind τ r) :
    Agree (State.Alike O) (l.foldlM State.feed σ) (l'.foldlM State.feed σ') := by
  induction hl generalizing past σ σ' with
  | nil => exact .pure h
  | @cons x x' l l' hx _ ih =>
      rw [List.foldlM_cons, List.foldlM_cons]
      have hfeed : Agree (State.Alike O) (σ.feed x) (σ'.feed x') := by
        rw [State.feed, State.feed, State.addInstruction, State.addInstruction, hx.insr,
          hx.timestamp]
        cases hr : x.insr.request x.timestamp with
        | error e => exact .error e
        | ok r =>
            refine State.Alike.executeInstructions { h with request := rfl } hx.schedule ?_
            exact fun r' τ hc => hO r' τ
              ⟨x.schedule, _, Or.inl ⟨past, x, l, σ, r, rfl, hrun, hr, rfl, rfl⟩, hc⟩
      refine hfeed.bind_of_ok fun σ₁ σ₁' h₁ ha => ?_
      refine ih (past ++ [x]) (by rw [run_snoc, hrun, ok_bind, h₁]) ha ?_
      simpa using hO

lemma State.Alike.isAllInstructionsFinished {σ σ' : State} (h : σ.Alike O σ') :
    σ'.isAllInstructionsFinished = σ.isAllInstructionsFinished := by
  rw [State.isAllInstructionsFinished, State.isAllInstructionsFinished, h.request, h.queue]

/-- The rounds of the loop that drains the queue. -/
lemma alike_drain {sch sch' : ℕ → Schedule} {σ σ' : State} (h : σ.Alike O σ')
    (hw : ∀ i, (sch i).SameWalk (sch' i)) (hσ : Reaches l σ)
    (hO : ∀ r τ, CalledDuring l r τ → O.Blind τ r) (n : ℕ) :
    Agree (State.PairAlike O) (State.drain sch n σ) (State.drain sch' n σ') := by
  induction n generalizing sch sch' σ σ' with
  | zero => exact .ok ⟨h.isAllInstructionsFinished, h⟩
  | succ n ih =>
      rw [State.drain, State.drain, h.isAllInstructionsFinished]
      split_ifs with hf
      · exact .ok ⟨rfl, h⟩
      · rw [Bool.not_eq_true] at hf
        refine (h.executeInstructions (hw 0) fun r τ hc => hO r τ ?_).bind_of_ok
          fun σ₁ σ₁' hx h₁ => ih h₁ (fun i => hw (i + 1)) (.round hσ hf hx)
        exact ⟨sch 0, σ, Or.inr ⟨hσ, hf⟩, hc⟩

/-- **Runs that differ in the orders in which requests are executed**, and the rounds that drain
the queue after them, lead to alike states, or to the same fault, as far as the observer is blind
for these orders. -/
theorem alike_run (hl : List.Forall₂ Feed.SameWalk l l') {sch sch' : ℕ → Schedule}
    (hw : ∀ i, (sch i).SameWalk (sch' i)) (hO : ∀ r τ, CalledDuring l r τ → O.Blind τ r) (n : ℕ) :
    Agree (State.PairAlike O) (run l >>= State.drain sch n) (run l' >>= State.drain sch' n) :=
  (alike_foldlM [] hl rfl (.refl O _) hO).bind_of_ok fun _ _ hrun h =>
    alike_drain h hw (.run hrun) hO n

end RepCRec
