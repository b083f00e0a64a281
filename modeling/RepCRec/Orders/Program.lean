import RepCRec.Guarantees.Program
import RepCRec.Orders.Run

/-!
The program in two orders of the loops over unordered containers. What it writes does not depend on
the orders in which the requests are executed (`program_orders`), and a run of the engine depends on
them only in the copies that are reported for the reads of even variables and in the order of the
trace (`run_orders`). There remains the order of the walks over the blocked queue.
-/

namespace RepCRec

open Container (IStream IterOrder Agree lines)
open Container.IStream (Reads)

/-! ### What does not depend on the orders -/

/-- The entry is no read of an even variable. -/
def Event.settled : Event → Bool
  | .reads _ _ v _ => v.isOdd
  | _ => true

/-- Sees the entries of the trace but for the reads of even variables, and not their order. -/
def Observer.unordered : Observer where
  Same es fs := (es.filter Event.settled).Perm (fs.filter Event.settled)
  refl _ := List.Perm.refl _
  trans := List.Perm.trans
  append h h' := by
    rw [List.filter_append, List.filter_append]
    exact h.append h'
  stores h := (h.map _).filter _

/-- This observer sees neither the order of the aborts nor the copies that are read. -/
lemma Observer.blind_unordered (σ : State) (r : Request) : unordered.Blind σ r := by
  cases r with
  | read ts T v =>
      intro hv s _ s' _
      simp [unordered, Event.settled, hv]
  | fail ts s => exact fun l l' h => (h.map _).filter _
  | _ => trivial

/-- **Runs and the orders in which requests are executed.** -/
theorem run_orders {l l' : List Feed} (hl : List.Forall₂ Feed.SameWalk l l')
    {sch sch' : ℕ → Schedule} (hw : ∀ i, (sch i).SameWalk (sch' i)) (n : ℕ) :
    Agree (State.PairAlike .unordered) (run l >>= State.drain sch n)
      (run l' >>= State.drain sch' n) :=
  alike_run hl hw (fun r τ _ => Observer.blind_unordered τ r) n

/-- The same instructions at the same times. -/
lemma sameWalk_inOrder {sch sch' : Schedule} (hw : sch.SameWalk sch') (insrs : List Instruction) :
    List.Forall₂ Feed.SameWalk (inOrder sch insrs) (inOrder sch' insrs) :=
  List.forall₂_map_left_iff.mpr (List.forall₂_map_right_iff.mpr
    (List.forall₂_same.mpr fun _ _ => ⟨rfl, rfl, hw⟩))

/-- All loops but the walk over the blocked queue visit the first element last. -/
def Schedule.rotated : Schedule where
  detect := ⟨fun l => l.rotate 1, fun l => l.rotate_perm 1⟩
  walk := IterOrder.stored
  finish := ⟨fun l => l.rotate 1, fun l => l.rotate_perm 1⟩
  exec _ := ⟨fun l => l.rotate 1, fun l => l.rotate_perm 1⟩

/-- The failure of a site aborts two transactions, and a third one commits. -/
def abortingInstructions : List Instruction :=
  [.begin 1, .begin 2, .write 1 2 7, .write 2 4 8, .begin 3, .write 3 3 5, .fail 9, .finish 3]

theorem run_orders_abortingInstructions : ∃ p p' : Bool × State,
    (run (inOrder Schedule.stored abortingInstructions) >>=
      State.drain (fun _ => Schedule.stored) 0) = .ok p ∧
    (run (inOrder Schedule.rotated abortingInstructions) >>=
      State.drain (fun _ => Schedule.rotated) 0) = .ok p' ∧
    [.aborted 2, .aborted 1] <:+: p.2.trace ∧ [.aborted 1, .aborted 2] <:+: p'.2.trace ∧
    p.2.Alike .unordered p'.2 := by
  obtain ⟨p, hp, hf⟩ := exists_ok_of_eval
    (x := run (inOrder Schedule.stored abortingInstructions) >>=
      State.drain (fun _ => Schedule.stored) 0)
    (f := fun p => decide ([.aborted 2, .aborted 1] <:+: p.2.trace)) (a := true) (by decide +kernel)
  obtain ⟨p', hp', hf'⟩ := exists_ok_of_eval
    (x := run (inOrder Schedule.rotated abortingInstructions) >>=
      State.drain (fun _ => Schedule.rotated) 0)
    (f := fun p => decide ([.aborted 1, .aborted 2] <:+: p.2.trace)) (a := true) (by decide +kernel)
  have hw : Schedule.stored.SameWalk Schedule.rotated := fun _ => rfl
  have h := run_orders (sameWalk_inOrder hw abortingInstructions) (fun _ : ℕ => hw) 0
  rw [hp, hp'] at h
  cases h with
  | ok h => exact ⟨p, p', hp, hp', of_decide_eq_true hf, of_decide_eq_true hf', h.2⟩

/-- Two transactions wait for the lock of a third one. -/
def contendingInstructions : List Instruction :=
  [.begin 1, .begin 2, .begin 3, .write 1 1 5, .write 2 1 6, .write 3 1 7, .finish 1, .finish 2,
    .finish 3]

/-- The value of `x1` after the contending instructions. -/
def contended (sch : Schedule) : Option Value :=
  (run (inOrder sch contendingInstructions) >>= State.drain (fun _ => sch) 1).toOption.map fun p =>
    (p.2.getVariable x1.home x1).value

-- the order of the walk is not free: it decides which of the two writes last
example : contended Schedule.stored = some 7 ∧
    contended { Schedule.stored with walk := IterOrder.reversed } = some 6 := by decide +kernel

/-! ### What is written -/

namespace State.Alike

variable {O : Observer} {sch sch' : Schedule} {σ σ' : State} {T : TranId}

/-- A dump writes the same from alike states. -/
lemma request_writes (h : σ.Alike O σ') (r : Request) : r.writes σ' = r.writes σ := by
  cases r with
  | dump ts => rw [Request.writes, Request.writes, h.sites]
  | _ => rfl

/-! A call executes the same requests, each in alike states. -/

lemma callsInSet (h : σ.Alike O σ') {rs : List Request}
    (hO : ∀ r τ, CalledInSet sch rs σ r τ → O.Blind τ r) :
    List.Forall₂ (PairAlike O) (State.callsInSet sch rs σ) (State.callsInSet sch' rs σ') := by
  induction rs generalizing σ σ' with
  | nil => exact .nil
  | cons r rs ih =>
      rw [State.callsInSet, State.callsInSet]
      refine .cons ⟨rfl, h⟩ ?_
      have hx := h.exec (sch.exec r.timestamp) (sch'.exec r.timestamp) (hO r σ (Or.inl ⟨rfl, rfl⟩))
      have hrest : ∀ σ₁, σ.exec (sch.exec r.timestamp) r = .ok σ₁ →
          ∀ r' τ, CalledInSet sch rs σ₁ r' τ → O.Blind τ r' := fun σ₁ h₁ r' τ hc =>
        hO r' τ (Or.inr ⟨σ₁, h₁, hc⟩)
      generalize σ.exec (sch.exec r.timestamp) r = x at hx hrest
      generalize σ'.exec (sch'.exec r.timestamp) r = y at hx
      cases hx with
      | ok h₁ => exact ih h₁ (hrest _ rfl)
      | error e => exact .nil

lemma callsInWalk (h : σ.Alike O σ') {ks : List TranId}
    (hO : ∀ r τ, CalledInWalk sch ks σ r τ → O.Blind τ r) :
    List.Forall₂ (PairAlike O) (State.callsInWalk sch ks σ) (State.callsInWalk sch' ks σ') := by
  induction ks generalizing σ σ' with
  | nil => exact .nil
  | cons T ks ih =>
      rw [State.callsInWalk, State.callsInWalk, h.queue]
      simp only [CalledInWalk] at hO
      cases hq : σ.blockedTransactionsQueue.lookup T with
      | none =>
          simp only [hq] at hO ⊢
          exact ih h hO
      | some rs =>
          simp only [hq, h.isWaitingForLock, h.isTransactionWaitingForSite] at hO ⊢
          split_ifs at hO ⊢ with hw
          · refine List.rel_append (h.callsInSet fun r τ hc => hO r τ (Or.inl hc)) ?_
            have hx := h.execBlocked T sch' (fun r τ hc => hO r τ (Or.inl hc)) true
            have hrest : ∀ σ₁, State.execBlocked sch T rs true σ = .ok (true, σ₁) →
                ∀ r' τ, CalledInWalk sch ks σ₁ r' τ → O.Blind τ r' := fun σ₁ h₁ r' τ hc =>
              hO r' τ (Or.inr ⟨σ₁, h₁, hc⟩)
            generalize State.execBlocked sch T rs true σ = x at hx hrest
            generalize State.execBlocked sch' T rs true σ' = y at hx
            cases hx with
            | error e => exact .nil
            | @ok p p' hp =>
                obtain ⟨kept, σ₁⟩ := p
                obtain ⟨kept', σ₁'⟩ := p'
                obtain ⟨rfl, h₁⟩ := hp
                cases kept' with
                | false => exact .nil
                | true => exact ih h₁ (hrest σ₁ rfl)
          · exact ih h hO

lemma callsDirectly (h : σ.Alike O σ') (sch sch' : Schedule) :
    List.Forall₂ (PairAlike O) (State.callsDirectly sch σ) (State.callsDirectly sch' σ') := by
  rw [State.callsDirectly, State.callsDirectly]
  have hx := h.resolved sch sch'
  generalize σ.resolved sch = x at hx
  generalize σ'.resolved sch' = y at hx
  cases hx with
  | error e => exact .nil
  | @ok τ τ' h₁ =>
      dsimp only
      rw [h₁.request]
      cases τ.request with
      | none => exact .nil
      | some r =>
          dsimp only
          rw [h₁.isStale, h₁.isBlocked]
          split_ifs
          · exact .nil
          · exact .cons ⟨rfl, h₁⟩ .nil

/-- The walks start in alike states, if they start. -/
lemma walkStart (h : σ.Alike O σ') (hO : ∀ σ r, O.Blind σ r) (sch sch' : Schedule) :
    (State.walkStart sch σ = none ∧ State.walkStart sch' σ' = none) ∨
      ∃ τ τ', State.walkStart sch σ = some τ ∧ State.walkStart sch' σ' = some τ' ∧
        τ.Alike O τ' := by
  rw [State.walkStart, State.walkStart]
  have hx := h.resolved sch sch'
  generalize σ.resolved sch = x at hx
  generalize σ'.resolved sch' = y at hx
  cases hx with
  | error e => exact Or.inl ⟨rfl, rfl⟩
  | @ok τ τ' h₁ =>
      dsimp only
      rw [h₁.request]
      cases τ.request with
      | none => exact Or.inr ⟨τ, τ', rfl, rfl, h₁⟩
      | some r =>
          dsimp only
          rw [h₁.isStale, h₁.isBlocked]
          split_ifs
          · exact Or.inl ⟨rfl, rfl⟩
          · have hx := h₁.exec (sch.exec r.timestamp) (sch'.exec r.timestamp) (hO τ r)
            generalize τ.exec (sch.exec r.timestamp) r = x at hx
            generalize τ'.exec (sch'.exec r.timestamp) r = y at hx
            cases hx with
            | error e => exact Or.inl ⟨rfl, rfl⟩
            | ok h₂ => exact Or.inr ⟨_, _, rfl, rfl, h₂⟩

lemma callsFromQueue (h : σ.Alike O σ') (hO : ∀ σ r, O.Blind σ r) (hw : sch.SameWalk sch') :
    List.Forall₂ (PairAlike O) (State.callsFromQueue sch σ) (State.callsFromQueue sch' σ') := by
  rw [State.callsFromQueue, State.callsFromQueue]
  rcases h.walkStart hO sch sch' with ⟨h1, h2⟩ | ⟨τ, τ', h1, h2, h₁⟩
  · rw [h1, h2]
    exact .nil
  · rw [h1, h2]
    dsimp only
    rw [h₁.queue, hw]
    exact h₁.callsInWalk fun r ρ _ => hO ρ r

lemma flatMap_writes {l l' : List (Request × State)}
    (hl : List.Forall₂ (PairAlike O) l l') :
    (l'.flatMap fun p => p.1.writes p.2) = l.flatMap fun p => p.1.writes p.2 := by
  induction hl with
  | nil => rfl
  | cons hp _ ih => rw [List.flatMap_cons, List.flatMap_cons, ih, hp.1, hp.2.request_writes]

/-- **What a call of the engine writes** from alike states. -/
theorem writes (h : σ.Alike O σ') (hO : ∀ σ r, O.Blind σ r) (hw : sch.SameWalk sch') :
    σ'.writes sch' = σ.writes sch := by
  rw [State.writes, State.writes]
  exact flatMap_writes (List.rel_append (h.callsDirectly sch sch') (h.callsFromQueue hO hw))

end State.Alike

/-! ### The program -/

section Program

variable {O : Observer} {σ σ' : State}

/-- The same instruction is added. -/
lemma alike_addInstruction (h : σ.Alike O σ') (insr : Instruction) (ts : Timestamp) :
    Agree (State.Alike O) (State.addInstruction insr ts σ) (State.addInstruction insr ts σ') := by
  rw [State.addInstruction, State.addInstruction]
  cases insr.request ts with
  | error e => exact .error e
  | ok r => exact .ok { h with request := rfl }

/-- The same instruction is added and executed. -/
lemma alike_feed (h : σ.Alike O σ') (hO : ∀ σ r, O.Blind σ r) {x x' : Feed}
    (hx : x.SameWalk x') : Agree (State.Alike O) (σ.feed x) (σ'.feed x') := by
  rw [State.feed, State.feed, hx.insr, hx.timestamp]
  exact (alike_addInstruction h x.insr x.timestamp).bind fun _ _ h₁ =>
    h₁.executeInstructions hx.schedule fun r τ _ => hO τ r

/-- The loop over the lines of the text, in two orders. -/
lemma alike_executeLines (hO : ∀ σ r, O.Blind σ r) {sch sch' : Timestamp → Schedule}
    (hw : ∀ ts, (sch ts).SameWalk (sch' ts)) {L : List (List Char)} {b b' : Bool}
    {insrFile insrFile' : IStream} {insr insr' : List Char} (hr : Reads insrFile L b)
    (hr' : Reads insrFile' L b') (ts : Timestamp) (h : σ.Alike O σ') :
    Agree (State.PairAlike O) (executeLines sch insrFile insr ts σ)
      (executeLines sch' insrFile' insr' ts σ') := by
  induction L generalizing insrFile insrFile' insr insr' ts σ σ' with
  | nil =>
      rw [executeLines_nil hr, executeLines_nil hr']
      exact .ok ⟨rfl, h⟩
  | cons l L ih =>
      obtain ⟨f, hf, heq⟩ := executeLines_cons sch insr ts σ hr
      obtain ⟨f', hf', heq'⟩ := executeLines_cons sch' insr' ts σ' hr'
      rw [heq, heq']
      split_ifs
      · exact ih hf hf' ts h
      · refine Agree.bind (R := Eq) (.refl (fun _ => rfl) _) fun i i' hi => ?_
        subst hi
        have hfeed : Agree (State.Alike O) (σ.feed ⟨i, ts + 1, sch (ts + 1)⟩)
            (σ'.feed ⟨i, ts + 1, sch' (ts + 1)⟩) := alike_feed h hO ⟨rfl, rfl, hw (ts + 1)⟩
        exact (hfeed.mapError .engine).bind fun _ _ h₁ => ih hf hf' (ts + 1) h₁

/-- The loop that drains the queue, in two orders. -/
lemma alike_drainRounds (hO : ∀ σ r, O.Blind σ r) {sch sch' : ℕ → Schedule}
    (hw : ∀ i, (sch i).SameWalk (sch' i)) (n : ℕ) (ts : Timestamp) (h : σ.Alike O σ') :
    Agree (Option.Rel (State.PairAlike O)) (drainRounds sch n ts σ) (drainRounds sch' n ts σ') := by
  induction n generalizing sch sch' ts σ σ' with
  | zero =>
      rw [drainRounds, drainRounds, h.isAllInstructionsFinished]
      split_ifs
      · exact .ok (.some ⟨rfl, h⟩)
      · exact .ok .none
  | succ n ih =>
      rw [drainRounds, drainRounds, h.isAllInstructionsFinished]
      split_ifs
      · exact .ok (.some ⟨rfl, h⟩)
      · exact (h.executeInstructions (hw 0) fun r τ _ => hO τ r).bind fun _ _ h₁ =>
          ih (fun i => hw (i + 1)) (ts + 1) h₁

end Program

/-- **The program does not depend on the orders in which requests are executed**: it writes the same
file, or stops with the same fault, or does not end within the same number of rounds. -/
theorem program_orders {sch sch' : Schedules} (hl : ∀ ts, (sch.line ts).SameWalk (sch'.line ts))
    (hr : ∀ i, (sch.round i).SameWalk (sch'.round i)) (hd : sch.last.SameWalk sch'.last) (n : ℕ)
    (text : List Char) :
    executeAdvancedDatabase sch n text = executeAdvancedDatabase sch' n text := by
  have hO := Observer.blind_unordered
  refine Agree.eq ((alike_executeLines hO hl (.start text) (.start text) startTimestamp
    (.refl _ State.initial)).bind ?_)
  rintro ⟨ts, σ⟩ ⟨ts', σ'⟩ ⟨rfl, h⟩
  refine ((alike_drainRounds hO hr n ts' h).mapError ProgramFault.engine).bind ?_
  rintro p p' hp
  cases hp with
  | none => exact .pure rfl
  | @some p p' hp =>
      obtain ⟨ts, τ⟩ := p
      obtain ⟨ts', τ'⟩ := p'
      obtain ⟨rfl, hτ⟩ := hp
      refine Agree.bind (R := Eq) (.refl (fun _ => rfl) _) fun i i' hi => ?_
      subst hi
      refine ((alike_addInstruction hτ i ts').mapError ProgramFault.engine).bind
        fun ρ ρ' hρ => ?_
      refine ((hρ.executeInstructions hd fun r τ _ => hO τ r).mapError ProgramFault.engine).bind
        fun _ _ _ => .pure ?_
      rw [hρ.writes hO hd]

def abortingText : List Char :=
  "begin(T1)\nbegin(T2)\nW(T1,x2,7)\nW(T2,x4,8)\nbegin(T3)\nW(T3,x3,5)\nfail(9)\nend(T3)\n".toList

/-- All loops of requests visit the first element last. -/
def Schedules.rotated : Schedules :=
  ⟨fun _ => Schedule.rotated, fun _ => Schedule.rotated, Schedule.rotated⟩

theorem program_orders_abortingText : ∃ σ : State, .aborted 1 ∈ σ.trace ∧
    executeAdvancedDatabase Schedules.rotated 0 abortingText =
      .ok (some (SiteManager.dump true σ.sites)) := by
  obtain ⟨σ, hr, hf⟩ := exists_ok_of_eval (x := run (Schedules.stored.feeds abortingInstructions))
    (f := fun σ => (σ.isAllInstructionsFinished, decide (.aborted 1 ∈ σ.trace))) (a := (true, true))
    (by decide +kernel)
  rw [Prod.mk.injEq, decide_eq_true_iff] at hf
  have hp : instructionsOf (lines abortingText) = .ok abortingInstructions := by decide +kernel
  have hno : ¬Begun (Schedules.stored.feeds abortingInstructions) (-1) := by
    simp [Begun, abortingInstructions, Schedules.feeds, feedsAfter, Instruction.begun?]
  have hout := (executeAdvancedDatabase_eq_ok (n := 0) hp (by decide +kernel) hno).mpr
    ⟨σ, σ, hr, by rw [State.drain, hf.1], rfl⟩
  have hw : Schedule.stored.SameWalk Schedule.rotated := fun _ => rfl
  refine ⟨σ, hf.2, ?_⟩
  have h : executeAdvancedDatabase Schedules.stored 0 abortingText =
      executeAdvancedDatabase Schedules.rotated 0 abortingText :=
    program_orders (fun _ => hw) (fun _ => hw) hw 0 abortingText
  rw [← h, hout]

end RepCRec
