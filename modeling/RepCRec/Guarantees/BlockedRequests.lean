import RepCRec.Guarantees.Replication
import RepCRec.Refinement.Blocking

/-!
Blocked requests. A read or write in the blocked queue stays there until it is granted or its
transaction is aborted, if it does not have to wait again when the walk over the queue takes it
(`blocked_requests_kept`). If it has to wait again it is lost: the walk erases the entry of its
transaction, with the request that has just been entered again (`blocked_request_lost`).
-/

namespace RepCRec

open Container (IterOrder)

namespace State

variable {sch : Schedule} {σ σ' τ : State} {r : Request}

/-- The transaction of the request was aborted since the trace was `tr`. -/
def AbortedSince (tr : List Event) (r : Request) (σ : State) : Prop :=
  ∃ es, σ.trace = tr ++ es ∧ .aborted r.transactionId ∈ es

/-- The call takes the request from the queue, and every execution of it grants it. -/
def GrantedFromQueue (sch : Schedule) (σ : State) (r : Request) : Prop :=
  ∃ τ, CalledFromQueue sch σ r τ ∧ ∀ o τ' es, τ.exec o r = .ok τ' → τ'.trace = τ.trace ++ es →
    r.GrantedBy es

end State

section Runs

variable {l : List Feed} {sch : Schedule} {σ σ' : State} {r : Request}

/-- **Blocked requests.** When a call takes a read or write from the queue and it has to wait again,
then it is not in the queue when the call returns, so it is kept or its transaction is aborted
exactly when it does not have to wait, or its transaction is aborted. A read or write that is
blocked, and does not have to wait when it is taken from the queue, is in the queue when the call
returns, or it has been granted, or its transaction was aborted. -/
theorem blocked_requests_kept (ha : Admissible l) (hc : CallOf l sch σ)
    (hx : State.executeInstructions sch σ = .ok σ') (hrw : r.isReadWrite = true) :
    (∀ τ, State.CalledFromQueue sch σ r τ → ((τ.HasToWait r → State.KeptSince σ.trace r σ') ↔
      ¬τ.HasToWait r ∨ State.AbortedSince σ.trace r σ')) ∧
    ((∀ τ, State.CalledFromQueue sch σ r τ → ¬τ.HasToWait r) → State.Blocked sch σ r →
      State.KeptSince σ.trace r σ' ∨ State.GrantedFromQueue sch σ r) := by
  refine ⟨fun τ ht => ?_, fun hno hb => ?_⟩
  · have hkept : State.KeptSince σ.trace r σ' ↔ State.AbortedSince σ.trace r σ' := by
      refine ⟨fun ⟨es, htr, h⟩ => ⟨es, htr, h.resolve_left ?_⟩,
        fun ⟨es, htr, h⟩ => ⟨es, htr, Or.inr h⟩⟩
      rintro ⟨rs, hrs, -⟩
      exact not_queued_of_taken ha hc ht hx (Dict.mem_of_lookup hrs)
    rw [hkept, imp_iff_not_or]
  · refine (hb.keptSince_or_taken (fun τ => orderly_of_callOf ha hc) hx).imp id ?_
    rintro ⟨τ, ht⟩
    refine ⟨τ, ht, fun o τ' es he htr => ?_⟩
    obtain ⟨es', hout⟩ := State.exec_outcome he
    obtain rfl : es = es' := List.append_cancel_left (htr.symm.trans hout.trace)
    obtain ⟨l', ha', hs⟩ := (waiting_invariant fun _ _ => True).taken ha (by simp) ⟨sch, σ, hc, ht⟩
    have hm := hs.queueable.fed.ne_missing ha'
    refine (hout.grantedBy hs.reached.good hrw hm (hno τ ht)).resolve_right ?_
    -- the reads of a read-only transaction in the queue are of odd variables
    rintro ⟨ts, T, v, t, rfl, hlt, hro, hv⟩
    have hodd := hs.odd rfl hlt hro
    rw [hv] at hodd
    cases hodd

/-- One writer waits for another one, which ends. -/
def handoverRun : List Feed :=
  inOrder Schedule.stored [.begin 1, .begin 2, .write 1 2 5, .write 2 2 6, .finish 1]

theorem blocked_requests_kept_handoverRun : ∃ σ σ' τ, CallOf handoverRun Schedule.stored σ ∧
    State.executeInstructions Schedule.stored σ = .ok σ' ∧
    State.CalledFromQueue Schedule.stored σ (.write 3 2 x2 6) τ ∧
    ((τ.HasToWait (.write 3 2 x2 6) → State.KeptSince σ.trace (.write 3 2 x2 6) σ') ↔
      ¬τ.HasToWait (.write 3 2 x2 6) ∨ State.AbortedSince σ.trace (.write 3 2 x2 6) σ') := by
  obtain ⟨σ, σ', τ, hc, hx, ht, -⟩ := exists_takenDuring (l := handoverRun.take 4)
    (x := ⟨.finish 1, 4, Schedule.stored⟩) (r := .write 3 2 x2 6) (f := fun _ _ _ => true)
    (a := true) [] (by decide +kernel)
  exact ⟨σ, σ', τ, hc, hx, ht, (blocked_requests_kept (by decide +kernel) hc hx rfl).1 τ ht⟩

/-- Two writers wait for the first one, which ends. -/
def lostRun : List Feed :=
  inOrder Schedule.stored
    [.begin 1, .begin 2, .begin 3, .write 1 2 5, .write 2 2 6, .write 3 2 7, .finish 1]

/-- **A lost write**: the write of the second transaction is taken from the queue, has to wait for
the third transaction, and is in the queue no more. -/
theorem blocked_request_lost : Admissible lostRun ∧ ∃ σ σ' τ,
    CallOf lostRun Schedule.stored σ ∧ State.executeInstructions Schedule.stored σ = .ok σ' ∧
    State.CalledFromQueue Schedule.stored σ (.write 4 2 x2 6) τ ∧
    τ.HasToWait (.write 4 2 x2 6) ∧ ¬σ'.Queued (.write 4 2 x2 6) ∧ .aborted 2 ∉ σ'.trace := by
  have ha : Admissible lostRun := by decide +kernel
  obtain ⟨σ, σ', τ, hc, hx, ht, hf⟩ := exists_takenDuring (l := lostRun.take 6)
    (x := ⟨.finish 1, 6, Schedule.stored⟩) (r := .write 4 2 x2 6)
    (f := fun _ σ' τ => (decide (.aborted 2 ∈ σ'.trace), (τ.tryAcquireWriteLock 2 x2).status))
    (a := (false, .needToWait)) [] (by decide +kernel)
  rw [Prod.mk.injEq] at hf
  have hg : τ.Good := good_called ha ⟨_, σ, hc, Or.inr ht⟩
  refine ⟨ha, σ, σ', τ, hc, hx, ht, Or.inl (hg.sentToWait_iff.mpr hf.2), ?_,
    of_decide_eq_false hf.1⟩
  rintro ⟨rs, hrs, -⟩
  exact not_queued_of_taken ha hc ht hx (Dict.mem_of_lookup hrs)

end Runs

end RepCRec
