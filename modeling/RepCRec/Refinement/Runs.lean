import RepCRec.Refinement.Simulation

/-!
Runs of the engine are runs of available copies: the actions in the trace of every admissible
run lead from the initial view to the view that is reached (`reached_invariant`). So the states
of the engine, also those at which a request is executed in the middle of a call, satisfy the
invariant of the protocol (`good_reaches`, `good_called`).
-/

namespace RepCRec

open AvailableCopies (Steps)
open Container (IterOrder)

namespace State

variable {l l' : List Feed} {σ σ' : State} {r : Request} {o : IterOrder}

/-- What is known of a state in a run: its indexes, and that its trace is a run of the protocol
to its view. -/
structure Reached (l : List Feed) (σ : State) : Prop where
  known : Known (Begun l) (Queueable l) σ
  simulation : Simulates initial σ.trace σ

namespace Reached

lemma good (h : Reached l σ) : σ.Good := h.simulation.good good_initial

lemma extend (h : Reached l σ) (hk : Known (Begun l') (Queueable l') σ') {es : List Event}
    (hs : Simulates σ es σ') : Reached l' σ' :=
  ⟨hk, hs.trace ▸ h.simulation.trans hs⟩

lemma exec (h : Reached l σ) (hk : Known (Begun l') (Queueable l') σ') (hx : σ.exec o r = .ok σ')
    (hfresh : r.isBegin = true → r.transactionId ∉ σ.transactions) : Reached l' σ' := by
  obtain ⟨es, hout⟩ := exec_outcome hx
  exact h.extend hk (hout.simulates_of_fresh h.good hfresh)

/-- A change of the indexes that the view does not show. -/
lemma congr (h : Reached l σ) (hk : Known (Begun l') (Queueable l') σ')
    (hs : σ'.sites = σ.sites) (ht : σ'.transactions = σ.transactions)
    (hl : σ'.lockTable = σ.lockTable) (htr : σ'.trace = σ.trace) : Reached l' σ' :=
  h.extend hk (.of_view_eq (h.good.wf.congr hs ht hl) (view_congr hs ht (by rw [htr])) htr)

lemma kept {C : Request → State → Prop} : Kept C (Reached l) (Queueable l) where
  graph h hw := h.congr (Known.settled.graph h.known hw) rfl rfl rfl rfl
  abort h ha := h.extend (Known.settled.abort h.known ha) (simulates_abortTransaction h.good ha)
  request h := h.congr (Known.settled.request h.known) rfl rfl rfl rfl
  queued h := (known_kept (C := C)).queued h.known
  exec h hq hC hx := h.exec ((known_kept (C := C)).exec h.known hq hC hx) hx
    fun hb => absurd hb (by simp [hq.not_begin])
  dequeue h := h.congr ((known_kept (C := C)).dequeue h.known) rfl rfl rfl rfl

end Reached

end State

/-- **Runs of the engine are runs of the protocol.** -/
theorem reached_invariant (C : Request → State → Prop) :
    Invariant C State.Reached fun l r τ => State.Reached l τ ∧ Queueable l r where
  initial := ⟨(known_invariant C).initial, .of_view_eq State.good_initial.wf rfl rfl⟩
  settled _ _ := (State.Reached.kept (C := C)).toSettled
  walks _ _ := State.Reached.kept.walks
  mono ha hx h := ⟨(known_invariant C).mono ha hx h.known, h.simulation⟩
  leads := by
    intro l x r ha hx hr
    have hl := (known_invariant C).leads ha hx hr
    refine ⟨fun h hC hst hb he => h.exec (hl.exec h.known hC hst hb he) he fun hbegin hT => ?_,
      fun h hst hb hrw => h.congr (hl.enqueue h.known hst hb hrw) rfl rfl rfl rfl⟩
    obtain ⟨y, hy, hTy⟩ := h.known.live hT
    exact hx.begin_once _ (begun_of_request hr hbegin) y hy hTy

section Runs

variable {l : List Feed} {σ τ : State} {r : Request}

lemma reached_reaches (ha : Admissible l) (hr : Reaches l σ) :
    State.Reached l σ := ((reached_invariant fun _ _ => True).reaches ha (by simp) hr).1

/-- The states that are reached satisfy the invariant of the protocol. -/
theorem good_reaches (ha : Admissible l) (hr : Reaches l σ) : σ.Good :=
  (reached_reaches ha hr).good

/-- At every moment at which a request is executed the engine satisfies the invariant. -/
theorem good_called (ha : Admissible l) (h : CalledDuring l r τ) : τ.Good := by
  obtain ⟨l', -, hP⟩ := (reached_invariant fun _ _ => True).called And.left ha (by simp) h
  exact hP.good

/-- The run is in the state `σ` after a call of the engine, or where it executes a request. -/
def Meets (l : List Feed) (σ : State) : Prop := Reaches l σ ∨ ∃ r, CalledDuring l r σ

lemma Meets.good (h : Meets l σ) (ha : Admissible l) : σ.Good := by
  rcases h with hr | ⟨r, hc⟩
  · exact good_reaches ha hr
  · exact good_called ha hc

end Runs

end RepCRec
