import RepCRec.Orders.Program
import RepCRec.Schedules.FailureFree

/-!
The trace of the engine in two orders of the loops over unordered containers. The orders in which
the requests are executed show at three places: the aborts when a site fails, the copy from which an
even variable is read, and the stores of a commit. Without site failures there are no such aborts,
and all copies of a variable have the same value whenever a request is executed, so the traces
differ only in these copies and stores (`trace_orders`).
-/

namespace RepCRec

open Container (Agree)

/-- An entry of the trace that is no store, without the site that an even variable is read from. -/
def Event.unsited? : Event → Option (Event ⊕ TranId × VarId × Value)
  | .installs .. => none
  | .reads T s v x => some (if v.isOdd then .inl (.reads T s v x) else .inr (T, v, x))
  | e => some (.inl e)

/-- Sees the entries of the trace but for the stores, and not the sites that even variables are read
from. -/
def Observer.unsited : Observer where
  Same es fs := es.filterMap Event.unsited? = fs.filterMap Event.unsited?
  refl _ := rfl
  trans := Eq.trans
  append h h' := by rw [List.filterMap_append, List.filterMap_append, h, h']
  stores {T ts l l'} _ := by
    have hnil : ∀ l : List (SiteId × VarId × Value),
        (l.map (State.storeEvent T ts)).filterMap Event.unsited? = [] := fun l =>
      List.filterMap_eq_nil_iff.mpr fun e he => by
        obtain ⟨p, -, rfl⟩ := List.mem_map.mp he
        rfl
    rw [hnil, hnil]

namespace State

/-- All copies of a variable have the same value, when no site has failed. -/
lemma Unfailed.value_eq {σ : State} (h : σ.Unfailed) (hg : σ.Good) {s s' : SiteId} {v : VarId}
    (hs : s ∈ RepCRec.copies v) (hs' : s' ∈ RepCRec.copies v) :
    (σ.getVariable s v).value = (σ.getVariable s' v).value := by
  calc (σ.getVariable s v).value
      = committed σ.trace v := hg.inv.one_copy hs (h.copies.readable s v)
    _ = (σ.getVariable s' v).value := (hg.inv.one_copy hs' (h.copies.readable s' v)).symm

lemma Unfailed.blind_unsited {σ : State} (h : σ.Unfailed) (hg : σ.Good) {r : Request}
    (hr : SparesSites r) : Observer.unsited.Blind σ r := by
  cases r with
  | read ts T v =>
      intro hv s _ s' _
      have hval := h.value_eq hg (mem_copies_of_even hv s) (mem_copies_of_even hv s')
      simp [Observer.unsited, Event.unsited?, hv, hval]
  | fail ts s => exact absurd rfl (hr ts s)
  | _ => trivial

end State

/-- **The trace of runs without site failures** depends on the orders in which requests are executed
only in the stores of the commits and the sites that even variables are read from. The sites do not
depend on these orders. -/
theorem trace_orders {l l' : List Feed} (ha : Admissible l)
    (hfail : ∀ x ∈ l, ∀ s, x.insr ≠ .fail s) (hl : List.Forall₂ Feed.SameWalk l l')
    {sch sch' : ℕ → Schedule} (hw : ∀ i, (sch i).SameWalk (sch' i)) (n : ℕ) :
    Agree (fun p p' : Bool × State => p'.1 = p.1 ∧ p'.2.sites = p.2.sites ∧
      p'.2.trace.filterMap Event.unsited? = p.2.trace.filterMap Event.unsited?)
      (run l >>= State.drain sch n) (run l' >>= State.drain sch' n) := by
  refine (alike_run (O := .unsited) hl hw (fun r τ hc => ?_) n).mono ?_
  · have hC : ∀ r τ, CalledDuring l r τ → State.SparesSites r := fun r τ hc =>
      sparesSites_of_called hfail hc
    obtain ⟨l', hR, hU⟩ := unfailed_invariant.called ha hC hc
    exact hU.blind_unsited hR.good (hC r τ hc)
  · rintro p p' ⟨hb, h⟩
    exact ⟨hb, h.sites, h.trace.symm⟩

/-- The site that a value is read from. -/
def Event.readAt? : Event → Option ℕ
  | .reads _ s _ _ => some s.id
  | _ => none

/-- The second transaction reads an even variable, while the first has written another one. -/
def readingInstructions : List Instruction :=
  [.begin 1, .begin 2, .write 1 2 7, .read 2 4, .finish 1, .finish 2]

theorem trace_orders_readingInstructions : ∃ p p' : Bool × State,
    (run (inOrder Schedule.stored readingInstructions) >>=
      State.drain (fun _ => Schedule.stored) 0) = .ok p ∧
    (run (inOrder Schedule.rotated readingInstructions) >>=
      State.drain (fun _ => Schedule.rotated) 0) = .ok p' ∧
    p.2.trace.filterMap Event.readAt? = [10] ∧ p'.2.trace.filterMap Event.readAt? = [9] ∧
    p'.2.trace.filterMap Event.unsited? = p.2.trace.filterMap Event.unsited? := by
  obtain ⟨p, hp, hf⟩ := exists_ok_of_eval
    (x := run (inOrder Schedule.stored readingInstructions) >>=
      State.drain (fun _ => Schedule.stored) 0)
    (f := fun p => p.2.trace.filterMap Event.readAt?) (a := [10]) (by decide +kernel)
  obtain ⟨p', hp', hf'⟩ := exists_ok_of_eval
    (x := run (inOrder Schedule.rotated readingInstructions) >>=
      State.drain (fun _ => Schedule.rotated) 0)
    (f := fun p => p.2.trace.filterMap Event.readAt?) (a := [9]) (by decide +kernel)
  have hw : Schedule.stored.SameWalk Schedule.rotated := fun _ => rfl
  have h := trace_orders (l := inOrder Schedule.stored readingInstructions) (by decide +kernel)
    (by simp [readingInstructions, inOrder]) (sameWalk_inOrder hw readingInstructions)
    (fun _ : ℕ => hw) 0
  rw [hp, hp'] at h
  cases h with
  | ok h => exact ⟨p, p', hp, hp', hf, hf', h.2.2⟩

end RepCRec
