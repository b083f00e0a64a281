import RepCRec.Guarantees.Replication
import RepCRec.Refinement.Register

/-!
The structures that refer to transactions. The owners of locks are live and have the variable in
their lock table, and only live transactions wait or have blocked requests (`no_ghosts`), except for
the id `-1`: the engine takes it for no transaction, and does not drop its requests when the
transaction with this id is not live any more (`ghost_waits`).
-/

namespace RepCRec

open Container (IterOrder)

namespace State

namespace Good

variable {σ : State} {T T' : TranId} {s : SiteId} {v : VarId}

lemma live_of_owns (h : σ.Good) (ho : σ.Owns T s v) : T ∈ σ.transactions :=
  ho.elim (fun hx => h.inv.excl_live (T := T) (s := s) (v := v) hx)
    fun hs => h.inv.shared_live (T := T) (s := s) (v := v) hs

/-- A copy has at most one owner. -/
lemma eq_of_owns (h : σ.Good) (ho : σ.Owns T s v) (ho' : σ.Owns T' s v) : T = T' := by
  rcases ho with hx | hs
  · rcases ho' with hx' | hs'
    · exact h.inv.excl_excl (s := s) (v := v) hx hx'
    · exact absurd hs' (h.inv.excl_shared (s := s) (v := v) hx)
  · rcases ho' with hx' | hs'
    · exact absurd hs (h.inv.excl_shared (s := s) (v := v) hx')
    · exact h.inv.shared_shared (s := s) (v := v) hs hs'

end Good

/-- The locks, the wait-for graph and the blocked queue refer to live transactions, or to the id
that stands for no transaction. -/
structure NoGhosts (σ : State) : Prop where
  owner : ∀ {T s v}, σ.Owns T s v → T ∈ σ.transactions ∧ v ∈ σ.lockedVars T
  sole : ∀ {T T' s v}, σ.Owns T s v → σ.Owns T' s v → T = T'
  waits : ∀ {T}, σ.waitsFor T ≠ [] → T = -1 ∨ T ∈ σ.transactions
  queue : ∀ {T}, T ∈ σ.blockedTransactionsQueue → T = -1 ∨ T ∈ σ.transactions

end State

section Runs

variable {l : List Feed} {σ : State}

/-- **No ghosts.** In every state that is reached the locks, the wait-for graph and the blocked
queue refer to live transactions, or to the id `-1`; and a request that commits or aborts a
transaction leaves no copy locked by it. -/
theorem no_ghosts (ha : Admissible l) :
    (∀ σ, Reaches l σ → σ.NoGhosts ∧ ∀ T, T ∉ σ.transactions → ∀ s v, ¬σ.Owns T s v) ∧
    ∀ r τ o τ' es T, CalledDuring l r τ → τ.exec o r = .ok τ' → τ'.trace = τ.trace ++ es →
      .committed T ∈ es ∨ .aborted T ∈ es → T ∉ τ'.transactions ∧ ∀ s v, ¬τ'.Owns T s v := by
  refine ⟨fun σ hr => ?_, fun r τ o τ' es T hc hx htr hes => ?_⟩
  · have hg := good_reaches ha hr
    have hw := ((waiting_invariant fun _ _ => True).reaches ha (by simp) hr).1.2
    have hk := (linked_invariant fun _ _ => True).reaches ha (by simp) hr
    refine ⟨⟨fun ho => ⟨hg.live_of_owns ho, hg.wf.tabled.owned ho⟩,
      fun ho ho' => hg.eq_of_owns ho ho', hk.live, fun hT => (hw.live hT).symm⟩,
      fun T hT s v ho => hT (hg.live_of_owns ho)⟩
  · obtain ⟨es', hout⟩ := State.exec_outcome hx
    obtain rfl : es = es' := List.append_cancel_left (htr.symm.trans hout.trace)
    have hdead : T ∉ τ'.transactions := fun hT => by
      obtain ⟨-, hcm, hab⟩ := hout.mem_transactions.mp hT
      exact hes.elim hcm hab
    have hg := good_called ha hc
    have hsim := hout.simulates hg fun ts T' b hr => by
      subst hr
      rw [hout.create_eq] at hes
      simp at hes
    exact ⟨hdead, fun s v ho => hdead ((hsim.good hg).live_of_owns ho)⟩

/-- A transaction writes, and another one waits for it. -/
def writersRun : List Feed :=
  inOrder Schedule.stored [.begin 1, .begin 2, .write 1 2 5, .write 2 2 6]

theorem no_ghosts_writersRun : ∃ σ, Reaches writersRun σ ∧ σ.Owns 1 s1 x2 ∧ σ.waitsFor 2 = [1] ∧
    σ.NoGhosts := by
  obtain ⟨σ, hr, hf⟩ := exists_ok_of_eval (x := run writersRun)
    (f := fun σ => ((σ.getVariable s1 x2).exclusiveLockOwner, σ.waitsFor 2)) (a := (some 1, [1]))
    (by decide +kernel)
  rw [Prod.mk.injEq] at hf
  exact ⟨σ, .run hr, Or.inl hf.1, hf.2, ((no_ghosts (by decide +kernel)).1 σ (.run hr)).1⟩

/-- The transaction `-1` is aborted by the failure of a site, and then a write of it waits for
another transaction. -/
def ghostRun : List Feed :=
  inOrder Schedule.stored
    [.begin (-1), .write (-1) 1 5, .fail 2, .begin 1, .write 1 2 6, .write (-1) 2 7]

/-- **A ghost waits**: the transaction `-1` is not live, waits for another one and has a blocked
request. -/
theorem ghost_waits : Admissible ghostRun ∧ ∃ σ, Reaches ghostRun σ ∧ .aborted (-1) ∈ σ.trace ∧
    -1 ∉ σ.transactions ∧ σ.waitsFor (-1) = [1] ∧ -1 ∈ σ.blockedTransactionsQueue := by
  obtain ⟨σ, hr, hf⟩ := exists_ok_of_eval (x := run ghostRun)
    (f := fun σ => decide (.aborted (-1) ∈ σ.trace ∧ -1 ∉ σ.transactions ∧ σ.waitsFor (-1) = [1] ∧
      -1 ∈ σ.blockedTransactionsQueue)) (a := true) (by decide +kernel)
  exact ⟨by decide +kernel, σ, .run hr, of_decide_eq_true hf⟩

end Runs

end RepCRec
