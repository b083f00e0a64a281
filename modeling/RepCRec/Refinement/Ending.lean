import RepCRec.Engine.Install
import RepCRec.Refinement.Effects

/-!
The ends of transactions in the view: `view_abortTransaction` for an abort, on any of its
paths, and `view_install` for the stores of a commit, which the protocol takes in one step.
-/

namespace RepCRec

open AvailableCopies (Config)
open Container (IterOrder bind_eq_ok)

namespace State

variable {σ σ' : State} {T : TranId} {o : IterOrder}

/-! ### Evicting and aborting -/

lemma trace_evictTransaction (h : σ.evictTransaction T = .ok σ') : σ'.trace = σ.trace := by
  rcases evictTransaction_cases h with ⟨t, -, rfl⟩ | ⟨-, -, rfl⟩ <;> rfl

/-- The protocol forgets what was pending for the transaction. -/
lemma view_evictTransaction (h : σ.evictTransaction T = .ok σ') : σ'.view = σ.view.forget T := by
  have ht := transactions_evictTransaction h
  have hfix : σ'.sites = σ.sites ∧ σ'.trace = σ.trace := by
    rcases evictTransaction_cases h with ⟨t, -, rfl⟩ | ⟨-, -, rfl⟩ <;> exact ⟨rfl, rfl⟩
  ext1
  case live =>
    funext T'
    simp only [view, Config.forget, ht, AList.mem_erase, and_comm]
  case pending =>
    funext T' s v
    by_cases hT : T' = T
    · subst hT
      simp [view, Config.forget, pending, ht]
    · simp [view, Config.forget, pending, ht, hT]
  case db => simp only [view, Config.forget, hfix.2]
  case up => funext s; simp only [view, Config.forget, isWriteAvailable, hfix.1]
  case readable => funext s v; simp only [view, Config.forget, isReadAvailable, hfix.1]
  case value => funext s v; simp only [view, Config.forget, getVariable, hfix.1]
  case excl => funext T' s v; simp only [view, Config.forget, getVariable, hfix.1]
  case shared => funext T' s v; simp only [view, Config.forget, getVariable, hfix.1]

lemma Wf.evictTransaction (hw : σ.Wf) (h : σ.evictTransaction T = .ok σ') : σ'.Wf := by
  have ht := transactions_evictTransaction h
  have hfix : σ'.sites = σ.sites ∧ σ'.lockTable = σ.lockTable := by
    rcases evictTransaction_cases h with ⟨t, -, rfl⟩ | ⟨-, -, rfl⟩ <;> exact ⟨rfl, rfl⟩
  have hlookup : ∀ {T' t}, σ'.transactions.lookup T' = some t →
      σ.transactions.lookup T' = some t := by
    intro T' t h'
    rw [ht, Dict.lookup_erase] at h'
    split_ifs at h'
    exact h'
  have hw' : { σ' with transactions := σ.transactions }.Wf := hw.congr hfix.1 rfl hfix.2
  exact ⟨fun h' => hw.transactionId (hlookup h'), fun h' => hw.recorded (hlookup h'),
    hw'.excl_table, hw'.shared_table, hw'.shared_nodup⟩

/-- An abort is the end of a transaction in the protocol, without a commit. -/
lemma view_abortTransaction (hw : σ.Wf) (hc : σ.OnCopies)
    (h : σ.abortTransaction o T = .ok σ') :
    σ'.view = σ.view.finish T ∧ σ'.Wf ∧ σ'.trace = σ.trace ++ [.aborted T] := by
  rw [abortTransaction, bind_eq_ok] at h
  obtain ⟨σ₁, h1, h2⟩ := h
  rw [Container.pure_eq_ok] at h2
  subst h2
  set σ₂ : State := { σ₁ with blockedTransactionsQueue := σ₁.blockedTransactionsQueue.erase T }
  have hv₂ : σ₂.view = σ.view.forget T :=
    (view_congr (σ := σ₁) rfl rfl rfl).trans (view_evictTransaction h1)
  have hw₂ : σ₂.Wf := (hw.evictTransaction h1).congr rfl rfl rfl
  have hc₂ : σ₂.OnCopies := by
    intro T' s v hl
    rw [hv₂] at hl
    exact hc hl
  have htr : σ₁.trace = σ.trace := trace_evictTransaction h1
  refine ⟨?_, (wf_releaseLocks hw₂ hc₂ o T).emit _, ?_⟩
  · rw [view_emit _ fun _ => rfl, view_releaseLocks hw₂ hc₂, hv₂]
    rfl
  · rw [trace_emit, ← htr]
    exact congrArg (· ++ _) (Quiet.releaseLocks _ o T).trace

/-! ### The stores of a commit -/

/-- The stores of one value for a variable leave it in the database. -/
lemma foldl_store_map (T : TranId) (ts : Timestamp) (l : List (SiteId × VarId × Value))
    (db : VarId → Value) {v : VarId} {x : Value} (hl : ∀ p ∈ l, p.2.1 = v → p.2.2 = x) :
    (l.map (storeEvent T ts)).foldl Event.store db v = if ∃ p ∈ l, p.2.1 = v then x else db v := by
  induction l generalizing db with
  | nil => simp
  | cons p l ih =>
      rw [List.map_cons, List.foldl_cons, ih _ fun q hq => hl q (List.mem_cons_of_mem _ hq)]
      by_cases hp : p.2.1 = v
      · have hx := hl p List.mem_cons_self hp
        subst hp
        simp [storeEvent, Event.store, hx]
      · simp only [storeEvent, Event.store, Function.update_of_ne (Ne.symm hp),
          List.exists_mem_cons_iff, hp, false_or]

/-- **The stores of a commit** are one step of the protocol: all pending writes of `T` are
stored, and the database gets their values. -/
theorem view_installAll (hg : σ.Good) {t : Transaction} (ht : σ.transactions.lookup T = some t)
    (ts : Timestamp) :
    (σ.installAll o T ts t).view = σ.view.install T (committed (σ.installAll o T ts t).trace) ∧
      σ.view.DbAfter T (committed (σ.installAll o T ts t).trace) := by
  have hmem : ∀ {s v x}, (s, v, x) ∈ stores o t ↔ σ.view.pending T s v = some x := by
    intro s v x
    simp only [mem_stores, view, pending, ht, Option.bind_some]
  have hkey : ∀ {s v}, (∃ x, (s, v, x) ∈ stores o t) ↔ σ.view.pending T s v ≠ none := by
    intro s v
    simp only [hmem, Option.ne_none_iff_exists']
  rw [installAll_eq]
  have hl := sameLocks_foldl T ts (stores o t) σ
  constructor
  · ext1
    case live => funext T'; simp only [view, Config.install, hl.transactions]
    case up => funext s; simp only [view, Config.install, hl.up]
    case readable =>
      funext s v
      simp only [view, Config.install, eq_iff_iff]
      rw [isReadAvailable_foldl_installCopy, hkey]
      rfl
    case value =>
      funext s v
      simp only [view, Config.install]
      rw [value_foldl_installCopy T ts fun s v x h => hmem.mp h]
      simp only [hkey]
      by_cases hp : σ.view.pending T s v = none
      · rw [if_neg (not_not.mpr hp)]
        exact (congrArg (Option.getD · _) hp).symm
      · rw [if_pos hp]
        rfl
    case excl => funext T' s v; simp only [view, Config.install, hl.excl]
    case shared => funext T' s v; simp only [view, Config.install, hl.shared]
    case pending => funext T' s v; simp only [view, Config.install, pending, hl.transactions]
    case db => rfl
  · intro v
    rw [trace_foldl_installCopy, committed_append]
    constructor
    · intro s x hx
      have hsame : ∀ p ∈ stores o t, p.2.1 = v → p.2.2 = x := by
        rintro ⟨s', v', x'⟩ hp rfl
        exact hg.inv.pending_same (hmem.mp hp) hx
      rw [foldl_store_map T ts _ _ hsame]
      exact if_pos ⟨(s, v, x), hmem.mpr hx, rfl⟩
    · intro hnone
      have hno : ¬∃ p ∈ stores o t, p.2.1 = v := by
        rintro ⟨p, hp, rfl⟩
        have := hmem.mp hp
        rw [hnone] at this
        cases this
      rw [foldl_store_map (x := 0) T ts _ _ fun p hp hv => absurd ⟨p, hp, hv⟩ hno]
      exact if_neg hno

end State

end RepCRec
