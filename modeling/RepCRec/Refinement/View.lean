import RepCRec.Engine.Outcome
import RepCRec.Engine.Run
import RepCRec.Replication.Isolation

/-!
The engine as an instance of available copies. `State.view` reads the locks, the pending
writes, the availability and the values of a state of the engine, with the database that its
trace has stored, and `actions` reads the trace as a run of the protocol.

What the view does not show is in `State.Wf`: the lock table of a transaction covers its locks,
and a transaction records its accesses and its writes alike.
-/

namespace RepCRec

open AvailableCopies (Config Action)

/-- The sites that hold a copy of `v`: one for an odd variable, all for an even one. -/
def copies (v : VarId) : Set SiteId := {s | v.isOdd = true → s = v.home}

lemma home_mem_copies (v : VarId) : v.home ∈ copies v := fun _ => rfl

lemma mem_copies_of_even {v : VarId} (h : v.isOdd = false) (s : SiteId) : s ∈ copies v :=
  fun hv => absurd hv (by simp [h])

lemma copies_eq_of_odd {v : VarId} (h : v.isOdd = true) : copies v = {v.home} := by
  ext s
  simp [copies, h]

/-- The variables with their only copy at a given site. -/
lemma copies_eq_singleton {v : VarId} {s : SiteId} :
    copies v = {s} ↔ v.isOdd = true ∧ v.home = s := by
  constructor
  · intro h
    cases hv : v.isOdd with
    | true =>
        rw [copies_eq_of_odd hv] at h
        exact ⟨rfl, Set.singleton_eq_singleton_iff.mp h⟩
    | false =>
        have h1 : (⟨1, by decide, by decide⟩ : SiteId) ∈ copies v := mem_copies_of_even hv _
        have h2 : (⟨2, by decide, by decide⟩ : SiteId) ∈ copies v := mem_copies_of_even hv _
        rw [h, Set.mem_singleton_iff] at h1 h2
        exact absurd (congrArg SiteId.id (h1.trans h2.symm)) (by decide)
  · rintro ⟨hv, rfl⟩
    exact copies_eq_of_odd hv

open State in
lemma mem_copySites {v : VarId} {s : SiteId} : s ∈ copySites v ↔ s ∈ copies v := by
  cases hv : v.isOdd with
  | true => simp [copySites, copies_eq_of_odd, hv]
  | false => simp [copySites, hv, mem_copies_of_even]

/-! ### The trace -/

/-- A store of a commit, in the database. -/
def Event.store (db : VarId → Value) : Event → VarId → Value
  | .installs _ _ v x _ => Function.update db v x
  | _ => db

lemma Event.store_of_ne {e : Event} (h : ∀ T s v x ts, e ≠ .installs T s v x ts)
    (db : VarId → Value) : e.store db = db := by
  cases e with
  | installs T s v x ts => exact absurd rfl (h T s v x ts)
  | _ => rfl

/-- The database after the stores in the trace: the value of the last one for each variable,
and `10 * v` for a variable that was never stored. -/
def committed (trace : List Event) : VarId → Value :=
  trace.foldl Event.store fun v => v.id * 10

lemma committed_append (l₁ l₂ : List Event) :
    committed (l₁ ++ l₂) = l₂.foldl Event.store (committed l₁) := by
  simp [committed]

/-- Entries that are no stores leave the database as it is. -/
lemma committed_append_of_ne {l₂ : List Event}
    (h : ∀ T s v x ts, .installs T s v x ts ∉ l₂) (l₁ : List Event) :
    committed (l₁ ++ l₂) = committed l₁ := by
  rw [committed_append]
  generalize committed l₁ = db
  induction l₂ with
  | nil => rfl
  | cons e l₂ ih =>
      have he : e.store db = db := Event.store_of_ne
        (fun T s v x ts heq => h T s v x ts (heq ▸ List.mem_cons_self)) db
      rw [List.foldl_cons, he]
      exact ih fun T s v x ts hmem => h T s v x ts (List.mem_cons_of_mem e hmem)

/-- The step of the protocol that an entry of the trace stands for. -/
def Event.action? : Event → Option (Action SiteId VarId TranId Value)
  | .created T _ => some (.create T)
  | .sharedLock T v L => some (.lockShared T v {s | s ∈ L})
  -- a write that reaches no copy locks nothing
  | .writeLock T v L x => if L = [] then none else some (.lockExcl T v {s | s ∈ L} x)
  | .rewrites T v x => if v.isOdd then some (.overwrite T v {v.home} x) else none
  | .committed T => some (.commit T)
  | .aborted T => some (.abort T)
  | .failed s => some (.fail s)
  | .recovered s => some (.recover s)
  | _ => none

/-- The run of the protocol that a trace stands for. -/
def actions (trace : List Event) : List (Action SiteId VarId TranId Value) :=
  trace.filterMap Event.action?

@[simp] lemma actions_append (l₁ l₂ : List Event) :
    actions (l₁ ++ l₂) = actions l₁ ++ actions l₂ := by simp [actions]

/-! ### The view of a state -/

namespace State

/-- The value that is pending for `T` at a copy. -/
def pending (σ : State) (T : TranId) (s : SiteId) (v : VarId) : Option Value :=
  (σ.transactions.lookup T).bind fun t => t.writeRecords.get? s v

/-- The variables in the lock table entry of `T`. -/
def lockedVars (σ : State) (T : TranId) : List VarId := (σ.lockTable.lookup T).getD []

def view (σ : State) : Config SiteId VarId TranId Value where
  live T := T ∈ σ.transactions
  up s := σ.isWriteAvailable s = true
  readable s v := σ.isReadAvailable s v = true
  value s v := (σ.getVariable s v).value
  excl T s v := (σ.getVariable s v).exclusiveLockOwner = some T
  shared T s v := T ∈ (σ.getVariable s v).sharedLockOwners
  pending := σ.pending
  db := committed σ.trace

/-- The parts of the state that the view does not show. -/
structure Wf (σ : State) : Prop where
  transactionId : ∀ {T t}, σ.transactions.lookup T = some t → t.transactionId = T
  recorded : ∀ {T t}, σ.transactions.lookup T = some t → t.Recorded
  excl_table : ∀ {T s v}, σ.view.excl T s v → v ∈ σ.lockedVars T
  shared_table : ∀ {T s v}, σ.view.shared T s v → v ∈ σ.lockedVars T
  shared_nodup : ∀ s v, (σ.getVariable s v).sharedLockOwners.Nodup

/-- The invariant of the engine: that of the protocol, and well-formedness. -/
structure Good (σ : State) : Prop where
  inv : AvailableCopies.Inv copies σ.view
  wf : σ.Wf

lemma view_initial : AvailableCopies.Initial copies initial.view where
  not_excl T s v := by simp [view, initial, getVariable, Site.initial, Variable.initial]
  not_shared T s v := by simp [view, initial, getVariable, Site.initial, Variable.initial]
  not_pending T s v := by simp [view, initial, pending]
  up s := by simp [view, initial, isWriteAvailable, Site.initial]
  readable s v := by simp [view, initial, isReadAvailable, Site.initial]
  value s v := by
    simp [view, initial, getVariable, Site.initial, Variable.initial, committed]

lemma good_initial : initial.Good where
  inv := view_initial.inv
  wf := {
    transactionId := fun h => by simp [initial] at h
    recorded := fun h => by simp [initial] at h
    excl_table := fun h => absurd h (view_initial.not_excl _ _ _)
    shared_table := fun h => absurd h (view_initial.not_shared _ _ _)
    shared_nodup := fun s v => by
      simp [initial, getVariable, Site.initial, Variable.initial] }

lemma live_iff {σ : State} {T : TranId} :
    σ.view.live T ↔ ∃ t, σ.transactions.lookup T = some t := by
  rw [← Option.isSome_iff_exists, AList.lookup_isSome]
  rfl

end State

end RepCRec
