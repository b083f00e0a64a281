import Mathlib.Data.Set.Insert
import Mathlib.Tactic.Tauto

/-!
Replicated variables under two-phase locking with available copies, over arbitrary types of
sites, variables, transactions and values.

A variable `v` has copies at the sites `copies v`. Sites fail and recover; a transaction locks
the copies it can reach when it asks for the lock, keeps its locks until it ends, and its writes
are pending at the copies it locked exclusively until it commits.

* `Config`: the locks, the pending writes, the availability and the values of the copies, and
  the database `db` that the copies stand for: for each variable, the value that was committed
  last.
* `Step`: the actions, each with its guard and its effect; `Steps` are finite sequences.
-/

namespace AvailableCopies

universe u

variable {Site Var Tran Val : Type u}

/-- What the protocol knows: locks and pending writes of the transactions, the live ones, and the
copies. -/
@[ext]
structure Config (Site Var Tran Val : Type u) where
  live : Tran → Prop
  up : Site → Prop
  readable : Site → Var → Prop
  value : Site → Var → Val
  excl : Tran → Site → Var → Prop
  shared : Tran → Site → Var → Prop
  pending : Tran → Site → Var → Option Val
  db : Var → Val

/-- What happens in a step. -/
inductive Action (Site Var Tran Val : Type u) where
  | create (T : Tran)
  | lockShared (T : Tran) (v : Var) (L : Set Site)
  | lockExcl (T : Tran) (v : Var) (L : Set Site) (x : Val)
  | overwrite (T : Tran) (v : Var) (L : Set Site) (x : Val)
  | commit (T : Tran)
  | abort (T : Tran)
  | fail (s : Site)
  | recover (s : Site)

namespace Config

open Classical in
/-- The value `x` becomes pending for `T` at the copies of `v` in `L`. -/
noncomputable def setPending (c : Config Site Var Tran Val) (T : Tran) (v : Var) (L : Set Site)
    (x : Val) : Config Site Var Tran Val :=
  { c with pending := fun T' s w => if T' = T ∧ s ∈ L ∧ w = v then some x else c.pending T' s w }

def create (c : Config Site Var Tran Val) (T : Tran) : Config Site Var Tran Val :=
  { c with live := fun T' => c.live T' ∨ T' = T }

def lockShared (c : Config Site Var Tran Val) (T : Tran) (v : Var) (L : Set Site) :
    Config Site Var Tran Val :=
  { c with shared := fun T' s w => c.shared T' s w ∨ (T' = T ∧ s ∈ L ∧ w = v) }

/-- An exclusive lock replaces the shared lock of the same transaction. -/
def takeExcl (c : Config Site Var Tran Val) (T : Tran) (v : Var) (L : Set Site) :
    Config Site Var Tran Val :=
  { c with
    excl := fun T' s w => c.excl T' s w ∨ (T' = T ∧ s ∈ L ∧ w = v)
    shared := fun T' s w => c.shared T' s w ∧ ¬(T' = T ∧ s ∈ L ∧ w = v) }

/-- A write takes the exclusive locks and becomes pending. -/
noncomputable def lockExcl (c : Config Site Var Tran Val) (T : Tran) (v : Var) (L : Set Site)
    (x : Val) : Config Site Var Tran Val :=
  (c.setPending T v L x).takeExcl T v L

def release (c : Config Site Var Tran Val) (T : Tran) : Config Site Var Tran Val :=
  { c with
    excl := fun T' s v => c.excl T' s v ∧ T' ≠ T
    shared := fun T' s v => c.shared T' s v ∧ T' ≠ T }

open Classical in
/-- The transaction leaves with its pending writes. -/
noncomputable def forget (c : Config Site Var Tran Val) (T : Tran) : Config Site Var Tran Val :=
  { c with
    live := fun T' => c.live T' ∧ T' ≠ T
    pending := fun T' s v => if T' = T then none else c.pending T' s v }

/-- The transaction `T` ends: it loses its locks and its pending writes. -/
noncomputable def finish (c : Config Site Var Tran Val) (T : Tran) : Config Site Var Tran Val :=
  (c.release T).forget T

/-- The pending writes of `T` are stored, which makes the copies readable. -/
def install (c : Config Site Var Tran Val) (T : Tran) (db : Var → Val) :
    Config Site Var Tran Val :=
  { c with
    value := fun s v => (c.pending T s v).getD (c.value s v)
    readable := fun s v => c.readable s v ∨ c.pending T s v ≠ none
    db := db }

/-- The database after the pending writes of `T` were committed. -/
def DbAfter (c : Config Site Var Tran Val) (T : Tran) (db : Var → Val) : Prop :=
  ∀ v, (∀ s x, c.pending T s v = some x → db v = x) ∧
    ((∀ s, c.pending T s v = none) → db v = c.db v)

def failSite (c : Config Site Var Tran Val) (s : Site) : Config Site Var Tran Val :=
  { c with
    up := fun s' => c.up s' ∧ s' ≠ s
    readable := fun s' v => c.readable s' v ∧ s' ≠ s }

/-- A site that recovers can be written to; of its copies only those are readable that are the
only copy of their variable. -/
def recoverSite (copies : Var → Set Site) (c : Config Site Var Tran Val) (s : Site) :
    Config Site Var Tran Val :=
  { c with
    up := fun s' => c.up s' ∨ s' = s
    readable := fun s' v => c.readable s' v ∨ (s' = s ∧ copies v = {s}) }

/-! ### Effects site by site -/

variable (c : Config Site Var Tran Val) (T : Tran) (v : Var)

@[simp] lemma setPending_empty (x : Val) : c.setPending T v ∅ x = c := by
  simp [setPending]

lemma setPending_insert (s : Site) (L : Set Site) (x : Val) :
    c.setPending T v (insert s L) x = (c.setPending T v {s} x).setPending T v L x := by
  ext1
  case pending =>
    funext T' s' w
    have key : (T' = T ∧ s' ∈ insert s L ∧ w = v) ↔
        (T' = T ∧ s' ∈ L ∧ w = v) ∨ (T' = T ∧ s' ∈ ({s} : Set Site) ∧ w = v) := by
      rw [Set.mem_insert_iff, Set.mem_singleton_iff]
      tauto
    simp only [setPending]
    by_cases hL : T' = T ∧ s' ∈ L ∧ w = v
    · rw [if_pos hL, if_pos (key.mpr (Or.inl hL))]
    · by_cases hs : T' = T ∧ s' ∈ ({s} : Set Site) ∧ w = v
      · rw [if_neg hL, if_pos hs, if_pos (key.mpr (Or.inr hs))]
      · rw [if_neg hL, if_neg hs, if_neg fun h => (key.mp h).elim hL hs]
  all_goals rfl

@[simp] lemma takeExcl_empty : c.takeExcl T v ∅ = c := by
  simp [takeExcl]

lemma takeExcl_insert (s : Site) (L : Set Site) :
    c.takeExcl T v (insert s L) = (c.takeExcl T v {s}).takeExcl T v L := by
  ext1
  case excl =>
    funext T' s' w
    simp only [takeExcl, Set.mem_insert_iff, Set.mem_singleton_iff, eq_iff_iff]
    tauto
  case shared =>
    funext T' s' w
    simp only [takeExcl, Set.mem_insert_iff, Set.mem_singleton_iff, eq_iff_iff]
    tauto
  all_goals rfl

@[simp] lemma lockShared_empty : c.lockShared T v ∅ = c := by
  simp [lockShared]

lemma lockShared_insert (s : Site) (L : Set Site) :
    c.lockShared T v (insert s L) = (c.lockShared T v {s}).lockShared T v L := by
  ext1
  case shared =>
    funext T' s' w
    simp only [lockShared, Set.mem_insert_iff, Set.mem_singleton_iff, eq_iff_iff]
    tauto
  all_goals rfl

end Config

/-- **The steps.** A lock on `v` is granted only when no other transaction holds a conflicting
lock on a copy at a site that is up; a site fails after the transactions with writes at the site
were aborted. -/
inductive Step (copies : Var → Set Site) :
    Config Site Var Tran Val → Action Site Var Tran Val → Config Site Var Tran Val → Prop where
  | create {c T} : ¬c.live T → Step copies c (.create T) (c.create T)
  | lockShared {c T v L} : c.live T →
      (∀ s ∈ copies v, c.up s → ∀ T', ¬c.excl T' s v ∧ ¬c.shared T' s v) →
      (∀ s, s ∈ L ↔ s ∈ copies v ∧ c.up s ∧ c.readable s v) →
      Step copies c (.lockShared T v L) (c.lockShared T v L)
  | lockExcl {c T v L x} : c.live T →
      (∀ s ∈ copies v, c.up s → ∀ T', ¬c.excl T' s v ∧ (c.shared T' s v → T' = T)) →
      (∀ s, s ∈ L ↔ s ∈ copies v ∧ c.up s) →
      Step copies c (.lockExcl T v L x) (c.lockExcl T v L x)
  | overwrite {c T v L x} : (∀ s, s ∈ L ↔ c.excl T s v) →
      Step copies c (.overwrite T v L x) (c.setPending T v L x)
  | commit {c T db} : c.live T → c.DbAfter T db →
      Step copies c (.commit T) ((c.install T db).finish T)
  | abort {c T} : Step copies c (.abort T) (c.finish T)
  | fail {c s} : (∀ T v, c.pending T s v = none) → Step copies c (.fail s) (c.failSite s)
  | recover {c s} : Step copies c (.recover s) (c.recoverSite copies s)

/-- Finite sequences of steps. -/
inductive Steps (copies : Var → Set Site) :
    Config Site Var Tran Val → List (Action Site Var Tran Val) → Config Site Var Tran Val →
      Prop where
  | nil {c} : Steps copies c [] c
  | cons {c c' c'' a as} : Step copies c a c' → Steps copies c' as c'' →
      Steps copies c (a :: as) c''

lemma Steps.single {copies : Var → Set Site} {c c' : Config Site Var Tran Val}
    {a : Action Site Var Tran Val} (h : Step copies c a c') : Steps copies c [a] c' :=
  .cons h .nil

lemma Steps.of_single {copies : Var → Set Site} {c c' : Config Site Var Tran Val}
    {a : Action Site Var Tran Val} (h : Steps copies c [a] c') : Step copies c a c' := by
  cases h with
  | cons hs h =>
      cases h
      exact hs

lemma Steps.of_nil {copies : Var → Set Site} {c c' : Config Site Var Tran Val}
    (h : Steps copies c [] c') : c' = c := by
  cases h
  rfl

/-- What a write does. -/
lemma Step.eq_of_lockExcl {copies : Var → Set Site} {c c' : Config Site Var Tran Val} {T : Tran}
    {v : Var} {L : Set Site} {x : Val} (h : Step copies c (.lockExcl T v L x) c') :
    c' = c.lockExcl T v L x := by
  cases h
  rfl

lemma Step.eq_of_overwrite {copies : Var → Set Site} {c c' : Config Site Var Tran Val} {T : Tran}
    {v : Var} {L : Set Site} {x : Val} (h : Step copies c (.overwrite T v L x) c') :
    c' = c.setPending T v L x := by
  cases h
  rfl

/-- Runs one after the other. -/
lemma Steps.append {copies : Var → Set Site} {c c' c'' : Config Site Var Tran Val}
    {as bs : List (Action Site Var Tran Val)} (h : Steps copies c as c')
    (h' : Steps copies c' bs c'') : Steps copies c (as ++ bs) c'' := by
  induction h with
  | nil => exact h'
  | cons hs _ ih => exact .cons hs (ih h')

/-! ### Locks along steps -/

/-- `T` holds a lock on the copy of `v` at `s`. -/
def Config.Holds (c : Config Site Var Tran Val) (T : Tran) (s : Site) (v : Var) : Prop :=
  c.excl T s v ∨ c.shared T s v

section Locks

variable {copies : Var → Set Site} {c c' : Config Site Var Tran Val}
  {a : Action Site Var Tran Val} {as : List (Action Site Var Tran Val)} {T : Tran} {s : Site}
  {v : Var}

/-- A write locks the copies that it names. -/
lemma Step.locked {L : Set Site} {x : Val} (h : Step copies c (.lockExcl T v L x) c')
    (hs : s ∈ L) : c'.Holds T s v := by
  cases h
  exact Or.inl (Or.inr ⟨rfl, hs, rfl⟩)

/-- A transaction keeps its locks until it ends. -/
lemma Step.holds (h : Step copies c a c') (hl : c.Holds T s v) (hc : a ≠ .commit T)
    (ha : a ≠ .abort T) : c'.Holds T s v := by
  cases h with
  | lockShared => exact hl.imp id Or.inl
  | @lockExcl T' w L x _ _ _ =>
      by_cases hT : T = T' ∧ s ∈ L ∧ v = w
      · exact Or.inl (Or.inr hT)
      · exact hl.imp Or.inl fun hs => ⟨hs, hT⟩
  | @commit T' =>
      have hne : T ≠ T' := fun heq => hc (by rw [heq])
      exact hl.imp (fun hx => ⟨hx, hne⟩) fun hs => ⟨hs, hne⟩
  | @abort T' =>
      have hne : T ≠ T' := fun heq => ha (by rw [heq])
      exact hl.imp (fun hx => ⟨hx, hne⟩) fun hs => ⟨hs, hne⟩
  | _ => exact hl

/-- A lock is kept until its owner ends. -/
lemma Steps.holds (h : Steps copies c as c') (hl : c.Holds T s v) (hc : .commit T ∉ as)
    (ha : .abort T ∉ as) : c'.Holds T s v := by
  induction h with
  | nil => exact hl
  | @cons c c₁ c' a as hs _ ih =>
      rw [List.mem_cons, not_or] at hc ha
      exact ih (hs.holds hl (Ne.symm hc.1) (Ne.symm ha.1)) hc.2 ha.2

/-- The action takes a lock on `v` for `T`. -/
def Action.Locks (T : Tran) (v : Var) (a : Action Site Var Tran Val) : Prop :=
  (∃ L, a = .lockShared T v L) ∨ ∃ L x, a = .lockExcl T v L x

lemma Action.Locks.unique {T' : Tran} (h : a.Locks T v) (h' : a.Locks T' v) : T = T' := by
  rcases h with ⟨L, rfl⟩ | ⟨L, x, rfl⟩
  · rcases h' with ⟨L', heq⟩ | ⟨L', x', heq⟩ <;> cases heq
    rfl
  · rcases h' with ⟨L', heq⟩ | ⟨L', x', heq⟩ <;> cases heq
    rfl

/-- A lock was held before, or the step takes it. -/
lemma Step.held (h : Step copies c a c') (hl : c'.Holds T s v) : c.Holds T s v ∨ a.Locks T v := by
  cases h with
  | @lockShared T' w L =>
      rcases hl with hx | hs | ⟨rfl, -, rfl⟩
      · exact Or.inl (Or.inl hx)
      · exact Or.inl (Or.inr hs)
      · exact Or.inr (Or.inl ⟨L, rfl⟩)
  | @lockExcl T' w L x =>
      rcases hl with (hx | ⟨rfl, -, rfl⟩) | hs
      · exact Or.inl (Or.inl hx)
      · exact Or.inr (Or.inr ⟨L, x, rfl⟩)
      · exact Or.inl (Or.inr hs.1)
  | commit => exact Or.inl (hl.imp And.left And.left)
  | abort => exact Or.inl (hl.imp And.left And.left)
  | _ => exact Or.inl hl

/-- A lock that is held was held before, or taken in the run. -/
lemma Steps.held (h : Steps copies c as c') (hl : c'.Holds T s v) :
    c.Holds T s v ∨ ∃ a ∈ as, a.Locks T v := by
  induction h with
  | nil => exact Or.inl hl
  | @cons c c₁ c' a as hs _ ih =>
      rcases ih hl with h | ⟨b, hb, h⟩
      · exact (hs.held h).imp id fun h => ⟨a, List.mem_cons_self, h⟩
      · exact Or.inr ⟨b, List.mem_cons_of_mem a hb, h⟩

end Locks

end AvailableCopies
