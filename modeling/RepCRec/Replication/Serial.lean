import Mathlib.Data.List.Basic
import Mathlib.Data.List.Induction
import Mathlib.Logic.Function.Basic

/-!
Histories of transactions whose writes are deferred until they commit, over arbitrary types of
transactions, variables and values.

* `Legal`: a sequence of reads and writes can be executed from a database, each read returning
  the value that the variable has at that point; `runOps` is the database after it.
* `Entry`: the accesses and the commits of a history; `store` is the database after the commits,
  each of which applies the writes of its transaction at once.
* `serializable`: where each read returns what its transaction would read now, and no other
  transaction commits a write of the variable before the reader commits, the transactions can be
  executed one after the other, in the order of their commits, with the same results.
-/

namespace Serial

universe u

variable {Tran Var Val : Type u}

inductive Op (Var Val : Type u) where
  | read (v : Var) (x : Val)
  | write (v : Var) (x : Val)
deriving DecidableEq

section Ops

variable [DecidableEq Var]

/-- The database after the access. -/
def Op.apply (db : Var → Val) : Op Var Val → Var → Val
  | .read _ _ => db
  | .write v x => Function.update db v x

/-- The value that the access writes to `v`. -/
def Op.written? (v : Var) : Op Var Val → Option Val
  | .read _ _ => none
  | .write w x => if w = v then some x else none

lemma Op.written?_eq_some {v : Var} {x : Val} {o : Op Var Val} :
    o.written? v = some x ↔ o = .write v x := by
  cases o with
  | read w y => simp [written?]
  | write w y =>
      rw [written?, Option.ite_some_none_eq_some, Op.write.injEq]

/-- The database after the accesses. -/
def runOps (ops : List (Op Var Val)) (db : Var → Val) : Var → Val := ops.foldl Op.apply db

/-- Executed from the database `db`, each read returns the value of its variable. -/
def Legal (db : Var → Val) : List (Op Var Val) → Prop
  | [] => True
  | .read v x :: ops => x = db v ∧ Legal db ops
  | .write v x :: ops => Legal (Function.update db v x) ops

instance Legal.decidable [DecidableEq Val] (db : Var → Val) :
    (ops : List (Op Var Val)) → Decidable (Legal db ops)
  | [] => inferInstanceAs (Decidable True)
  | .read v x :: ops =>
      let _ := Legal.decidable db ops
      inferInstanceAs (Decidable (x = db v ∧ Legal db ops))
  | .write v x :: ops => Legal.decidable (Function.update db v x) ops

/-- The value of the last write of `v`. -/
def lastWrite (ops : List (Op Var Val)) (v : Var) : Option Val :=
  (ops.filterMap (Op.written? v)).getLast?

variable {db db' : Var → Val} {ops ops₁ ops₂ : List (Op Var Val)} {v : Var} {x : Val}

@[simp] lemma runOps_append : runOps (ops₁ ++ ops₂) db = runOps ops₂ (runOps ops₁ db) := by
  simp [runOps]

lemma lastWrite_append :
    lastWrite (ops₁ ++ ops₂) v = (lastWrite ops₂ v).or (lastWrite ops₁ v) := by
  rw [lastWrite, List.filterMap_append, List.getLast?_append, lastWrite, lastWrite]

lemma lastWrite_singleton (o : Op Var Val) : lastWrite [o] v = o.written? v := by
  rw [lastWrite]
  cases h : o.written? v with
  | none => rw [List.filterMap_cons_none h, List.filterMap_nil, List.getLast?_nil]
  | some p => rw [List.filterMap_cons_some h, List.filterMap_nil, List.getLast?_singleton]

/-- After the accesses a variable has the value of its last write. -/
lemma runOps_apply (ops : List (Op Var Val)) (db : Var → Val) (v : Var) :
    runOps ops db v = (lastWrite ops v).getD (db v) := by
  induction ops using List.reverseRecOn with
  | nil => rfl
  | append_singleton ops o ih =>
      rw [runOps_append, lastWrite_append, lastWrite_singleton]
      cases o with
      | read w y => simpa [runOps, Op.apply, Op.written?] using ih
      | write w y =>
          by_cases hw : w = v
          · subst hw
            simp [runOps, Op.apply, Op.written?]
          · simpa [runOps, Op.apply, Op.written?, hw, Ne.symm hw] using ih

lemma runOps_congr (h : db v = db' v) : runOps ops db v = runOps ops db' v := by
  rw [runOps_apply, runOps_apply, h]

lemma lastWrite_isSome_iff : (lastWrite ops v).isSome ↔ ∃ y, .write v y ∈ ops := by
  rw [lastWrite, List.getLast?_isSome, ne_eq, List.filterMap_eq_nil_iff]
  push Not
  constructor
  · rintro ⟨o, ho, hw⟩
    obtain ⟨y, hy⟩ := Option.ne_none_iff_exists'.mp hw
    exact ⟨y, Op.written?_eq_some.mp hy ▸ ho⟩
  · rintro ⟨y, hy⟩
    exact ⟨_, hy, by simp [Op.written?]⟩

lemma lastWrite_of_unwritten (h : ∀ y, .write v y ∉ ops) : lastWrite ops v = none := by
  rw [← Option.not_isSome_iff_eq_none, lastWrite_isSome_iff]
  exact fun ⟨y, hy⟩ => h y hy

/-- A variable that is not written keeps its value. -/
lemma runOps_of_unwritten (h : ∀ y, .write v y ∉ ops) : runOps ops db v = db v := by
  rw [runOps_apply, lastWrite_of_unwritten h, Option.getD_none]

lemma legal_append : Legal db (ops₁ ++ ops₂) ↔ Legal db ops₁ ∧ Legal (runOps ops₁ db) ops₂ := by
  induction ops₁ generalizing db with
  | nil => simp [Legal, runOps]
  | cons o ops₁ ih =>
      cases o with
      | read v x =>
          rw [List.cons_append, Legal, Legal, ih, and_assoc]
          rfl
      | write v x =>
          rw [List.cons_append, Legal, Legal, ih]
          rfl

/-- A sequence is legal when every read of it returns what the accesses before it leave. -/
lemma legal_of_reads (h : ∀ ops₁ v x ops₂, ops = ops₁ ++ .read v x :: ops₂ →
    x = runOps ops₁ db v) : Legal db ops := by
  induction ops using List.reverseRecOn with
  | nil => trivial
  | append_singleton ops o ih =>
      refine legal_append.mpr ⟨ih fun ops₁ v x ops₂ heq => h ops₁ v x (ops₂ ++ [o]) ?_, ?_⟩
      · rw [heq, List.append_assoc, List.cons_append]
      · cases o with
        | read v x => exact ⟨h ops v x [] rfl, trivial⟩
        | write v x => trivial

end Ops

/-! ### Histories -/

inductive Entry (Tran Var Val : Type u) where
  | access (T : Tran) (o : Op Var Val)
  | commit (T : Tran)

def Entry.commit? : Entry Tran Var Val → Option Tran
  | .access _ _ => none
  | .commit T => some T

/-- The transactions that commit, in the order of their commits. -/
def order (h : List (Entry Tran Var Val)) : List Tran := h.filterMap Entry.commit?

section Order

variable {h h₁ h₂ : List (Entry Tran Var Val)} {T : Tran}

@[simp] lemma order_append : order (h₁ ++ h₂) = order h₁ ++ order h₂ := by simp [order]

lemma mem_order : T ∈ order h ↔ .commit T ∈ h := by
  rw [order, List.mem_filterMap]
  constructor
  · rintro ⟨e, he, hT⟩
    cases e with
    | access T' o' => cases hT
    | commit T' =>
        cases hT
        exact he
  · exact fun he => ⟨_, he, rfl⟩

/-- A transaction has no entry after its commit. -/
def CommitsLast (h : List (Entry Tran Var Val)) : Prop :=
  ∀ h₁ T h₂, h = h₁ ++ .commit T :: h₂ → .commit T ∉ h₂ ∧ ∀ o, .access T o ∉ h₂

lemma CommitsLast.of_append (h : CommitsLast (h₁ ++ h₂)) : CommitsLast h₁ := by
  rintro m T n rfl
  obtain ⟨h1, h2⟩ := h m T (n ++ h₂) (by simp)
  exact ⟨fun hm => h1 (List.mem_append_left _ hm),
    fun o hm => h2 o (List.mem_append_left _ hm)⟩

/-- A transaction commits once. -/
lemma CommitsLast.nodup (hc : CommitsLast h) : (order h).Nodup := by
  induction h using List.reverseRecOn with
  | nil => exact List.nodup_nil
  | append_singleton h e ih =>
      rw [order_append]
      cases e with
      | access T o => exact (List.append_nil (order h)).symm ▸ ih hc.of_append
      | commit T =>
          refine List.nodup_append.mpr ⟨ih hc.of_append, by simp [order, Entry.commit?], ?_⟩
          rintro T' hT' T'' hT'' rfl
          obtain rfl : T' = T := by simpa [order, Entry.commit?] using hT''
          obtain ⟨h₁, h₂, rfl⟩ := List.append_of_mem (mem_order.mp hT')
          exact (hc h₁ T' (h₂ ++ [.commit T']) (by simp)).1 (by simp)

end Order

section Accesses

variable [DecidableEq Tran] {h h₁ h₂ : List (Entry Tran Var Val)} {T : Tran} {o : Op Var Val}

/-- The access of `T` that the entry is. -/
def Entry.op? (T : Tran) : Entry Tran Var Val → Option (Op Var Val)
  | .access T' o => if T' = T then some o else none
  | .commit _ => none

/-- The accesses of `T` in the history. -/
def ops (h : List (Entry Tran Var Val)) (T : Tran) : List (Op Var Val) :=
  h.filterMap (Entry.op? T)

/-- The transactions that commit, executed one after the other. -/
def serial (h : List (Entry Tran Var Val)) : List (Op Var Val) := (order h).flatMap (ops h)

@[simp] lemma ops_append : ops (h₁ ++ h₂) T = ops h₁ T ++ ops h₂ T := by simp [ops]

lemma mem_ops : o ∈ ops h T ↔ .access T o ∈ h := by
  rw [ops, List.mem_filterMap]
  constructor
  · rintro ⟨e, he, ho⟩
    cases e with
    | access T' o' =>
        obtain ⟨rfl, rfl⟩ := Option.ite_some_none_eq_some.mp ho
        exact he
    | commit T' => cases ho
  · exact fun he => ⟨_, he, by simp [Entry.op?]⟩

/-- An access of a transaction, found in the history. -/
lemma exists_of_ops_eq {ops₁ ops₂ : List (Op Var Val)} (heq : ops h T = ops₁ ++ o :: ops₂) :
    ∃ h₁ h₂, h = h₁ ++ .access T o :: h₂ ∧ ops h₁ T = ops₁ := by
  obtain ⟨l₁, l₂, rfl, h1, h2⟩ := List.filterMap_eq_append_iff.mp heq
  obtain ⟨m₁, e, m₂, rfl, hnone, he, -⟩ := List.filterMap_eq_cons_iff.mp h2
  refine ⟨l₁ ++ m₁, m₂, ?_, ?_⟩
  · cases e with
    | access T' o' =>
        obtain ⟨rfl, rfl⟩ := Option.ite_some_none_eq_some.mp he
        rw [List.append_assoc]
    | commit T' => cases he
  · have h3 : ops m₁ T = [] := List.filterMap_eq_nil_iff.mpr hnone
    rw [ops_append, h3, List.append_nil]
    exact h1

/-- An access of a transaction that has not committed leaves the serial execution as it is. -/
lemma serial_access (hT : T ∉ order h) : serial (h ++ [.access T o]) = serial h := by
  have horder : order [Entry.access T o] = [] := rfl
  rw [serial, serial, order_append, horder, List.append_nil]
  refine List.flatMap_congr fun T' hT' => ?_
  have hne : T ≠ T' := by
    rintro rfl
    exact hT hT'
  simp [ops, Entry.op?, hne]

/-- A commit appends its transaction to the serial execution. -/
lemma serial_commit : serial (h ++ [.commit T]) = serial h ++ ops h T := by
  have hops : ops (h ++ [.commit T]) = ops h := by
    funext T'
    rw [ops_append]
    exact List.append_nil _
  rw [serial, serial, order_append, List.flatMap_append, hops]
  simp [order, Entry.commit?]

end Accesses

/-! ### The store -/

section Store

variable [DecidableEq Tran] [DecidableEq Var] {db : Var → Val}
  {h h₁ h₂ : List (Entry Tran Var Val)} {T : Tran} {o : Op Var Val} {v : Var}

/-- The database after `h`, which continues the history `past` with the database `db`. -/
def storeFrom (past : List (Entry Tran Var Val)) (db : Var → Val) :
    List (Entry Tran Var Val) → Var → Val
  | [] => db
  | .access T o :: h => storeFrom (past ++ [.access T o]) db h
  | .commit T :: h => storeFrom (past ++ [.commit T]) (runOps (ops past T) db) h

/-- **The database after a history**: each commit applies the writes of its transaction. -/
def store (db : Var → Val) (h : List (Entry Tran Var Val)) : Var → Val := storeFrom [] db h

lemma storeFrom_append {past : List (Entry Tran Var Val)} :
    storeFrom past db (h₁ ++ h₂) = storeFrom (past ++ h₁) (storeFrom past db h₁) h₂ := by
  induction h₁ generalizing past db with
  | nil => simp [storeFrom]
  | cons e h₁ ih =>
      cases e with
      | access T o =>
          rw [List.cons_append, storeFrom, ih, storeFrom, List.append_assoc]
          rfl
      | commit T =>
          rw [List.cons_append, storeFrom, ih, storeFrom, List.append_assoc]
          rfl

@[simp] lemma store_access : store db (h ++ [.access T o]) = store db h := by
  rw [store, storeFrom_append]
  rfl

@[simp] lemma store_commit : store db (h ++ [.commit T]) = runOps (ops h T) (store db h) := by
  rw [store, storeFrom_append]
  rfl

/-- A variable keeps its value as long as only transactions commit that have not written it. -/
lemma store_of_uncommitted (hno : ∀ m T' n, h₂ = m ++ .commit T' :: n →
    ∀ y, .access T' (.write v y) ∉ h₁ ++ m) : store db (h₁ ++ h₂) v = store db h₁ v := by
  induction h₂ using List.reverseRecOn with
  | nil => rw [List.append_nil]
  | append_singleton h₂ e ih =>
      have ih := ih fun m T' n heq => hno m T' (n ++ [e]) (by rw [heq]; simp)
      rw [← List.append_assoc]
      cases e with
      | access T o => rwa [store_access]
      | commit T =>
          rw [store_commit, runOps_of_unwritten, ih]
          exact fun y hy => hno h₂ T [] rfl y (mem_ops.mp hy)

/-- Each read of a transaction that commits returns what the transaction would read from the
database at that time, and until the transaction commits no other one commits a write of the
variable. -/
def ReadsLast (db : Var → Val) (h : List (Entry Tran Var Val)) : Prop :=
  ∀ h₁ T v x h₂, h = h₁ ++ .access T (.read v x) :: h₂ → .commit T ∈ h₂ →
    x = runOps (ops h₁ T) (store db h₁) v ∧
    ∀ m T' n, h₂ = m ++ .commit T' :: n → .commit T ∉ m → T' ≠ T →
      ∀ y, .access T' (.write v y) ∉ h₁ ++ m

lemma ReadsLast.of_append (h : ReadsLast db (h₁ ++ h₂)) : ReadsLast db h₁ := by
  rintro m T v x n rfl hT
  obtain ⟨h1, h2⟩ := h m T v x (n ++ h₂) (by simp) (List.mem_append_left _ hT)
  exact ⟨h1, fun m' T' n' heq => h2 m' T' (n' ++ h₂) (by rw [heq]; simp)⟩

/-- When a transaction commits, its accesses are legal from the database at that time. -/
lemma ReadsLast.legal (hr : ReadsLast db (h ++ [.commit T])) (hT : .commit T ∉ h) :
    Legal (store db h) (ops h T) := by
  refine legal_of_reads fun ops₁ v x ops₂ heq => ?_
  obtain ⟨h₁, h₂, rfl, rfl⟩ := exists_of_ops_eq heq
  obtain ⟨h1, h2⟩ := hr h₁ T v x (h₂ ++ [.commit T]) (by simp) (by simp)
  have hT₂ : .commit T ∉ h₂ := fun hm => hT (by simp [hm])
  rw [h1, List.append_cons]
  refine runOps_congr (Eq.trans ?_ (store_of_uncommitted fun m T' n hn y hy => ?_).symm)
  · rw [store_access]
  · -- the commits after the read are those of others
    subst hn
    rw [List.mem_append, not_or, List.mem_cons, not_or] at hT₂
    refine h2 m T' (n ++ [.commit T]) (by simp) hT₂.1 ?_ y (by simpa using hy)
    rintro rfl
    exact hT₂.2.1 rfl

/-- **Serializability**: the committed transactions can be executed one after the other, in the
order of their commits, and leave the same database. -/
theorem serializable (hc : CommitsLast h) (hr : ReadsLast db h) :
    Legal db (serial h) ∧ runOps (serial h) db = store db h := by
  induction h using List.reverseRecOn with
  | nil => exact ⟨trivial, rfl⟩
  | append_singleton h e ih =>
      obtain ⟨h1, h2⟩ := ih hc.of_append hr.of_append
      cases e with
      | access T o =>
          have hT : T ∉ order h := by
            intro hT
            obtain ⟨h₁, h₂, rfl⟩ := List.append_of_mem (mem_order.mp hT)
            exact (hc h₁ T (h₂ ++ [.access T o]) (by simp)).2 o (by simp)
          rw [serial_access hT, store_access]
          exact ⟨h1, h2⟩
      | commit T =>
          have hT : .commit T ∉ h := by
            intro hT
            obtain ⟨h₁, h₂, rfl⟩ := List.append_of_mem hT
            exact (hc h₁ T (h₂ ++ [.commit T]) (by simp)).1 (by simp)
          rw [serial_commit, legal_append, runOps_append, h2, store_commit]
          exact ⟨⟨h1, hr.legal hT⟩, rfl⟩

end Store

end Serial
