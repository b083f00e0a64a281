import RepCRec.Container.Loop
import RepCRec.Container.IterOrder
import RepCRec.Engine.Store

/-!
The state of the engine. The transaction manager is a singleton that owns the site manager
and the lock manager, so the state is one record: the pending request, the sites, the lock
table and the wait-for graph, the two indexes of live transactions, the site waiting map and
the blocked queue. The last field is the trace, a log of what the engine does that is kept for the
proofs: the locks it grants and the sites where it takes them, the values it reads and stores, and
which transactions wait, commit and abort.
-/

namespace RepCRec

open Container (IterOrder)

/-- The data of a request whose variable or site does not exist. -/
inductive Missing where
  | write (T : TranId) (v : MissingVar) (x : Value)
  | read (T : TranId) (v : MissingVar)
  | fail (s : MissingSite)
  | recover (s : MissingSite)
deriving DecidableEq

/-- A request, with one constructor for each subclass of `Request`, and one for the requests whose
variable or site does not exist. -/
inductive Request where
  | write (timestamp : Timestamp) (T : TranId) (v : VarId) (x : Value)
  | read (timestamp : Timestamp) (T : TranId) (v : VarId)
  | create (timestamp : Timestamp) (T : TranId) (isReadOnly : Bool)
  | finish (timestamp : Timestamp) (T : TranId)
  | dump (timestamp : Timestamp)
  | fail (timestamp : Timestamp) (s : SiteId)
  | recover (timestamp : Timestamp) (s : SiteId)
  | missing (timestamp : Timestamp) (m : Missing)
deriving DecidableEq

namespace Missing

/-- The transaction of the request, `-1` where there is none. -/
def transactionId : Missing → TranId
  | write T _ _ => T
  | read T _ => T
  | fail _ => -1
  | recover _ => -1

/-- The request is a `READ` or a `WRITE`. -/
def isReadWrite : Missing → Bool
  | write .. => true
  | read .. => true
  | _ => false

end Missing

namespace Request

def timestamp : Request → Timestamp
  | write ts _ _ _ => ts
  | read ts _ _ => ts
  | create ts _ _ => ts
  | finish ts _ => ts
  | dump ts => ts
  | fail ts _ => ts
  | recover ts _ => ts
  | missing ts _ => ts

/-- The transaction of a request, `-1` where there is none. -/
def transactionId : Request → TranId
  | write _ T _ _ => T
  | read _ T _ => T
  | create _ T _ => T
  | finish _ T => T
  | dump _ => -1
  | fail _ _ => -1
  | recover _ _ => -1
  | missing _ m => m.transactionId

/-- The request is a `READ` or a `WRITE`. -/
def isReadWrite : Request → Bool
  | write .. => true
  | read .. => true
  | missing _ m => m.isReadWrite
  | _ => false

/-- The request is a `BEGIN` or a `BEGINO`. -/
def isBegin : Request → Bool
  | create .. => true
  | _ => false

end Request

/-- The entries of the trace. They say what is done, and not in the words of the program: `installs`
is one store of a commit, for which nothing is printed, as nothing is for `waitsForSite`; a grant of
a write lock is printed in two lines, and that of a shared lock on an odd variable with the
read. -/
inductive Event where
  | created (T : TranId) (isReadOnly : Bool)
  | unavailable (r : Request)
  | waitsForLock (r : Request)
  | waitsForSite (r : Request)
  | locksNothing (r : Request)
  | sharedLock (T : TranId) (v : VarId) (sites : List SiteId)
  | writeLock (T : TranId) (v : VarId) (sites : List SiteId) (x : Value)
  | rewrites (T : TranId) (v : VarId) (x : Value)
  | reads (T : TranId) (s : SiteId) (v : VarId) (x : Value)
  | installs (T : TranId) (s : SiteId) (v : VarId) (x : Value) (timestamp : Timestamp)
  | committed (T : TranId)
  | commitFailed (T : TranId)
  | aborted (T : TranId)
  | dumped
  | failed (s : SiteId)
  | recovered (s : SiteId)
deriving DecidableEq

/-- An element of `transactions_set_`: what the engine reads of the transaction it points to. -/
structure TransactionRef where
  timestamp : Timestamp
  transactionId : TranId
deriving DecidableEq

/-- The managers of the engine in one record, with the log of what was done. -/
structure State where
  request : Option Request := none
  sites : SiteId → Site := fun _ => Site.initial
  lockTable : Dict TranId (List VarId) := ∅
  waitForGraph : Dict TranId (List TranId) := ∅
  transactionsSet : List TransactionRef := []
  siteWaitingMap : Dict TranId SiteId := ∅
  transactions : Dict TranId Transaction := ∅
  blockedTransactionsQueue : Dict TranId (List Request) := ∅
  trace : List Event := []

namespace State

/-- An entry is added to the log. -/
def emit (σ : State) (e : Event) : State := { σ with trace := σ.trace ++ [e] }

/-- The copy of the variable `v` at the site `s`. -/
def getVariable (σ : State) (s : SiteId) (v : VarId) : Variable := (σ.sites s).vars v

def isWriteAvailable (σ : State) (s : SiteId) : Bool := (σ.sites s).writeAvailable

def isReadAvailable (σ : State) (s : SiteId) (v : VarId) : Bool := (σ.sites s).readAvailable v

def modifySite (σ : State) (s : SiteId) (f : Site → Site) : State :=
  { σ with sites := Function.update σ.sites s (f (σ.sites s)) }

def modifyVariable (σ : State) (s : SiteId) (v : VarId) (f : Variable → Variable) : State :=
  σ.modifySite s fun st =>
    { st with vars := Function.update st.vars v (f (st.vars v)) }

/-- `transactions_.at(tran_id)`. -/
def getTransaction (σ : State) (T : TranId) : Except Fault Transaction :=
  match σ.transactions.lookup T with
  | some t => .ok t
  | none => .error .outOfRange

/-- Changes the transaction object of `T`, fetched by `get_transaction`. -/
def modifyTransaction (σ : State) (T : TranId) (f : Transaction → Transaction) :
    Except Fault State := do
  let t ← σ.getTransaction T
  return { σ with transactions := σ.transactions.insert T (f t) }

/-! ### What the updates change -/

section Updates

variable (σ : State) (s s' : SiteId) (v v' : VarId) (T : TranId) (e : Event) (f : Site → Site)
  (g : Variable → Variable)

@[simp] lemma sites_emit : (σ.emit e).sites = σ.sites := rfl
@[simp] lemma transactions_emit : (σ.emit e).transactions = σ.transactions := rfl
@[simp] lemma waitForGraph_emit : (σ.emit e).waitForGraph = σ.waitForGraph := rfl
@[simp] lemma trace_emit : (σ.emit e).trace = σ.trace ++ [e] := rfl
@[simp] lemma blockedTransactionsQueue_emit :
    (σ.emit e).blockedTransactionsQueue = σ.blockedTransactionsQueue := rfl
@[simp] lemma isReadAvailable_emit : (σ.emit e).isReadAvailable s v = σ.isReadAvailable s v := rfl

@[simp] lemma transactions_modifySite : (σ.modifySite s f).transactions = σ.transactions := rfl

/-- One site is changed. -/
lemma sites_modifySite :
    (σ.modifySite s f).sites s' = if s' = s then f (σ.sites s) else σ.sites s' := by
  by_cases h : s' = s
  · subst h; simp [modifySite]
  · simp [modifySite, h]

/-- One copy is changed. -/
lemma getVariable_modifyVariable :
    (σ.modifyVariable s v g).getVariable s' v'
      = if s' = s ∧ v' = v then g (σ.getVariable s v) else σ.getVariable s' v' := by
  by_cases hs : s' = s
  · subst hs
    by_cases hv : v' = v
    · subst hv; simp [modifyVariable, getVariable, sites_modifySite]
    · simp [modifyVariable, getVariable, sites_modifySite, hv]
  · simp [modifyVariable, getVariable, sites_modifySite, hs]

@[simp] lemma isWriteAvailable_modifyVariable :
    (σ.modifyVariable s v g).isWriteAvailable s' = σ.isWriteAvailable s' := by
  by_cases hs : s' = s
  · subst hs; simp [modifyVariable, isWriteAvailable, sites_modifySite]
  · simp [modifyVariable, isWriteAvailable, sites_modifySite, hs]

@[simp] lemma isReadAvailable_modifyVariable :
    (σ.modifyVariable s v g).isReadAvailable s' v' = σ.isReadAvailable s' v' := by
  by_cases hs : s' = s
  · subst hs; simp [modifyVariable, isReadAvailable, sites_modifySite]
  · simp [modifyVariable, isReadAvailable, sites_modifySite, hs]

end Updates

/-- `get_transaction` throws for the transactions that are not live. -/
lemma getTransaction_eq_ok {σ : State} {T : TranId} {t : Transaction} :
    σ.getTransaction T = .ok t ↔ σ.transactions.lookup T = some t := by
  rw [getTransaction]
  cases σ.transactions.lookup T <;> simp

/-- A live transaction is changed, and nothing else is. -/
lemma modifyTransaction_eq_ok {σ σ' : State} {T : TranId} {f : Transaction → Transaction} :
    σ.modifyTransaction T f = .ok σ' ↔ ∃ t, σ.transactions.lookup T = some t ∧
      σ' = { σ with transactions := σ.transactions.insert T (f t) } := by
  rw [modifyTransaction, Container.bind_eq_ok]
  simp only [getTransaction_eq_ok, Container.pure_eq_ok]
  exact exists_congr fun t => and_congr_right fun _ => eq_comm

end State

end RepCRec
