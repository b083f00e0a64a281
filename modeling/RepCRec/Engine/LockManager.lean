import RepCRec.Engine.State

/-!
The lock manager (`lock_manager.cc`): acquiring, assigning and releasing the locks on the
copies of a variable, the wait-for graph, and deadlock detection by depth-first search.
-/

namespace RepCRec

open Container (IterOrder)

namespace State

/-! ### The wait-for graph -/

/-- The transactions that `T` waits for. -/
def waitsFor (σ : State) (T : TranId) : List TranId := (σ.waitForGraph.lookup T).getD []

def isWaitingForLock (σ : State) (T : TranId) : Bool := !(σ.waitsFor T).isEmpty

/-- Despite its name: some other transaction waits for `T`. -/
def isWaitingForOthers (σ : State) (T : TranId) : Bool :=
  σ.waitForGraph.entries.any fun e => e.1 != T && decide (T ∈ e.2)

def assignWaitForGraph (o : IterOrder) (T : TranId) (ownerIds : List TranId) (σ : State) : State :=
  { σ with
    waitForGraph := (o.visit ownerIds).foldl
      (fun g owner => g.insert T (((g.lookup T).getD []).insert owner)) σ.waitForGraph }

/-! ### Acquiring locks -/

/-- The transactions named in a `NEED_TO_WAIT` answer to `T`. -/
def waitOwners (var : Variable) (T : TranId) : List TranId :=
  (if var.hasExclusiveLockExcludeSelf T then var.exclusiveLockOwner.toList else [])
    ∪ (if var.hasSharedLockExcludeSelf T then var.sharedLockOwners else [])
    ∪ (if var.hasSharedLock T then [T] else [])

/-- The loop over the copies of an even variable in `try_acquire_write_lock`. -/
def tryAcquireWriteLoop (σ : State) (T : TranId) (v : VarId) : List SiteId → LockStatus → LockStatus
  | [], ls => ls
  | s :: rest, ls =>
      if !σ.isWriteAvailable s then tryAcquireWriteLoop σ T v rest ls
      else
        let var := σ.getVariable s v
        if var.hasSharedLock T && !var.hasSharedLockExcludeSelf T
            && !var.hasExclusiveLockExcludeSelf T && !σ.isWaitingForOthers T then
          tryAcquireWriteLoop σ T v rest
            { ls with status := .hasReadLock, siteIdSet := ls.siteIdSet.insert s }
        else if var.hasSharedLockExcludeSelf T || var.hasExclusiveLockExcludeSelf T
            || var.hasSharedLock T then
          { siteIdSet := [], status := .needToWait, ownerIdSet := waitOwners var T }
        else if var.hasExclusiveLock T then
          { ls with siteIdSet := [], status := .hasWriteLock }
        else tryAcquireWriteLoop σ T v rest { ls with siteIdSet := ls.siteIdSet.insert s }

def tryAcquireWriteLock (σ : State) (T : TranId) (v : VarId) : LockStatus :=
  if v.isOdd then
    if !σ.isWriteAvailable v.home then { status := .siteUnavailable }
    else
      let var := σ.getVariable v.home v
      -- unlike the loop below, this test does not look at the exclusive lock
      if var.hasSharedLock T && !var.hasSharedLockExcludeSelf T
          && !var.hasSharedLockExcludeSelf T && !σ.isWaitingForOthers T then
        { siteIdSet := [v.home], status := .hasReadLock }
      else if var.hasExclusiveLockExcludeSelf T || var.hasSharedLockExcludeSelf T
          || var.hasSharedLock T then
        { status := .needToWait, ownerIdSet := waitOwners var T }
      else if var.hasExclusiveLock T then { status := .hasWriteLock }
      else { siteIdSet := [v.home], status := .availableToAssign }
  else tryAcquireWriteLoop σ T v SiteId.all { status := .availableToAssign }

/-- The loop over the copies of an even variable in `try_acquire_read_lock`. -/
def tryAcquireReadLoop (σ : State) (T : TranId) (v : VarId) : List SiteId → LockStatus → LockStatus
  | [], ls => { ls with status := .availableToAssign }
  | s :: rest, ls =>
      if !σ.isWriteAvailable s then tryAcquireReadLoop σ T v rest ls
      else
        let var := σ.getVariable s v
        if var.hasExclusiveLockExcludeSelf T then { ls with siteIdSet := [], status := .needToWait }
        else if var.hasExclusiveLock T || var.hasSharedLock T then
          { ls with siteIdSet := [], status := .hasReadWriteLock }
        else tryAcquireReadLoop σ T v rest { ls with siteIdSet := ls.siteIdSet.insert s }

def tryAcquireReadLock (σ : State) (T : TranId) (v : VarId) : LockStatus :=
  if v.isOdd then
    if !σ.isReadAvailable v.home v then { status := .siteUnavailable }
    else
      let var := σ.getVariable v.home v
      if var.hasExclusiveLockExcludeSelf T then { status := .needToWait }
      else if var.hasExclusiveLock T || var.hasSharedLock T then { status := .hasReadWriteLock }
      else { siteIdSet := [v.home], status := .availableToAssign }
  else tryAcquireReadLoop σ T v SiteId.all {}

/-! ### Assigning locks -/

/-- Enters `v` into the lock table of `T`. -/
def recordLock (σ : State) (T : TranId) (v : VarId) : State :=
  { σ with lockTable := σ.lockTable.insert T (((σ.lockTable.lookup T).getD []).insert v) }

def assignWriteLock (o : IterOrder) (T : TranId) (siteIdSet : List SiteId) (v : VarId)
    (σ : State) : Except Fault State :=
  (o.visit siteIdSet).foldlM (fun σ s => do
    if σ.isWriteAvailable s then
      let t ← σ.getTransaction T
      return (σ.modifyVariable s v fun x =>
        (x.removeSharedOwner T).setExclusiveTransaction t.transactionId).recordLock T v
    else return σ) σ

def assignShareLock (o : IterOrder) (T : TranId) (siteIdSet : List SiteId) (v : VarId)
    (σ : State) : Except Fault State :=
  (o.visit siteIdSet).foldlM (fun σ s => do
    if σ.isReadAvailable s v then
      let t ← σ.getTransaction T
      return (σ.recordLock T v).modifyVariable s v fun x =>
        x.addSharedTransaction t.transactionId
    else return σ) σ

/-! ### Releasing locks -/

def releaseCopy (T : TranId) (v : VarId) (σ : State) (s : SiteId) : State :=
  σ.modifyVariable s v fun x => x.releaseOwner T

def releaseVariable (T : TranId) (σ : State) (v : VarId) : State :=
  if v.isOdd then σ.releaseCopy T v v.home else SiteId.all.foldl (releaseCopy T v) σ

/-- The transactions whose entry in the wait-for graph becomes empty without `T`. The loop
erases `T` from a copy of each set, so an entry with another target keeps its edge to `T`. -/
def emptyIds (o : IterOrder) (T : TranId) (σ : State) : List TranId :=
  ((o.visit σ.waitForGraph.entries).filter fun e => (e.2.erase T).isEmpty).map Sigma.fst

def releaseLocks (o : IterOrder) (T : TranId) (σ : State) : State :=
  let σ := (o.visit ((σ.lockTable.lookup T).getD [])).foldl (releaseVariable T) σ
  { σ with
    waitForGraph :=
      ((o.visit (σ.emptyIds o T)).foldl (fun g T' => g.erase T') σ.waitForGraph).erase T
    lockTable := σ.lockTable.erase T }

/-- The transaction has a lock on the copy of `v` at `s`. -/
def Owns (σ : State) (T : TranId) (s : SiteId) (v : VarId) : Prop :=
  (σ.getVariable s v).exclusiveLockOwner = some T ∨ T ∈ (σ.getVariable s v).sharedLockOwners

end State

/-! ### Deadlock detection -/

/-- `dfs_status`. -/
inductive DfsStatus where
  | notVisit
  | onPath
  | visited
deriving DecidableEq

/-- What the search changes. Nodes that were not met have the status `NOT_VISIT`, and
`wait_for_graph_[tran_id]` adds an empty entry for a node without one. -/
structure Dfs where
  graph : Dict TranId (List TranId)
  visited : TranId → DfsStatus := fun _ => .notVisit
  hasCycle : Bool := false

namespace Dfs

/-- The targets of a node; the access adds an entry for the node. -/
def targets (d : Dfs) (T : TranId) : List TranId := (d.graph.lookup T).getD []

def touch (d : Dfs) (T : TranId) : Dfs :=
  if T ∈ d.graph then d else { d with graph := d.graph.insert T [] }

def mark (d : Dfs) (T : TranId) (c : DfsStatus) : Dfs :=
  { d with visited := Function.update d.visited T c }

/-- The loop over the targets of a node; `rec` is the search from a target. -/
def visitTargets (rec : TranId → Dfs → Option Dfs) (curr : TranId) :
    List TranId → Dfs → Option Dfs
  | [], d => some (d.mark curr .visited)
  | next :: rest, d =>
      if d.visited next = .onPath then some { d with hasCycle := true }
      else do
        let d ← if d.visited next = .notVisit then rec next d else some d
        if d.hasCycle then some d else visitTargets rec curr rest d

end Dfs

/-- The recursive search, `none` when it is deeper than `fuel`. -/
def waitForGraphDfs (o : IterOrder) : ℕ → TranId → Dfs → Option Dfs
  | 0, _, _ => none
  | fuel + 1, curr, d =>
      if d.visited curr = .visited || d.hasCycle then some d
      else
        let d := (d.mark curr .onPath).touch curr
        Dfs.visitTargets (waitForGraphDfs o fuel) curr (o.visit (d.targets curr)) d

/-- The loop of `detect_deadlock` over the nodes. -/
def detectDeadlockLoop (o : IterOrder) (fuel : ℕ) : List TranId → Dfs → Option Dfs
  | [], d => some d
  | T :: rest, d =>
      if d.visited T = .notVisit then do
        let d ← waitForGraphDfs o fuel T d
        if d.hasCycle then some d else detectDeadlockLoop o fuel rest d
      else detectDeadlockLoop o fuel rest d

namespace State

/-- The nodes of the wait-for graph, with the targets that have no entry. -/
def graphNodes (σ : State) : List TranId :=
  σ.waitForGraph.keys ++ σ.waitForGraph.entries.flatMap Sigma.snd

/-- Whether there is a deadlock, and the state with the entries that the search added. -/
def detectDeadlock (o : IterOrder) (σ : State) : Option (Bool × State) := do
  let d ← detectDeadlockLoop o (σ.graphNodes.length + 1) (o.visit σ.waitForGraph.keys)
    { graph := σ.waitForGraph }
  return (d.hasCycle, { σ with waitForGraph := d.graph })

end State

end RepCRec
