import RepCRec.Engine.LockManager

/-!
The execution of requests (`request.cc`), with the parts of `transaction_manager.cc` and
`transaction.cc` that it calls: aborting, evicting and committing a transaction, the blocked
queue and the site waiting map.
-/

namespace RepCRec

open Container (IterOrder insertByKey)

namespace State

/-! ### The indexes of the transaction manager -/

/-- The set of live transactions compares by descending timestamps. -/
def addTransaction (T : TranId) (t : Transaction) (σ : State) : State :=
  { σ with
    transactions := σ.transactions.insert T t
    transactionsSet :=
      insertByKey (fun r : TransactionRef => -r.timestamp) ⟨t.timestamp, t.transactionId⟩
        σ.transactionsSet }

/-- `transactions_set_.erase(transactions_[tran_id]); transactions_.erase(tran_id)`. Without an
entry for `T` the first call compares the elements of the set with a null pointer. -/
def evictTransaction (T : TranId) (σ : State) : Except Fault State :=
  match σ.transactions.lookup T with
  | some t => .ok { σ with
      transactionsSet := σ.transactionsSet.filter fun r => r.timestamp != t.timestamp
      transactions := σ.transactions.erase T }
  | none => if σ.transactionsSet.isEmpty then .ok σ else .error .nullPointer

def addRequestToBlockedQueue (r : Request) (σ : State) : State :=
  { σ with
    blockedTransactionsQueue := σ.blockedTransactionsQueue.insert r.transactionId
      (insertByKey Request.timestamp r
        ((σ.blockedTransactionsQueue.lookup r.transactionId).getD [])) }

def abortTransaction (o : IterOrder) (T : TranId) (σ : State) : Except Fault State := do
  let σ ← σ.evictTransaction T
  let σ := { σ with blockedTransactionsQueue := σ.blockedTransactionsQueue.erase T }
  return (σ.releaseLocks o T).emit (.aborted T)

def isTransactionWaitingForSite (σ : State) (T : TranId) : Bool := decide (T ∈ σ.siteWaitingMap)

def addToSiteWaitingMap (T : TranId) (s : SiteId) (σ : State) : State :=
  { σ with siteWaitingMap := σ.siteWaitingMap.insert T s }

def removeFromSiteWaitingMap (o : IterOrder) (s : SiteId) (σ : State) : State :=
  let unblocked := ((o.visit σ.siteWaitingMap.entries).filter fun e => e.2 == s).map Sigma.fst
  { σ with siteWaitingMap := (o.visit unblocked).foldl (fun m T => m.erase T) σ.siteWaitingMap }

/-! ### Commit -/

/-- The stores of a commit to one site. -/
def installSite (o : IterOrder) (T : TranId) (commitTime : Timestamp) (σ : State)
    (e : (_ : SiteId) × Dict VarId Value) : State :=
  (o.visit e.2.entries).foldl (fun σ p =>
    (σ.modifySite e.1 fun st => (st.assignVar p.1 p.2 commitTime).setReadAvailable p.1).emit
      (.installs T e.1 p.1 p.2 commitTime)) σ

/-- `Transaction::commit`: the availability of the recorded accesses is checked, sites written
to first, and an access that fails the check aborts the transaction. -/
def commit (o : IterOrder) (T : TranId) (commitTime : Timestamp) (σ : State) :
    Except Fault (Bool × State) := do
  let t ← σ.getTransaction T
  if (o.visit t.writeAccessedSites.entries).any fun e => !σ.isWriteAvailable e.1 then
    return (false, ← σ.abortTransaction o T)
  else if (o.visit t.readAccessedSites.entries).any fun e =>
      (o.visit e.2.entries).any fun p => !σ.isReadAvailable e.1 p.1 then
    return (false, ← σ.abortTransaction o T)
  else return (true, (o.visit t.writeRecords.entries).foldl (installSite o T commitTime) σ)

/-! ### Writing -/

/-- `update_values` on each of the sites. -/
def updateValuesAt (o : IterOrder) (T : TranId) (siteIdSet : List SiteId) (v : VarId) (x : Value)
    (σ : State) : Except Fault State :=
  (o.visit siteIdSet).foldlM
    (fun σ s => σ.modifyTransaction T fun t => t.updateValues s v x) σ

/-- Records the value at the sites and takes the exclusive locks. -/
def grantWrite (o : IterOrder) (T : TranId) (siteIdSet : List SiteId) (v : VarId) (x : Value)
    (σ : State) : Except Fault State := do
  let σ ← σ.updateValuesAt o T siteIdSet v x
  let σ ← σ.assignWriteLock o T siteIdSet v
  return σ.emit (.writeLock T v siteIdSet x)

def execWrite (o : IterOrder) (timestamp : Timestamp) (T : TranId) (v : VarId) (x : Value)
    (σ : State) : Except Fault State :=
  let r := Request.write timestamp T v x
  let ls := σ.tryAcquireWriteLock T v
  if v.isOdd then
    match ls.status with
    | .siteUnavailable => return σ.emit (.unavailable r)
    | .needToWait =>
        return ((σ.assignWaitForGraph o T ls.ownerIdSet).addRequestToBlockedQueue r).emit
          (.waitsForLock r)
    | .hasWriteLock => do
        let σ ← σ.modifyTransaction T fun t => t.updateValues v.home v x
        return σ.emit (.rewrites T v x)
    | .hasReadLock => do
        let σ ← σ.modifyTransaction T fun t => t.updateValues v.home v x
        let σ ← σ.assignWriteLock o T ls.siteIdSet v
        return σ.emit (.writeLock T v ls.siteIdSet x)
    | .availableToAssign => do
        let σ ← σ.modifyTransaction T fun t => t.updateValues v.home v x
        let σ ← σ.assignWriteLock o T ls.siteIdSet v
        return σ.emit (.writeLock T v ls.siteIdSet x)
    | _ => .error .errorStatus
  else
    match ls.status with
    | .needToWait =>
        return ((σ.assignWaitForGraph o T ls.ownerIdSet).addRequestToBlockedQueue r).emit
          (.waitsForLock r)
    | .hasWriteLock => do
        let σ ← σ.updateValuesAt o T ls.siteIdSet v x
        return σ.emit (.rewrites T v x)
    | .hasReadLock => σ.grantWrite o T ls.siteIdSet v x
    | .availableToAssign => σ.grantWrite o T ls.siteIdSet v x
    | _ => .error .errorStatus

/-! ### Reading -/

/-- The read of an odd variable waits for the site of its copy. -/
def waitForSite (r : Request) (T : TranId) (varId : ℤ) (s : SiteId) (σ : State) :
    Except Fault State := do
  let σ ← if σ.isTransactionWaitingForSite T then pure σ else do
    let σ ← σ.modifyTransaction T fun t => t.setWaitingVarId varId
    pure (σ.addToSiteWaitingMap T s)
  return (σ.addRequestToBlockedQueue r).emit (.waitsForSite r)

/-- A read-only transaction reads the version of a copy at its own timestamp. -/
def readVersion (T : TranId) (timestamp : Timestamp) (s : SiteId) (v : VarId) (σ : State) :
    Except Fault State :=
  match (σ.getVariable s v).getValue timestamp with
  | some x => do
      let σ ← σ.modifyTransaction T fun t => t.addReadHistory s v x
      return σ.emit (.reads T s v x)
  | none => .error .invalidIterator

def handleReadOnlyRequest (o : IterOrder) (timestamp : Timestamp) (T : TranId) (v : VarId)
    (σ : State) : Except Fault State := do
  let t ← σ.getTransaction T
  if v.isOdd then
    if σ.isReadAvailable v.home v then σ.readVersion T t.timestamp v.home v
    else σ.waitForSite (.read timestamp T v) T v.id v.home
  else
    match SiteId.all.find? fun s => σ.isReadAvailable s v with
    | some s => σ.readVersion T t.timestamp s v
    | none => σ.abortTransaction o T

/-- The value is read from the first site that the loop over `site_id_set` visits. -/
def readFirst (T : TranId) (v : VarId) (sites : List SiteId) (σ : State) : State :=
  match sites with
  | [] => σ
  | s :: _ => σ.emit (.reads T s v (σ.getVariable s v).value)

def handleReadRequest (o : IterOrder) (timestamp : Timestamp) (T : TranId) (v : VarId)
    (σ : State) : Except Fault State := do
  let _ ← σ.getTransaction T
  let r := Request.read timestamp T v
  let ls := σ.tryAcquireWriteLock T v
  if v.isOdd then
    if σ.isReadAvailable v.home v then
      let x := (σ.getVariable v.home v).value
      match ls.status with
      | .siteUnavailable => return σ.emit (.unavailable r)
      | .needToWait =>
          return ((σ.assignWaitForGraph o T ls.ownerIdSet).addRequestToBlockedQueue r).emit
            (.waitsForLock r)
      | .hasReadWriteLock => do
          let σ ← σ.modifyTransaction T fun t => t.addReadHistory v.home v x
          return σ.emit (.reads T v.home v x)
      | .availableToAssign => do
          let σ ← σ.assignShareLock o T ls.siteIdSet v
          let σ ← σ.modifyTransaction T fun t => t.addReadHistory v.home v x
          return (σ.emit (.sharedLock T v ls.siteIdSet)).emit (.reads T v.home v x)
      | _ => .error .errorStatus
    else σ.waitForSite r T v.id v.home
  else
    match ls.status with
    | .needToWait =>
        return ((σ.assignWaitForGraph o T ls.ownerIdSet).addRequestToBlockedQueue r).emit
          (.waitsForLock r)
    | .hasReadWriteLock => return σ.readFirst T v (o.visit ls.siteIdSet)
    | .availableToAssign => do
        let σ' := σ.readFirst T v (o.visit ls.siteIdSet)
        let σ' ← σ'.assignShareLock o T ls.siteIdSet v
        return σ'.emit (.sharedLock T v (ls.siteIdSet.filter fun s => σ.isReadAvailable s v))
    | _ => .error .errorStatus

def execRead (o : IterOrder) (timestamp : Timestamp) (T : TranId) (v : VarId) (σ : State) :
    Except Fault State := do
  let t ← σ.getTransaction T
  if t.isReadOnly then σ.handleReadOnlyRequest o timestamp T v
  else σ.handleReadRequest o timestamp T v

/-! ### Variables and sites that do not exist -/

/-- The write of a variable that no site has. An available site returns a null pointer for it, which
counts as a copy without locks; it is dereferenced when the lock is assigned, after the transaction
has been looked up. -/
def execWriteMissing (r : Request) (T : TranId) (v : MissingVar) (σ : State) :
    Except Fault State := do
  if v.isOdd then
    match v.home? with
    | none => .error .nullPointer
    | some s =>
        if !σ.isWriteAvailable s then return σ.emit (.unavailable r)
        else do
          let _ ← σ.getTransaction T
          .error .nullPointer
  else if SiteId.all.any σ.isWriteAvailable then do
    let _ ← σ.getTransaction T
    .error .nullPointer
  else return σ.emit (.locksNothing r)

/-- The read of a variable that no site has, which is available for reads at no site. -/
def execReadMissing (o : IterOrder) (r : Request) (T : TranId) (v : MissingVar) (σ : State) :
    Except Fault State := do
  let t ← σ.getTransaction T
  if v.isOdd then
    match v.home? with
    | none => .error .nullPointer
    | some s => σ.waitForSite r T v.id s
  else if t.isReadOnly then σ.abortTransaction o T
  else if SiteId.all.any σ.isWriteAvailable then .error .nullPointer
  else return σ.emit (.locksNothing r)

/-- A request whose variable or site does not exist. -/
def execMissing (o : IterOrder) (timestamp : Timestamp) (m : Missing) (σ : State) :
    Except Fault State :=
  match m with
  | .write T v _ => σ.execWriteMissing (.missing timestamp m) T v
  | .read T v => σ.execReadMissing o (.missing timestamp m) T v
  | .fail _ => .error .nullPointer
  | .recover _ => .error .nullPointer

/-! ### The other requests -/

def execCreate (timestamp : Timestamp) (T : TranId) (isReadOnly : Bool) (σ : State) : State :=
  (σ.addTransaction T { transactionId := T, timestamp, isReadOnly }).emit (.created T isReadOnly)

def execFinish (o : IterOrder) (timestamp : Timestamp) (T : TranId) (σ : State) :
    Except Fault State := do
  let (success, σ) ← σ.commit o T timestamp
  if success then
    let σ ← (σ.releaseLocks o T).evictTransaction T
    return σ.emit (.committed T)
  else return σ.emit (.commitFailed T)

/-- The transactions that have written to the site. -/
def writersAt (o : IterOrder) (s : SiteId) (σ : State) : List TranId :=
  ((o.visit σ.transactions.entries).filter fun e => e.2.isWrittenIntoSite s).map Sigma.fst

def execFail (o : IterOrder) (s : SiteId) (σ : State) : Except Fault State := do
  let σ := σ.modifySite s Site.setUnavailable
  let σ ← (o.visit (σ.writersAt o s)).foldlM (fun σ T => σ.abortTransaction o T) σ
  return σ.emit (.failed s)

/-- The odd variables of an even site `s` are `s - 1` and `s - 1 + 10`. -/
def uniqueVars (s : SiteId) : List VarId :=
  if (s.id - 1) % 2 = 1 then
    (VarId.ofInt? (s.id - 1)).toList ++ (VarId.ofInt? (s.id - 1 + 10)).toList
  else []

def execRecover (o : IterOrder) (s : SiteId) (σ : State) : State :=
  let σ := σ.modifySite s Site.setWriteAvailable
  let σ := (uniqueVars s).foldl (fun σ v => σ.modifySite s fun st => st.setReadAvailable v) σ
  (σ.removeFromSiteWaitingMap o s).emit (.recovered s)

/-- `Request::exec`. -/
def exec (o : IterOrder) (r : Request) (σ : State) : Except Fault State :=
  match r with
  | .write timestamp T v x => σ.execWrite o timestamp T v x
  | .read timestamp T v => σ.execRead o timestamp T v
  | .create timestamp T isReadOnly => return σ.execCreate timestamp T isReadOnly
  | .finish timestamp T => σ.execFinish o timestamp T
  | .dump _ => return σ.emit .dumped
  | .fail _ s => σ.execFail o s
  | .recover _ s => return σ.execRecover o s
  | .missing timestamp m => σ.execMissing o timestamp m

end State

end RepCRec
