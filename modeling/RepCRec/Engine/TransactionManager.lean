import RepCRec.Engine.Requests

/-!
The transaction manager (`transaction_manager.cc`): an instruction becomes the pending request
(`addInstruction`), and `executeInstructions` resolves the deadlocks, executes or queues the
pending request, and walks the blocked queue. The loop of `main.cpp` that drains the queue
after the last instruction is `drain`.
-/

namespace RepCRec

open Container (IterOrder)

/-- The orders in which one call of `execute_instructions` visits the unordered containers: when it
looks for deadlocks and aborts, in the walk over the blocked queue, in the loop over the finished
transactions, and in the execution of the request with a given timestamp. -/
structure Schedule where
  detect : IterOrder
  walk : IterOrder
  finish : IterOrder
  exec : Timestamp → IterOrder

/-- All loops visit the elements in the order in which they are stored. -/
def Schedule.stored : Schedule :=
  ⟨IterOrder.stored, IterOrder.stored, IterOrder.stored, fun _ => IterOrder.stored⟩

/-- The request that an instruction becomes. Nothing is checked of its variable or site here. -/
def Instruction.request (timestamp : Timestamp) : Instruction → Except Fault Request
  | .begin T => .ok (.create timestamp T false)
  | .beginRO T => .ok (.create timestamp T true)
  | .read T n =>
      match h : VarId.ofInt? n with
      | some v => .ok (.read timestamp T v)
      | none => .ok (.missing timestamp (.read T ⟨n, h⟩))
  | .write T n x =>
      match h : VarId.ofInt? n with
      | some v => .ok (.write timestamp T v x)
      | none => .ok (.missing timestamp (.write T ⟨n, h⟩ x))
  | .recover n =>
      match h : SiteId.ofInt? n with
      | some s => .ok (.recover timestamp s)
      | none => .ok (.missing timestamp (.recover ⟨n, h⟩))
  | .fail n =>
      match h : SiteId.ofInt? n with
      | some s => .ok (.fail timestamp s)
      | none => .ok (.missing timestamp (.fail ⟨n, h⟩))
  | .dump => .ok (.dump timestamp)
  | .finish T => .ok (.finish timestamp T)
  | .unknown => .error .unknownInstruction

namespace State

/-- An instruction becomes the pending request. -/
def addInstruction (insr : Instruction) (timestamp : Timestamp) (σ : State) :
    Except Fault State := do
  return { σ with request := some (← insr.request timestamp) }

/-- The loop `while (detect_deadlock())`, which aborts the first transaction of the set. -/
def resolveDeadlocks (o : IterOrder) : ℕ → State → Except Fault State
  | 0, _ => .error .diverged
  | fuel + 1, σ =>
      match σ.detectDeadlock o with
      | none => .error .diverged
      | some (false, σ) => .ok σ
      | some (true, σ) =>
          match σ.transactionsSet with
          | [] => .error .invalidIterator
          | t :: _ => do resolveDeadlocks o fuel (← σ.abortTransaction o t.transactionId)

/-- The transaction of the request was aborted, or never begun. -/
def isStale (σ : State) (r : Request) : Bool :=
  r.transactionId != -1 && !decide (r.transactionId ∈ σ.transactions) && !r.isBegin

/-- The pending request waits with its transaction. -/
def isBlocked (σ : State) (T : TranId) : Bool :=
  σ.isWaitingForLock T || decide (T ∈ σ.blockedTransactionsQueue)
    || σ.isTransactionWaitingForSite T

/-- Executes a copy of the blocked requests of `T`. The flag says that the entry of `T`, on
which the loop over the queue stands, has not been erased meanwhile. -/
def execBlocked (sch : Schedule) (T : TranId) :
    List Request → Bool → State → Except Fault (Bool × State)
  | [], kept, σ => .ok (kept, σ)
  | r :: rest, kept, σ => do
      let σ ← σ.exec (sch.exec r.timestamp) r
      execBlocked sch T rest (kept && decide (T ∈ σ.blockedTransactionsQueue)) σ

/-- The walk over the blocked queue, given the keys that are still to be visited, and the set of
transactions whose requests were executed. -/
def walkBlocked (sch : Schedule) :
    List TranId → List TranId → State → Except Fault (List TranId × State)
  | [], finished, σ => .ok (finished, σ)
  | T :: rest, finished, σ =>
      match σ.blockedTransactionsQueue.lookup T with
      | none => walkBlocked sch rest finished σ
      | some requestSet =>
          if !σ.isWaitingForLock T && !σ.isTransactionWaitingForSite T then do
            let (kept, σ) ← execBlocked sch T requestSet true σ
            -- advancing an iterator whose element was erased is undefined
            if kept then walkBlocked sch rest (finished.insert T) σ else .error .invalidIterator
          else walkBlocked sch rest finished σ

/-- The part of `execute_instructions` after the pending request was executed. -/
def serveBlocked (sch : Schedule) (σ : State) : Except Fault State := do
  let (finished, σ) ← walkBlocked sch (sch.walk.visit σ.blockedTransactionsQueue.keys) [] σ
  return { σ with
    blockedTransactionsQueue :=
      (sch.finish.visit finished).foldl (fun q T => q.erase T) σ.blockedTransactionsQueue
    request := none }

def executeInstructions (sch : Schedule) (σ : State) : Except Fault State := do
  let σ ← resolveDeadlocks sch.detect (σ.transactions.keys.length + 1) σ
  match σ.request with
  | none => serveBlocked sch σ
  | some r =>
      if σ.isStale r then return { σ with request := none }
      else if σ.isBlocked r.transactionId then
        if r.isReadWrite then
          let σ ← σ.exec (sch.exec r.timestamp) r
          return { σ with request := none }
        else return { σ.addRequestToBlockedQueue r with request := none }
      else
        let σ ← σ.exec (sch.exec r.timestamp) r
        serveBlocked sch σ

def isAllInstructionsFinished (σ : State) : Bool :=
  σ.request.isNone && σ.blockedTransactionsQueue.keys.isEmpty

/-- The first `n` rounds of the loop that drains the queue; `sch i` are the orders in round
`i`. The flag says that the loop has ended. -/
def drain (sch : ℕ → Schedule) : ℕ → State → Except Fault (Bool × State)
  | 0, σ => .ok (σ.isAllInstructionsFinished, σ)
  | n + 1, σ =>
      if σ.isAllInstructionsFinished then .ok (true, σ)
      else do drain (fun i => sch (i + 1)) n (← executeInstructions (sch 0) σ)

end State

end RepCRec
