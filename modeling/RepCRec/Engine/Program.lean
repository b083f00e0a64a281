import RepCRec.Engine.Checker
import RepCRec.Engine.Dump
import RepCRec.Engine.Instruction
import RepCRec.Engine.Run

/-!
The program on the text of a test case (`execute_advanced_database` in `main.cpp`, in the mode that
writes a file). The lines are read, parsed and executed one by one, without the dumps; then the
queue is drained; a last instruction writes the dump. The clock runs from `10000`: it is advanced
before each instruction and after each round of the loop that drains the queue.
-/

namespace RepCRec

open Container (IStream StringFault bind_eq_ok lines)
open Container.StdString (startsWith)

/-- What stops the program. -/
inductive ProgramFault where
  /-- The constructor of an instruction. -/
  | text (e : StringFault)
  /-- The engine. -/
  | engine (e : Fault)
deriving DecidableEq

/-- The schedules of the calls of the engine: for the instruction with a given timestamp, in the
rounds of the loop that drains the queue, and for the dump. -/
structure Schedules where
  line : Timestamp → Schedule
  round : ℕ → Schedule
  last : Schedule

/-- All loops visit the elements in the order in which they are stored. -/
def Schedules.stored : Schedules :=
  ⟨fun _ => Schedule.stored, fun _ => Schedule.stored, Schedule.stored⟩

/-- `TransactionManager::curr_timestamp` at the start. -/
def startTimestamp : Timestamp := 10000

/-- The loop over the lines of the text, with the line that was read last and the clock. -/
def executeLines (sch : Timestamp → Schedule) (insrFile : IStream) (insr : List Char)
    (currTimestamp : Timestamp) (σ : State) : Except ProgramFault (Timestamp × State) :=
  match _hl : insrFile.getline insr with
  | (false, _, _) => .ok (currTimestamp, σ)
  | (true, insrFile', insr') =>
      if startsWith insr' "dump".toList then executeLines sch insrFile' insr' currTimestamp σ
      else do
        let instruction ← (Instruction.parse insr').mapError .text
        let σ' ← (σ.feed ⟨instruction, currTimestamp + 1, sch (currTimestamp + 1)⟩).mapError .engine
        executeLines sch insrFile' insr' (currTimestamp + 1) σ'
termination_by insrFile.left
decreasing_by
  all_goals
    have hread : (insrFile.getline insr).1 = true := by rw [_hl]
    have hlt := IStream.left_getline hread
    rwa [_hl] at hlt

/-- At most `n` rounds of the loop that drains the queue; nothing if it does not end with them. -/
def drainRounds (sch : ℕ → Schedule) :
    ℕ → Timestamp → State → Except Fault (Option (Timestamp × State))
  | 0, currTimestamp, σ =>
      .ok (if σ.isAllInstructionsFinished then some (currTimestamp, σ) else none)
  | n + 1, currTimestamp, σ =>
      if σ.isAllInstructionsFinished then .ok (some (currTimestamp, σ))
      else do
        drainRounds (fun i => sch (i + 1)) n (currTimestamp + 1)
          (← State.executeInstructions (sch 0) σ)

/-- What the execution of a request in the state `τ` writes to the file. -/
def Request.writes : Request → State → List Char
  | .dump _, τ => SiteManager.dump true τ.sites
  | _, _ => []

/-- What a call of the engine writes to the file. -/
def State.writes (sch : Schedule) (σ : State) : List Char :=
  (callsDirectly sch σ ++ callsFromQueue sch σ).flatMap fun p => p.1.writes p.2

/-- The file that the program writes for a text, if the loop that drains the queue ends with at most
`n` rounds. -/
def executeAdvancedDatabase (sch : Schedules) (n : ℕ) (text : List Char) :
    Except ProgramFault (Option (List Char)) := do
  let (currTimestamp, σ) ← executeLines sch.line { rest := text } [] startTimestamp State.initial
  match ← (drainRounds sch.round n currTimestamp σ).mapError .engine with
  | none => return none
  | some (currTimestamp, σ) =>
      let instruction ← (Instruction.parse "dump()".toList).mapError .text
      let σ ← (State.addInstruction instruction currTimestamp σ).mapError .engine
      let _ ← (State.executeInstructions sch.last σ).mapError .engine
      return some (σ.writes sch.last)

end RepCRec
