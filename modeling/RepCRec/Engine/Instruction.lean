import RepCRec.Container.Loop
import RepCRec.Container.StdString
import RepCRec.Engine.Global

/-!
The constructor of an instruction from a line of text (`instruction.cc`). The kind is told by what
the line starts with, the fields stand behind the first opening parenthesis: the text up to the
first closing one for the kinds with one field, and the tokens of a loop over the characters for a
read or write. The loop ends at a closing parenthesis only; where it leaves the line, the access is
undefined.
-/

namespace RepCRec

open Container (StringFault bind_eq_ok ok_bind)
open Container.StdString

namespace Instruction

/-! ### The fields -/

/-- The position behind the first opening parenthesis, `0` when there is none. -/
def start (insr : List Char) : ℕ := wrap (findFirstOf '(' insr + 1)

/-- The position of the first closing parenthesis. -/
def stop (insr : List Char) : ℕ := findFirstOf ')' insr

/-- The number behind the letter of a transaction. -/
def parseTranId (insr : List Char) : Except StringFault ℤ := do
  stoi (← substr insr (wrap (start insr + 1)) (wrapSub (wrapSub (stop insr) (start insr)) 1))

def parseSiteId (insr : List Char) : Except StringFault ℤ := do
  stoi (← substr insr (start insr) (wrapSub (stop insr) (start insr)))

/-! ### The tokens -/

/-- The loop over the characters of a read or write, with the elements of the line from `index` on:
the position where it stops and the tokens. -/
def tokenLoop : List Char → ℕ → List Char → List (List Char) →
    Except StringFault (ℕ × List (List Char))
  | [], _, _, _ => .error .outOfBounds
  | c :: rest, index, token, tokens =>
      if c = ')' then .ok (index, tokens ++ [token])
      else if c = ',' then tokenLoop rest (index + 1) [] (tokens ++ [token])
      else tokenLoop rest (index + 1) (token ++ [c]) tokens

/-- The position at which the loop begins. -/
def tokenStart (insr : List Char) : ℕ := wrap (start insr + 1)

def tokenize (insr : List Char) : Except StringFault (ℕ × List (List Char)) :=
  tokenLoop (elementsFrom insr (tokenStart insr)) (tokenStart insr) [] []

/-- `tokens[i]`. -/
def tokenAt (tokens : List (List Char)) (i : ℕ) : Except StringFault (List Char) :=
  match tokens[i]? with
  | some token => .ok token
  | none => .error .outOfBounds

/-- The number behind the letter of a variable. -/
def parseVarId (tokens : List (List Char)) : Except StringFault ℤ := do
  let token ← tokenAt tokens 1
  stoi (← substrFrom token 1)

def parseWrite (insr : List Char) : Except StringFault Instruction := do
  let (_, tokens) ← tokenize insr
  let tranId ← stoi (← tokenAt tokens 0)
  let varId ← parseVarId tokens
  let varValue ← stoi (← tokenAt tokens 2)
  return .write tranId varId varValue

def parseRead (insr : List Char) : Except StringFault Instruction := do
  let (_, tokens) ← tokenize insr
  let tranId ← stoi (← tokenAt tokens 0)
  let varId ← parseVarId tokens
  return .read tranId varId

/-! ### The constructor -/

/-- `Instruction::Instruction`. -/
def parse (insr : List Char) : Except StringFault Instruction :=
  if startsWith insr "beginRO".toList then return .beginRO (← parseTranId insr)
  else if startsWith insr "begin".toList then return .begin (← parseTranId insr)
  else if startsWith insr "end".toList then return .finish (← parseTranId insr)
  else if startsWith insr "dump".toList then return .dump
  else if startsWith insr "recover".toList then return .recover (← parseSiteId insr)
  else if startsWith insr "fail".toList then return .fail (← parseSiteId insr)
  else if startsWith insr "W".toList then parseWrite insr
  else if startsWith insr "R".toList then parseRead insr
  else return .unknown

end Instruction

end RepCRec
