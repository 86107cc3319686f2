import PhpInsight.Peg.Failure
import PhpInsight.Text.Bytes

namespace PhpInsight.Peg

structure Cursor where
  rest : List Char
  offset : Nat

inductive Outcome (α : Type)
  | matched (value : α) (next : Cursor) (failures : Failures)
  | failed (failures : Failures)

namespace Outcome

def withFailures {α : Type} (f : Failures) : Outcome α → Outcome α
  | matched a next g => matched a next (f.merge g)
  | failed g => failed (f.merge g)

def value? {α : Type} : Outcome α → Option α
  | matched a _ _ => some a
  | failed _ => none

def failures {α : Type} : Outcome α → Failures
  | matched _ _ f => f
  | failed f => f

end Outcome

/-- A parser reads from a cursor and either matches, moving on, or fails. Either way it reports
the furthest failures on the way, those of alternatives that were given up among them. -/
def Parser (α : Type) : Type := Cursor → Outcome α

namespace Parser

variable {α β : Type}

protected def pure (a : α) : Parser α := fun c ↦ .matched a c .none

protected def bind (p : Parser α) (f : α → Parser β) : Parser β := fun c ↦
  match p c with
  | .matched a next g => (f a next).withFailures g
  | .failed g => .failed g

instance : Monad Parser where
  pure := Parser.pure
  bind := Parser.bind

protected def orElse (p : Parser α) (q : Unit → Parser α) : Parser α := fun c ↦
  match p c with
  | .failed g => (q () c).withFailures g
  | o => o

instance : OrElse (Parser α) := ⟨Parser.orElse⟩

def fail : Parser α := fun _ ↦ .failed .none

def failExpecting (label : String) : Parser α := fun c ↦ .failed (.single c.offset (.label label))

def position : Parser Nat := fun c ↦ .matched c.offset c .none

def oneOf (k : CharClass) : Parser Unit := fun c ↦
  match c.rest with
  | [] => .failed (.single c.offset (.oneOf k))
  | x :: xs =>
    if k.contains x then .matched () ⟨xs, c.offset + x.utf8Size⟩ .none
    else .failed (.single c.offset (.oneOf k))

end Parser

def Cursor.dropText? : List Char → Cursor → Option Cursor
  | [], c => some c
  | t :: ts, c =>
    match c.rest with
    | [] => none
    | x :: xs => if x = t then dropText? ts ⟨xs, c.offset + x.utf8Size⟩ else none

namespace Parser

variable {α β : Type}

def literal (text : String) : Parser Unit := fun c ↦
  match c.dropText? text.toList with
  | some next => .matched () next .none
  | none => .failed (.single c.offset (.literal text))

/-- As many matches as follow one another. Each takes at least one character, so there are at
most as many as characters left, which is what `fuel` counts off. -/
def manyFrom (p : Parser α) : (fuel : List Char) → Parser (List α)
  | fuel, c =>
    match p c with
    | .failed g => .matched [] c g
    | .matched a next g =>
      match fuel with
      | [] => .matched [a] next g
      | _ :: fuel =>
        match manyFrom p fuel next with
        | .matched as last h => .matched (a :: as) last (g.merge h)
        | .failed h => .failed (g.merge h)

def many (p : Parser α) : Parser (List α) := fun c ↦ manyFrom p c.rest c

def skipManyFrom (p : Parser Unit) : (fuel : List Char) → Failures → Cursor → Outcome Unit
  | fuel, f, c =>
    match p c with
    | .failed g => .matched () c (f.merge g)
    | .matched _ next g =>
      match fuel with
      | [] => .matched () next (f.merge g)
      | _ :: fuel => skipManyFrom p fuel (f.merge g) next

def skipMany (p : Parser Unit) : Parser Unit := fun c ↦ skipManyFrom p c.rest .none c

def foldManyFrom (step : α → Parser α) : (fuel : List Char) → α → Parser α
  | fuel, a, c =>
    match step a c with
    | .failed g => .matched a c g
    | .matched b next g =>
      match fuel with
      | [] => .matched b next g
      | _ :: fuel => (foldManyFrom step fuel b next).withFailures g

def foldMany (step : α → Parser α) (a : α) : Parser α := fun c ↦ foldManyFrom step c.rest a c

def optional (p : Parser α) : Parser (Option α) := fun c ↦
  match p c with
  | .matched a next g => .matched (some a) next g
  | .failed g => .matched none c g

def isPresent (p : Parser Unit) : Parser Bool := do
  return (← optional p).isSome

/-- One or more matches of `p` with `separator` between them; a trailing one is left. -/
def sepBy1 (p : Parser α) (separator : Parser Unit) : Parser (List α) := do
  let a ← p
  let as ← many (do separator; p)
  return a :: as

def sepBy (p : Parser α) (separator : Parser Unit) : Parser (List α) := do
  return (← optional (sepBy1 p separator)).getD []

/-- Failures inside are not reported. -/
def quiet (p : Parser α) : Parser α := fun c ↦
  match p c with
  | .matched a next _ => .matched a next .none
  | .failed _ => .failed .none

def ahead (p : Parser Unit) : Parser Unit := fun c ↦
  match p c with
  | .matched _ _ _ => .matched () c .none
  | .failed _ => .failed .none

def notAhead (p : Parser Unit) : Parser Unit := fun c ↦
  match p c with
  | .matched _ _ _ => .failed .none
  | .failed _ => .matched () c .none

def textOf (p : Parser Unit) : Parser String := fun c ↦
  match p c with
  | .matched _ next g =>
    .matched (String.ofList (Text.takeBytes (next.offset - c.offset) c.rest)) next g
  | .failed g => .failed g

def firstOf : List (Parser α) → Parser α
  | [] => fail
  | p :: ps => p <|> firstOf ps

end Parser

end PhpInsight.Peg
