import PhpInsight.Peg.CharClass

namespace PhpInsight.Peg

inductive Expectation
  | literal (text : String)
  | oneOf (chars : CharClass)
  | label (text : String)

def Expectation.describe : Expectation → String
  | literal text => quoteText text
  | oneOf chars => chars.describe
  | label text => text

/-- A non-empty collection in which a thing may stand several times. -/
inductive Expected
  | only (e : Expectation)
  | both (left right : Expected)

def Expected.toList : Expected → List Expectation
  | only e => [e]
  | both l r => l.toList ++ r.toList

/-- Only the furthest position at which something was expected matters, with everything that was
expected exactly there. -/
inductive Failures
  | none
  | furthest (offset : Nat) (expected : Expected)

namespace Failures

def single (offset : Nat) (e : Expectation) : Failures := furthest offset (.only e)

def merge : Failures → Failures → Failures
  | none, g => g
  | f, none => f
  | f@(furthest m x), g@(furthest n y) =>
    if m < n then g else if n < m then f else furthest m (.both x y)

def offset : Failures → Nat
  | none => 0
  | furthest n _ => n

def expectations : Failures → List Expectation
  | none => []
  | furthest _ x => x.toList

private def insertDescription (text : String) : List String → List String
  | [] => [text]
  | t :: ts =>
    if text < t then text :: t :: ts
    else if text = t then t :: ts
    else t :: insertDescription text ts

def descriptions (f : Failures) : List String :=
  f.expectations.foldl (fun ts e ↦ insertDescription e.describe ts) []

def describe (f : Failures) : String :=
  match f.descriptions with
  | [] => "<unreported>"
  | [t] => t
  | ts => "one of " ++ ", ".intercalate ts

theorem offset_merge (f g : Failures) : (merge f g).offset = max f.offset g.offset := by
  cases f <;> cases g <;> simp only [merge, offset] <;> grind [offset]

end Failures

end PhpInsight.Peg
