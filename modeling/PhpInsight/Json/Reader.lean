namespace PhpInsight.Json

structure NumberText where
  negative : Bool
  mantissa : Nat
  exponent : Int
  /-- Whether it is written without fraction and exponent. -/
  isInteger : Bool

/-- A JSON text taken apart without judging what stands in it: numbers stay as they are written,
and a string whose escapes name no characters has no decoding. -/
inductive Raw
  | null
  | bool (b : Bool)
  | number (n : NumberText)
  | string (text : Option String)
  | array (items : List Raw)
  | object (fields : List (Option String × Raw))

namespace Raw

def isSpace (c : Char) : Bool := c = ' ' || c = '\t' || c = '\n' || c = '\r'

def skipSpace (cs : List Char) : List Char := cs.dropWhile isSpace

def hexValue? (c : Char) : Option Nat :=
  if '0' ≤ c && c ≤ '9' then some (c.toNat - '0'.toNat)
  else if 'a' ≤ c && c ≤ 'f' then some (c.toNat - 'a'.toNat + 10)
  else if 'A' ≤ c && c ≤ 'F' then some (c.toNat - 'A'.toNat + 10)
  else none

def unit? (a b c d : Char) : Option Nat := do
  return (((← hexValue? a) * 16 + (← hexValue? b)) * 16 + (← hexValue? c)) * 16 + (← hexValue? d)

inductive Piece
  | char (c : Char)
  | unit (n : Nat)

def simpleEscape? (c : Char) : Option Char :=
  if c = '"' || c = '\\' || c = '/' then some c
  else if c = 'b' then some (Char.ofNat 8)
  else if c = 'f' then some (Char.ofNat 12)
  else if c = 'n' then some '\n'
  else if c = 'r' then some '\r'
  else if c = 't' then some '\t'
  else none

def readPieces : List Char → Option (List Piece × List Char)
  | [] => none
  | '"' :: cs => some ([], cs)
  | '\\' :: 'u' :: a :: b :: c :: d :: cs => do
    let n ← unit? a b c d
    let (pieces, rest) ← readPieces cs
    return (.unit n :: pieces, rest)
  | '\\' :: e :: cs => do
    let c ← simpleEscape? e
    let (pieces, rest) ← readPieces cs
    return (.char c :: pieces, rest)
  | c :: cs =>
    if c = '\\' || c.toNat < 32 then none
    else do
      let (pieces, rest) ← readPieces cs
      return (.char c :: pieces, rest)

def isLeading (n : Nat) : Bool := 0xD800 ≤ n && n < 0xDC00

def isTrailing (n : Nat) : Bool := 0xDC00 ≤ n && n < 0xE000

/-- Units must be characters or pairs of surrogates, each written as a unit. -/
def decode : List Piece → Option (List Char)
  | [] => some []
  | .char c :: ps => (decode ps).map (c :: ·)
  | .unit m :: .unit n :: ps =>
    if isLeading m then
      if isTrailing n then
        (decode ps).map (Char.ofNat (0x10000 + (m - 0xD800) * 0x400 + (n - 0xDC00)) :: ·)
      else none
    else if isTrailing m then none
    else (decode (.unit n :: ps)).map (Char.ofNat m :: ·)
  | .unit m :: ps =>
    if isLeading m || isTrailing m then none else (decode ps).map (Char.ofNat m :: ·)

def readString (cs : List Char) : Option (Option String × List Char) := do
  let (pieces, rest) ← readPieces cs
  return ((decode pieces).map String.ofList, rest)

def digits (cs : List Char) : List Char × List Char := cs.span Char.isDigit

def valueOf (ds : List Char) : Nat := ds.foldl (fun n d ↦ n * 10 + (d.toNat - '0'.toNat)) 0

def readInteger (cs : List Char) : Option (List Char × List Char) :=
  match digits cs with
  | ([], _) => none
  | ('0' :: _ :: _, _) => none
  | r => some r

def readFraction (cs : List Char) : Option (List Char × List Char) :=
  match cs with
  | '.' :: cs =>
    match digits cs with
    | ([], _) => none
    | r => some r
  | cs => some ([], cs)

def readSignedDigits (cs : List Char) : Option (Int × List Char) :=
  let (negative, cs) := match cs with
    | '-' :: cs => (true, cs)
    | '+' :: cs => (false, cs)
    | cs => (false, cs)
  match digits cs with
  | ([], _) => none
  | (ds, rest) => some (if negative then -(valueOf ds : Int) else valueOf ds, rest)

def readExponent (cs : List Char) : Option (Option Int × List Char) :=
  match cs with
  | 'e' :: cs | 'E' :: cs => (readSignedDigits cs).map fun r ↦ (some r.1, r.2)
  | cs => some (none, cs)

def readNumber (cs : List Char) : Option (NumberText × List Char) := do
  let (negative, cs) := match cs with
    | '-' :: cs => (true, cs)
    | cs => (false, cs)
  let (whole, cs) ← readInteger cs
  let (fraction, cs) ← readFraction cs
  let (exponent, cs) ← readExponent cs
  return ({
    negative := negative
    mantissa := valueOf (whole ++ fraction)
    exponent := exponent.getD 0 - fraction.length
    isInteger := fraction.isEmpty && exponent.isNone }, cs)

def readWord (word : String) (r : Raw) (cs : List Char) : Option (Raw × List Char) :=
  if word.toList.isPrefixOf cs then some (r, cs.drop word.length) else none

/-- The rest of a list whose items `item` reads, behind the first of them. -/
def readMore {α : Type} (close : Char) (item : List Char → Option (α × List Char)) :
    (fuel : Nat) → List Char → Option (List α × List Char)
  | 0, _ => none
  | fuel + 1, cs =>
    match skipSpace cs with
    | [] => none
    | c :: cs =>
      if c = close then some ([], cs)
      else if c = ',' then do
        let (a, cs) ← item cs
        let (as, rest) ← readMore close item fuel cs
        return (a :: as, rest)
      else none

/-- Items separated by commas up to a closing bracket. -/
def readList {α : Type} (close : Char) (item : List Char → Option (α × List Char)) (fuel : Nat)
    (cs : List Char) : Option (List α × List Char) :=
  let next := skipSpace cs
  if next.head? = some close then some ([], next.tail)
  else do
    let (a, cs) ← item next
    let (as, rest) ← readMore close item fuel cs
    return (a :: as, rest)

def readField (value : List Char → Option (Raw × List Char)) (cs : List Char) :
    Option ((Option String × Raw) × List Char) :=
  match skipSpace cs with
  | '"' :: cs => do
    let (name, cs) ← readString cs
    match skipSpace cs with
    | ':' :: cs =>
      let (r, rest) ← value cs
      return ((name, r), rest)
    | _ => none
  | _ => none

/-- Every value takes a character, so `fuel` above the length of the text suffices. -/
def readValue : (fuel : Nat) → List Char → Option (Raw × List Char)
  | 0, _ => none
  | fuel + 1, cs =>
    match skipSpace cs with
    | '"' :: cs => (readString cs).map fun r ↦ (.string r.1, r.2)
    | '[' :: cs => (readList ']' (readValue fuel) fuel cs).map fun r ↦ (.array r.1, r.2)
    | '\x7b' :: cs =>
      (readList '\x7d' (readField (readValue fuel)) fuel cs).map fun r ↦ (.object r.1, r.2)
    | 'n' :: cs => readWord "ull" .null cs
    | 't' :: cs => readWord "rue" (.bool true) cs
    | 'f' :: cs => readWord "alse" (.bool false) cs
    | cs => (readNumber cs).map fun r ↦ (.number r.1, r.2)

def read? (cs : List Char) : Option Raw := do
  let (r, rest) ← readValue (cs.length + 1) cs
  guard (skipSpace rest).isEmpty
  return r

def nat? : Raw → Option Nat
  | number n => if n.isInteger && !n.negative && n.mantissa < UInt64.size then some n.mantissa
    else none
  | _ => none

def string? : Raw → Option String
  | string text => text
  | _ => none

def bool? : Raw → Option Bool
  | bool b => some b
  | _ => none

def list? : Raw → Option (List Raw)
  | array items => some items
  | _ => none

def optional? {α : Type} (decode : Raw → Option α) : Raw → Option (Option α)
  | null => some none
  | r => (decode r).map some

def named (fields : List (String × Raw)) (name : String) : List Raw :=
  (fields.filter fun f ↦ f.1 = name).map Prod.snd

def single? : List Raw → Option (Option Raw)
  | [] => some none
  | [r] => some (some r)
  | _ => none

def entries? : Raw → Option (List (String × Raw))
  | object fields => fields.mapM fun f ↦ f.1.map fun name ↦ (name, f.2)
  | _ => none

/-- The fields of a record, each if it is there. A record is an object, in which fields of other
names are left alone, or an array of the fields in their order. -/
def record? (names : List String) : Raw → Option (List (Option Raw))
  | array items =>
    if items.length ≤ names.length then
      some (items.map some ++ List.replicate (names.length - items.length) none)
    else none
  | r => do
    let fields ← entries? r
    names.mapM fun name ↦ single? (named fields name)

def fieldOr? {α : Type} (default : α) (decode : Raw → Option α) : Option Raw → Option α
  | none => some default
  | some r => decode r

end Raw

end PhpInsight.Json
