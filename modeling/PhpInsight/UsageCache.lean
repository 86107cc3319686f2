namespace PhpInsight

/-- Times are whole seconds below this. -/
def timeLimit : Nat := UInt64.size

structure UsageCache.Entry (κ υ : Type) where
  key : κ
  value : υ
  expiry : Nat

/-- A store of keys and values that expire when unused. Setting and getting an entry both push its
expiry to the time to live from now; an expired entry stays until the next `clean`, and a `get`
before that revives it. -/
structure UsageCache (κ υ : Type) where
  /-- At most one entry for a key. -/
  entries : List (UsageCache.Entry κ υ) := []
  timeToLive : Nat := 180
  now : Nat := 0

namespace UsageCache

variable {κ υ : Type} [DecidableEq κ]

/-- The expiry of an entry used now. It stops at the last moment that can be told. -/
def deadline (c : UsageCache κ υ) : Nat := min (c.now + c.timeToLive) (timeLimit - 1)

def find? (c : UsageCache κ υ) (key : κ) : Option (Entry κ υ) :=
  c.entries.find? fun e ↦ e.key = key

def peek? (c : UsageCache κ υ) (key : κ) : Option υ := (c.find? key).map Entry.value

def contains (c : UsageCache κ υ) (key : κ) : Bool := (c.find? key).isSome

def erase (c : UsageCache κ υ) (key : κ) : UsageCache κ υ :=
  { c with entries := c.entries.filter fun e ↦ e.key ≠ key }

def set (c : UsageCache κ υ) (key : κ) (value : υ) : UsageCache κ υ :=
  { c with entries := ⟨key, value, c.deadline⟩ :: (c.erase key).entries }

def setAll (c : UsageCache κ υ) (values : List (κ × υ)) : UsageCache κ υ :=
  values.foldl (fun c kv ↦ c.set kv.1 kv.2) c

def touch (c : UsageCache κ υ) (key : κ) : UsageCache κ υ :=
  { c with
    entries := c.entries.map fun e ↦ if e.key = key then { e with expiry := c.deadline } else e }

def get (c : UsageCache κ υ) (key : κ) : Option υ × UsageCache κ υ := (c.peek? key, c.touch key)

def getAll (c : UsageCache κ υ) : List κ → List (Option υ) × UsageCache κ υ
  | [] => ([], c)
  | key :: keys =>
    let (value, c) := c.get key
    let (values, c) := c.getAll keys
    (value :: values, c)

def eraseAll (c : UsageCache κ υ) (keys : List κ) : UsageCache κ υ := keys.foldl erase c

def clear (c : UsageCache κ υ) : UsageCache κ υ := { c with entries := [] }

def expiry? (c : UsageCache κ υ) (key : κ) : Option Nat := (c.find? key).map Entry.expiry

def size (c : UsageCache κ υ) : Nat := c.entries.length

def isExpired (c : UsageCache κ υ) (e : Entry κ υ) : Bool := e.expiry < c.now

/-- Removes what expired before now, and says how much that was. -/
def clean (c : UsageCache κ υ) : Nat × UsageCache κ υ :=
  (c.entries.countP c.isExpired, { c with entries := c.entries.filter fun e ↦ !c.isExpired e })

def advance (c : UsageCache κ υ) (seconds : Nat) : UsageCache κ υ :=
  { c with now := (c.now + seconds) % timeLimit }

def setClock (c : UsageCache κ υ) (now : Nat) : UsageCache κ υ := { c with now := now }

end UsageCache

end PhpInsight
