namespace PhpInsight.Completion

inductive ItemKind
  | method | «class» | interface | property | constant
  deriving DecidableEq, Inhabited

def ItemKind.code : ItemKind → Nat
  | method => 2
  | .class => 7
  | interface => 8
  | property => 10
  | constant => 21

structure Item where
  label : String
  kind : ItemKind
  detail : Option String := none
  documentation : Option String := none
  /-- Inserted as plain text where it is given. -/
  insertText : Option String := none

end PhpInsight.Completion
