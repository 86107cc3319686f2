import PhpInsight.Document

namespace PhpInsight

/-- The documents that are open, the one added last first. -/
structure Registry where
  /-- At most one document for a URI. -/
  documents : List Document := []
  /-- Grows with every change, so that it tells the contents apart. -/
  generation : Nat := 0

namespace Registry

def remove (r : Registry) (uri : String) : List Document :=
  r.documents.filter fun d ↦ d.uri ≠ uri

def add (r : Registry) (d : Document) : Registry :=
  ⟨d :: r.remove d.uri, r.generation + 1⟩

def clear (r : Registry) : Registry := ⟨[], r.generation + 1⟩

def get? (r : Registry) (uri : String) : Option Document :=
  r.documents.find? fun d ↦ d.uri = uri

def contains (r : Registry) (uri : String) : Bool := (r.get? uri).isSome

def size (r : Registry) : Nat := r.documents.length

def isEmpty (r : Registry) : Bool := r.documents.isEmpty

end Registry

end PhpInsight
