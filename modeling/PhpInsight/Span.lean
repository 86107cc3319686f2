namespace PhpInsight

structure Span where
  start : Nat
  stop : Nat
  deriving DecidableEq, Inhabited

namespace Span

/-- The stop counts as touched, so that a cursor right behind a word is still on it. -/
def touches (s : Span) (offset : Nat) : Bool := s.start ≤ offset && offset ≤ s.stop

def encloses (s t : Span) : Bool := s.start ≤ t.start && t.stop ≤ s.stop

def length (s : Span) : Nat := s.stop - s.start

def isEmpty (s : Span) : Bool := s.length == 0

theorem touches_iff {s : Span} {n : Nat} : s.touches n = true ↔ s.start ≤ n ∧ n ≤ s.stop := by
  simp [touches]

theorem encloses_iff {s t : Span} :
    s.encloses t = true ↔ s.start ≤ t.start ∧ t.stop ≤ s.stop := by simp [encloses]

end Span

end PhpInsight
