import PhpInsight.Proofs.Reading.Words
import PhpInsight.Proofs.Span.Position
import PhpInsight.Tree.Node

namespace PhpInsight

open Text

/-- Spans that are not empty, one behind the other between two positions. -/
def Span.Tiled : Nat → Nat → List Span → Prop
  | lo, hi, [] => lo ≤ hi
  | lo, hi, s :: ss => lo ≤ s.start ∧ s.start < s.stop ∧ Tiled s.stop hi ss

namespace Span.Tiled

variable {lo mid hi : Nat} {ss ts : List Span}

theorem le (h : Tiled lo hi ss) : lo ≤ hi := by
  induction ss generalizing lo with
  | nil => exact h
  | cons s ss ih =>
    obtain ⟨hlo, hs, hss⟩ := h
    have := ih hss
    omega

theorem append (hs : Tiled lo mid ss) (ht : Tiled mid hi ts) : Tiled lo hi (ss ++ ts) := by
  induction ss generalizing lo with
  | nil =>
    cases ts with
    | nil => exact Nat.le_trans hs ht
    | cons t ts => exact ⟨Nat.le_trans hs ht.1, ht.2⟩
  | cons s ss ih => exact ⟨hs.1, hs.2.1, ih hs.2.2⟩

theorem widen (h : Tiled lo mid ss) (hhi : mid ≤ hi) : Tiled lo hi ss := by
  have hempty : Tiled mid hi [] := hhi
  simpa using h.append hempty

theorem mem (h : Tiled lo hi ss) {s : Span} (hs : s ∈ ss) :
    lo ≤ s.start ∧ s.start < s.stop ∧ s.stop ≤ hi := by
  induction ss generalizing lo with
  | nil => cases hs
  | cons t ss ih =>
    obtain ⟨hlo, ht, hss⟩ := h
    rcases List.mem_cons.mp hs with rfl | hs
    · exact ⟨hlo, ht, hss.le⟩
    · obtain ⟨h1, h2, h3⟩ := ih hss hs
      exact ⟨by omega, h2, h3⟩

end Span.Tiled

/-- Only a child of a lesser rank may cover as much as its parent. -/
def NodeKind.rank : NodeKind → Nat
  | name => 0
  | type => 1
  | expr => 2
  | param => 3
  | member => 4
  | stmt => 5

namespace Node

def rank (n : Node) : Nat := n.kind.rank

def Written : Node → Prop
  | name n => n.Written
  | type t => t.Written
  | _ => True

/-- A variable and a parameter are written with a dollar sign, names with words. -/
def WrittenIn (source : List Char) : Node → Prop
  | expr e => match e.kind with
    | .variable _ => Dollar source e.span
    | _ => True
  | param p => Dollar source p.span
  | name n => n.Written
  | type t => t.Written
  | _ => True

theorem WrittenIn.mono {source : List Char} {e : Expr} {s : Span}
    (h : (expr e).WrittenIn source) (hstart : s.start ≤ e.span.start)
    (hstop : e.span.stop ≤ s.stop) : (expr ⟨e.kind, s⟩).WrittenIn source := by
  simp only [WrittenIn] at h ⊢
  split
  · rename_i hkind
    rw [hkind] at h
    exact Dollar.mono h hstart hstop
  · trivial

theorem WrittenIn.written {source : List Char} {n : Node} (h : n.WrittenIn source) : n.Written := by
  cases n with
  | name n => exact h
  | type t => exact h
  | _ => trivial

/-- A node covers some of the text, its children lie inside it one behind the other, and a child
that covers as much is of a lesser kind. -/
inductive Formed (source : List Char) : Node → Prop
  | intro {n : Node} (start : Boundary source n.span.start) (stop : Boundary source n.span.stop)
      (settled : Settled source n.span.stop) (nonempty : n.span.start < n.span.stop)
      (tiled : Span.Tiled n.span.start n.span.stop (n.children.map span))
      (ranked : ∀ m ∈ n.children, m.span = n.span → m.rank < n.rank)
      (written : n.WrittenIn source)
      (below : ∀ m ∈ n.children, Formed source m) : Formed source n

end Node

/-- Nodes one behind the other between two positions. -/
structure Laid (source : List Char) (lo hi : Nat) (ns : List Node) : Prop where
  start : Boundary source lo
  settled : Settled source hi
  tiled : Span.Tiled lo hi (ns.map Node.span)
  formed : ∀ n ∈ ns, n.Formed source

/-- Nodes with something else before or behind each of them. -/
structure Within (source : List Char) (lo hi : Nat) (ns : List Node) : Prop
    extends Laid source lo hi ns where
  moved : lo < hi
  strict : ∀ n ∈ ns, lo < n.span.start ∨ n.span.stop < hi

variable {source : List Char} {lo mid hi : Nat} {ns ms : List Node}

namespace Node.Formed

variable {n : Node}

theorem nonempty (h : n.Formed source) : n.span.start < n.span.stop := by
  cases h
  assumption

theorem start (h : n.Formed source) : Boundary source n.span.start := by
  cases h
  assumption

theorem stop (h : n.Formed source) : Boundary source n.span.stop := by
  cases h
  assumption

theorem settled (h : n.Formed source) : Settled source n.span.stop := by
  cases h
  assumption

theorem written (h : n.Formed source) : n.WrittenIn source := by
  cases h
  assumption

theorem ranked (h : n.Formed source) : ∀ m ∈ n.children, m.span = n.span → m.rank < n.rank := by
  cases h
  assumption

theorem children_laid (h : n.Formed source) :
    Laid source n.span.start n.span.stop n.children := by
  cases h with
  | intro start _ settled _ tiled _ _ below => exact ⟨start, settled, tiled, below⟩

end Node.Formed

namespace Laid

theorem le (h : Laid source lo hi ns) : lo ≤ hi := h.tiled.le

theorem nil (hlo : Boundary source lo) (h : lo ≤ hi) (hhi : Settled source hi) :
    Laid source lo hi [] := ⟨hlo, hhi, h, nofun⟩

theorem append (hn : Laid source lo mid ns) (hm : Laid source mid hi ms) :
    Laid source lo hi (ns ++ ms) := by
  refine ⟨hn.start, hm.settled, ?_, ?_⟩
  · rw [List.map_append]
    exact hn.tiled.append hm.tiled
  · intro n h
    rcases List.mem_append.mp h with h | h
    · exact hn.formed n h
    · exact hm.formed n h

theorem widen (h : Laid source lo mid ns) (hhi : mid ≤ hi) (hs : Settled source hi) :
    Laid source lo hi ns := ⟨h.start, hs, h.tiled.widen hhi, h.formed⟩

theorem outer (h : Laid source mid hi ns) (hlo : Boundary source lo) (hle : lo ≤ mid) {top : Nat}
    (hhi : hi ≤ top) (hs : Settled source top) : Laid source lo top ns := by
  have hempty : Span.Tiled lo mid [] := hle
  exact ⟨hlo, hs, hempty.append (h.tiled.widen hhi), h.formed⟩

theorem mem (h : Laid source lo hi ns) {n : Node} (hn : n ∈ ns) :
    lo ≤ n.span.start ∧ n.span.start < n.span.stop ∧ n.span.stop ≤ hi :=
  h.tiled.mem (List.mem_map_of_mem hn)

theorem single {n : Node} (hlo : Boundary source lo) (hstart : lo ≤ n.span.start)
    (hn : n.Formed source) (hstop : n.span.stop ≤ hi) (hs : Settled source hi) :
    Laid source lo hi [n] := ⟨hlo, hs, ⟨hstart, hn.nonempty, hstop⟩, by simpa using hn⟩

theorem enclose {n : Node} (h : Laid source lo hi ns) (hlt : lo < hi) (hspan : n.span = ⟨lo, hi⟩)
    (hns : n.children = ns) (hstop : Boundary source hi)
    (hranked : ∀ m ∈ ns, m.span = ⟨lo, hi⟩ → m.rank < n.rank)
    (hwritten : n.WrittenIn source) : Laid source lo hi [n] := by
  have hlo : n.span.start = lo := by rw [hspan]
  have hhi : n.span.stop = hi := by rw [hspan]
  subst hlo hhi hns
  exact .single h.start (Nat.le_refl _)
    (.intro h.start hstop h.settled hlt h.tiled hranked hwritten h.formed) (Nat.le_refl _) h.settled

theorem head {n : Node} (h : Laid source lo hi (n :: ns)) : n.Formed source :=
  h.formed n List.mem_cons_self

theorem within (h : Laid source lo mid ns) (hhi : mid < hi) (hs : Settled source hi) :
    Within source lo hi ns := by
  have hle := h.le
  refine ⟨h.widen (by omega) hs, by omega, ?_⟩
  intro n hn
  have hstop := (h.mem hn).2.2
  omega

theorem append_within (hn : Laid source lo mid ns) (hm : Within source mid hi ms) :
    Within source lo hi (ns ++ ms) := by
  have hle := hn.le
  have hlt := hm.moved
  refine ⟨hn.append hm.toLaid, by omega, ?_⟩
  intro n h
  rcases List.mem_append.mp h with h | h
  · have hstop := (hn.mem h).2.2
    omega
  · have hstrict := hm.strict n h
    omega

theorem within_of_two {n m : Node} (h : Laid source lo hi (n :: m :: ns)) :
    Within source lo hi (n :: m :: ns) := by
  have htiled := h.tiled
  simp only [List.map_cons, Span.Tiled] at htiled
  obtain ⟨hlo, hn, hnm, hm, hrest⟩ := htiled
  have hhi := hrest.le
  refine ⟨h, by omega, ?_⟩
  intro k hk
  rcases List.mem_cons.mp hk with rfl | hk
  · exact .inr (by omega)
  · have hbehind : Span.Tiled n.span.stop hi ((m :: ns).map Node.span) := ⟨hnm, hm, hrest⟩
    have hstart := (hbehind.mem (List.mem_map_of_mem hk)).1
    exact .inl (by omega)

end Laid

namespace Within

theorem append (hn : Within source lo mid ns) (hm : Laid source mid hi ms) :
    Within source lo hi (ns ++ ms) := by
  have hlo := hn.moved
  have hle := hm.le
  refine ⟨hn.toLaid.append hm, by omega, ?_⟩
  intro n h
  rcases List.mem_append.mp h with h | h
  · have hn' := hn.strict n h
    omega
  · have hstart := (hm.mem h).1
    omega

theorem upTo (hn : Within source lo mid ns) {n : Node} (hm : Laid source mid hi [n]) :
    Within source lo n.span.stop (ns ++ [n]) := by
  have hn' := hm.mem List.mem_cons_self
  have hmid : mid ≤ n.span.start := hn'.1
  have hstop : Laid source mid n.span.stop [n] := by
    refine ⟨hm.start, hm.head.settled, ⟨hn'.1, hn'.2.1, Nat.le_refl _⟩, hm.formed⟩
  exact hn.append hstop

theorem ne (h : Within source lo hi ns) {n : Node} (hn : n ∈ ns) : n.span ≠ ⟨lo, hi⟩ := by
  intro he
  have hstrict := h.strict n hn
  rw [he] at hstrict
  exact absurd hstrict (by simp)

theorem laid {n : Node} (h : Within source lo hi ns) (hspan : n.span = ⟨lo, hi⟩)
    (hns : n.children = ns) (hstop : Boundary source hi) (hwritten : n.WrittenIn source) :
    Laid source lo hi [n] :=
  h.enclose h.moved hspan hns hstop (fun _ hm he ↦ absurd he (h.ne hm)) hwritten

theorem laidUpTo {n m : Node} (h : Within source lo m.span.stop ns) (hm : m.Formed source)
    (hspan : n.span = ⟨lo, m.span.stop⟩) (hns : n.children = ns)
    (hwritten : n.WrittenIn source) (hhi : m.span.stop ≤ hi) (hs : Settled source hi) :
    Laid source lo hi [n] :=
  (h.laid hspan hns hm.stop hwritten).widen hhi hs

end Within

end PhpInsight
