import Mathlib.Data.List.Nodup
import PhpInsight.Document
import PhpInsight.Proofs.Span.File

namespace PhpInsight

open Text

variable {source : List Char}

namespace Node

variable {n : Node}

theorem mem_walk {m : Node} : m ∈ n.walk ↔ m = n ∨ ∃ k ∈ n.children, m ∈ k.walk := by
  rw [walk_eq, List.mem_cons, List.mem_flatMap]

theorem mem_walk_of_mem_children {m : Node} (hm : m ∈ n.children) : m ∈ n.walk :=
  mem_walk.mpr (.inr ⟨m, hm, mem_walk.mpr (.inl rfl)⟩)

theorem mem_walk_trans {m k : Node} (hm : m ∈ n.walk) (hk : k ∈ m.walk) : k ∈ n.walk := by
  revert hm
  refine Node.induction (motive := fun n ↦ m ∈ n.walk → k ∈ n.walk) (fun n ih hm ↦ ?_) n
  rcases mem_walk.mp hm with rfl | ⟨child, hchild, hm⟩
  · exact hk
  · exact mem_walk.mpr (.inr ⟨child, hchild, ih child hchild hm⟩)

theorem Formed.of_mem_walk (h : n.Formed source) : ∀ m ∈ n.walk, m.Formed source := by
  revert h
  refine Node.induction (motive := fun n ↦ n.Formed source → ∀ m ∈ n.walk, m.Formed source)
    (fun n ih h m hm ↦ ?_) n
  rcases mem_walk.mp hm with rfl | ⟨k, hk, hm⟩
  · exact h
  · exact ih k hk (h.children_laid.formed k hk) m hm

def Spelled (n : Node) : Prop := ∀ m ∈ n.walk, m.Written

theorem Spelled.self (h : n.Spelled) : n.Written := h n (mem_walk.mpr (.inl rfl))

theorem Spelled.of_mem_walk (h : n.Spelled) {m : Node} (hm : m ∈ n.walk) : m.Spelled :=
  fun k hk ↦ h k (mem_walk_trans hm hk)

theorem Spelled.child (h : n.Spelled) {m : Node} (hm : m ∈ n.children) : m.Spelled :=
  h.of_mem_walk (mem_walk_of_mem_children hm)

theorem Spelled.of_children (h : n.Written) (hbelow : ∀ m ∈ n.children, m.Spelled) :
    n.Spelled := by
  intro m hm
  rcases mem_walk.mp hm with rfl | ⟨k, hk, hm⟩
  · exact h
  · exact hbelow k hk m hm

theorem Formed.spelled (h : n.Formed source) : n.Spelled := fun m hm ↦
  (h.of_mem_walk m hm).written.written

theorem Formed.encloses_of_mem_walk (h : n.Formed source) :
    ∀ m ∈ n.walk, n.span.start ≤ m.span.start ∧ m.span.stop ≤ n.span.stop := by
  revert h
  refine Node.induction (motive := fun n ↦ n.Formed source → ∀ m ∈ n.walk,
    n.span.start ≤ m.span.start ∧ m.span.stop ≤ n.span.stop) (fun n ih h m hm ↦ ?_) n
  rcases mem_walk.mp hm with rfl | ⟨k, hk, hm⟩
  · exact ⟨Nat.le_refl _, Nat.le_refl _⟩
  · have hkn := h.children_laid.mem hk
    have hmk := ih k hk (h.children_laid.formed k hk) m hm
    omega

/-- Ranks fall along a way down on which nodes cover the same. -/
theorem Formed.rank_le_of_mem_walk (h : n.Formed source) :
    ∀ m ∈ n.walk, m.span = n.span → m.rank ≤ n.rank := by
  revert h
  refine Node.induction (motive := fun n ↦ n.Formed source → ∀ m ∈ n.walk, m.span = n.span →
    m.rank ≤ n.rank) (fun n ih h m hm he ↦ ?_) n
  rcases mem_walk.mp hm with rfl | ⟨k, hk, hm⟩
  · exact Nat.le_refl _
  · have hformed := h.children_laid.formed k hk
    have hkn := h.children_laid.mem hk
    have hmk := hformed.encloses_of_mem_walk m hm
    rw [he] at hmk
    have hspan : k.span = n.span := by
      rw [Span.mk.injEq]
      omega
    have hle := ih k hk hformed m hm (he.trans hspan.symm)
    have hlt := h.ranked k hk hspan
    omega

theorem Formed.kind_ne (h : n.Formed source) {k m : Node} (hk : k ∈ n.children)
    (hm : m ∈ k.walk) : (m.kind, m.span) ≠ (n.kind, n.span) := by
  intro he
  obtain ⟨hkind, hspan⟩ := Prod.mk.inj he
  have hformed := h.children_laid.formed k hk
  have hkn := h.children_laid.mem hk
  have hmk := hformed.encloses_of_mem_walk m hm
  rw [hspan] at hmk
  have hsame : k.span = n.span := by
    rw [Span.mk.injEq]
    omega
  have hle := hformed.rank_le_of_mem_walk m hm (hspan.trans hsame.symm)
  have hlt := h.ranked k hk hsame
  have hrank : m.rank = n.rank := congrArg NodeKind.rank hkind
  omega

end Node

/-- What the spans of nodes in the order of a walk are to one another, between two positions. -/
structure Spread (lo hi : Nat) (ns : List Node) : Prop where
  nonempty : ∀ n ∈ ns, n.span.start < n.span.stop
  inside : ∀ n ∈ ns, lo ≤ n.span.start ∧ n.span.stop ≤ hi
  apart : ∀ m ∈ ns, ∀ n ∈ ns, m ∉ n.walk → n ∉ m.walk →
    m.span.stop ≤ n.span.start ∨ n.span.stop ≤ m.span.start
  ordered : ns.Pairwise fun m n ↦ m.span.start ≤ n.span.start
  keyed : (ns.map fun n ↦ (n.kind, n.span)).Nodup

namespace Spread

variable {lo mid hi : Nat} {ms ns : List Node}

theorem nil : Spread lo hi [] := ⟨nofun, nofun, nofun, .nil, .nil⟩

theorem append (hm : Spread lo mid ms) (hn : Spread mid hi ns) (hlo : lo ≤ mid) (hhi : mid ≤ hi) :
    Spread lo hi (ms ++ ns) := by
  have hcross : ∀ m ∈ ms, ∀ n ∈ ns, m.span.stop ≤ n.span.start := by
    intro m h n h'
    have hstop := (hm.inside m h).2
    have hstart := (hn.inside n h').1
    omega
  refine ⟨?_, ?_, ?_, ?_, ?_⟩
  · intro n h
    rcases List.mem_append.mp h with h | h
    · exact hm.nonempty n h
    · exact hn.nonempty n h
  · intro n h
    rcases List.mem_append.mp h with h | h
    · have := hm.inside n h
      omega
    · have := hn.inside n h
      omega
  · intro m h n h' hmn hnm
    rcases List.mem_append.mp h with h | h <;> rcases List.mem_append.mp h' with h' | h'
    · exact hm.apart m h n h' hmn hnm
    · exact .inl (hcross m h n h')
    · exact .inr (hcross n h' m h)
    · exact hn.apart m h n h' hmn hnm
  · refine List.pairwise_append.mpr ⟨hm.ordered, hn.ordered, fun m h n h' ↦ ?_⟩
    have hstop := hcross m h n h'
    have hpos := hm.nonempty m h
    omega
  · rw [List.map_append, List.nodup_append]
    refine ⟨hm.keyed, hn.keyed, fun k hk k' hk' he ↦ ?_⟩
    obtain ⟨m, h, rfl⟩ := List.mem_map.mp hk
    obtain ⟨n, h', rfl⟩ := List.mem_map.mp hk'
    have hspan := (Prod.mk.inj he).2
    have hstop := hcross m h n h'
    have hpos := hm.nonempty m h
    rw [hspan] at hstop hpos
    omega

theorem flatMap_walk (htiled : Span.Tiled lo hi (ns.map Node.span))
    (hwalk : ∀ n ∈ ns, Spread n.span.start n.span.stop n.walk) :
    Spread lo hi (ns.flatMap Node.walk) := by
  induction ns generalizing lo with
  | nil => exact .nil
  | cons n ns ih =>
    obtain ⟨hlo, hn, hrest⟩ := htiled
    have hhead : Spread lo n.span.stop n.walk := by
      have hnil : Spread lo n.span.start [] := .nil
      simpa using hnil.append (hwalk n List.mem_cons_self) hlo (Nat.le_of_lt hn)
    have htail := ih hrest fun m hm ↦ hwalk m (List.mem_cons_of_mem _ hm)
    exact hhead.append htail (by omega) hrest.le

theorem walk {n : Node} (h : n.Formed source) : Spread n.span.start n.span.stop n.walk := by
  revert h
  refine Node.induction (motive := fun n ↦ n.Formed source → Spread n.span.start n.span.stop n.walk)
    (fun n ih h ↦ ?_) n
  have hlaid := h.children_laid
  have hbelow := flatMap_walk hlaid.tiled fun m hm ↦ ih m hm (hlaid.formed m hm)
  refine ⟨fun m hm ↦ (h.of_mem_walk m hm).nonempty, h.encloses_of_mem_walk, ?_, ?_, ?_⟩
  · intro m hm k hk hmk hkm
    rw [Node.walk_eq] at hm hk
    rcases List.mem_cons.mp hm with rfl | hm'
    · exact absurd (by rw [Node.walk_eq]; exact hk) hkm
    · rcases List.mem_cons.mp hk with rfl | hk'
      · exact absurd (by rw [Node.walk_eq]; exact hm) hmk
      · exact hbelow.apart m hm' k hk' hmk hkm
  · rw [Node.walk_eq]
    exact List.pairwise_cons.mpr ⟨fun m hm ↦ (hbelow.inside m hm).1, hbelow.ordered⟩
  · rw [Node.walk_eq, List.map_cons, List.nodup_cons]
    refine ⟨fun hkey ↦ ?_, hbelow.keyed⟩
    obtain ⟨m, hm, he⟩ := List.mem_map.mp hkey
    obtain ⟨k, hk, hmk⟩ := List.mem_flatMap.mp hm
    exact h.kind_ne hk hmk he

end Spread

/-- The spans of the nodes that a walk through a document visits. -/
structure SpanFamily (source : List Char) (ns : List Node) : Prop where
  nonempty : ∀ n ∈ ns, n.span.start < n.span.stop
  inside : ∀ n ∈ ns, n.span.stop ≤ byteLength source
  boundary : ∀ n ∈ ns, Boundary source n.span.start ∧ Boundary source n.span.stop
  nested : ∀ n ∈ ns, ∀ m ∈ n.children, n.span.encloses m.span = true
  apart : ∀ m ∈ ns, ∀ n ∈ ns, m ∉ n.walk → n ∉ m.walk →
    m.span.stop ≤ n.span.start ∨ n.span.stop ≤ m.span.start
  ordered : ns.Pairwise fun m n ↦ m.span.start ≤ n.span.start
  keyed : (ns.map fun n ↦ (n.kind, n.span)).Nodup

namespace Document

theorem mem_nodes_of_mem_walk {d : Document} {n m : Node} (hn : n ∈ d.nodes) (hm : m ∈ n.walk) :
    m ∈ d.nodes := by
  obtain ⟨s, hs, hn⟩ := List.mem_flatMap.mp hn
  exact List.mem_flatMap.mpr ⟨s, hs, Node.mem_walk_trans hn hm⟩

theorem parse_of_toOption {id : Nat} {uri : String} {version : Int} {d : Document}
    (h : (parse id uri source version).toOption = some d) :
    parse id uri source version = .ok d := by
  cases hp : parse id uri source version with
  | error err =>
    rw [hp] at h
    cases h
  | ok d' =>
    rw [hp] at h
    cases h
    rfl

theorem laid_of_parse {id : Nat} {uri : String} {version : Int} {d : Document}
    (h : parse id uri source version = .ok d) :
    ∃ hi, hi ≤ byteLength source ∧ Laid source 0 hi (Node.ofStmts d.statements) := by
  unfold parse at h
  cases hp : Grammar.parseFile source with
  | error e =>
    rw [hp] at h
    cases h
  | ok ss =>
    rw [hp] at h
    cases h
    exact Grammar.laid_of_parseFile hp

theorem formed_of_mem_nodes {id : Nat} {uri : String} {version : Int} {d : Document}
    (h : parse id uri source version = .ok d) : ∀ n ∈ d.nodes, n.Formed source := by
  obtain ⟨hi, _, hlaid⟩ := laid_of_parse h
  intro n hn
  obtain ⟨m, hm, hn⟩ := List.mem_flatMap.mp hn
  exact (hlaid.formed m hm).of_mem_walk n hn

theorem spread_nodes {id : Nat} {uri : String} {version : Int} {d : Document}
    (h : parse id uri source version = .ok d) : Spread 0 (byteLength source) d.nodes := by
  obtain ⟨hi, hhi, hlaid⟩ := laid_of_parse h
  exact .flatMap_walk (hlaid.tiled.widen hhi) fun n hn ↦ .walk (hlaid.formed n hn)

/-- The spans of a parsed document are nested along the tree, apart elsewhere and in the order of
the source, and no two nodes of one kind have the same. -/
theorem spanFamily_of_parse {id : Nat} {uri : String} {version : Int} {d : Document}
    (h : parse id uri source version = .ok d) : SpanFamily source d.nodes := by
  have hspread := spread_nodes h
  have hformed := formed_of_mem_nodes h
  refine ⟨hspread.nonempty, fun n hn ↦ (hspread.inside n hn).2,
    fun n hn ↦ ⟨(hformed n hn).start, (hformed n hn).stop⟩, fun n hn m hm ↦ ?_, hspread.apart,
    hspread.ordered, hspread.keyed⟩
  have hmn := (hformed n hn).children_laid.mem hm
  exact Span.encloses_iff.mpr ⟨hmn.1, hmn.2.2⟩

/-- A statement and its expression that end before the closing tag cover the same. -/
theorem spanFamily_call :
    ∃ d, parse 0 "call.php" "<?php f(1)?>".toList 0 = .ok d ∧
      d.statements.map Stmt.span = [⟨6, 10⟩] ∧ SpanFamily "<?php f(1)?>".toList d.nodes := by
  have hspans : (parse 0 "call.php" "<?php f(1)?>".toList 0).toOption.map
      (fun d ↦ d.statements.map Stmt.span) = some [⟨6, 10⟩] := by decide +kernel
  cases hp : parse 0 "call.php" "<?php f(1)?>".toList 0 with
  | error e =>
    rw [hp] at hspans
    cases hspans
  | ok d =>
    rw [hp] at hspans
    exact ⟨d, rfl, Option.some.inj hspans, spanFamily_of_parse hp⟩

end Document

end PhpInsight
