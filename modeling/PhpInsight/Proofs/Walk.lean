import Mathlib.Data.List.Infix
import PhpInsight.Tree.Node

namespace PhpInsight

namespace Node

def numbered (ways : List (List (List Nat))) : List (List Nat) :=
  ways.zipIdx.flatMap fun w ↦ w.1.map (w.2 :: ·)

theorem mem_numbered {ways : List (List (List Nat))} {way : List Nat} :
    way ∈ numbered ways ↔ ∃ i ws rest, ways[i]? = some ws ∧ rest ∈ ws ∧ way = i :: rest := by
  simp only [numbered, List.mem_flatMap, Prod.exists, List.mem_zipIdx_iff_getElem?, List.mem_map]
  constructor
  · rintro ⟨ws, i, hws, rest, hrest, rfl⟩
    exact ⟨i, ws, rest, hws, hrest, rfl⟩
  · rintro ⟨i, ws, rest, hws, hrest, rfl⟩
    exact ⟨ws, i, hws, rest, hrest, rfl⟩

theorem pairwise_numbered {ways : List (List (List Nat))}
    (h : ∀ ws ∈ ways, ws.Pairwise (· < ·)) : (numbered ways).Pairwise (· < ·) := by
  rw [numbered, List.pairwise_flatMap]
  constructor
  · rintro ⟨ws, i⟩ hws
    have hmem := List.mem_of_getElem? (List.mem_zipIdx_iff_getElem?.mp hws)
    rw [List.pairwise_map]
    exact (h ws hmem).imp fun hlt ↦ List.cons_lt_cons_iff.mpr (.inr ⟨rfl, hlt⟩)
  · have hnumbers : (ways.zipIdx.map Prod.snd).Pairwise (· < ·) := by
      rw [List.zipIdx_map_snd]
      exact List.pairwise_lt_range'
    rw [List.pairwise_map] at hnumbers
    refine hnumbers.imp fun hlt ↦ ?_
    simp only [List.forall_mem_map]
    exact fun _ _ _ _ ↦ List.cons_lt_cons_iff.mpr (.inl hlt)

def at? (n : Node) : (way : List Nat) → Option Node
  | [] => some n
  | i :: way => n.children[i]?.bind fun m ↦ m.at? way

/-- The ways to a node and to all below it, in the order of the source. -/
def ways (n : Node) : List (List Nat) :=
  [] :: numbered (n.children.attach.map fun m ↦ ways m.1)
termination_by n.weight
decreasing_by exact weight_lt_of_mem_children m.2

theorem ways_eq (n : Node) : n.ways = [] :: numbered (n.children.map ways) := by
  rw [ways, List.attach_map_val]

theorem pairwise_ways (n : Node) : n.ways.Pairwise (· < ·) := by
  refine Node.induction (motive := fun n ↦ n.ways.Pairwise (· < ·)) (fun n ih ↦ ?_) n
  rw [ways_eq, List.pairwise_cons]
  refine ⟨fun way hway ↦ ?_, pairwise_numbered (List.forall_mem_map.mpr ih)⟩
  obtain ⟨i, ws, rest, -, -, rfl⟩ := mem_numbered.mp hway
  exact List.nil_lt_cons i rest

theorem cons_mem_numbered {ns : List Node} {i : Nat} {way : List Nat} :
    i :: way ∈ numbered (ns.map ways) ↔ ∃ n, ns[i]? = some n ∧ way ∈ n.ways := by
  simp only [mem_numbered, List.getElem?_map, Option.map_eq_some_iff, List.cons.injEq]
  constructor
  · rintro ⟨_, _, _, ⟨n, hn, rfl⟩, hway, rfl, rfl⟩
    exact ⟨n, hn, hway⟩
  · rintro ⟨n, hn, hway⟩
    exact ⟨i, n.ways, way, ⟨n, hn, rfl⟩, hway, rfl, rfl⟩

theorem mem_ways {n : Node} {way : List Nat} : way ∈ n.ways ↔ (n.at? way).isSome = true := by
  induction way generalizing n with
  | nil => simp [ways_eq, at?]
  | cons i way ih =>
    rw [ways_eq, List.mem_cons, cons_mem_numbered, at?, Option.isSome_bind, Option.any_eq_true]
    simp [ih]

/-- Whether a walk that enters the nodes that `enter` lets it gets to the end of a way, on which
`at?` finds the nodes: it has to enter all of them but the last. -/
def Passes (enter : Node → Bool) (at? : List Nat → Option Node) (way : List Nat) : Prop :=
  ∀ part, part <+: way → part ≠ way → ∀ n ∈ at? part, enter n = true

section Passes

variable {enter : Node → Bool} {at? : List Nat → Option Node} {way : List Nat} {i : Nat}

instance : DecidablePred (Passes enter at?) := fun way ↦
  decidable_of_iff (∀ part ∈ way.inits, part ≠ way → (at? part).all enter = true) <| by
    simp [Passes, List.mem_inits, Option.all_eq_true]

theorem passes_nil : Passes enter at? [] := fun _ hpart hne ↦
  absurd (List.prefix_nil.mp hpart) hne

theorem passes_cons : Passes enter at? (i :: way) ↔
    (∀ n ∈ at? [], enter n = true) ∧ Passes enter (fun part ↦ at? (i :: part)) way := by
  constructor
  · intro h
    refine ⟨h [] List.nil_prefix (List.cons_ne_nil i way).symm, fun part hpart hne ↦ ?_⟩
    exact h (i :: part) (List.cons_prefix_cons.mpr ⟨rfl, hpart⟩) (by simpa using hne)
  · rintro ⟨hnil, h⟩ part hpart hne
    cases part with
    | nil => exact hnil
    | cons j part =>
      obtain ⟨rfl, hrest⟩ := List.cons_prefix_cons.mp hpart
      exact h part hrest (by simpa using hne)

end Passes

def visited (enter : Node → Bool) (at? : List Nat → Option Node) (ways : List (List Nat)) :
    List Node :=
  (ways.filter fun way ↦ Passes enter at? way).filterMap at?

theorem visited_numbered {enter : Node → Bool} {at? : List Nat → Option Node} {ns : List Node}
    (hnil : ∀ n ∈ at? [], enter n = true)
    (hat : ∀ i n way, ns[i]? = some n → at? (i :: way) = n.at? way) :
    visited enter at? (numbered (ns.map ways)) =
      ns.flatMap fun n ↦ visited enter n.at? n.ways := by
  have hone : ∀ w ∈ ns.zipIdx, visited enter at? (w.1.ways.map (w.2 :: ·)) =
      visited enter w.1.at? w.1.ways := by
    rintro ⟨n, i⟩ hw
    have hfind : (fun way ↦ at? (i :: way)) = n.at? :=
      funext fun way ↦ hat i n way (List.mem_zipIdx_iff_getElem?.mp hw)
    have hpasses : (fun way ↦ decide (Passes enter at? (i :: way))) =
        fun way ↦ decide (Passes enter n.at? way) := by
      funext way
      rw [decide_eq_decide, passes_cons, hfind]
      exact and_iff_right hnil
    simp only [visited, List.filter_map, List.filterMap_map, Function.comp_def, hfind, hpasses]
  have hall : visited enter at? (numbered (ns.map ways)) =
      ns.zipIdx.flatMap fun w ↦ visited enter at? (w.1.ways.map (w.2 :: ·)) := by
    simp only [visited, numbered, List.zipIdx_map, List.flatMap_map, List.filter_flatMap,
      List.filterMap_flatMap]
    rfl
  calc visited enter at? (numbered (ns.map ways))
      = ns.zipIdx.flatMap fun w ↦ visited enter w.1.at? w.1.ways :=
        hall.trans (List.flatMap_congr hone)
    _ = (ns.zipIdx.map Prod.fst).flatMap fun n ↦ visited enter n.at? n.ways := by
        rw [List.flatMap_map]
    _ = ns.flatMap fun n ↦ visited enter n.at? n.ways := by rw [List.zipIdx_map_fst]

/-- One step down: a refused node is visited, and nothing below it. -/
theorem walkWhere_eq_visited (enter : Node → Bool) (n : Node) :
    n.walkWhere enter = visited enter n.at? n.ways := by
  refine Node.induction (motive := fun n ↦ n.walkWhere enter = visited enter n.at? n.ways)
    (fun n ih ↦ ?_) n
  have hhead (ways : List (List Nat)) :
      visited enter n.at? ([] :: ways) = n :: visited enter n.at? ways := by
    simp [visited, passes_nil, at?]
  rw [walkWhere_eq, ways_eq, hhead]
  by_cases henter : enter n = true
  · rw [if_pos henter, visited_numbered, List.flatMap_congr ih]
    · rintro _ ⟨⟩
      exact henter
    · intro i m way hm
      rw [Node.at?, hm, Option.bind_some]
  · rw [if_neg henter, visited, List.filter_eq_nil_iff.mpr]
    · rfl
    · intro way hway hpasses
      obtain ⟨i, ws, rest, -, -, rfl⟩ := mem_numbered.mp hway
      exact henter ((passes_cons.mp (of_decide_eq_true hpasses)).1 n rfl)

end Node

namespace Stmt

open Node

def at? (ss : List Stmt) : (way : List Nat) → Option Node
  | [] => none
  | i :: way => (Node.ofStmts ss)[i]?.bind fun n ↦ n.at? way

/-- The ways to all nodes of some statements, in the order of the source. -/
def ways (ss : List Stmt) : List (List Nat) := numbered ((Node.ofStmts ss).map Node.ways)

theorem walkWhere_eq_visited (enter : Node → Bool) (ss : List Stmt) :
    walkWhere enter ss = visited enter (at? ss) (ways ss) := by
  have hstmts : walkWhere enter ss =
      (Node.ofStmts ss).flatMap fun n ↦ visited enter n.at? n.ways :=
    List.flatMap_congr fun n _ ↦ n.walkWhere_eq_visited enter
  rw [hstmts, ways, visited_numbered (by simp [at?])]
  intro i n way hn
  rw [at?, hn, Option.bind_some]

/-- The ways to the nodes are in order, each once, and the full walk is at them one by one. A walk
that `enter` prunes is at those of them, in the same order, on which it refuses no node but maybe
the last. -/
theorem pruned_walk (enter : Node → Bool) (ss : List Stmt) :
    (ways ss).Pairwise (· < ·) ∧ (∀ way, way ∈ ways ss ↔ (at? ss way).isSome = true) ∧
      nodes ss = (ways ss).filterMap (at? ss) ∧
      walkWhere enter ss =
        ((ways ss).filter fun way ↦ Passes enter (at? ss) way).filterMap (at? ss) := by
  refine ⟨?_, fun way ↦ ?_, ?_, walkWhere_eq_visited enter ss⟩
  · exact pairwise_numbered (List.forall_mem_map.mpr fun n _ ↦ n.pairwise_ways)
  · cases way with
    | nil => simp [ways, mem_numbered, at?]
    | cons i way =>
      rw [ways, Node.cons_mem_numbered, at?, Option.isSome_bind, Option.any_eq_true]
      simp [Node.mem_ways]
  · have hall : ∀ way ∈ ways ss, decide (Passes (fun _ ↦ true) (at? ss) way) = true :=
      fun way _ ↦ decide_eq_true fun _ _ _ _ _ ↦ rfl
    have hfull := walkWhere_eq_visited (fun _ ↦ true) ss
    rw [visited, List.filter_eq_self.mpr hall] at hfull
    exact hfull

end Stmt

end PhpInsight
