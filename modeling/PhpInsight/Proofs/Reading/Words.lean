import PhpInsight.Grammar.Rules
import PhpInsight.Proofs.Reading.Gives

namespace PhpInsight

open Peg Peg.Parser

def isWordChar (ch : Char) : Bool := Grammar.wordStart.contains ch || Grammar.digit.contains ch

theorem not_isWordChar :
    ∀ ch ∈ ['\\', '|', '?', '$', ' ', '<', '>', '(', ')', '[', ']', '\x7b', '\x7d'],
      isWordChar ch = false := by
  simp only [List.forall_mem_cons, List.not_mem_nil, false_implies, implies_true, and_true]
  decide

structure IsWord (w : String) : Prop where
  ne_nil : w.toList ≠ []
  chars : ∀ ch ∈ w.toList, isWordChar ch = true

structure Name.Written (n : Name) : Prop where
  ne_nil : n.parts ≠ []
  words : ∀ p ∈ n.parts, IsWord p

def SimpleType.Written : SimpleType → Prop
  | .builtin keyword => Text.lower keyword.name ∈ Grammar.typeKeywords
  | .named n =>
    n.Written ∧ ¬ (n.isUnqualified = true ∧ Text.lower n.last ∈ Grammar.typeKeywords)

def TypeHint.Written : TypeHint → Prop
  | .simple t => t.Written
  | .nullable t _ => t.Written
  | .union ts _ => 2 ≤ ts.length ∧ ∀ t ∈ ts, t.Written

namespace Grammar

theorem gives_word : Gives word IsWord := by
  have hrest : Consumes (skipMany (oneOf wordStart <|> oneOf digit)) fun cs ↦
      ∀ ch ∈ cs, isWordChar ch = true := by
    refine .skipMany (.orElse ((Consumes.oneOf _).imp ?_) ((Consumes.oneOf _).imp ?_))
    all_goals
      rintro cs ⟨x, rfl, hx⟩ ch hch
      simp [List.mem_singleton.mp hch, isWordChar, hx]
  refine (Consumes.textOf (.bind (.oneOf wordStart) fun _ ↦ hrest)).imp ?_
  rintro w ⟨_, cs, hw, ⟨x, rfl, hx⟩, hcs⟩
  refine ⟨by simp [hw], ?_⟩
  rw [hw, List.singleton_append, List.forall_mem_cons]
  exact ⟨by simp [isWordChar, hx], hcs⟩

theorem gives_name : Gives name Name.Written := by
  refine .after fun _ ↦ .after fun full ↦ ?_
  refine .bind gives_word fun first hfirst ↦ ?_
  refine .bind (.many (.after fun _ ↦ gives_word)) fun others hothers ↦ ?_
  refine .after fun _ ↦ .pure ⟨?_, ?_⟩
  · exact List.cons_ne_nil _ _
  · exact List.forall_mem_cons.mpr ⟨hfirst, hothers⟩

theorem written_simpleTypeOf {n : Name} (hn : n.Written) : (simpleTypeOf n).Written := by
  unfold simpleTypeOf
  split
  · rename_i h
    exact List.contains_iff_mem.mp (Bool.and_eq_true_iff.mp h).2
  · rename_i h
    refine ⟨hn, fun ⟨hu, hk⟩ ↦ h ?_⟩
    rw [hu, List.contains_iff_mem.mpr hk]
    rfl

theorem gives_simpleType : Gives simpleType SimpleType.Written :=
  .bind gives_name fun _ hn ↦ .pure (written_simpleTypeOf hn)

theorem gives_typeHint : Gives typeHint TypeHint.Written := by
  refine .orElse ?_ ?_
  · refine .after fun _ ↦ .after fun _ ↦ .after fun _ ↦ .bind gives_simpleType fun t ht ↦ ?_
    exact .after fun _ ↦ .pure ht
  · refine .after fun _ ↦ .bind gives_simpleType fun first hfirst ↦ ?_
    refine .bind (.many (.after fun _ ↦ .after fun _ ↦ .after fun _ ↦ .after fun _ ↦
      gives_simpleType)) fun others hothers ↦ ?_
    refine .after fun _ ↦ .pure ?_
    cases others with
    | nil => exact hfirst
    | cons second others =>
      exact ⟨by simp, List.forall_mem_cons.mpr ⟨hfirst, hothers⟩⟩

end Grammar

end PhpInsight
