import PhpInsight.Grammar.Trivia
import PhpInsight.Proofs.Span.Laying

namespace PhpInsight.Grammar

open Peg Peg.Parser Text

variable {α : Type} {source : List Char}

theorem takes_word : Takes source word := by
  refine .textOf fun lo ↦ ?_
  refine .bind (oneOf_leads _ lo) fun _ ↦ ?_
  have hmoves : Moves source (oneOf wordStart <|> oneOf digit) :=
    .orElse (moves_oneOf _) (moves_oneOf _)
  have hshrinks : Shrinks (oneOf wordStart <|> oneOf digit) :=
    (shrinks_oneOf _).orElse (shrinks_oneOf _)
  refine (skipMany_leads hmoves hshrinks ?_ (lo + 1)).imp (fun _ h ↦ h) fun _ _ h ↦ h
  simp only [List.mem_cons, List.not_mem_nil, or_false]
  rintro x (rfl | rfl) xs n <;> exact ⟨_, _, _, rfl⟩

theorem takes_word_bind {f : String → Parser α} (hf : ∀ w, Reads source (f w)) :
    Takes source (word >>= f) := takes_word.bind hf

theorem reads_ite {c : Prop} [Decidable c] {p q : Parser α} (hp : Reads source p)
    (hq : Reads source q) : Reads source (if c then p else q) := by
  split <;> assumption

theorem takes_keyword (text : String) : Takes source (keyword text) :=
  takes_word_bind fun _ ↦ reads_ite (.pure _) (.failExpecting _)

theorem takes_castType : Takes source castType :=
  takes_word_bind fun _ ↦ reads_ite (.pure _) (.failExpecting _)

theorem takes_identifier : Takes source identifier := by
  refine .position_bind fun _ ↦ ?_
  refine .bind takes_word fun _ ↦ ?_
  refine reads_position.bind fun _ ↦ ?_
  exact .pure _

theorem takes_variableName : Takes source variableName := by
  refine .position_bind fun _ ↦ ?_
  refine .bind (takes_literal (by decide)) fun _ ↦ ?_
  refine .bind takes_word.reads fun _ ↦ ?_
  refine reads_position.bind fun _ ↦ ?_
  exact .pure _

theorem dollar_of_dropText? {c next : Cursor} (hc : c.In source)
    (h : Cursor.dropText? ['$'] c = some next) :
    c.offset < next.offset ∧ ∀ n, next.offset ≤ n → Dollar source ⟨c.offset, n⟩ := by
  obtain ⟨rest, offset⟩ := c
  cases rest with
  | nil => cases h
  | cons x xs =>
    simp only [Cursor.dropText?] at h
    split at h
    · rename_i hx
      subst hx
      cases h
      obtain ⟨before, rfl, rfl⟩ := hc
      refine ⟨by simp [Char.utf8Size], fun n hn ↦ ⟨before, xs, rfl, Nat.le_refl _, ?_⟩⟩
      simp only [Char.utf8Size] at hn
      have := hn
      simp at this ⊢
      omega
    · cases h

theorem variableName_leads {P : Nat → Prop} : Leads source P variableName fun _ n ↦
    ∃ m, P m ∧ m < n ∧ Dollar source ⟨m, n⟩ ∧ Settled source n := by
  refine .position fun start _ hP ↦ ?_
  have hsign : Leads source (· = start) (literal "$") fun _ n ↦
      start < n ∧ Dollar source ⟨start, n⟩ := by
    rintro c a next f hc rfl hm
    have hdrop := literal_eq_matched hm
    obtain ⟨hlt, hdollar⟩ := dollar_of_dropText? hc hdrop
    have htakes : Takes source (literal "$") := takes_literal (by decide)
    have hnext := (htakes c.offset c a next f hc (Nat.le_refl _) hm).1
    exact ⟨hnext, hlt, hdollar _ (Nat.le_refl _)⟩
  have hword : Leads source (fun n ↦ start < n ∧ Dollar source ⟨start, n⟩) word fun _ n ↦
      start < n ∧ Dollar source ⟨start, n⟩ ∧ Settled source n := by
    intro c a next f hc hP hm
    obtain ⟨hnext, hlt, hsettled⟩ := takes_word c.offset c a next f hc (Nat.le_refl _) hm
    exact ⟨hnext, by omega, hP.2.mono (Nat.le_refl _) (Nat.le_of_lt hlt), hsettled⟩
  refine hsign.bind fun _ ↦ ?_
  refine hword.bind fun _ ↦ ?_
  exact .stop fun n _ hn ↦ ⟨start, hP, hn⟩

theorem lays_name : Lays source name fun n ↦ [.name n] := by
  refine .spanned fun start ↦ ?_
  have hmore : Reads source (do literal "\\"; word) :=
    .bind (reads_literal (by decide)) fun _ ↦ takes_word.reads
  have hwords : Gives (do literal "\\"; word) IsWord := .after fun _ ↦ gives_word
  refine .bind (reads_literal (by decide)).isPresent.laid fun full ↦ ?_
  refine .bind_gives takes_word.within gives_word fun first hfirst ↦ ?_
  refine .bind_gives hmore.many.within hwords.many fun others hothers ↦ ?_
  refine .stop fun n hn h ↦ ?_
  exact h.laid rfl rfl hn ⟨List.cons_ne_nil _ _, List.forall_mem_cons.mpr ⟨hfirst, hothers⟩⟩

theorem lays_plainName : Lays source plainName fun n ↦ [.name n] := by
  intro lo
  refine (Leads.notAhead _).bind fun _ ↦ ?_
  exact lays_name lo

theorem takes_lineEnd : Takes source lineEnd :=
  .orElse (takes_literal (by decide)) (takes_literal (by decide))

theorem takes_quoted {quote : Char} (h : isSign (String.singleton quote) = true) :
    Takes source (quoted quote) := by
  have hescape : Moves source (do literal "\\"; oneOf .any) :=
    .bind (takes_literal (by decide)).moves fun _ ↦ moves_oneOf _
  have htext : Moves source (textOf (skipMany ((do literal "\\"; oneOf .any) <|>
      oneOf (CharClass.ofChars [quote, '\\']).compl))) :=
    .textOf (.skipMany (.orElse hescape (moves_oneOf _)))
  refine .after (takes_literal h).moves fun _ ↦ ?_
  refine .after htext fun _ ↦ ?_
  refine .bind (takes_literal h) fun _ ↦ ?_
  exact .pure _

theorem takes_inlineSpace : Takes source (oneOf inlineSpace) := takes_oneOf (by decide)

theorem takes_heredocEnd (label : String) : Takes source (heredocEnd label) := by
  refine .bind takes_lineEnd fun _ ↦ ?_
  refine .bind (.skipMany takes_inlineSpace.reads) fun _ ↦ ?_
  refine .bind takes_word.reads fun _ ↦ ?_
  exact reads_ite (.pure _) (.failExpecting _)

theorem takes_heredoc : Takes source heredoc := by
  have hquote : Moves source (optional (oneOf (.ofChars ['"', '\'']))) := .optional (moves_oneOf _)
  refine .after (takes_literal (by decide)).moves fun _ ↦ ?_
  refine .after (.skipMany takes_inlineSpace.moves) fun _ ↦ ?_
  refine .after hquote fun _ ↦ ?_
  refine .after takes_word.moves fun label ↦ ?_
  refine .after hquote fun _ ↦ ?_
  have hline : Moves source (do notAhead (heredocEnd label); oneOf .any) :=
    .bind (.notAhead _) fun _ ↦ moves_oneOf _
  refine .after (.textOf (.skipMany hline)) fun _ ↦ ?_
  refine .bind (takes_heredocEnd label) fun _ ↦ ?_
  exact .pure _

theorem takes_stringLiteral : Takes source stringLiteral :=
  .orElse (takes_quoted (by decide)) (.orElse (takes_quoted (by decide)) takes_heredoc)

theorem takes_some1 {p : Parser Unit} (h : Takes source p) : Takes source (some1 p) :=
  h.bind fun _ ↦ .skipMany h.reads

theorem takes_digit : Takes source (oneOf digit) := takes_oneOf (by decide)

theorem reads_exponent : Reads source exponent := by
  refine .bind (takes_oneOf (by decide)).reads fun _ ↦ ?_
  refine .bind (.optional (takes_oneOf (by decide)).reads) fun _ ↦ ?_
  exact (takes_some1 takes_digit).reads

theorem takes_number : Takes source number := by
  have hdigits {k : CharClass} (h : ['n', 'u', 'l'].any k.contains = false) :
      Takes source (do oneOf digit; skipMany (oneOf k)) :=
    .bind takes_digit fun _ ↦ .skipMany (takes_oneOf h).reads
  have hexponent : Reads source (do let _ ← optional exponent) :=
    .bind (.optional reads_exponent) fun _ ↦ .pure _
  have hdecimals {k : CharClass} (h : ['n', 'u', 'l'].any k.contains = false) :
      Reads source (optional do literal "."; oneOf digit; skipMany (oneOf k)) :=
    .optional (.bind (reads_literal (by decide)) fun _ ↦ (hdigits h).reads)
  refine .orElse (.textOf ?_) (.orElse (.textOf ?_) (.orElse (.textOf ?_) (.textOf ?_)))
  · refine .bind (takes_literal (by decide)) fun _ ↦ ?_
    refine .bind (takes_oneOf (by decide)).reads fun _ ↦ ?_
    exact (takes_some1 (takes_oneOf (by decide))).reads
  · refine .bind (takes_literal (by decide)) fun _ ↦ ?_
    refine .bind (takes_oneOf (by decide)).reads fun _ ↦ ?_
    exact (takes_some1 (takes_oneOf (by decide))).reads
  · refine .bind (hdigits (by decide)) fun _ ↦ ?_
    refine .bind (hdecimals (by decide)) fun _ ↦ ?_
    exact hexponent
  · refine .bind (takes_literal (by decide)) fun _ ↦ ?_
    refine .bind (takes_some1 takes_digit).reads fun _ ↦ ?_
    exact hexponent

theorem moves_attributeBody (fuel : List Char) : Moves source (attributeBody fuel) := by
  induction fuel with
  | nil => exact fun _ ↦ .pure _ fun _ _ h ↦ h
  | cons x fuel ih =>
    have hgroup : Moves source (do literal "["; attributeBody fuel; literal "]") := by
      refine .bind (takes_literal (by decide)).moves fun _ ↦ ?_
      refine .bind ih fun _ ↦ ?_
      exact (takes_literal (by decide)).moves
    have hstring : Moves source (do let _ ← stringLiteral) :=
      .bind takes_stringLiteral.moves fun _ _ ↦ .pure _ fun _ _ h ↦ h
    exact .skipMany (.orElse hgroup (.orElse hstring (moves_oneOf _)))

theorem reads_restOfLine : Reads source restOfLine := by
  intro lo
  have hmoves : Moves source (do notAhead (lineEnd <|> literal "?>"); oneOf .any) :=
    .bind (.notAhead _) fun _ ↦ moves_oneOf _
  have hshrinks : Shrinks (do notAhead (lineEnd <|> literal "?>"); oneOf .any) :=
    (shrinks_oneOf _).unless _
  refine (skipMany_leads hmoves hshrinks ?_ lo).imp (fun _ h ↦ h.1) fun _ _ h ↦ h
  simp only [List.mem_cons, List.not_mem_nil, or_false]
  rintro x (rfl | rfl) xs n <;> exact ⟨_, _, _, rfl⟩

theorem takes_comment : Takes source comment := by
  have hrest : Moves source (do notAhead (literal "*/"); oneOf .any) :=
    .bind (.notAhead _) fun _ ↦ moves_oneOf _
  have hblock : Takes source blockComment := by
    refine .after (takes_literal (by decide)).moves fun _ ↦ ?_
    refine .after (.skipMany hrest) fun _ ↦ ?_
    exact takes_literal (by decide)
  have hslash : Takes source slashComment :=
    .bind (takes_literal (by decide)) fun _ ↦ reads_restOfLine
  have hbody : Moves source fun c ↦ attributeBody c.rest c := fun lo c a next f hc hP hm ↦
    moves_attributeBody c.rest lo c a next f hc hP hm
  have hattribute : Takes source attributeComment := by
    refine .after (takes_literal (by decide)).moves fun _ ↦ ?_
    refine .after hbody fun _ ↦ ?_
    exact takes_literal (by decide)
  have hhash : Takes source hashComment :=
    .bind (takes_literal (by decide)) fun _ ↦ reads_restOfLine
  exact .orElse hblock (.orElse hslash (.orElse hattribute hhash))

theorem reads_trivia : Reads source trivia := by
  have hblanks : Takes source whitespace := takes_some1 (takes_oneOf (by decide))
  exact .quiet (.skipMany (.orElse hblanks.reads takes_comment.reads))

end PhpInsight.Grammar

namespace PhpInsight.Peg.Parser

open Grammar

variable {α : Type} {source : List Char} {s : Parser Unit} {p : Parser α} {lo : Nat}
  {ns : List Node} {nodes : α → List Node} {Q : α → Nat → Prop}

theorem Reads.token (hs : Reads source s) (h : Reads source p) :
    Reads source (do s; trivia; p) := hs.bind fun _ ↦ reads_trivia.bind fun _ ↦ h

theorem Lays.token (hs : Reads source s) (h : Lays source p nodes) :
    Lays source (do s; trivia; p) nodes := fun lo ↦
  hs.laid.bind fun _ ↦ reads_trivia.laid.bind fun _ ↦ h lo

theorem Leads.gap (h : Leads source (Within source lo · ns) p Q) :
    Leads source (Within source lo · ns) (do trivia; p) Q := reads_trivia.within.bind fun _ ↦ h

theorem Leads.token (hs : Reads source s) (h : Leads source (Within source lo · ns) p Q) :
    Leads source (Within source lo · ns) (do s; trivia; p) Q := hs.within.bind fun _ ↦ h.gap

theorem Leads.opening (hs : Takes source s) (h : Leads source (Within source lo · ns) p Q) :
    Leads source (Laid source lo · ns) (do s; trivia; p) Q := hs.within.bind fun _ ↦ h.gap

end PhpInsight.Peg.Parser

namespace PhpInsight.Grammar

open Peg Peg.Parser Text

variable {α : Type} {source : List Char}

theorem reads_comma : Reads source comma := by
  refine .bind reads_trivia fun _ ↦ ?_
  refine .bind (reads_literal (by decide)) fun _ ↦ ?_
  exact reads_trivia

theorem reads_trailingComma : Reads source trailingComma :=
  .bind (.optional (.bind reads_trivia fun _ ↦ reads_literal (by decide))) fun _ ↦ .pure _

variable {p : Parser α} {nodes : α → List Node}

theorem lays_optionalAfter (h : Lays source p nodes) :
    Lays source (optionalAfter p) fun o ↦ o.toList.flatMap nodes := by
  refine .optional fun _ ↦ ?_
  refine reads_trivia.laid.bind fun _ ↦ ?_
  exact h _

theorem reads_optionalAfter (h : Reads source p) : Reads source (optionalAfter p) :=
  .optional (.bind reads_trivia fun _ ↦ h)

theorem lays_optionalBefore (h : Lays source p nodes) :
    Lays source (optionalBefore p) fun o ↦ o.toList.flatMap nodes := by
  refine .optional fun lo ↦ ?_
  refine (h lo).bind fun _ ↦ ?_
  refine reads_trivia.laid.bind fun _ ↦ ?_
  exact .pure _ fun _ _ h ↦ h

theorem reads_optionalBefore (h : Reads source p) : Reads source (optionalBefore p) :=
  .optional (.bind h fun _ ↦ .bind reads_trivia fun _ ↦ .pure _)

theorem lays_manyAfter (h : Lays source p nodes) :
    Lays source (manyAfter p) fun as ↦ as.flatMap nodes := by
  refine .many fun _ ↦ ?_
  refine reads_trivia.laid.bind fun _ ↦ ?_
  exact h _

theorem covers_between {left right : String} (hsigns : isSign left = true ∧ isSign right = true)
    (h : Lays source p nodes) : Covers source (between left p right) nodes := by
  intro lo
  refine .opening (takes_literal hsigns.1) ?_
  refine .bind h.within fun _ ↦ .gap ?_
  refine .bind (reads_literal hsigns.2).within fun _ ↦ ?_
  exact .pure _ fun _ _ h ↦ h

theorem covers_listed {node : α → Node} (h : Lays source p fun a ↦ [node a]) :
    Covers source (do
      literal "("
      trivia
      let found ← sepBy p comma
      trailingComma
      trivia
      literal ")"
      return found) fun as ↦ as.map node := by
  have hfound : Lays source (sepBy p comma) fun as ↦ as.map node :=
    (h.sepBy reads_comma).congr fun _ ↦ List.map_eq_flatMap.symm
  intro lo
  refine .opening (takes_literal (by decide)) ?_
  refine .bind hfound.within fun _ ↦ ?_
  refine .token reads_trailingComma ?_
  refine .bind (reads_literal (by decide)).within fun _ ↦ ?_
  exact .pure _ fun _ _ h ↦ h

end PhpInsight.Grammar
