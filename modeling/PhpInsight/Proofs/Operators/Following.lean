import PhpInsight.Grammar.Statement
import PhpInsight.Proofs.Operators.Tree

namespace PhpInsight.Grammar

open Peg Peg.Parser

variable {g : Rules} {more rest text : List Char} {rank rank' min : Nat}

/-- A text behind an expression, with what is skipped before it. It ends expressions of places
where at least the rank `bound` is needed. -/
structure Follower where
  gap : List Char
  text : List Char
  bound : Nat
  deriving DecidableEq

def closers : List Follower := [⟨[], [';'], 0⟩, ⟨[], [')'], 0⟩, ⟨[' '], [':', ' '], 0⟩]

def Follower.operator (spelling : String) (rank : Nat) : Follower :=
  ⟨[' '], spelling.toList ++ [' '], rank + 1⟩

def followers : List Follower :=
  closers ++ wordOperators.map (fun o ↦ .operator o.word o.level) ++
    [.operator "?" conditionalRank, .operator "?:" conditionalRank,
      .operator "instanceof" (rankOfLevel Level.instanceOf)] ++
    symbolOperators.flatMap fun o ↦ o.spellings.map (.operator · (rankOfLevel o.level))

/-- An expression at a place where a rank is needed ends before the text. -/
def Ends (rank : Nat) (rest : List Char) : Prop :=
  ∃ f ∈ followers, f.bound ≤ rank ∧ ∃ more, rest = f.gap ++ (f.text ++ more)

theorem Ends.mono (h : Ends rank rest) (hle : rank ≤ rank') : Ends rank' rest := by
  obtain ⟨f, hf, hbound, hrest⟩ := h
  exact ⟨f, hf, Nat.le_trans hbound hle, hrest⟩

theorem ends_of_mem {f : Follower} (hf : f ∈ followers) (hbound : f.bound ≤ rank) :
    Ends rank (f.gap ++ (f.text ++ more)) := ⟨f, hf, hbound, more, rfl⟩

theorem Ends.semicolon : Ends rank (';' :: more) :=
  ends_of_mem (f := ⟨[], [';'], 0⟩) (by decide) (Nat.zero_le _)

theorem Ends.parenthesis : Ends rank (')' :: more) :=
  ends_of_mem (f := ⟨[], [')'], 0⟩) (by decide) (Nat.zero_le _)

theorem Ends.colon : Ends rank (' ' :: ':' :: ' ' :: more) :=
  ends_of_mem (f := ⟨[' '], [':', ' '], 0⟩) (by decide) (Nat.zero_le _)

theorem Ends.operator (spelling : String) (h : .operator spelling rank ∈ followers)
    (hle : rank + 1 ≤ rank') : Ends rank' (' ' :: (spelling.toList ++ [' ']) ++ more) := by
  refine ⟨_, h, hle, more, ?_⟩
  simp [Follower.operator]

def idleHeads : List Char := ['>', '=', ':']

def refusesWord (word : String) (text : List Char) : Bool :=
  text.head?.any (!wordStart.contains ·) ||
    (text.getLast? = some ' ' && isWordText text.dropLast &&
      !Text.sameIgnoringCase (String.ofList text.dropLast) word)

/-- Every spelling differs from the text, or something follows it there before which it does not
count or of which no operand can be made. -/
def InfixOperator.refuses (o : InfixOperator) (text : List Char) : Bool :=
  o.spellings.all fun s ↦ Differ s.toList text ||
    (s.toList.isPrefixOf text && (text.drop s.toList.length).head?.any
      fun x ↦ o.notBefore.contains x || idleHeads.contains x)

def suffixMarks : List String := ["?->", "->", "::", "[", "("]

/-- Nothing that a looser place than the bound allows goes on with an expression there. -/
structure Follower.Stops (f : Follower) : Prop where
  gap : f.gap = [] ∨ f.gap = [' ']
  solid : isSolid f.text = true
  head : (f.gap ++ f.text).head?.any (fun x ↦ !isWordChar x && x ≠ '\\') = true
  suffix : ∀ s ∈ suffixMarks, Differ s.toList f.text = true
  assignment : Differ ['='] f.text = true ∨ f.text.take 2 = ['=', '=']
  compound : ∀ c ∈ compoundOperators, Differ c.1.toList f.text = true
  step : ∀ o ∈ stepOperators, Differ o.1.toList f.text = true
  symbol : ∀ o ∈ symbolOperators, f.bound ≤ rankOfLevel o.level → o.refuses f.text = true
  instanceOf : f.bound ≤ rankOfLevel Level.instanceOf → refusesWord "instanceof" f.text = true
  word : f.bound ≤ conditionalRank → ∀ o ∈ wordOperators, f.bound ≤ o.level →
    refusesWord o.word f.text = true
  mark : f.bound ≤ conditionalRank → Differ ['?'] f.text = true

theorem rejects_keyword_of_refuses {word : String} (h : refusesWord word text = true)
    (more : List Char) : Rejects (keyword word) (text ++ more) := by
  rcases Bool.or_eq_true_iff.mp h with h | h
  · cases text with
    | nil => cases h
    | cons x xs =>
      refine .bind (.textOf (.bind (.oneOf ?_)))
      rintro y ⟨⟩
      simpa using h
  · simp only [Bool.and_eq_true, decide_eq_true_eq, Bool.not_eq_true'] at h
    obtain ⟨⟨hlast, hword⟩, hother⟩ := h
    have hsplit : text = text.dropLast ++ [' '] := by
      obtain ⟨ys, rfl⟩ := List.getLast?_eq_some_iff.mp hlast
      rw [List.dropLast_concat]
    rw [hsplit, List.append_assoc]
    exact rejects_keyword hword (endsWord_cons (not_isWordChar ' ' (by simp))) hother

section

variable {f : Follower} (hf : f ∈ followers)

include hf

theorem Follower.stops : f.Stops := by
  constructor <;> (revert f; decide +kernel)

theorem accepts_gap (more : List Char) : Accepts trivia f.gap (f.text ++ more) := by
  have hsolid : Solid (f.text ++ more) := solid_append (Follower.stops hf).solid more
  rcases (Follower.stops hf).gap with h | h
  · rw [h]
    exact accepts_trivia_nil hsolid
  · rw [h]
    exact accepts_trivia_blank hsolid

theorem rejects_after_gap {α : Type} {p : Parser α} (h : Rejects p (f.text ++ more)) :
    Rejects (do trivia; p) (f.gap ++ (f.text ++ more)) :=
  .bind_of_yields (accepts_gap hf more) fun _ _ ↦ h

end

theorem Ends.endsName (h : Ends rank rest) : EndsName rest := by
  obtain ⟨f, hf, -, more, rfl⟩ := h
  have hf := (Follower.stops hf).head
  rw [← List.append_assoc]
  cases hcs : f.gap ++ f.text with
  | nil => simp [hcs] at hf
  | cons x xs =>
    simp only [hcs, List.head?_cons, Option.any_some, Bool.and_eq_true, Bool.not_eq_true',
      decide_eq_true_eq] at hf
    constructor
    · rintro y ⟨⟩
      exact hf.1
    · rintro y ⟨⟩
      exact hf.2

theorem rejects_suffix_of_differ (h : ∀ s ∈ suffixMarks, Differ s.toList text = true) (e : Expr)
    (more : List Char) : Rejects (suffix g e) (text ++ more) := by
  have hliteral {s : String} (hs : s ∈ suffixMarks) : Rejects (literal s) (text ++ more) :=
    .literal (h s hs)
  refine .orElse (.bind (.orElse (.bind ?_) (.bind ?_))) (.orElse (.bind ?_) (.orElse (.bind ?_)
    (.orElse (.bind (.bind ?_)) (.bind (.bind ?_)))))
  all_goals exact hliteral (by decide)

theorem rejects_suffix {f : Follower} (hf : f ∈ followers) (e : Expr) :
    Rejects (suffix g e) (f.text ++ more) :=
  rejects_suffix_of_differ (Follower.stops hf).suffix e more

theorem rejects_assignment {f : Follower} (hf : f ∈ followers) (e : Expr) :
    Rejects (plainAssignment g e <|> compoundAssignment g e) (f.text ++ more) := by
  refine .orElse ?_ (.bind (.firstOf fun p hp ↦ ?_))
  · rcases (Follower.stops hf).assignment with h | h
    · exact .bind (.literal h)
    · have hsplit : f.text = ['='] ++ ('=' :: f.text.drop 2) := by
        have happend := List.take_append_drop 2 f.text
        rw [h] at happend
        exact happend.symm
      rw [hsplit, List.append_assoc]
      exact .bind_of_yields (.literal "=") fun _ _ ↦ .bind (.notAhead_head (.oneOf (by decide)))
  · obtain ⟨c, hc, rfl⟩ := List.mem_map.mp hp
    exact .bind (.literal ((Follower.stops hf).compound c hc))

theorem yields_atom {e : Expr → Prop} (hp : Yields (primary g) text rest e) (h : Ends rank rest) :
    Yields (atom g) text rest e := by
  obtain ⟨f, hf, -, more, rfl⟩ := h
  have hsuffixes : Extends (fun e ↦ do trivia; suffix g e) e []
      (f.gap ++ (f.text ++ more)) e :=
    .stop fun a ha ↦ ⟨rejects_after_gap hf (rejects_suffix hf a), ha⟩
  refine .map (.map hp fun a ha ↦ hsuffixes.foldMany ha) fun a ha ↦ ?_
  refine .bind_nil (.optional_none (rejects_after_gap hf (rejects_assignment hf a))) fun o ho ↦ ?_
  subst ho
  exact .pure ha

def barrenHeads : List Char := idleHeads ++ ['?', '&', ' ', '\t', '\n', '\r', '/', '#']

def angledHeads : List Char := '<' :: barrenHeads

def openHeads : List Char := '(' :: angledHeads

theorem Heads.barren (h : Heads idleHeads text) : Heads barrenHeads text :=
  fun x hx ↦ List.mem_append_left _ (h x hx)

theorem rejects_leading {op : Parser (Expr → ExprKind)} {level : Nat} (h : Rejects op text) :
    Rejects (leading g level op) text := .bind_nil .position fun _ _ ↦ .bind h

theorem primary_of_rejects_words {C : Parser Expr → Prop} (h : Heads openHeads text)
    (hC : ∀ p q, Rejects p text → C q → C (p <|> q))
    (hlast : C (stringExpr <|> numberExpr <|> arrayLiteral g <|> issetExpr g <|> emptyExpr g <|>
      parenthesized g <|> constExpr plainName)) : C (primary g) := by
  have hkeyword (s : String) : Rejects (keyword s) text := h.rejects_keyword (by decide)
  have hstatic : Accepts staticWord [] text :=
    .map (.optional_none (.bind (hkeyword "static"))) fun _ _ ↦ .pure trivial
  refine hC _ _ ?_ (hC _ _ ?_ (hC _ _ ?_ (hC _ _ ?_ hlast)))
  · exact .bind_nil .position fun _ _ ↦ .bind (.bind_nil .position fun _ _ ↦
      .bind (h.rejects_literal (by decide)))
  · exact .bind_nil .position fun _ _ ↦ .bind (hkeyword _)
  · refine .bind_nil .position fun _ _ ↦ ?_
    refine .bind_nil hstatic fun _ _ ↦ ?_
    exact .bind (hkeyword _)
  · refine .bind_nil .position fun _ _ ↦ ?_
    refine .bind_nil hstatic fun _ _ ↦ ?_
    exact .bind (hkeyword _)

theorem primary_of_rejects {C : Parser Expr → Prop} (h : Heads openHeads text)
    (hstring : Rejects stringLiteral text) (hC : ∀ p q, Rejects p text → C q → C (p <|> q))
    (hlast : C (parenthesized g <|> constExpr plainName)) : C (primary g) := by
  have hkeyword (s : String) : Rejects (keyword s) text := h.rejects_keyword (by decide)
  have hdigit : Rejects (oneOf digit) text := h.rejects_oneOf (by decide)
  have hzero : Rejects (literal "0") text := h.rejects_literal (by decide)
  refine primary_of_rejects_words h hC (hC _ _ ?_ (hC _ _ ?_ (hC _ _ ?_ (hC _ _ ?_ (hC _ _ ?_
    hlast)))))
  · exact .bind_nil .position fun _ _ ↦ .bind hstring
  · refine .bind_nil .position fun _ _ ↦ .bind (.orElse (.textOf (.bind hzero))
      (.orElse (.textOf (.bind hzero)) (.orElse (.textOf (.bind (.bind hdigit)))
        (.textOf (.bind (h.rejects_literal (by decide)))))))
  · refine .orElse (.bind_nil .position fun _ _ ↦ .bind (.bind (h.rejects_literal (by decide))))
      (.bind_nil .position fun _ _ ↦ .bind (hkeyword _))
  · exact .bind_nil .position fun _ _ ↦ .bind (hkeyword _)
  · exact .bind_nil .position fun _ _ ↦ .bind (hkeyword _)

theorem rejects_operand_angled (h : Heads angledHeads text) (hstring : Rejects stringLiteral text) :
    Rejects (operand g) text := by
  have hkeyword (s : String) : Rejects (keyword s) text := h.rejects_keyword (by decide)
  have hopen : Heads openHeads text := fun x hx ↦ List.mem_cons_of_mem _ (h x hx)
  have hword : Rejects word text := h.rejects_word (by decide)
  refine .orElse ?_ (.orElse ?_ (.orElse ?_ (.orElse ?_ (.orElse ?_ (.orElse ?_ ?_)))))
  · exact rejects_leading (.bind (hkeyword _))
  · exact rejects_leading (.bind (h.rejects_literal (by decide)))
  · refine .firstOf fun p hp ↦ ?_
    obtain ⟨o, ho, rfl⟩ := List.mem_map.mp hp
    have hall : ∀ o ∈ signOperators, o.1.toList.head?.any (· ∉ angledHeads) = true := by decide
    exact rejects_leading (.bind (h.rejects_literal (hall o ho)))
  · exact rejects_leading (.bind (.bind (h.rejects_literal (by decide))))
  · exact rejects_leading (.bind (hkeyword _))
  · refine rejects_leading (.orElse ?_ (.orElse ?_ (.orElse ?_ ?_)))
    all_goals exact .bind (hkeyword _)
  · refine .bind (.bind (primary_of_rejects (C := (Rejects · text)) hopen hstring
      (fun _ _ h h' ↦ h.orElse h') (.orElse ?_ ?_)))
    · exact .bind_nil .position fun _ _ ↦ .bind (.bind (h.rejects_literal (by decide)))
    · refine .bind_nil .position fun _ _ ↦ .bind (.bind_nil (.notAhead (.bind hword)) fun _ _ ↦ ?_)
      have hslash : Accepts (isPresent (literal "\\")) [] text :=
        .map (.optional_none (h.rejects_literal (by decide))) fun _ _ ↦ .pure trivial
      refine .bind_nil .position fun _ _ ↦ ?_
      refine .bind_nil hslash fun _ _ ↦ ?_
      exact .bind hword

theorem rejects_operand (h : Heads barrenHeads text) : Rejects (operand g) text :=
  rejects_operand_angled (fun x hx ↦ List.mem_cons_of_mem _ (h x hx))
    (h.rejects_stringLiteral (by decide))

theorem rejects_angle {more : List Char} (h : ¬ ['<', '<'] <+: more) (n min : Nat) :
    Rejects ((Rules.ofDepth n).binary min) ('<' :: more) := by
  cases n with
  | zero => exact .fail
  | succ n =>
    exact .bind (rejects_operand_angled (heads_cons List.mem_cons_self) (rejects_string_of_angle h))

theorem rejects_rules (h : Heads barrenHeads text) (n min : Nat) :
    Rejects ((Rules.ofDepth n).expr min) text ∧ Rejects ((Rules.ofDepth n).binary min) text := by
  cases n with
  | zero => exact ⟨.fail, .fail⟩
  | succ n => exact ⟨.bind (.bind (.bind (rejects_operand h))), .bind (rejects_operand h)⟩

theorem firstOf_literals (more : List Char) (ss : List String)
    (h : ∀ s ∈ ss, Differ s.toList text = true ∨ s.toList <+: text) :
    Rejects (firstOf (ss.map literal)) (text ++ more) ∨ ∃ s ∈ ss, ∃ behind,
      text = s.toList ++ behind ∧ Differ s.toList text = false ∧
        Accepts (firstOf (ss.map literal)) s.toList (behind ++ more) := by
  induction ss with
  | nil => exact .inl .fail
  | cons s ss ih =>
    cases hd : Differ s.toList text with
    | true =>
      have hs : Rejects (literal s) (text ++ more) := .literal hd
      rcases ih fun s' hs' ↦ h s' (List.mem_cons_of_mem _ hs') with ih | ⟨s', hs', behind, htext,
        hdiffer, ih⟩
      · exact .inl (.orElse hs ih)
      · refine .inr ⟨s', List.mem_cons_of_mem _ hs', behind, htext, hdiffer,
          .orElse_of_rejects ?_ ih⟩
        rwa [← List.append_assoc, ← htext]
    | false =>
      rcases h s List.mem_cons_self with hd' | ⟨behind, htext⟩
      · rw [hd] at hd'
        cases hd'
      · exact .inr ⟨s, List.mem_cons_self, behind, htext.symm, hd, .orElse (.literal s)⟩

theorem rejects_infixTail {n : Nat} {o : InfixOperator} {f : Follower} (hf : f ∈ followers)
    (h : o.refuses f.text = true) (e : Expr) (more : List Char) :
    Rejects (infixTail (.ofDepth n) o e) (f.gap ++ (f.text ++ more)) := by
  refine rejects_after_gap hf ?_
  have hall (s : String) (hs : s ∈ o.spellings) := Bool.or_eq_true_iff.mp
    (List.all_eq_true.mp h s hs)
  rcases firstOf_literals more o.spellings fun s hs ↦ (hall s hs).imp id fun h ↦
    List.isPrefixOf_iff_prefix.mp (Bool.and_eq_true_iff.mp h).1 with h | ⟨s, hs, behind, htext,
      hdiffer, haccepts⟩
  · exact .bind (.bind h)
  · have hnext : behind.head?.any (fun x ↦ o.notBefore.contains x || idleHeads.contains x) := by
      rcases hall s hs with hd | hp
      · rw [hdiffer] at hd
        cases hd
      · simpa [htext] using (Bool.and_eq_true_iff.mp hp).2
    rw [htext, List.append_assoc]
    cases behind with
    | nil => cases hnext
    | cons x xs =>
      cases hx : o.notBefore.contains x with
      | true =>
        refine .bind (.bind_of_yields haccepts fun _ _ ↦ .notAhead_head (.oneOf ?_))
        rw [CharClass.contains_ofChars]
        simpa using hx
      | false =>
        have hidle : Heads idleHeads (x :: xs ++ more) := by
          rintro y ⟨⟩
          have hx : x ∉ o.notBefore := by simpa using hx
          simpa [hx] using hnext
        have hsymbol : Accepts (infixSymbol o) s.toList (x :: xs ++ more) := by
          refine .map haccepts fun _ _ ↦ .notAhead (.oneOf ?_)
          rintro y ⟨⟩
          rw [CharClass.contains_ofChars]
          simpa using hx
        refine .bind_of_yields hsymbol fun _ _ ↦ ?_
        refine .bind_nil (accepts_trivia_nil (hidle.solid (by decide))) fun _ _ ↦ ?_
        exact .bind (rejects_rules hidle.barren n _).2

theorem rejects_instanceOfTail {f : Follower} (hf : f ∈ followers)
    (h : refusesWord "instanceof" f.text = true) (e : Expr) (more : List Char) :
    Rejects (instanceOfTail e) (f.gap ++ (f.text ++ more)) :=
  rejects_after_gap hf (.bind (rejects_keyword_of_refuses h more))

theorem rejects_stepTail {f : Follower} (hf : f ∈ followers) {step : String × UnaryOp}
    (h : step ∈ stepOperators) (e : Expr) :
    Rejects (stepTail step.1 step.2 e) (f.gap ++ (f.text ++ more)) :=
  rejects_after_gap hf (.bind (.literal ((Follower.stops hf).step step h)))

theorem rejects_wordTail {f : Follower} (hf : f ∈ followers) {o : WordOperator}
    (h : refusesWord o.word f.text = true) (e : Expr) (more : List Char) :
    Rejects (wordTail g o e) (f.gap ++ (f.text ++ more)) :=
  rejects_after_gap hf (.bind (rejects_keyword_of_refuses h more))

theorem mem_tails {p : Nat × (Expr → Parser Expr)} (h : p ∈ tails g) :
    (∃ o ∈ symbolOperators, p = (o.level, infixTail g o)) ∨
      p = (Level.instanceOf, instanceOfTail) ∨
        ∃ o ∈ stepOperators, p = (Level.step, stepTail o.1 o.2) := by
  simp only [tails, List.mem_append, List.mem_cons, List.mem_map] at h
  rcases h with (⟨o, ho, rfl⟩ | rfl | ⟨o, ho, rfl⟩) | ⟨o, ho, rfl⟩
  · exact .inl ⟨o, List.mem_append_left _ ho, rfl⟩
  · exact .inr (.inl rfl)
  · exact .inl ⟨o, List.mem_append_right _ ho, rfl⟩
  · exact .inr (.inr ⟨o, ho, rfl⟩)

/-- No tail of a level matches behind an expression that a looser operator follows. -/
theorem rejects_tails {n : Nat} (h : Ends (rankOfLevel min) rest) (e : Expr) :
    Rejects (tailFrom (tails (.ofDepth n)) min e) rest := by
  obtain ⟨f, hf, hbound, more, rfl⟩ := h
  refine .firstOf fun p hp ↦ ?_
  obtain ⟨q, hq, rfl⟩ := List.mem_map.mp hp
  obtain ⟨hq, hmin⟩ := List.mem_filter.mp hq
  have hmin : min ≤ q.1 := of_decide_eq_true hmin
  have hle : f.bound ≤ rankOfLevel q.1 := by
    unfold rankOfLevel at hbound ⊢
    omega
  rcases mem_tails hq with ⟨o, ho, rfl⟩ | rfl | ⟨o, ho, rfl⟩
  · exact rejects_infixTail hf ((Follower.stops hf).symbol o ho hle) e more
  · exact rejects_instanceOfTail hf ((Follower.stops hf).instanceOf hle) e more
  · exact rejects_stepTail hf ho e

theorem rejects_wordTails (h : Ends rank rest) (hrank : rank ≤ conditionalRank) (e : Expr) :
    Rejects (tailFrom (wordTails g) rank e) rest := by
  obtain ⟨f, hf, hbound, more, rfl⟩ := h
  refine .firstOf fun p hp ↦ ?_
  obtain ⟨q, hq, rfl⟩ := List.mem_map.mp hp
  obtain ⟨hq, hmin⟩ := List.mem_filter.mp hq
  have hmin : rank ≤ q.1 := of_decide_eq_true hmin
  obtain ⟨o, ho, rfl⟩ := List.mem_map.mp hq
  exact rejects_wordTail hf ((Follower.stops hf).word (Nat.le_trans hbound hrank) o ho
    (Nat.le_trans hbound hmin)) e more

theorem rejects_ternaryTail (h : Ends conditionalRank rest) (e : Expr) :
    Rejects (ternaryTail g e) rest := by
  obtain ⟨f, hf, hbound, more, rfl⟩ := h
  exact rejects_after_gap hf (.bind (.literal ((Follower.stops hf).mark hbound)))

theorem wordOperator_mem_followers {o : WordOperator} (ho : o ∈ wordOperators) :
    .operator o.word o.level ∈ followers :=
  List.mem_append_left _ (List.mem_append_left _ (List.mem_append_right _
    (List.mem_map_of_mem (f := fun o : WordOperator ↦ Follower.operator o.word o.level) ho)))

theorem symbolOperator_mem_followers {o : InfixOperator} (ho : o ∈ symbolOperators) {s : String}
    (hs : s ∈ o.spellings) : .operator s (rankOfLevel o.level) ∈ followers :=
  List.mem_append_right _ (List.mem_flatMap.mpr ⟨o, ho, List.mem_map_of_mem hs⟩)

/-- Of the tails of a level or tighter the first that matches is that of the operator. -/
theorem yields_tailFrom {all : List (Nat × (Expr → Parser Expr))} {level : Nat}
    {tail : Expr → Parser Expr} {Q : Expr → Prop} {e : Expr}
    (before : List (Nat × (Expr → Parser Expr)))
    (hall : ∃ after, all = before ++ (level, tail) :: after) (hmin : min ≤ level)
    (hbefore : ∀ p ∈ before, Rejects (p.2 e) (text ++ rest)) (h : Yields (tail e) text rest Q) :
    Yields (tailFrom all min e) text rest Q := by
  obtain ⟨after, rfl⟩ := hall
  refine .firstOf ((before.filter (min ≤ ·.1)).map (·.2 e))
    ((after.filter (min ≤ ·.1)).map (·.2 e)) ?_ ?_ h
  · rw [List.filter_append, List.map_append, List.filter_cons_of_pos (by simpa using hmin),
      List.map_cons]
  · intro q hq
    obtain ⟨p, hp, rfl⟩ := List.mem_map.mp hq
    exact hbefore p (List.mem_filter.mp hp).1

theorem refuses_of_before {before after : List InfixOperator} {o a : InfixOperator} {s : String}
    (h : symbolOperators = before ++ o :: after) (ha : a ∈ before) (hs : s ∈ o.spellings) :
    a.refuses (s.toList ++ [' ']) = true := by
  have hpair : symbolOperators.Pairwise fun a o ↦ ∀ s ∈ o.spellings,
      a.refuses (s.toList ++ [' ']) = true := by decide +kernel
  rw [h] at hpair
  exact (List.pairwise_append.mp hpair).2.2 a ha o List.mem_cons_self s hs

theorem yields_infixTail {n : Nat} {o : InfixOperator} (ho : o ∈ symbolOperators) {s : String}
    (hs : s ∈ o.spellings) {e : Expr} {Q R : Expr → Prop} (hsolid : Solid (text ++ rest))
    (hright : Yields ((Rules.ofDepth n).binary o.rightLevel) text rest Q)
    (hQ : ∀ r, Q r → R (binaryExpr o.op e r)) :
    Yields (infixTail (.ofDepth n) o e) (' ' :: (s.toList ++ [' ']) ++ text) rest R := by
  have hf := symbolOperator_mem_followers ho hs
  have hblank : ∀ o ∈ symbolOperators, ' ' ∉ o.notBefore := by decide
  have hspellings : ∀ o ∈ symbolOperators, o.spellings.Pairwise fun a b ↦
      Differ a.toList (b.toList ++ [' ']) = true := by decide
  obtain ⟨before, after, hsplit⟩ := List.append_of_mem hs
  have hliteral : Accepts (firstOf (o.spellings.map literal)) s.toList (' ' :: (text ++ rest)) := by
    refine .firstOf (before.map literal) (after.map literal)
      (by rw [hsplit, List.map_append, List.map_cons]) (fun p hp ↦ ?_) (.literal s)
    obtain ⟨a, ha, rfl⟩ := List.mem_map.mp hp
    have hpair := hspellings o ho
    rw [hsplit] at hpair
    have hdiffer := (List.pairwise_append.mp hpair).2.2 a ha s List.mem_cons_self
    rw [← List.singleton_append, ← List.append_assoc]
    exact .literal hdiffer
  have hsymbol : Accepts (infixSymbol o) s.toList (' ' :: (text ++ rest)) := by
    refine .map hliteral fun _ _ ↦ .notAhead (.oneOf ?_)
    rintro y ⟨⟩
    rw [CharClass.contains_ofChars]
    exact decide_eq_false (hblank o ho)
  have hgap : Accepts trivia [' '] (s.toList ++ ' ' :: (text ++ rest)) := by
    have h := accepts_gap hf (text ++ rest)
    simpa [Follower.operator] using h
  have htext : ' ' :: (s.toList ++ [' ']) ++ text = [' '] ++ (s.toList ++ ([' '] ++ text)) := by
    simp
  rw [htext]
  refine .bind (by simpa using hgap) fun _ _ ↦ ?_
  refine .bind hsymbol fun _ _ ↦ ?_
  refine .bind (accepts_trivia_blank hsolid) fun _ _ ↦ ?_
  exact .map hright fun r hr ↦ .pure (hQ r hr)

theorem yields_infix {n : Nat} {o : InfixOperator} (ho : o ∈ symbolOperators) {s : String}
    (hs : s ∈ o.spellings) {e : Expr} {Q R : Expr → Prop} (hmin : min ≤ o.level)
    (hsolid : Solid (text ++ rest))
    (hright : Yields ((Rules.ofDepth n).binary o.rightLevel) text rest Q)
    (hQ : ∀ r, Q r → R (binaryExpr o.op e r)) :
    Yields (tailFrom (tails (.ofDepth n)) min e) (' ' :: (s.toList ++ [' ']) ++ text) rest R := by
  have hf := symbolOperator_mem_followers ho hs
  have htail := yields_infixTail ho hs hsolid hright hQ
  have hrejects {a : InfixOperator} (ha : a.refuses (s.toList ++ [' ']) = true) :
      Rejects (infixTail (.ofDepth n) a e) (' ' :: (s.toList ++ [' ']) ++ text ++ rest) := by
    have h := rejects_infixTail (n := n) hf ha e (text ++ rest)
    simpa [Follower.operator] using h
  rcases List.mem_append.mp ho with hloose | htight
  · obtain ⟨before, after, hsplit⟩ := List.append_of_mem hloose
    refine yields_tailFrom (before.map fun o ↦ (o.level, infixTail (.ofDepth n) o)) ?_ hmin
      (fun p hp ↦ ?_) htail
    · rw [tails, hsplit, List.map_append, List.map_cons, List.append_assoc, List.append_assoc]
      exact ⟨_, rfl⟩
    · obtain ⟨a, ha, rfl⟩ := List.mem_map.mp hp
      have hsymbols : symbolOperators = before ++ o :: (after ++ tightOperators) := by
        rw [symbolOperators, hsplit, List.append_assoc]
        rfl
      exact hrejects (refuses_of_before hsymbols ha hs)
  · obtain ⟨before, after, hsplit⟩ := List.append_of_mem htight
    refine yields_tailFrom (looseOperators.map (fun o ↦
      (o.level, infixTail (.ofDepth n) o)) ++ (Level.instanceOf, instanceOfTail) ::
        before.map fun o ↦ (o.level, infixTail (.ofDepth n) o)) ?_ hmin (fun p hp ↦ ?_) htail
    · refine ⟨after.map (fun o ↦ (o.level, infixTail (.ofDepth n) o)) ++
        stepOperators.map fun o ↦ (Level.step, stepTail o.1 o.2), ?_⟩
      rw [tails, hsplit]
      simp
    · have hall {a : InfixOperator} (ha : a ∈ looseOperators ++ before) :
          a.refuses (s.toList ++ [' ']) = true := by
        have hsymbols : symbolOperators = looseOperators ++ before ++ o :: after := by
          rw [symbolOperators, hsplit, List.append_assoc]
        exact refuses_of_before hsymbols ha hs
      have hword : ∀ o ∈ tightOperators, ∀ s ∈ o.spellings,
          refusesWord "instanceof" (s.toList ++ [' ']) = true := by decide
      simp only [List.mem_append, List.mem_cons, List.mem_map] at hp
      rcases hp with ⟨a, ha, rfl⟩ | rfl | ⟨a, ha, rfl⟩
      · exact hrejects (hall (List.mem_append_left _ ha))
      · have h := rejects_instanceOfTail hf (hword o htight s hs) e (text ++ rest)
        simpa [Follower.operator] using h
      · exact hrejects (hall (List.mem_append_right _ ha))

theorem yields_instanceOf {n : Nat} {full : Bool} {className : List String} {e : Expr}
    {R : Expr → Prop} (hmin : min ≤ Level.instanceOf) (hpath : isPathOfWords className = true)
    (hplain : startsPlain full className = true) (hend : EndsName rest)
    (hR : ∀ span span', R ⟨.instanceOf e (.named (.ofParts full className span)), span'⟩) :
    Yields (tailFrom (tails (.ofDepth n)) min e)
      (" instanceof ".toList ++ pathText full className) rest R := by
  have hf : .operator "instanceof" (rankOfLevel Level.instanceOf) ∈ followers := by decide
  have hbefore : ∀ o ∈ looseOperators, o.refuses "instanceof ".toList = true := by decide
  refine yields_tailFrom (looseOperators.map fun o ↦
    (o.level, infixTail (.ofDepth n) o)) ⟨_, by rw [tails, List.append_assoc]; rfl⟩ hmin
      (fun p hp ↦ ?_) ?_
  · obtain ⟨o, ho, rfl⟩ := List.mem_map.mp hp
    have h := rejects_infixTail (n := n) hf (hbefore o ho) e (pathText full className ++ rest)
    rw [List.append_assoc]
    exact h
  · have hgap : Accepts trivia [' '] ("instanceof ".toList ++ (pathText full className ++ rest)) :=
      accepts_gap hf (pathText full className ++ rest)
    have hkeyword : Accepts (keyword "instanceof") "instanceof".toList
        (' ' :: (pathText full className ++ rest)) :=
      accepts_keyword (by decide) (endsWord_cons (not_isWordChar ' ' (by simp))) (by decide)
    have hname : Yields instanceOfClass (pathText full className) rest fun c ↦
        ∃ span, c = .named (.ofParts full className span) := by
      refine .orElse (.map (yields_plainName hpath hplain hend) fun n hn ↦ .pure ?_)
      obtain ⟨span, rfl⟩ := hn
      exact ⟨span, rfl⟩
    have htext : " instanceof ".toList ++ pathText full className =
        [' '] ++ ("instanceof".toList ++ ([' '] ++ pathText full className)) := rfl
    rw [htext]
    refine .bind hgap fun _ _ ↦ ?_
    refine .bind hkeyword fun _ _ ↦ ?_
    refine .bind (accepts_trivia_blank (solid_pathText hpath)) fun _ _ ↦ ?_
    refine .map hname fun c hc ↦ ?_
    obtain ⟨span, rfl⟩ := hc
    exact .bind_nil .position fun stop _ ↦ .pure (hR span _)

theorem yields_alternative {g : Rules} {f : Expr → Expr} {Q R : Expr → Prop}
    (hsolid : Solid (text ++ rest)) (h : Yields g.ternary text rest Q) (hR : ∀ e, Q e → R (f e)) :
    Yields (do literal ":"; notAhead (literal ":"); trivia; let e ← g.ternary; return f e)
      (": ".toList ++ text) rest R := by
  refine .bind_head (.literal ":") fun _ _ ↦ .bind_nil (.notAhead ?_) fun _ _ ↦ ?_
  · exact (heads_cons (List.mem_singleton_self ' ')).rejects_literal (by decide)
  · refine .bind_head (accepts_trivia_blank hsolid) fun _ _ ↦ ?_
    exact .map h fun e he ↦ .pure (hR e he)

theorem yields_conditionalMark {p : Parser Expr} {Q : Expr → Prop} {x : Char}
    (hx : x ∈ [' ', ':']) (h : Yields p (x :: text) rest Q) :
    Yields (do trivia; literal "?"; notAhead (literal "?"); notAhead (literal "->"); p)
      (" ?".toList ++ x :: text) rest Q := by
  have hsolid : Solid ('?' :: x :: text ++ rest) :=
    (heads_cons (List.mem_singleton_self '?')).solid (by decide)
  have hother {s : String} (hs : s.toList.head?.any (· ∉ [' ', ':']) = true) :
      Rejects (literal s) (x :: text ++ rest) := (heads_cons hx).rejects_literal hs
  refine .bind_head (accepts_trivia_blank hsolid) fun _ _ ↦ ?_
  refine .bind_head (.literal "?") fun _ _ ↦ ?_
  refine .bind_nil (.notAhead (hother (by decide))) fun _ _ ↦ ?_
  refine .bind_nil (.notAhead (hother (by decide))) fun _ _ ↦ ?_
  exact h

theorem yields_ternaryTail {g : Rules} {cs : List Char} {c : Expr} {M A R : Expr → Prop}
    (hsolid : ∀ more, Solid (cs ++ more)) (hsolid' : Solid (text ++ rest))
    (hcs : Yields (anyExpr g) cs (" : ".toList ++ text ++ rest) M)
    (h : Yields g.ternary text rest A)
    (hR : ∀ m a, M m → A a → R ⟨.ternary c (some m) a, ⟨c.span.start, a.span.stop⟩⟩) :
    Yields (ternaryTail g c) (" ? ".toList ++ (cs ++ (" : ".toList ++ text))) rest R := by
  have hcolon : Solid (": ".toList ++ text ++ rest) :=
    (heads_cons (List.mem_singleton_self ':')).solid (by decide)
  refine yields_conditionalMark (x := ' ') (by decide)
    (show Yields _ (' ' :: (cs ++ (" : ".toList ++ text))) rest R from ?_)
  refine .bind_head (accepts_trivia_blank (by simpa using hsolid _)) fun _ _ ↦ ?_
  refine .bind (.optional hcs) fun m hm ↦ ?_
  obtain ⟨m, rfl, hm⟩ := hm
  refine .bind_head (accepts_trivia_blank hcolon) fun _ _ ↦ ?_
  refine yields_alternative hsolid' h fun a ha ↦ ?_
  exact hR m a hm ha

theorem yields_shortTernaryTail {n : Nat} {c : Expr} {A R : Expr → Prop}
    (hsolid : Solid (text ++ rest)) (h : Yields (Rules.ofDepth n).ternary text rest A)
    (hR : ∀ a, A a → R ⟨.ternary c none a, ⟨c.span.start, a.span.stop⟩⟩) :
    Yields (ternaryTail (.ofDepth n) c) (" ?: ".toList ++ text) rest R := by
  have hcolon {more : List Char} : Heads [':'] (':' :: more) :=
    heads_cons (List.mem_singleton_self ':')
  have hskip {more : List Char} : Accepts trivia [] (':' :: more) :=
    accepts_trivia_nil (hcolon.solid (by decide))
  have hnone (more : List Char) : Rejects (anyExpr (.ofDepth n)) (':' :: more) :=
    (rejects_rules (heads_cons (by decide)) n 0).1
  refine yields_conditionalMark (x := ':') (by decide) ?_
  refine .bind_nil hskip fun _ _ ↦ ?_
  refine .bind_nil (.optional_none (hnone _)) fun m hm ↦ ?_
  subst hm
  exact .bind_nil hskip fun _ _ ↦ yields_alternative hsolid h hR

theorem yields_wordOperator {n : Nat} {o : WordOperator} (ho : o ∈ wordOperators) {e : Expr}
    {Q R : Expr → Prop} (hmin : min ≤ o.level) (hsolid : Solid (text ++ rest))
    (hright : Yields ((Rules.ofDepth n).expr (o.level + 1)) text rest Q)
    (hQ : ∀ r, Q r → R (binaryExpr o.op e r)) :
    Yields (tailFrom (wordTails (.ofDepth n)) min e) (' ' :: (o.word.toList ++ [' ']) ++ text)
      rest R := by
  have hf := wordOperator_mem_followers ho
  have hgap : Accepts trivia [' '] (o.word.toList ++ ' ' :: (text ++ rest)) := by
    have h := accepts_gap hf (text ++ rest)
    simpa [Follower.operator] using h
  have hword : ∀ o ∈ wordOperators, isWordText o.word.toList = true ∧
      Text.sameIgnoringCase (String.ofList o.word.toList) o.word = true := by decide
  have hother : wordOperators.Pairwise fun a o ↦
      refusesWord a.word (o.word.toList ++ [' ']) = true := by decide
  obtain ⟨before, after, hsplit⟩ := List.append_of_mem ho
  have htail : Yields (wordTail (.ofDepth n) o e) (' ' :: (o.word.toList ++ [' ']) ++ text)
      rest R := by
    have htext : ' ' :: (o.word.toList ++ [' ']) ++ text =
        [' '] ++ (o.word.toList ++ ([' '] ++ text)) := by simp
    rw [htext]
    refine .bind (by simpa using hgap) fun _ _ ↦ ?_
    refine .bind (accepts_keyword (hword o ho).1 (endsWord_cons (not_isWordChar ' ' (by simp)))
      (hword o ho).2) fun _ _ ↦ ?_
    refine .bind (accepts_trivia_blank hsolid) fun _ _ ↦ ?_
    exact .map hright fun r hr ↦ .pure (hQ r hr)
  refine yields_tailFrom (before.map fun o ↦ (o.level, wordTail (.ofDepth n) o))
    ⟨_, by rw [wordTails, hsplit, List.map_append, List.map_cons]⟩ hmin (fun p hp ↦ ?_) htail
  obtain ⟨a, ha, rfl⟩ := List.mem_map.mp hp
  rw [hsplit] at hother
  have hrefuses := (List.pairwise_append.mp hother).2.2 a ha o List.mem_cons_self
  have h := rejects_wordTail (g := .ofDepth n) hf hrefuses e (text ++ rest)
  simpa [Follower.operator] using h

end PhpInsight.Grammar
