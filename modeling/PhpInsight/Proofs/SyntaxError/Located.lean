import PhpInsight.Grammar.File
import PhpInsight.Proofs.Span.Laying

namespace PhpInsight

open Peg Peg.Parser Text

namespace Peg

variable {α β : Type} {source : List Char}

theorem boundary_zero (source : List Char) : Boundary source 0 := ⟨[], source, rfl, rfl⟩

/-- What failed on the way did so at a place of the source, and so is what was got to. -/
def Outcome.Located (source : List Char) : Outcome α → Prop
  | .matched _ next f => next.In source ∧ Boundary source f.offset
  | .failed f => Boundary source f.offset

theorem Failures.boundary_merge {f g : Failures} (hf : Boundary source f.offset)
    (hg : Boundary source g.offset) : Boundary source (f.merge g).offset := by
  rw [Failures.offset_merge]
  rcases Nat.le_total f.offset g.offset with h | h
  · rwa [Nat.max_eq_right h]
  · rwa [Nat.max_eq_left h]

theorem Outcome.Located.withFailures {o : Outcome α} {f : Failures} (h : o.Located source)
    (hf : Boundary source f.offset) : (o.withFailures f).Located source := by
  cases o with
  | matched a next g => exact ⟨h.1, Failures.boundary_merge hf h.2⟩
  | failed g => exact Failures.boundary_merge hf h

class Located (source : List Char) (p : Parser α) : Prop where
  located (c : Cursor) : c.In source → (p c).Located source

namespace Located

variable {p q : Parser α} {u : Parser Unit}

theorem of_matched {c next : Cursor} {a : α} {f : Failures} [hp : Located source p]
    (hc : c.In source) (hm : p c = .matched a next f) :
    next.In source ∧ Boundary source f.offset := by
  have h := hp.located c hc
  rwa [hm] at h

theorem of_failed {c : Cursor} {f : Failures} [hp : Located source p]
    (hc : c.In source) (hm : p c = .failed f) : Boundary source f.offset := by
  have h := hp.located c hc
  rwa [hm] at h

instance pure (a : α) : Located source (pure a : Parser α) := ⟨fun _ hc ↦ ⟨hc, boundary_zero _⟩⟩

instance fail : Located source (fail : Parser α) := ⟨fun _ _ ↦ boundary_zero _⟩

instance failExpecting (label : String) : Located source (failExpecting label : Parser α) :=
  ⟨fun _ hc ↦ hc.boundary⟩

instance position : Located source position := ⟨fun _ hc ↦ ⟨hc, boundary_zero _⟩⟩

instance oneOf (k : CharClass) : Located source (oneOf k) := by
  refine ⟨fun ⟨cs, n⟩ hc ↦ ?_⟩
  unfold Parser.oneOf
  cases cs with
  | nil => exact hc.boundary
  | cons x xs =>
    simp only
    split
    · exact ⟨hc.next, boundary_zero _⟩
    · exact hc.boundary

instance literal (text : String) : Located source (literal text) := by
  refine ⟨fun c hc ↦ ?_⟩
  unfold Parser.literal
  cases hdrop : c.dropText? text.toList with
  | none => exact hc.boundary
  | some next =>
    obtain ⟨before, hsource, hoffset⟩ := hc
    obtain ⟨hrest, hnext⟩ := dropText?_eq_some hdrop
    refine ⟨⟨before ++ text.toList, ?_, ?_⟩, boundary_zero _⟩
    · rw [hsource, hrest, List.append_assoc]
    · rw [byteLength_append, hoffset, hnext]

instance bind {f : α → Parser β} [hp : Located source p]
    [hf : ∀ a, Located source (f a)] :
    Located source (p >>= f) := by
  refine ⟨fun c hc ↦ ?_⟩
  change (Parser.bind p f c).Located source
  unfold Parser.bind
  cases hm : p c with
  | failed g => exact of_failed hc hm
  | matched a next g =>
    obtain ⟨hnext, hg⟩ := of_matched hc hm
    exact ((hf a).located next hnext).withFailures hg

instance orElse [hp : Located source p] [hq : Located source q] : Located source (p <|> q) := by
  refine ⟨fun c hc ↦ ?_⟩
  change (Parser.orElse p (fun _ ↦ q) c).Located source
  unfold Parser.orElse
  cases hm : p c with
  | failed g => exact (hq.located c hc).withFailures (of_failed hc hm)
  | matched a next g => exact of_matched hc hm

instance ite {P : Prop} [Decidable P] [hp : Located source p] [hq : Located source q] :
    Located source (if P then p else q) := by
  split
  · exact hp
  · exact hq

instance many [hp : Located source p] : Located source (many p) := by
  have hfrom : ∀ fuel, Located source (manyFrom p fuel) := by
    intro fuel
    induction fuel with
    | nil =>
      refine ⟨fun c hc ↦ ?_⟩
      unfold manyFrom
      cases hm : p c with
      | failed g => exact ⟨hc, of_failed hc hm⟩
      | matched a next g => exact of_matched hc hm
    | cons x fuel ih =>
      refine ⟨fun c hc ↦ ?_⟩
      unfold manyFrom
      cases hm : p c with
      | failed g => exact ⟨hc, of_failed hc hm⟩
      | matched a next g =>
        obtain ⟨hnext, hg⟩ := of_matched hc hm
        have hrest := (ih.located next hnext).withFailures hg
        cases hr : manyFrom p fuel next <;> simp only [hr] <;> rw [hr] at hrest <;> exact hrest
  exact ⟨fun c hc ↦ (hfrom c.rest).located c hc⟩

instance skipMany [hu : Located source u] : Located source (skipMany u) := by
  have hfrom : ∀ fuel f c, c.In source → Boundary source f.offset →
      (skipManyFrom u fuel f c).Located source := by
    intro fuel
    induction fuel with
    | nil =>
      intro f c hc hf
      unfold skipManyFrom
      cases hm : u c with
      | failed g => exact ⟨hc, Failures.boundary_merge hf (of_failed hc hm)⟩
      | matched a next g =>
        obtain ⟨hnext, hg⟩ := of_matched hc hm
        exact ⟨hnext, Failures.boundary_merge hf hg⟩
    | cons x fuel ih =>
      intro f c hc hf
      unfold skipManyFrom
      cases hm : u c with
      | failed g => exact ⟨hc, Failures.boundary_merge hf (of_failed hc hm)⟩
      | matched a next g =>
        obtain ⟨hnext, hg⟩ := of_matched hc hm
        exact ih _ next hnext (Failures.boundary_merge hf hg)
  exact ⟨fun c hc ↦ hfrom c.rest .none c hc (boundary_zero _)⟩

instance foldMany {step : α → Parser α} {a : α} [hstep : ∀ a, Located source (step a)] :
    Located source (foldMany step a) := by
  have hfrom : ∀ fuel a, Located source (foldManyFrom step fuel a) := by
    intro fuel
    induction fuel with
    | nil =>
      refine fun a ↦ ⟨fun c hc ↦ ?_⟩
      unfold foldManyFrom
      cases hm : step a c with
      | failed g => exact ⟨hc, of_failed hc hm⟩
      | matched b next g => exact of_matched hc hm
    | cons x fuel ih =>
      refine fun a ↦ ⟨fun c hc ↦ ?_⟩
      unfold foldManyFrom
      cases hm : step a c with
      | failed g => exact ⟨hc, of_failed hc hm⟩
      | matched b next g =>
        obtain ⟨hnext, hg⟩ := of_matched hc hm
        exact ((ih b).located next hnext).withFailures hg
  exact ⟨fun c hc ↦ (hfrom c.rest a).located c hc⟩

instance optional [hp : Located source p] : Located source (optional p) := by
  refine ⟨fun c hc ↦ ?_⟩
  unfold Parser.optional
  cases hm : p c with
  | failed g => exact ⟨hc, of_failed hc hm⟩
  | matched a next g => exact of_matched hc hm

instance isPresent [Located source u] : Located source (isPresent u) := by
  unfold Parser.isPresent
  infer_instance

instance sepBy1 [Located source p] [Located source u] : Located source (sepBy1 p u) := by
  unfold Parser.sepBy1
  infer_instance

instance sepBy [Located source p] [Located source u] : Located source (sepBy p u) := by
  unfold Parser.sepBy
  infer_instance

instance quiet [hp : Located source p] : Located source (quiet p) := by
  refine ⟨fun c hc ↦ ?_⟩
  unfold Parser.quiet
  cases hm : p c with
  | failed g => exact boundary_zero _
  | matched a next g => exact ⟨(of_matched hc hm).1, boundary_zero _⟩

instance ahead : Located source (ahead u) := by
  refine ⟨fun c hc ↦ ?_⟩
  unfold Parser.ahead
  cases u c with
  | failed g => exact boundary_zero _
  | matched a next g => exact ⟨hc, boundary_zero _⟩

instance notAhead : Located source (notAhead u) := by
  refine ⟨fun c hc ↦ ?_⟩
  unfold Parser.notAhead
  cases u c with
  | failed g => exact ⟨hc, boundary_zero _⟩
  | matched a next g => exact boundary_zero _

instance textOf [hu : Located source u] : Located source (textOf u) := by
  refine ⟨fun c hc ↦ ?_⟩
  unfold Parser.textOf
  cases hm : u c with
  | failed g => exact of_failed hc hm
  | matched a next g => exact of_matched hc hm

theorem firstOf {ps : List (Parser α)} (h : ∀ p ∈ ps, Located source p) :
    Located source (firstOf ps) := by
  induction ps with
  | nil => exact fail
  | cons p ps ih =>
    have hp : Located source p := h p List.mem_cons_self
    have hps : Located source (Parser.firstOf ps) := ih fun q hq ↦ h q (List.mem_cons_of_mem _ hq)
    exact orElse

instance firstOf_nil : Located source (Parser.firstOf ([] : List (Parser α))) := fail

instance firstOf_cons {ps : List (Parser α)} [Located source p]
    [Located source (Parser.firstOf ps)] : Located source (Parser.firstOf (p :: ps)) := orElse

instance firstOf_map {ι : Type} {f : ι → Parser α} {is : List ι} [∀ i, Located source (f i)] :
    Located source (Parser.firstOf (is.map f)) :=
  firstOf fun _ hp ↦ by
    obtain ⟨i, -, rfl⟩ := List.mem_map.mp hp
    infer_instance

end Located

end Peg

namespace Grammar

-- The size of an instance counts one that is met again twice, and words are met often.
set_option synthInstance.maxSize 100000

variable {α : Type} {source : List Char} {p : Parser α} {u : Parser Unit} {g : Rules}

instance : Located source word := by unfold word; infer_instance
instance (text : String) : Located source (keyword text) := by unfold keyword; infer_instance
instance : Located source castType := by unfold castType; infer_instance
instance : Located source identifier := by unfold identifier; infer_instance
instance : Located source variableName := by unfold variableName; infer_instance
instance : Located source name := by unfold name; infer_instance
instance : Located source plainName := by unfold plainName; infer_instance
instance : Located source lineEnd := by unfold lineEnd; infer_instance
instance (quote : Char) : Located source (quoted quote) := by unfold quoted; infer_instance

instance (label : String) : Located source (heredocEnd label) := by
  unfold heredocEnd
  infer_instance

instance : Located source heredoc := by unfold heredoc; infer_instance
instance : Located source stringLiteral := by unfold stringLiteral; infer_instance
instance [Located source u] : Located source (some1 u) := by unfold some1; infer_instance
instance : Located source exponent := by unfold exponent; infer_instance
instance : Located source number := by unfold number; infer_instance

instance (fuel : List Char) : Located source (attributeBody fuel) := by
  induction fuel with
  | nil => exact Located.pure ()
  | cons x fuel ih =>
    unfold attributeBody
    infer_instance

instance : Located source restOfLine := by unfold restOfLine; infer_instance
instance : Located source blockComment := by unfold blockComment; infer_instance
instance : Located source slashComment := by unfold slashComment; infer_instance

instance : Located source attributeComment := by
  have hbody : Located source fun c ↦ attributeBody c.rest c :=
    ⟨fun c hc ↦ (inferInstance : Located source (attributeBody c.rest)).located c hc⟩
  unfold attributeComment
  exact @Located.bind _ _ _ _ _ inferInstance fun _ ↦ @Located.bind _ _ _ _ _ hbody inferInstance

instance : Located source hashComment := by unfold hashComment; infer_instance
instance : Located source comment := by unfold comment; infer_instance
instance : Located source whitespace := by unfold whitespace; infer_instance
instance : Located source trivia := by unfold trivia; infer_instance
instance : Located source comma := by unfold comma; infer_instance
instance : Located source trailingComma := by unfold trailingComma; infer_instance

instance [Located source p] : Located source (optionalAfter p) := by
  unfold optionalAfter
  infer_instance

instance [Located source p] : Located source (optionalBefore p) := by
  unfold optionalBefore
  infer_instance

instance [Located source p] : Located source (manyAfter p) := by unfold manyAfter; infer_instance

instance (left right : String) [Located source p] : Located source (between left p right) := by
  unfold between
  infer_instance

/-- The rules that a rule refers to fail at places of the source. -/
class Rules.Located (source : List Char) (g : Rules) : Prop where
  statement : Peg.Located source g.statement
  expr (min : Nat) : Peg.Located source (g.expr min)
  ternary : Peg.Located source g.ternary
  binary (min : Nat) : Peg.Located source (g.binary min)

attribute [instance] Rules.Located.statement Rules.Located.expr Rules.Located.ternary
  Rules.Located.binary

section

variable [Rules.Located source g]

instance : Located source (anyExpr g) := by unfold anyExpr; infer_instance
instance : Located source (statements g) := by unfold statements; infer_instance
instance : Located source (block g) := by unfold block; infer_instance
instance : Located source byReference := by unfold byReference; infer_instance
instance : Located source simpleType := by unfold simpleType; infer_instance
instance : Located source typeHint := by unfold typeHint; infer_instance
instance : Located source returnType := by unfold returnType; infer_instance
instance : Located source modifier := by unfold modifier; infer_instance

instance {p : Parser Modifier} [Located source p] : Located source (modifiersOf p) := by
  unfold modifiersOf
  infer_instance

instance : Located source modifiers := by unfold modifiers; infer_instance
instance : Located source (defaultValue g) := by unfold defaultValue; infer_instance
instance : Located source (param g) := by unfold param; infer_instance
instance : Located source (params g) := by unfold params; infer_instance
instance : Located source variableExpr := by unfold variableExpr; infer_instance
instance : Located source (argument g) := by unfold argument; infer_instance
instance : Located source (arguments g) := by unfold arguments; infer_instance
instance : Located source memberOperator := by unfold memberOperator; infer_instance
instance : Located source (memberName g) := by unfold memberName; infer_instance
instance (e : Expr) : Located source (memberSuffix g e) := by unfold memberSuffix; infer_instance

instance (e : Expr) : Located source (staticPropertySuffix e) := by
  unfold staticPropertySuffix
  infer_instance

instance (e : Expr) : Located source (staticMemberSuffix g e) := by
  unfold staticMemberSuffix
  infer_instance

instance (e : Expr) : Located source (indexSuffix g e) := by unfold indexSuffix; infer_instance
instance (e : Expr) : Located source (callSuffix g e) := by unfold callSuffix; infer_instance
instance (e : Expr) : Located source (suffix g e) := by unfold suffix; infer_instance
instance (e : Expr) : Located source (suffixes g e) := by unfold suffixes; infer_instance
instance : Located source (newClass g) := by unfold newClass; infer_instance
instance : Located source (newExpr g) := by unfold newExpr; infer_instance
instance : Located source closureUse := by unfold closureUse; infer_instance
instance : Located source closureUses := by unfold closureUses; infer_instance
instance : Located source staticWord := by unfold staticWord; infer_instance
instance : Located source (closure g) := by unfold closure; infer_instance
instance : Located source (arrowFunction g) := by unfold arrowFunction; infer_instance

instance : Located source (arrayItem g) := by
  have hitem (first : Expr) (second : Option (Bool × Expr)) : Located source (match second with
      | some (byRef, value) => return ⟨some first, value, byRef, false⟩
      | none => return ⟨none, first, false, false⟩ : Parser ArrayItem) := by
    split <;> infer_instance
  unfold arrayItem
  infer_instance

instance : Located source (arrayItems g) := by unfold arrayItems; infer_instance
instance : Located source (arrayLiteral g) := by unfold arrayLiteral; infer_instance
instance : Located source stringExpr := by unfold stringExpr; infer_instance
instance : Located source numberExpr := by unfold numberExpr; infer_instance
instance : Located source (issetExpr g) := by unfold issetExpr; infer_instance
instance : Located source (emptyExpr g) := by unfold emptyExpr; infer_instance
instance : Located source (parenthesized g) := by unfold parenthesized; infer_instance

instance {p : Parser Name} [Located source p] : Located source (constExpr p) := by
  unfold constExpr
  infer_instance

instance : Located source (primary g) := by unfold primary; infer_instance
instance : Located source (chain g) := by unfold chain; infer_instance

instance (e : Expr) : Located source (plainAssignment g e) := by
  unfold plainAssignment
  infer_instance

instance : Located source compoundOperator := by unfold compoundOperator; infer_instance

instance (e : Expr) : Located source (compoundAssignment g e) := by
  unfold compoundAssignment
  infer_instance

instance : Located source (atom g) := by unfold atom; infer_instance

instance (level : Nat) {p : Parser (Expr → ExprKind)} [Located source p] :
    Located source (leading g level p) := by
  unfold leading
  infer_instance

instance (text : String) (op : UnaryOp) : Located source (leadingSign text op) := by
  unfold leadingSign
  infer_instance

instance : Located source leadingCast := by unfold leadingCast; infer_instance

instance (text : String) (kind : Expr → ExprKind) : Located source (leadingWord text kind) := by
  unfold leadingWord
  infer_instance

instance : Located source includeWord := by unfold includeWord; infer_instance
instance : Located source (operand g) := by unfold operand; infer_instance

instance (o : InfixOperator) : Located source (infixSymbol o) := by
  unfold infixSymbol
  infer_instance

instance (o : InfixOperator) (e : Expr) : Located source (infixTail g o e) := by
  unfold infixTail
  infer_instance

instance : Located source instanceOfClass := by unfold instanceOfClass; infer_instance
instance (e : Expr) : Located source (instanceOfTail e) := by unfold instanceOfTail; infer_instance

instance (text : String) (op : UnaryOp) (e : Expr) : Located source (stepTail text op e) := by
  unfold stepTail
  infer_instance

instance (e : Expr) : Located source (ternaryTail g e) := by unfold ternaryTail; infer_instance

theorem located_tailFrom {all : List (Nat × (Expr → Parser Expr))}
    (h : ∀ t ∈ all, ∀ e, Located source (t.2 e)) (min : Nat) (e : Expr) :
    Located source (tailFrom all min e) := by
  refine .firstOf fun p hp ↦ ?_
  obtain ⟨t, ht, rfl⟩ := List.mem_map.mp hp
  exact h t ((List.mem_filter.mp ht).1) e

instance (min : Nat) (e : Expr) : Located source (tailFrom (tails g) min e) := by
  refine located_tailFrom (fun t ht e ↦ ?_) min e
  simp only [tails, List.mem_append, List.mem_map, List.mem_cons] at ht
  obtain (⟨o, -, rfl⟩ | rfl | ⟨o, -, rfl⟩) | ⟨o, -, rfl⟩ := ht <;> infer_instance

instance (min : Nat) : Located source (binaryFrom g min) := by unfold binaryFrom; infer_instance
instance : Located source (ternary g) := by unfold ternary; infer_instance

instance (o : WordOperator) (e : Expr) : Located source (wordTail g o e) := by
  unfold wordTail
  infer_instance

instance (min : Nat) (e : Expr) : Located source (tailFrom (wordTails g) min e) := by
  refine located_tailFrom (fun t ht e ↦ ?_) min e
  obtain ⟨o, -, rfl⟩ := List.mem_map.mp ht
  infer_instance

instance (min : Nat) : Located source (exprFrom g min) := by unfold exprFrom; infer_instance
instance : Located source (exprList g) := by unfold exprList; infer_instance

instance : Located source statementEnd := by unfold statementEnd; infer_instance
instance : Located source (condition g) := by unfold condition; infer_instance
instance : Located source (body g) := by unfold body; infer_instance
instance : Located source (constItem g) := by unfold constItem; infer_instance
instance : Located source (constItems g) := by unfold constItems; infer_instance
instance : Located source nameList := by unfold nameList; infer_instance
instance : Located source (methodBody g) := by unfold methodBody; infer_instance
instance : Located source traitUse := by unfold traitUse; infer_instance
instance : Located source (method g) := by unfold method; infer_instance
instance : Located source (constantMember g) := by unfold constantMember; infer_instance
instance : Located source (propertyItem g) := by unfold propertyItem; infer_instance
instance : Located source (propertyMember g) := by unfold propertyMember; infer_instance
instance : Located source (member g) := by unfold member; infer_instance
instance : Located source (classBody g) := by unfold classBody; infer_instance
instance : Located source classModifier := by unfold classModifier; infer_instance

instance {α : Type} (text : String) {p : Parser (List α)} [Located source p] :
    Located source (listAfter text p) := by
  unfold listAfter
  infer_instance

instance : Located source (classDecl g) := by unfold classDecl; infer_instance
instance : Located source (interfaceDecl g) := by unfold interfaceDecl; infer_instance
instance : Located source (traitDecl g) := by unfold traitDecl; infer_instance
instance : Located source (classLike g) := by unfold classLike; infer_instance
instance : Located source (functionDecl g) := by unfold functionDecl; infer_instance
instance : Located source (namespaceStatement g) := by unfold namespaceStatement; infer_instance
instance : Located source useKind := by unfold useKind; infer_instance
instance : Located source useItem := by unfold useItem; infer_instance
instance : Located source useClause := by unfold useClause; infer_instance
instance : Located source useStatement := by unfold useStatement; infer_instance
instance : Located source (declareStatement g) := by unfold declareStatement; infer_instance
instance : Located source (elseIf g) := by unfold elseIf; infer_instance
instance : Located source (ifStatement g) := by unfold ifStatement; infer_instance
instance : Located source (whileStatement g) := by unfold whileStatement; infer_instance
instance : Located source (doWhileStatement g) := by unfold doWhileStatement; infer_instance
instance : Located source (forStatement g) := by unfold forStatement; infer_instance
instance : Located source (foreachTarget g) := by unfold foreachTarget; infer_instance
instance : Located source (foreachStatement g) := by unfold foreachStatement; infer_instance
instance : Located source caseEnd := by unfold caseEnd; infer_instance
instance : Located source (case g) := by unfold case; infer_instance
instance : Located source (switchStatement g) := by unfold switchStatement; infer_instance
instance : Located source (catchClause g) := by unfold catchClause; infer_instance
instance : Located source (tryStatement g) := by unfold tryStatement; infer_instance
instance : Located source (constStatement g) := by unfold constStatement; infer_instance
instance : Located source (returnStatement g) := by unfold returnStatement; infer_instance
instance : Located source (echoStatement g) := by unfold echoStatement; infer_instance
instance : Located source globalStatement := by unfold globalStatement; infer_instance
instance : Located source (staticVar g) := by unfold staticVar; infer_instance
instance : Located source (staticStatement g) := by unfold staticStatement; infer_instance

instance (text : String) (kind : StmtKind) : Located source (jumpStatement text kind) := by
  unfold jumpStatement
  infer_instance

instance : Located source (expressionStatement g) := by unfold expressionStatement; infer_instance
instance : Located source (statementKind g) := by unfold statementKind; infer_instance
instance : Located source (statement g) := by unfold statement; infer_instance

instance : Located source endOfText := by unfold endOfText; infer_instance
instance : Located source (file g) := by unfold file; infer_instance

end

instance (n : Nat) : Rules.Located source (.ofDepth n) := by
  induction n with
  | zero => exact ⟨.fail, fun _ ↦ .fail, .fail, fun _ ↦ .fail⟩
  | succ n ih =>
    exact ⟨(inferInstance : Located source (statement (.ofDepth n))),
      fun min ↦ (inferInstance : Located source (exprFrom (.ofDepth n) min)),
      (inferInstance : Located source (ternary (.ofDepth n))),
      fun min ↦ (inferInstance : Located source (binaryFrom (.ofDepth n) min))⟩

end Grammar

end PhpInsight
