import PhpInsight.Document.Declaration
import PhpInsight.Proofs.Span.File

namespace PhpInsight

open Peg Peg.Parser

namespace Grammar

theorem gives_useItem : Gives useItem fun u ↦ u.name.Written := by
  refine .after fun _ ↦ .bind gives_name fun _ hn ↦ ?_
  exact .after fun _ ↦ .after fun _ ↦ .pure hn

theorem gives_useClause : Gives useClause fun items ↦ ∀ u ∈ items, u.name.Written := by
  refine .orElse (.bind gives_name fun group hgroup ↦ .after fun _ ↦ .after fun _ ↦ .after fun _ ↦
    .after fun _ ↦ .bind (.sepBy1 gives_useItem) fun items hitems ↦ .after fun _ ↦ .after fun _ ↦
    .after fun _ ↦ .pure ?_) (.sepBy1 gives_useItem)
  intro u hu
  obtain ⟨v, hv, rfl⟩ := List.mem_map.mp hu
  exact ⟨by simp [groupedUse, hgroup.ne_nil],
    List.forall_mem_append.mpr ⟨hgroup.words, (hitems v hv).words⟩⟩

end Grammar

/-- The imports of a statement and the namespace that it opens have names made of words. -/
structure Stmt.Written (s : Stmt) : Prop where
  imports : ∀ u ∈ Document.importsOf s, u.name.Written
  space : ∀ n body, s.kind = .namespace (some n) body → n.Written

def StmtKind.Written (k : StmtKind) : Prop := ∀ span, (⟨k, span⟩ : Stmt).Written

def StmtKind.Simple : StmtKind → Prop
  | .namespace _ _ | .use _ _ | .classLike _ | .function _ | .block _ => False
  | _ => True

theorem StmtKind.Simple.written {k : StmtKind} (h : k.Simple) : k.Written := by
  intro span
  cases k with
  | «namespace» _ _ => exact h.elim
  | use _ _ => exact h.elim
  | _ => exact ⟨nofun, nofun⟩

theorem Document.importsOfAll_eq_flatMap (ss : List Stmt) :
    importsOfAll ss = ss.flatMap importsOf := by
  induction ss with
  | nil => rfl
  | cons s ss ih => rw [importsOfAll, ih, List.flatMap_cons]

namespace Grammar

variable {g : Rules} {P : Stmt → Prop}

theorem gives_statements (hg : Gives g.statement P) :
    Gives (statements g) fun ss ↦ ∀ s ∈ ss, P s := .many (.after fun _ ↦ hg)

theorem gives_block (hg : Gives g.statement P) : Gives (block g) fun ss ↦ ∀ s ∈ ss, P s := by
  refine .after fun _ ↦ .bind (gives_statements hg) fun _ hss ↦ ?_
  exact .after fun _ ↦ .after fun _ ↦ .pure hss

theorem gives_file (hg : Gives g.statement P) : Gives (file g) fun ss ↦ ∀ s ∈ ss, P s := by
  refine .after fun _ ↦ .after fun _ ↦ .after fun _ ↦ .after fun _ ↦ ?_
  refine .bind (gives_statements hg) fun _ hss ↦ ?_
  exact .after fun _ ↦ .after fun _ ↦ .after fun _ ↦ .pure hss

/-- What is true of every statement that is read, with its doc comments or without them, is true of
the statements of a file. -/
theorem forall_of_parseFile {source : List Char} {ss : List Stmt}
    (hg : ∀ n, Gives (Rules.ofDepth n).statement P) (hdoc : ∀ s, P s → P (document source s))
    (h : parseFile source = .ok ss) : ∀ s ∈ ss, P s := by
  unfold parseFile at h
  split at h
  · rename_i ss' next f hm
    intro s hs
    rw [← Except.ok.inj h, documentAll_eq_map] at hs
    obtain ⟨s', hs', rfl⟩ := List.mem_map.mp hs
    exact hdoc s' (gives_file (hg _) _ _ _ _ hm s' hs')
  · cases h

theorem gives_namespaceStatement (hg : Gives g.statement Stmt.Written) :
    Gives (namespaceStatement g) StmtKind.Written := by
  refine .orElse ?_ ?_
  · refine .after fun _ ↦ .after fun _ ↦ .bind gives_name fun n hn ↦ ?_
    refine .after fun _ ↦ .after fun _ ↦ .pure fun span ↦ ⟨nofun, ?_⟩
    rintro n' body ⟨⟩
    exact hn
  · refine .after fun _ ↦ .after fun _ ↦ ?_
    refine .bind (.optional (.bind gives_name fun _ hn ↦ .after fun _ ↦ .pure hn)) fun n hn ↦ ?_
    refine .bind (gives_block hg) fun ss hss ↦ .pure fun span ↦ ⟨?_, ?_⟩
    · intro u hu
      rw [Document.importsOf, Document.importsOfAll_eq_flatMap] at hu
      obtain ⟨s, hs, hu⟩ := List.mem_flatMap.mp hu
      exact (hss s hs).imports u hu
    · rintro n' body ⟨⟩
      exact hn n' rfl

theorem gives_useStatement : Gives useStatement StmtKind.Written := by
  refine .after fun _ ↦ .after fun _ ↦ .after fun kind ↦ ?_
  refine .bind gives_useClause fun items hitems ↦ ?_
  refine .after fun _ ↦ .after fun _ ↦ .pure fun span ↦ ⟨?_, nofun⟩
  intro u hu
  generalize kind.getD .normal = kind at hu
  cases kind with
  | normal => exact hitems u hu
  | _ => cases hu

/-- What is kept by a choice holds of the reader of statements, where it holds of the forms that
declare or import something, of blocks, and of all that reads nothing but simple statements. -/
theorem statementKind_of_forms {M : Parser StmtKind → Prop}
    (orElse : ∀ {p q}, M p → M q → M (p <|> q))
    (space : M (namespaceStatement g)) (use : M useStatement)
    (classLike : M do return .classLike (← classLike g))
    (function : M do return .function (← functionDecl g))
    (block : M do return .block (← block g))
    (simple : ∀ {p}, Gives p StmtKind.Simple → M p) : M (statementKind g) := by
  have before {p q : Parser StmtKind} (hq : M q) (hp : Gives p StmtKind.Simple) : M (p <|> q) :=
    orElse (simple hp) hq
  refine orElse space ?_
  refine orElse use ?_
  refine orElse classLike ?_
  refine orElse function ?_
  refine before ?_ ?constants
  refine before ?_ ?directive
  refine before ?_ ?branch
  refine before ?_ ?whileLoop
  refine before ?_ ?doLoop
  refine before ?_ ?forLoop
  refine before ?_ ?foreachLoop
  refine before ?_ ?choice
  refine before ?_ ?attempt
  refine before ?_ ?result
  refine before ?_ ?output
  refine before ?_ ?globals
  refine before ?_ ?statics
  refine before ?_ ?leave
  refine before ?_ ?skip
  refine orElse block ?_
  refine before (simple ?expression) ?nothing
  -- the values on the way do not matter, only what the statement is made into
  all_goals repeat' first | exact .pure trivial | refine .after fun _ ↦ ?_
  -- left is the loop that may name a key
  exact .pure (by split <;> trivial)

theorem gives_statementKind (hg : Gives g.statement Stmt.Written) :
    Gives (statementKind g) StmtKind.Written := by
  apply statementKind_of_forms (M := fun p ↦ Gives p StmtKind.Written)
  case orElse => exact Gives.orElse
  case space => exact gives_namespaceStatement hg
  case use => exact gives_useStatement
  case simple => exact fun h ↦ h.imp fun _ hk ↦ hk.written
  all_goals exact .after fun _ ↦ .pure fun _ ↦ ⟨nofun, nofun⟩

theorem gives_statement (hg : Gives g.statement Stmt.Written) :
    Gives (statement g) Stmt.Written := by
  refine .after fun _ ↦ .bind (gives_statementKind hg) fun _ hk ↦ ?_
  exact .after fun _ ↦ .pure (hk _)

theorem gives_statement_ofDepth (n : Nat) : Gives (Rules.ofDepth n).statement Stmt.Written := by
  induction n with
  | zero => exact .fail
  | succ n ih => exact gives_statement ih

theorem importsOf_document (text : List Char) (s : Stmt) :
    Document.importsOf (document text s) = Document.importsOf s := by
  refine Node.induction (motive := fun n ↦ ∀ s, n = .stmt s →
    Document.importsOf (document text s) = Document.importsOf s)
    (fun n ih s hn ↦ ?_) (.stmt s) s rfl
  subst hn
  unfold document
  split
  · rfl
  · rfl
  · rename_i name body span
    have hbody : ∀ s ∈ body, Document.importsOf (document text s) = Document.importsOf s :=
      fun s hs ↦ ih (.stmt s) (List.mem_map_of_mem hs) s rfl
    rw [Document.importsOf, Document.importsOf, documentAll_eq_map,
      Document.importsOfAll_eq_flatMap, Document.importsOfAll_eq_flatMap, List.flatMap_map,
      List.flatMap_def, List.flatMap_def, List.map_congr_left hbody]
  · rfl
  · rfl

theorem written_document {text : List Char} {s : Stmt} (h : s.Written) :
    (document text s).Written := by
  refine ⟨importsOf_document text s ▸ h.imports, fun n body hn ↦ ?_⟩
  unfold Grammar.document at hn
  split at hn
  · cases hn
  · cases hn
  · cases hn
    exact h.space _ _ rfl
  · cases hn
  · exact h.space n body hn

end Grammar

namespace Document

variable {id : Nat} {uri : String} {source : List Char} {version : Int} {d : Document}

theorem parseFile_of_parse (h : parse id uri source version = .ok d) :
    Grammar.parseFile source = .ok d.statements := by
  unfold parse at h
  cases hp : Grammar.parseFile source with
  | error e =>
    rw [hp] at h
    cases h
  | ok ss =>
    rw [hp] at h
    cases h
    rfl

theorem written_of_parse (h : parse id uri source version = .ok d) :
    ∀ s ∈ d.statements, s.Written :=
  Grammar.forall_of_parseFile Grammar.gives_statement_ofDepth
    (fun _ ↦ Grammar.written_document) (parseFile_of_parse h)

theorem written_imports (h : ∀ s ∈ d.statements, s.Written) : ∀ u ∈ d.imports, u.name.Written := by
  intro u hu
  rw [imports, importsOfAll_eq_flatMap] at hu
  obtain ⟨s, hs, hu⟩ := List.mem_flatMap.mp hu
  exact (h s hs).imports u hu

theorem written_namespaceName (h : ∀ s ∈ d.statements, s.Written) {space : String}
    (hspace : d.namespaceName = some space) : ∃ n : Name, n.Written ∧ space = n.joined := by
  obtain ⟨s, hs, hfound⟩ := List.exists_of_findSome?_eq_some hspace
  split at hfound
  · rename_i n body hkind
    exact ⟨n, (h s hs).space n body hkind, (Option.some.inj hfound).symm⟩
  · cases hfound

end Document

end PhpInsight
