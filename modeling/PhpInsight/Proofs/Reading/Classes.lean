import PhpInsight.Proofs.Reading.Names

namespace PhpInsight

open Peg Peg.Parser

structure ClassDecl.Written (c : ClassDecl) : Prop where
  name : IsWord c.name.name
  parents : ∀ n ∈ c.parents, n.Written

/-- The classes that a statement declares, itself or in the braces of a namespace, are written. -/
structure Stmt.DeclaresWritten (s : Stmt) : Prop where
  own : ∀ c, s.kind = .classLike c → c.Written
  inner : ∀ n body, s.kind = .namespace n (some body) →
    ∀ t ∈ body, ∀ c, t.kind = .classLike c → c.Written

def StmtKind.DeclaresWritten (k : StmtKind) : Prop := ∀ span, (⟨k, span⟩ : Stmt).DeclaresWritten

theorem StmtKind.Simple.declaresWritten {k : StmtKind} (h : k.Simple) : k.DeclaresWritten := by
  intro span
  constructor
  · rintro c rfl
    exact h.elim
  · rintro n body rfl
    exact h.elim

namespace Grammar

variable {g : Rules} {text : List Char} {s : Stmt}

theorem gives_identifier : Gives identifier fun i ↦ IsWord i.name := by
  refine .after fun _ ↦ .bind gives_word fun _ hw ↦ ?_
  exact .after fun _ ↦ .pure hw

theorem gives_nameList : Gives nameList fun ns ↦ ∀ n ∈ ns, n.Written := .sepBy1 gives_name

theorem gives_listAfter {α : Type} {Q : α → Prop} {p : Parser (List α)} (word : String)
    (h : Gives p fun as ↦ ∀ a ∈ as, Q a) : Gives (listAfter word p) fun as ↦ ∀ a ∈ as, Q a := by
  refine .bind (.optional (.after fun _ ↦ .after fun _ ↦ .after fun _ ↦ h)) fun found hfound ↦
    .pure ?_
  cases found with
  | none => exact nofun
  | some as => exact hfound as rfl

theorem gives_classLike : Gives (classLike g) ClassDecl.Written := by
  refine .orElse ?_ (.orElse ?_ ?_)
  · have hparent : Gives (do return [← name]) fun ns ↦ ∀ n ∈ ns, n.Written :=
      .bind gives_name fun n hn ↦ .pure (List.forall_mem_singleton.mpr hn)
    refine .after fun _ ↦ .after fun _ ↦ .after fun _ ↦ .bind gives_identifier fun _ hname ↦ ?_
    refine .bind (gives_listAfter _ hparent) fun _ hparents ↦ ?_
    exact .after fun _ ↦ .after fun _ ↦ .after fun _ ↦ .pure ⟨hname, hparents⟩
  · refine .after fun _ ↦ .after fun _ ↦ .bind gives_identifier fun _ hname ↦ ?_
    refine .bind (gives_listAfter _ gives_nameList) fun _ hparents ↦ ?_
    exact .after fun _ ↦ .after fun _ ↦ .pure ⟨hname, hparents⟩
  · refine .after fun _ ↦ .after fun _ ↦ .bind gives_identifier fun _ hname ↦ ?_
    exact .after fun _ ↦ .after fun _ ↦ .pure ⟨hname, nofun⟩

theorem declaresWritten_namespace (hg : Gives g.statement Stmt.DeclaresWritten) :
    Gives (namespaceStatement g) StmtKind.DeclaresWritten := by
  refine .orElse ?_ ?_
  · refine .after fun _ ↦ .after fun _ ↦ .after fun _ ↦ .after fun _ ↦ .after fun _ ↦ ?_
    exact .pure fun span ↦ ⟨nofun, nofun⟩
  · refine .after fun _ ↦ .after fun _ ↦ .after fun _ ↦ .bind (gives_block hg) fun ss hss ↦ ?_
    refine .pure fun span ↦ ⟨nofun, ?_⟩
    rintro n body ⟨⟩ t ht
    exact (hss t ht).own

theorem declaresWritten_statementKind (hg : Gives g.statement Stmt.DeclaresWritten) :
    Gives (statementKind g) StmtKind.DeclaresWritten := by
  apply statementKind_of_forms (M := fun p ↦ Gives p StmtKind.DeclaresWritten)
  case orElse => exact Gives.orElse
  case space => exact declaresWritten_namespace hg
  case use =>
    refine .after fun _ ↦ .after fun _ ↦ .after fun _ ↦ .bind gives_useClause fun _ _ ↦ ?_
    exact .after fun _ ↦ .after fun _ ↦ .pure fun _ ↦ ⟨nofun, nofun⟩
  case classLike =>
    refine .bind gives_classLike fun c hc ↦ .pure fun span ↦ ⟨?_, nofun⟩
    rintro _ ⟨⟩
    exact hc
  case function | block => exact .after fun _ ↦ .pure fun _ ↦ ⟨nofun, nofun⟩
  case simple => exact fun h ↦ h.imp fun _ hk ↦ hk.declaresWritten

theorem declaresWritten_ofDepth (n : Nat) :
    Gives (Rules.ofDepth n).statement Stmt.DeclaresWritten := by
  induction n with
  | zero => exact .fail
  | succ n ih =>
    refine .after fun _ ↦ .bind (declaresWritten_statementKind ih) fun _ hk ↦ ?_
    exact .after fun _ ↦ .pure (hk _)

theorem declaresWritten_document (h : s.DeclaresWritten) : (document text s).DeclaresWritten := by
  have hown {t : Stmt} (ht : ∀ c, t.kind = .classLike c → c.Written) :
      ∀ c, (document text t).kind = .classLike c → c.Written := by
    intro c hc
    unfold document at hc
    split at hc
    · cases hc
      exact ⟨(ht _ rfl).name, (ht _ rfl).parents⟩
    · cases hc
    · cases hc
    · cases hc
    · exact ht c hc
  refine ⟨hown h.own, fun n body hn t ht ↦ ?_⟩
  unfold document at hn
  split at hn
  · cases hn
  · cases hn
  · cases hn
    rw [documentAll_eq_map] at ht
    obtain ⟨t₀, ht₀, rfl⟩ := List.mem_map.mp ht
    exact hown (h.inner _ _ rfl t₀ ht₀)
  · cases hn
  · exact h.inner n body hn t ht

end Grammar

namespace Document

variable {id : Nat} {uri : String} {source : List Char} {version : Int} {d : Document}

theorem declaresWritten_of_parse (h : parse id uri source version = .ok d) :
    ∀ s ∈ d.statements, s.DeclaresWritten :=
  Grammar.forall_of_parseFile Grammar.declaresWritten_ofDepth
    (fun _ ↦ Grammar.declaresWritten_document) (parseFile_of_parse h)

end Document

structure DeclaredClass.Written (k : DeclaredClass) : Prop where
  decl : k.decl.Written
  space : ∀ n ∈ k.namespaceName, n.Written

namespace Document

variable {id : Nat} {uri : String} {source : List Char} {version : Int} {d : Document}

theorem written_classesOf {space : Option Name} {body : List Stmt} (hspace : ∀ n ∈ space, n.Written)
    (hbody : ∀ s ∈ body, ∀ c, s.kind = .classLike c → c.Written) :
    ∀ k ∈ classesOf space body, k.Written := by
  intro k hk
  obtain ⟨s, hs, hk⟩ := List.mem_filterMap.mp hk
  split at hk
  · rename_i c hkind
    cases hk
    exact ⟨hbody s hs c hkind, hspace⟩
  · cases hk

theorem written_classesFrom {current : Option Name} {ss : List Stmt}
    (hcurrent : ∀ n ∈ current, n.Written) (hss : ∀ s ∈ ss, s.Written ∧ s.DeclaresWritten) :
    ∀ k ∈ classesFrom current ss, k.Written := by
  induction ss generalizing current with
  | nil => exact nofun
  | cons s ss ih =>
    obtain ⟨⟨hwritten, hdeclares⟩, hrest⟩ := List.forall_mem_cons.mp hss
    have hspace {n : Option Name} {body : Option (List Stmt)} (hkind : s.kind = .namespace n body) :
        ∀ m ∈ n, m.Written := by
      rintro m rfl
      exact hwritten.space m body hkind
    unfold classesFrom
    split
    · rename_i n hkind
      exact ih (hspace hkind) hrest
    · rename_i n body hkind
      exact List.forall_mem_append.mpr
        ⟨written_classesOf (hspace hkind) (hdeclares.inner n body hkind), ih hcurrent hrest⟩
    · rename_i c hkind
      exact List.forall_mem_cons.mpr ⟨⟨hdeclares.own c hkind, hcurrent⟩, ih hcurrent hrest⟩
    · exact ih hcurrent hrest

theorem written_classes (h : parse id uri source version = .ok d) : ∀ k ∈ d.classes, k.Written :=
  written_classesFrom nofun fun s hs ↦ ⟨written_of_parse h s hs, declaresWritten_of_parse h s hs⟩

end Document

end PhpInsight
