import PhpInsight.Proofs.SideBySide.Brackets

namespace PhpInsight.Grammar

open Peg Peg.Parser Text

/-- In front of each of some tails a text is divided alike into string literals, comments and other
characters, up to what is left of it. -/
inductive Divides (tails : List (List Char)) : List Char → List Char → Prop
  | stop (left : List Char) : Divides tails left left
  | string {cs more left : List Char} {v : String}
    (h : ∀ tail ∈ tails, Yields stringLiteral cs (more ++ tail) (· = v))
    (hrest : Divides tails more left) : Divides tails (cs ++ more) left
  | comment {cs more left : List Char}
    (h : ∀ tail ∈ tails, Accepts Grammar.comment cs (more ++ tail))
    (hrest : Divides tails more left) : Divides tails (cs ++ more) left
  | char {x : Char} {more left : List Char} (h : ∀ tail ∈ tails, Ordinary (x :: (more ++ tail)))
    (hrest : Divides tails more left) : Divides tails (x :: more) left

theorem Divides.trans {tails : List (List Char)} {text mid left : List Char}
    (h : Divides tails text mid) (h' : Divides tails mid left) : Divides tails text left := by
  induction h with
  | stop => exact h'
  | string h _ ih => exact .string h (ih h')
  | comment h _ ih => exact .comment h (ih h')
  | char h _ ih => exact .char h (ih h')

/-- The names of a trait use and the rules behind them. -/
def traitBlock : Parser Unit := do
  traitRules
  skipMany do
    notAhead (literal "\x7d")
    oneOf .any
  literal "\x7d"

section

variable {u rest : List Char}

theorem accepts_rules (hu : '\x7d' ∉ u) (hrest : Heads ['\x7d'] rest) :
    Accepts (skipMany do notAhead (literal "\x7d"); oneOf .any) u rest := by
  refine .skipMany (fun x before behind hsplit ↦ ?_) ?_
  · have hx : x ≠ '\x7d' := by
      rintro rfl
      exact hu (hsplit ▸ List.mem_append_right before List.mem_cons_self)
    have hclose : Rejects (literal "\x7d") (x :: (behind ++ rest)) :=
      .literal_head rfl fun y hy ↦ Option.some_inj.mp hy ▸ hx
    exact .bind_nil (.notAhead hclose) fun _ _ ↦ .oneOf rfl
  · cases rest with
    | nil => exact .bind_nil (.notAhead (.literal_head rfl nofun)) fun _ _ _ ↦ ⟨_, rfl⟩
    | cons y rest =>
      obtain rfl := List.mem_singleton.mp (hrest y rfl)
      exact .bind (.notAhead_head (.literal "\x7d"))

theorem accepts_ruleBlock (hu : '\x7d' ∉ u) :
    Accepts ruleBlock ('\x7b' :: (u ++ ['\x7d'])) rest := by
  refine .bind_head (.literal "\x7b") fun _ _ ↦ ?_
  refine .bind (accepts_rules hu (heads_cons List.mem_cons_self)) fun _ _ ↦ ?_
  exact .literal "\x7d"

theorem rejects_ruleBlock (hu : '\x7d' ∉ u) : Rejects ruleBlock ('\x7b' :: u) := by
  have hrules := accepts_rules hu heads_nil
  refine .bind_head (.literal "\x7b") fun _ _ ↦ ?_
  rw [← List.append_nil u]
  exact .bind_of_yields hrules fun _ _ ↦ .literal_head rfl nofun

end

theorem not_rejects_slashes {rest : List Char} :
    ¬ Rejects Grammar.comment ('/' :: '/' :: rest) := by
  intro h
  obtain ⟨f, hf⟩ := h 0
  unfold Grammar.comment at hf
  obtain ⟨next, g, hline⟩ := skipMany_matches
    (do notAhead (lineEnd <|> literal "?>"); oneOf .any) ⟨rest, 0 + byteLength ['/', '/']⟩
  have hslash : slashComment ⟨'/' :: '/' :: rest, 0⟩ = .matched () next _ :=
    bind_of_matched rfl hline
  cases hblock : blockComment ⟨'/' :: '/' :: rest, 0⟩ with
  | matched u mid e =>
    rw [orElse_of_matched hblock] at hf
    cases hf
  | failed e =>
    rw [orElse_of_failed hblock (orElse_of_matched hslash)] at hf
    cases hf

theorem rejects_stringLiteral_of_comment {cs rest : List Char}
    (h : Accepts Grammar.comment cs rest) : Rejects stringLiteral (cs ++ rest) :=
  ((consumes_comment.of_yields h).heads rest).rejects_stringLiteral (by decide)

theorem rejects_comment_of_string {cs rest : List Char} {Q : String → Prop}
    (h : Yields stringLiteral cs rest Q) : Rejects Grammar.comment (cs ++ rest) := by
  intro n
  cases hm : Grammar.comment ⟨cs ++ rest, n⟩ with
  | failed f => exact ⟨f, rfl⟩
  | matched u next f =>
    obtain ⟨text, hrest, -, htext⟩ := consumes_comment _ _ _ _ hm
    have hhead : Heads ['/', '#'] (cs ++ rest) :=
      (show cs ++ rest = text ++ next.rest from hrest) ▸ htext.heads next.rest
    exact absurd (hhead.rejects_stringLiteral (by decide)) h.not_rejects

namespace Divides

variable {tails : List (List Char)} {text cs more left : List Char}

theorem plain (hcs : cs.all (· ∉ ['\'', '"', '<', '/', '#']) = true)
    (h : Divides tails more left) : Divides tails (cs ++ more) left := by
  induction cs with
  | nil => exact h
  | cons x cs ih =>
    obtain ⟨hx, hcs⟩ := Bool.and_eq_true_iff.mp hcs
    exact .char (fun _ _ ↦ .char (of_decide_eq_true hx)) (ih hcs)

theorem suffix (h : Divides tails text left) : left <:+ text := by
  induction h with
  | stop => exact List.suffix_rfl
  | string _ _ ih => exact ih.trans (List.suffix_append _ _)
  | comment _ _ ih => exact ih.trans (List.suffix_append _ _)
  | char _ _ ih => exact ih.trans (List.suffix_cons _ _)

end Divides

/-- A text with a comment in it. -/
structure Commented where
  before : List Char
  comment : List Char
  after : List Char
  reads : Accepts Grammar.comment comment after

namespace Commented

variable (t : Commented)

def spaces : List Char := List.replicate (byteLength t.comment) ' '

def tail : List Char := t.comment ++ t.after

def blankTail : List Char := t.spaces ++ t.after

def tails : List (List Char) := [t.tail, t.blankTail]

def source : List Char := t.before ++ t.tail

/-- The text with spaces in place of the comment. -/
def blanked : List Char := t.before ++ t.blankTail

/-- A piece of the text in front of the comment starts where `left` is left of it. -/
def Place (left : List Char) : Prop :=
  Divides t.tails t.before left ∧ Divides t.tails left []

/-- The comment stands in the code of the text. The rules of a trait use end with the next brace,
whatever they hold: this must not be inside of a string literal or of a comment. -/
structure InCode : Prop where
  divides : Divides t.tails t.before []
  rules {left : List Char} {n : Nat} {next : Cursor} {f : Failures} : t.Place left →
    traitBlock ⟨left ++ t.tail, n⟩ = .matched () next f →
      (∃ more, next.rest = more ++ t.tail ∧ t.Place more) ∨ next.rest.length < t.after.length

/-- The same but for doc comments. In a name that is kept as it is written the comment is blanked
too. -/
def blanking : Likeness where
  position := Eq
  text := Eq
  written w w' := w = w' ∨ ∃ front back, w.toList = front ++ t.comment ++ back ∧
    w'.toList = front ++ t.spaces ++ back
  quotes _ _ := True
  doc _ _ := True
  text_refl _ := rfl
  written_of_text := .inl
  doc_none := trivial

variable {t : Commented}

theorem isComment : IsComment t.comment := consumes_comment.of_yields t.reads

theorem byteLength_spaces : byteLength t.spaces = byteLength t.comment := by
  rw [spaces, byteLength_replicate]
  exact Nat.mul_one _

theorem startsGap_tail : StartsGap t.tail := by
  have hsign {cs : List Char} (h : IsComment cs) :
      ∃ sign ∈ [['/', '*'], ['/', '/'], ['#']], sign <+: cs := by
    cases h with
    | block body => exact ⟨['/', '*'], by decide, by simp⟩
    | slashes line => exact ⟨['/', '/'], by decide, by simp⟩
    | hash line => exact ⟨['#'], by decide, by simp⟩
  obtain ⟨sign, hmem, hprefix⟩ := hsign t.isComment
  exact .inr ⟨sign, hmem, hprefix.trans (List.prefix_append _ _)⟩

theorem heads_tail : Heads ['/', '#'] t.tail := t.isComment.heads t.after

theorem exists_spaces : ∃ more, t.spaces = ' ' :: more := by
  have hpos : byteLength t.comment ≠ 0 := by
    intro hzero
    obtain ⟨x, xs, hx⟩ := List.exists_cons_of_ne_nil t.isComment.ne_nil
    rw [hx, byteLength] at hzero
    have hsize := x.utf8Size_pos
    omega
  obtain ⟨k, hk⟩ := Nat.exists_eq_succ_of_ne_zero hpos
  exact ⟨List.replicate k ' ', by rw [spaces, hk, List.replicate_succ]⟩

theorem heads_blankTail : Heads [' '] t.blankTail := by
  obtain ⟨more, hmore⟩ := t.exists_spaces
  rw [blankTail, hmore]
  exact heads_cons List.mem_cons_self

theorem length_after_lt : t.after.length < t.tail.length := by
  have hpos := List.length_pos_iff.mpr t.isComment.ne_nil
  rw [tail, List.length_append]
  omega

theorem not_suffix (v : List Char) : ¬ v ++ t.tail <:+ t.after := by
  intro h
  have hle := h.length_le
  have hlt := t.length_after_lt
  rw [List.length_append] at hle
  omega

theorem startsGap_blankTail : StartsGap t.blankTail := by
  refine .inl fun x hx ↦ ?_
  obtain rfl := List.mem_singleton.mp (t.heads_blankTail x hx)
  exact List.mem_cons_self

theorem mem_tails : t.tail ∈ t.tails ∧ t.blankTail ∈ t.tails :=
  ⟨List.mem_cons_self, List.mem_cons_of_mem _ List.mem_cons_self⟩

theorem Place.cases {left : List Char} (h : t.Place left) :
    left = [] ∨
    (∃ cs more v, left = cs ++ more ∧
      (∀ tail ∈ t.tails, Yields stringLiteral cs (more ++ tail) (· = v)) ∧ t.Place more) ∨
    (∃ cs more, left = cs ++ more ∧
      (∀ tail ∈ t.tails, Accepts Grammar.comment cs (more ++ tail)) ∧ t.Place more) ∨
    ∃ x more, left = x :: more ∧ (∀ tail ∈ t.tails, Ordinary (x :: (more ++ tail))) ∧
      t.Place more := by
  obtain ⟨hfront, hleft⟩ := h
  cases hleft with
  | stop => exact .inl rfl
  | string h hrest =>
    exact .inr (.inl ⟨_, _, _, rfl, h, hfront.trans (.string h (.stop _)), hrest⟩)
  | comment h hrest =>
    exact .inr (.inr (.inl ⟨_, _, rfl, h, hfront.trans (.comment h (.stop _)), hrest⟩))
  | char h hrest =>
    exact .inr (.inr (.inr ⟨_, _, rfl, h, hfront.trans (.char h (.stop _)), hrest⟩))

theorem Place.char {x : Char} {left : List Char} (h : t.Place (x :: left))
    (hx : Ordinary (x :: (left ++ t.tail))) : t.Place left := by
  have hsame {cs more : List Char} (hleft : x :: left = cs ++ more) :
      x :: (left ++ t.tail) = cs ++ (more ++ t.tail) := by
    rw [← List.cons_append, hleft, List.append_assoc]
  obtain hnil | ⟨cs, more, v, hleft, hstring, -⟩ | ⟨cs, more, hleft, hcomment, -⟩ |
    ⟨y, more, hleft, -, hmore⟩ := h.cases
  · cases hnil
  · exact absurd (hsame hleft ▸ hx.string) (hstring _ mem_tails.1).not_rejects
  · exact absurd (hsame hleft ▸ hx.comment) (hcomment _ mem_tails.1).not_rejects
  · cases hleft
    exact hmore

/-- A slash right in front of the comment makes none with it. -/
theorem Place.slash (h : t.Place ['/']) : Ordinary ('/' :: t.tail) := by
  have hsame {cs more : List Char} (hleft : ['/'] = cs ++ more) (tail : List Char) :
      '/' :: tail = cs ++ (more ++ tail) := by
    rw [← List.append_assoc, ← hleft, List.singleton_append]
  obtain hnil | ⟨cs, more, v, hleft, hstring, -⟩ | ⟨cs, more, hleft, hcomment, -⟩ |
    ⟨y, more, hleft, hordinary, -⟩ := h.cases
  · cases hnil
  · have hreject : Rejects stringLiteral ('/' :: t.tail) :=
      (heads_cons (List.mem_singleton_self '/')).rejects_stringLiteral (by decide)
    exact absurd (hsame hleft _ ▸ hreject) (hstring _ mem_tails.1).not_rejects
  · have hreject : Rejects Grammar.comment ('/' :: t.blankTail) := by
      refine rejects_comment_of_slash fun y hy ↦ ?_
      obtain rfl := List.mem_singleton.mp (t.heads_blankTail y hy)
      decide
    exact absurd (hsame hleft _ ▸ hreject) (hcomment _ mem_tails.2).not_rejects
  · cases hleft
    exact hordinary _ mem_tails.1

/-- Where there is no brace no trait use has rules. -/
theorem inCode_of_no_brace (hdivides : Divides t.tails t.before []) (h : '\x7b' ∉ t.source) :
    t.InCode where
  divides := hdivides
  rules {left n next f} hplace hm := by
    obtain ⟨front, hfront⟩ := hplace.1.suffix
    have habsent : '\x7b' ∉ left ++ t.tail := fun hmem ↦ h (by
      rw [source, ← hfront, List.append_assoc]
      exact List.mem_append_right front hmem)
    have hreject : Rejects traitBlock (left ++ t.tail) := .bind (rejects_traitRules habsent)
    exact absurd hm (Rejects.not_matched hreject)

end Commented

end PhpInsight.Grammar
