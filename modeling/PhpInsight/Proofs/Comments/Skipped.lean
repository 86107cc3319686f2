import Mathlib.Data.Bool.AllAny
import Mathlib.Data.List.TakeWhile
import PhpInsight.Grammar.DocComment
import PhpInsight.Proofs.Reading.Lexical
import PhpInsight.Proofs.Span.Words
import PhpInsight.Proofs.Types.Text

namespace PhpInsight

open Text

namespace Peg.Parser

variable {α β : Type} {p : Parser α}

theorem skipMany_matches (p : Parser Unit) (c : Cursor) :
    ∃ next f, skipMany p c = .matched () next f := by
  have hfrom (fuel : List Char) (f : Failures) (c : Cursor) :
      ∃ next g, skipManyFrom p fuel f c = .matched () next g := by
    induction fuel generalizing f c with
    | nil =>
      unfold skipManyFrom
      cases p c with
      | failed g => exact ⟨_, _, rfl⟩
      | matched u next g => exact ⟨_, _, rfl⟩
    | cons x fuel ih =>
      unfold skipManyFrom
      cases p c with
      | failed g => exact ⟨_, _, rfl⟩
      | matched u next g => exact ih _ next
  exact hfrom c.rest .none c

theorem Consumes.literal (s : String) : Consumes (literal s) (· = s.toList) := by
  intro c a next f hm
  obtain ⟨hrest, hoffset⟩ := dropText?_eq_some (literal_eq_matched hm)
  exact ⟨s.toList, hrest, hoffset, rfl⟩

theorem Consumes.of_yields {cs rest : List Char} {K : List Char → Prop} {Q : α → Prop}
    (hp : Consumes p K) (h : Yields p cs rest Q) : K cs := by
  obtain ⟨a, f, hm, -⟩ := h 0
  obtain ⟨cs', hcs, -, hK⟩ := hp _ _ _ _ hm
  exact List.append_cancel_right hcs ▸ hK

theorem consumes_of_moves (h : ∀ source, Moves source p) : Consumes p fun _ ↦ True := by
  rintro ⟨rest, offset⟩ a next f hm
  -- Blanks can stand for what precedes the cursor, since it is not read.
  have hin : Cursor.In (List.replicate offset ' ' ++ rest) ⟨rest, offset⟩ :=
    ⟨_, rfl, by simp [Char.utf8Size]⟩
  obtain ⟨⟨before, hsplit, hbefore⟩, hle⟩ := h _ offset _ a next f hin (Nat.le_refl _) hm
  obtain ⟨taken, hrest, hoffset⟩ := split_behind_blanks hsplit (hbefore ▸ hle)
  exact ⟨taken, hrest, hbefore.symm.trans hoffset, trivial⟩

theorem consumes_of_takes (h : ∀ source, Takes source p) : Consumes p (· ≠ []) := by
  intro c a next f hm
  obtain ⟨cs, hrest, hoffset, -⟩ := consumes_of_moves (fun source ↦ (h source).moves) c a next f hm
  refine ⟨cs, hrest, hoffset, ?_⟩
  rintro rfl
  have hin : Cursor.In (List.replicate c.offset ' ' ++ c.rest) c :=
    ⟨_, rfl, by simp [Char.utf8Size]⟩
  have hlt := (h _ c.offset c a next f hin (Nat.le_refl _) hm).2.1
  rw [byteLength] at hoffset
  omega

theorem bind_of_matched {f : α → Parser β} {c mid next : Cursor} {a : α} {b : β} {g h : Failures}
    (hp : p c = .matched a mid g) (hf : f a mid = .matched b next h) :
    (p >>= f) c = .matched b next (g.merge h) := by
  change Parser.bind p f c = _
  simp only [Parser.bind, hp, hf, Outcome.withFailures]

theorem orElse_of_matched {q : Parser α} {c next : Cursor} {a : α} {f : Failures}
    (h : p c = .matched a next f) : (p <|> q) c = .matched a next f := by
  change Parser.orElse p (fun _ ↦ q) c = _
  rw [Parser.orElse, h]

theorem orElse_of_failed {q : Parser α} {c next : Cursor} {a : α} {f g : Failures}
    (hp : p c = .failed f) (hq : q c = .matched a next g) :
    (p <|> q) c = .matched a next (f.merge g) := by
  change Parser.orElse p (fun _ ↦ q) c = _
  simp only [Parser.orElse, hp, hq, Outcome.withFailures]

theorem matched_of_orElse {q : Parser α} {c next : Cursor} {a : α} {f g : Failures}
    (hp : p c = .failed f) (h : (p <|> q) c = .matched a next g) :
    ∃ g', q c = .matched a next g' := by
  obtain ⟨g', hm | hm⟩ := orElse_eq_matched h
  · rw [hp] at hm
    cases hm
  · exact ⟨g', hm⟩

end Peg.Parser

namespace Grammar

open Peg Peg.Parser

def isBlockComment (cs : List Char) : Bool := startsWith ['/', '*'] cs

def commentBody (cs : List Char) : List Char := (cs.drop 2).dropLast.dropLast

/-- A comment starts with one of its signs; a block comment ends with one too. -/
inductive IsComment : List Char → Prop
  | block (body : List Char) : IsComment (['/', '*'] ++ body ++ ['*', '/'])
  | slashes (line : List Char) : IsComment (['/', '/'] ++ line)
  | hash (line : List Char) : IsComment ('#' :: line)

theorem IsComment.ne_nil {cs : List Char} (h : IsComment cs) : cs ≠ [] := by
  cases h <;> simp

theorem IsComment.heads {cs : List Char} (h : IsComment cs) (rest : List Char) :
    Heads ['/', '#'] (cs ++ rest) := by
  cases h <;> exact heads_cons (by decide)

theorem consumes_blockComment : Consumes blockComment IsComment := by
  have hbody : Consumes (skipMany do notAhead (literal "*/"); oneOf .any) fun _ ↦ True :=
    consumes_of_moves fun _ ↦ .skipMany (.bind (.notAhead _) fun _ ↦ moves_oneOf _)
  refine (Consumes.bind (.literal "/*") fun _ ↦ .bind hbody fun _ ↦ .literal "*/").imp ?_
  rintro cs ⟨start, rest, rfl, rfl, body, stop, rfl, -, rfl⟩
  exact IsComment.block body

theorem consumes_restOfLine : Consumes restOfLine fun _ ↦ True :=
  consumes_of_moves fun _ ↦ .skipMany (.bind (.notAhead _) fun _ ↦ moves_oneOf _)

theorem consumes_comment : Consumes comment IsComment := by
  have hbody : Consumes (fun c ↦ attributeBody c.rest c) fun _ ↦ True :=
    consumes_of_moves fun _ lo c a next f hc hlo hm ↦
      moves_attributeBody c.rest lo c a next f hc hlo hm
  refine .orElse consumes_blockComment (.orElse ?_ (.orElse ?_ ?_))
  · refine (Consumes.bind (.literal "//") fun _ ↦ consumes_restOfLine).imp ?_
    rintro cs ⟨start, line, rfl, rfl, -⟩
    exact .slashes line
  · refine (Consumes.bind (.literal "#[") fun _ ↦ .bind hbody fun _ ↦ .literal "]").imp ?_
    rintro cs ⟨start, rest, rfl, rfl, -⟩
    exact .hash ('[' :: rest)
  · refine (Consumes.bind (.literal "#") fun _ ↦ consumes_restOfLine).imp ?_
    rintro cs ⟨start, line, rfl, rfl, -⟩
    exact .hash line

def blanks : List Char := [' ', '\t', '\n', '\r']

theorem oneOf_blank {x : Char} (hx : x ∈ blanks) (xs : List Char) (n : Nat) :
    oneOf (.ofChars [' ', '\t', '\n', '\r']) ⟨x :: xs, n⟩ =
      .matched () ⟨xs, n + x.utf8Size⟩ .none := by
  have hcontains : (CharClass.ofChars [' ', '\t', '\n', '\r']).contains x = true := by
    rw [CharClass.contains_ofChars]
    exact decide_eq_true hx
  simp only [oneOf, hcontains, if_true]

theorem consumes_blanks : Consumes whitespace fun cs ↦ cs ≠ [] ∧ ∀ x ∈ cs, x ∈ blanks := by
  have hall {x : Char} (hx : (CharClass.ofChars [' ', '\t', '\n', '\r']).contains x = true) :
      x ∈ blanks := by
    rwa [CharClass.contains_ofChars, decide_eq_true_iff] at hx
  have hone : Consumes (oneOf (.ofChars [' ', '\t', '\n', '\r'])) fun cs ↦
      ∀ x ∈ cs, x ∈ blanks := by
    refine (Consumes.oneOf _).imp ?_
    rintro cs ⟨x, rfl, hx⟩ y hy
    exact List.mem_singleton.mp hy ▸ hall hx
  refine (Consumes.bind (.oneOf _) fun _ ↦ .skipMany hone).imp ?_
  rintro cs ⟨head, rest, rfl, ⟨x, rfl, hx⟩, hrest⟩
  exact ⟨List.cons_ne_nil _ _, List.forall_mem_cons.mpr ⟨hall hx, hrest⟩⟩

theorem consumes_whitespace :
    Consumes whitespace fun cs ↦ cs ≠ [] ∧ ∀ x ∈ cs, isBlank x = true := by
  have hblank : ∀ x ∈ blanks, isBlank x = true :=
    List.all_iff_forall_prop.mp (by decide)
  exact consumes_blanks.imp fun cs hcs ↦ ⟨hcs.1, fun x hx ↦ hblank x (hcs.2 x hx)⟩

/-- The trivia from one place to another, with the comments among them as they are written. -/
inductive Skips : Cursor → List (List Char) → Cursor → Prop
  | stop {c : Cursor} {f : Failures} (h : (whitespace <|> comment) c = .failed f) : Skips c [] c
  | blank {c mid next : Cursor} {comments : List (List Char)} {f : Failures}
      (h : whitespace c = .matched () mid f) (hrest : Skips mid comments next) :
      Skips c comments next
  | comment {c mid next : Cursor} {text : List Char} {comments : List (List Char)}
      {f g : Failures} (hblank : whitespace c = .failed f)
      (h : Grammar.comment c = .matched () mid g) (htext : c.rest = text ++ mid.rest)
      (hrest : Skips mid comments next) : Skips c (text :: comments) next

theorem skips_of_skipMany {fuel : List Char} {f g : Failures} {c next : Cursor} {u : Unit}
    (hfuel : c.rest.length ≤ fuel.length)
    (hm : skipManyFrom (whitespace <|> comment) fuel f c = .matched u next g) :
    ∃ comments, Skips c comments next := by
  induction fuel generalizing c f with
  | nil =>
    have hempty : c.rest = [] := List.length_eq_zero_iff.mp (Nat.le_zero.mp hfuel)
    obtain ⟨rest, offset⟩ := c
    obtain rfl : rest = [] := hempty
    cases hm
    exact ⟨[], .stop rfl⟩
  | cons x fuel ih =>
    have hshorter {taken : List Char} {mid : Cursor} (hne : taken ≠ [])
        (hrest : c.rest = taken ++ mid.rest) : mid.rest.length ≤ fuel.length := by
      have hpos := List.length_pos_iff.mpr hne
      rw [hrest, List.length_append, List.length_cons] at hfuel
      omega
    unfold skipManyFrom at hm
    cases hp : (whitespace <|> comment) c with
    | failed e =>
      simp only [hp] at hm
      cases hm
      exact ⟨[], .stop hp⟩
    | matched v mid e =>
      simp only [hp] at hm
      cases hblank : whitespace c with
      | matched v' mid' e' =>
        obtain ⟨taken, hrest, -, hne, -⟩ := consumes_whitespace _ _ _ _ hblank
        rw [orElse_of_matched hblank] at hp
        cases hp
        obtain ⟨comments, hskips⟩ := ih (hshorter hne hrest) hm
        exact ⟨comments, .blank hblank hskips⟩
      | failed e' =>
        obtain ⟨_, hmatched⟩ := matched_of_orElse hblank hp
        obtain ⟨text, hrest, -, htext⟩ := consumes_comment _ _ _ _ hmatched
        obtain ⟨comments, hskips⟩ := ih (hshorter htext.ne_nil hrest) hm
        exact ⟨text :: comments, .comment hblank hmatched hrest hskips⟩

theorem skips_of_trivia {c next : Cursor} {u : Unit} {f : Failures}
    (hm : trivia c = .matched u next f) : ∃ comments, Skips c comments next := by
  unfold trivia quiet at hm
  cases hp : skipMany (whitespace <|> comment) c with
  | failed g =>
    rw [hp] at hm
    cases hm
  | matched v mid g =>
    rw [hp] at hm
    cases hm
    exact skips_of_skipMany (Nat.le_refl _) hp

/-- The trivia from one place to another, blank by blank. -/
inductive Clears : Cursor → Cursor → Prop
  | stop (c : Cursor) : Clears c c
  | blank {x : Char} {xs : List Char} {n : Nat} {next : Cursor} (hx : x ∈ blanks)
      (hrest : Clears ⟨xs, n + x.utf8Size⟩ next) : Clears ⟨x :: xs, n⟩ next
  | comment {c mid next : Cursor} {f : Failures} (h : Grammar.comment c = .matched () mid f)
      (hrest : Clears mid next) : Clears c next

def Stops (c : Cursor) : Prop := ∃ f, (whitespace <|> comment) c = .failed f

theorem Stops.failed {c : Cursor} (h : Stops c) : ∃ f, Grammar.comment c = .failed f := by
  obtain ⟨f, hf⟩ := h
  cases hblank : whitespace c with
  | matched u next g =>
    rw [orElse_of_matched hblank] at hf
    cases hf
  | failed g =>
    cases hm : Grammar.comment c with
    | matched u next e =>
      rw [orElse_of_failed hblank hm] at hf
      cases hf
    | failed e => exact ⟨e, rfl⟩

theorem Stops.head {c : Cursor} (h : Stops c) : ∀ x ∈ c.rest.head?, x ∉ blanks := by
  intro x hx hmem
  obtain ⟨f, hf⟩ := h
  obtain ⟨rest, n⟩ := c
  obtain ⟨xs, rfl⟩ : ∃ xs, rest = x :: xs := List.head?_eq_some_iff.mp hx
  obtain ⟨next, g, hmore⟩ := skipMany_matches (oneOf (.ofChars [' ', '\t', '\n', '\r']))
    ⟨xs, n + x.utf8Size⟩
  have hwhite : whitespace ⟨x :: xs, n⟩ = .matched () next _ :=
    bind_of_matched (oneOf_blank hmem xs n) hmore
  rw [orElse_of_matched hwhite] at hf
  cases hf

theorem Clears.behind_blanks {cs rest : List Char} {n : Nat} {next : Cursor}
    (hcs : ∀ x ∈ cs, x ∈ blanks)
    (h : Clears ⟨rest, n + byteLength cs⟩ next) : Clears ⟨cs ++ rest, n⟩ next := by
  induction cs generalizing n with
  | nil => exact h
  | cons x cs ih =>
    obtain ⟨hx, hcs⟩ := List.forall_mem_cons.mp hcs
    refine .blank hx (ih hcs ?_)
    rwa [byteLength, ← Nat.add_assoc] at h

theorem accepts_whitespace {cs rest : List Char} (hne : cs ≠ []) (hcs : ∀ x ∈ cs, x ∈ blanks)
    (hrest : ∀ x ∈ rest.head?, x ∉ blanks) : Accepts whitespace cs rest := by
  have hone {x : Char} (hx : x ∈ blanks) (rest : List Char) :
      Accepts (oneOf (.ofChars [' ', '\t', '\n', '\r'])) [x] rest :=
    fun n ↦ ⟨(), .none, oneOf_blank hx rest n, trivial⟩
  obtain ⟨x, cs, rfl⟩ := List.exists_cons_of_ne_nil hne
  obtain ⟨hx, hcs⟩ := List.forall_mem_cons.mp hcs
  refine .bind_head (hone hx _) fun _ _ ↦ .skipMany (fun y before behind he ↦ ?_) ?_
  · exact hone (hcs y (he ▸ List.mem_append_right before List.mem_cons_self)) _
  · refine .oneOf fun y hy ↦ ?_
    rw [CharClass.contains_ofChars]
    exact decide_eq_false (hrest y hy)

theorem Skips.clears {c next : Cursor} {comments : List (List Char)} (h : Skips c comments next) :
    Clears c next ∧ Stops next := by
  induction h with
  | stop h => exact ⟨.stop _, _, h⟩
  | @blank c mid next comments f h _ ih =>
    obtain ⟨cs, hrest, hoffset, -, hcs⟩ := consumes_blanks _ _ _ _ h
    obtain ⟨rest, n⟩ := c
    obtain ⟨behind, m⟩ := mid
    obtain rfl : rest = cs ++ behind := hrest
    obtain rfl : m = n + byteLength cs := hoffset
    exact ⟨.behind_blanks hcs ih.1, ih.2⟩
  | comment _ h _ _ ih => exact ⟨.comment h ih.1, ih.2⟩

theorem Clears.skips {c next : Cursor} (h : Clears c next) (hstop : Stops next) :
    ∃ comments, Skips c comments next := by
  induction h with
  | stop c =>
    obtain ⟨f, hf⟩ := hstop
    exact ⟨[], .stop hf⟩
  | @blank x xs n next hx _ ih =>
    obtain ⟨comments, hskips⟩ := ih hstop
    -- the blanks behind this one are taken with it
    generalize hm : n + x.utf8Size = m at hskips
    have hall : ∀ y ∈ xs.takeWhile (· ∈ blanks), y ∈ blanks := by
      intro y hy
      simpa using List.mem_takeWhile_imp hy
    have hbehind : ∀ y ∈ (xs.dropWhile (· ∈ blanks)).head?, y ∉ blanks := by
      intro y hy
      have hnot := List.head?_dropWhile_not (· ∈ blanks) xs
      rw [hy] at hnot
      exact of_decide_eq_false hnot
    rw [← List.takeWhile_append_dropWhile (p := (· ∈ blanks)) (l := xs)] at hskips ⊢
    generalize xs.takeWhile (· ∈ blanks) = cs at *
    generalize xs.dropWhile (· ∈ blanks) = rest at *
    obtain ⟨_, f, hwhite, -⟩ := accepts_whitespace (List.cons_ne_nil x cs)
      (List.forall_mem_cons.mpr ⟨hx, hall⟩) hbehind n
    rw [List.cons_append, byteLength, ← Nat.add_assoc, hm] at hwhite
    by_cases hcs : cs = []
    · subst hcs
      exact ⟨comments, .blank hwhite hskips⟩
    · obtain ⟨_, g, hmore, -⟩ := accepts_whitespace hcs hall hbehind m
      cases hskips with
      | stop h =>
        rw [orElse_of_matched hmore] at h
        cases h
      | blank h hrest =>
        rw [hmore] at h
        cases h
        exact ⟨comments, .blank hwhite hrest⟩
      | comment hblank _ _ _ =>
        rw [hmore] at hblank
        cases hblank
  | @comment c mid next f h _ ih =>
    obtain ⟨comments, hskips⟩ := ih hstop
    obtain ⟨text, hrest, -, htext⟩ := consumes_comment _ _ _ _ h
    have hhead : Heads ['/', '#'] c.rest := hrest ▸ htext.heads mid.rest
    have hblank : Rejects whitespace c.rest := .bind (hhead.rejects_oneOf (by decide))
    obtain ⟨g, hg⟩ := hblank c.offset
    exact ⟨text :: comments, .comment hg h hrest hskips⟩

theorem skipMany_of_skips {c next : Cursor} {comments : List (List Char)}
    (h : Skips c comments next) (fuel : List Char) (hfuel : c.rest.length ≤ fuel.length)
    (f : Failures) : ∃ g, skipManyFrom (whitespace <|> comment) fuel f c = .matched () next g := by
  have hshorter {taken fuel : List Char} {c mid : Cursor} (hne : taken ≠ [])
      (hrest : c.rest = taken ++ mid.rest) (hfuel : c.rest.length ≤ fuel.length) :
      ∃ y fuel', fuel = y :: fuel' ∧ mid.rest.length ≤ fuel'.length := by
    have hpos := List.length_pos_iff.mpr hne
    rw [hrest, List.length_append] at hfuel
    cases fuel with
    | nil =>
      rw [List.length_nil] at hfuel
      omega
    | cons y fuel =>
      rw [List.length_cons] at hfuel
      exact ⟨y, fuel, rfl, by omega⟩
  induction h generalizing fuel f with
  | stop h =>
    unfold skipManyFrom
    exact ⟨_, by rw [h]⟩
  | @blank c mid next comments e h _ ih =>
    obtain ⟨taken, hrest, -, hne, -⟩ := consumes_whitespace _ _ _ _ h
    obtain ⟨y, fuel, rfl, hmid⟩ := hshorter hne hrest hfuel
    obtain ⟨k, hk⟩ := ih fuel hmid (f.merge e)
    refine ⟨k, ?_⟩
    unfold skipManyFrom
    simp only [orElse_of_matched h, hk]
  | @comment c mid next text comments e g hblank h htext _ ih =>
    obtain ⟨text', hrest, -, hcomment⟩ := consumes_comment _ _ _ _ h
    obtain ⟨y, fuel, rfl, hmid⟩ := hshorter hcomment.ne_nil hrest hfuel
    obtain ⟨k, hk⟩ := ih fuel hmid (f.merge (e.merge g))
    refine ⟨k, ?_⟩
    unfold skipManyFrom
    simp only [orElse_of_failed hblank h, hk]

theorem trivia_of_clears {c next : Cursor} (h : Clears c next) (hstop : Stops next) :
    ∃ f, trivia c = .matched () next f := by
  obtain ⟨comments, hskips⟩ := h.skips hstop
  obtain ⟨g, hg⟩ := skipMany_of_skips hskips c.rest (Nat.le_refl _) .none
  refine ⟨.none, ?_⟩
  unfold trivia quiet skipMany
  rw [hg]

def EndsWith (between : List Char) : Option (List Char) → Prop
  | none => ∀ x ∈ between, isBlank x = true
  | some last => IsComment last ∧ ∃ front blanks, between = front ++ last ++ blanks ∧
      ∀ x ∈ blanks, isBlank x = true

theorem EndsWith.append_front {between : List Char} {last : List Char} (front : List Char)
    (h : EndsWith between (some last)) : EndsWith (front ++ between) (some last) := by
  obtain ⟨hlast, front', blanks, rfl, hblanks⟩ := h
  exact ⟨hlast, front ++ front', blanks, by simp, hblanks⟩

theorem Skips.endsWith {c next : Cursor} {comments : List (List Char)} (h : Skips c comments next) :
    ∃ between, c.rest = between ++ next.rest ∧ next.offset = c.offset + byteLength between ∧
      EndsWith between comments.getLast? := by
  induction h with
  | stop h => exact ⟨[], rfl, rfl, nofun⟩
  | @blank c mid next comments f h _ ih =>
    obtain ⟨between, hrest, hoffset, hends⟩ := ih
    obtain ⟨blanks, hrest', hoffset', -, hblanks⟩ := consumes_whitespace _ _ _ _ h
    refine ⟨blanks ++ between, by rw [hrest', hrest, List.append_assoc], ?_, ?_⟩
    · rw [hoffset, hoffset', byteLength_append, Nat.add_assoc]
    · cases hlast : comments.getLast? with
      | none =>
        rw [hlast] at hends
        exact List.forall_mem_append.mpr ⟨hblanks, hends⟩
      | some last => exact .append_front blanks (hlast ▸ hends)
  | @comment c mid next text comments f g _ h htext _ ih =>
    obtain ⟨between, hrest, hoffset, hends⟩ := ih
    obtain ⟨text', hrest', hoffset', hcomment⟩ := consumes_comment _ _ _ _ h
    obtain rfl : text' = text := List.append_cancel_right (hrest'.symm.trans htext)
    refine ⟨text' ++ between, by rw [hrest', hrest, List.append_assoc], ?_, ?_⟩
    · rw [hoffset, hoffset', byteLength_append, Nat.add_assoc]
    · rw [List.getLast?_cons]
      cases hlast : comments.getLast? with
      | none =>
        rw [hlast] at hends
        exact ⟨hcomment, [], between, by simp, hends⟩
      | some last => exact .append_front text' (hlast ▸ hends)

end Grammar

end PhpInsight
