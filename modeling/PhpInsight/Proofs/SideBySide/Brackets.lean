import PhpInsight.Completion.Repair
import PhpInsight.Proofs.SideBySide.Statement

namespace PhpInsight

open Peg Peg.Parser Text

theorem Peg.Parser.Rejects.not_matched {α : Type} {p : Parser α} {c next : Cursor} {a : α}
    {f : Failures} (h : Rejects p c.rest) : p c ≠ .matched a next f := by
  obtain ⟨g, hg⟩ := h c.offset
  intro hm
  rw [show p c = .failed g from hg] at hm
  cases hm

namespace Completion

open Grammar

theorem isOpener_iff {x : Char} : isOpener x = true ↔ x = '(' ∨ x = '[' := by simp [isOpener]

theorem isCloser_iff {x : Char} : isCloser x = true ↔ x = ')' ∨ x = ']' := by simp [isCloser]

theorem isCloser_closerOf (x : Char) : isCloser (closerOf x) = true := by
  unfold closerOf
  split <;> rfl

/-- Behind brackets that were due some characters leave others due. Every closing bracket among the
characters is the next one that is due. -/
inductive Balances : List Char → List Char → List Char → Prop
  | stop (due : List Char) : Balances due [] due
  | opener {due cs left : List Char} {x : Char} : isOpener x = true →
    Balances (closerOf x :: due) cs left → Balances due (x :: cs) left
  | closer {due cs left : List Char} {x : Char} : isCloser x = true → Balances due cs left →
    Balances (x :: due) (x :: cs) left
  | other {due cs left : List Char} {x : Char} : isOpener x = false → isCloser x = false →
    Balances due cs left → Balances due (x :: cs) left

namespace Balances

variable {due mid left cs ds : List Char}

theorem trans (h : Balances due cs mid) (h' : Balances mid ds left) :
    Balances due (cs ++ ds) left := by
  induction h with
  | stop => exact h'
  | opener hx _ ih => exact .opener hx (ih h')
  | closer hx _ ih => exact .closer hx (ih h')
  | other hx hx' _ ih => exact .other hx hx' (ih h')

theorem of_append (h : Balances due (cs ++ ds) left) :
    ∃ mid, Balances due cs mid ∧ Balances mid ds left := by
  induction cs generalizing due with
  | nil => exact ⟨due, .stop due, h⟩
  | cons x cs ih =>
    cases h with
    | opener hx h =>
      obtain ⟨mid, hcs, hds⟩ := ih h
      exact ⟨mid, .opener hx hcs, hds⟩
    | closer hx h =>
      obtain ⟨mid, hcs, hds⟩ := ih h
      exact ⟨mid, .closer hx hcs, hds⟩
    | other hx hx' h =>
      obtain ⟨mid, hcs, hds⟩ := ih h
      exact ⟨mid, .other hx hx' hcs, hds⟩

theorem closersFrom_eq (h : Balances due cs left) (hdue : ∀ x ∈ due, isCloser x = true) :
    closersFrom due cs = left := by
  induction h with
  | stop => rfl
  | @opener due cs left x hx _ ih =>
    have hcloser := ih (List.forall_mem_cons.mpr ⟨isCloser_closerOf x, hdue⟩)
    rcases isOpener_iff.mp hx with rfl | rfl <;> exact hcloser
  | @closer due cs left x hx _ ih =>
    have hrest := ih (List.forall_mem_cons.mp hdue).2
    rcases isCloser_iff.mp hx with rfl | rfl <;> simpa [closersFrom] using hrest
  | @other due cs left x hx hx' _ ih =>
    have hopener : x ≠ '(' ∧ x ≠ '[' := not_or.mp fun hor ↦ by
      rw [isOpener_iff.mpr hor] at hx
      cases hx
    have hhead : due.head? ≠ some x := fun he ↦ by
      rw [hdue x (List.mem_of_mem_head? he)] at hx'
      cases hx'
    rw [closersFrom, if_neg hopener.1, if_neg hopener.2, if_neg hhead]
    exact ih hdue

theorem of_others (h : Balances due (cs ++ ds) left)
    (hcs : ∀ x ∈ cs, isOpener x = false ∧ isCloser x = false) : Balances due ds left := by
  induction cs with
  | nil => exact h
  | cons x cs ih =>
    obtain ⟨⟨hopener, hcloser⟩, hcs⟩ := List.forall_mem_cons.mp hcs
    cases h with
    | opener hx _ =>
      rw [hopener] at hx
      cases hx
    | closer hx _ =>
      rw [hcloser] at hx
      cases hx
    | other _ _ h => exact ih h hcs

theorem eq_due (h : Balances due cs []) (hcs : ∀ x ∈ cs, isCloser x = true) : due = cs := by
  induction cs generalizing due with
  | nil =>
    cases h
    rfl
  | cons x cs ih =>
    obtain ⟨hx, hcs⟩ := List.forall_mem_cons.mp hcs
    cases h with
    | opener hopener _ =>
      rcases isCloser_iff.mp hx with rfl | rfl <;> cases hopener
    | closer _ h => rw [ih h hcs]
    | other _ hnot _ =>
      rw [hx] at hnot
      cases hnot

end Balances

end Completion

namespace Grammar

open Completion

/-- From one place to another these characters stand outside of string literals and comments. -/
inductive Code : Cursor → List Char → Cursor → Prop
  | stop (c : Cursor) : Code c [] c
  | string {c mid next : Cursor} {cs : List Char} {v : String} {f : Failures}
    (h : stringLiteral c = .matched v mid f) (hrest : Code mid cs next) : Code c cs next
  | comment {c mid next : Cursor} {cs : List Char} {u : Unit} {f : Failures}
    (hstring : Rejects stringLiteral c.rest) (h : Grammar.comment c = .matched u mid f)
    (hrest : Code mid cs next) : Code c cs next
  | char {x : Char} {xs cs : List Char} {n : Nat} {next : Cursor}
    (hstring : Rejects stringLiteral (x :: xs)) (hcomment : Rejects Grammar.comment (x :: xs))
    (hrest : Code ⟨xs, n + x.utf8Size⟩ cs next) : Code ⟨x :: xs, n⟩ (x :: cs) next

/-- Neither a string literal nor a comment stands there. -/
structure Ordinary (text : List Char) : Prop where
  string : Rejects stringLiteral text
  comment : Rejects Grammar.comment text

theorem all_not_mem_singleton {ys zs : List Char} {x : Char} (hx : x ∉ zs) (hsub : ys ⊆ zs) :
    ys.all (· ∉ [x]) = true := by
  refine List.all_eq_true.mpr fun _ hy ↦ ?_
  refine decide_eq_true fun hmem ↦ ?_
  exact hx (List.mem_singleton.mp hmem ▸ hsub hy)

namespace Ordinary

variable {x : Char} {xs : List Char}

theorem char (hx : x ∉ ['\'', '"', '<', '/', '#']) : Ordinary (x :: xs) where
  string := (heads_cons (List.mem_singleton_self x)).rejects_stringLiteral
    (all_not_mem_singleton hx (by decide))
  comment := (heads_cons (List.mem_singleton_self x)).rejects_comment
    (all_not_mem_singleton hx (by decide))

theorem unmarked (hx : x ∉ marks) : Ordinary (x :: xs) :=
  .char fun hmem ↦ hx (List.subset_def.mp (by decide) hmem)

theorem bracket (hx : isOpener x = true ∨ isCloser x = true) : Ordinary (x :: xs) := by
  refine .char fun hmem ↦ ?_
  rw [isOpener_iff, isCloser_iff] at hx
  obtain (rfl | rfl) | rfl | rfl := hx <;> exact absurd hmem (by decide)

theorem slash (hhead : ∀ y ∈ xs.head?, y ∉ ['/', '*']) : Ordinary ('/' :: xs) where
  string := (heads_cons (List.mem_singleton_self '/')).rejects_stringLiteral (by decide)
  comment := rejects_comment_of_slash hhead

theorem angle (h : Rejects stringLiteral ('<' :: xs)) : Ordinary ('<' :: xs) where
  string := h
  comment := (heads_cons (List.mem_singleton_self '<')).rejects_comment (by decide)

theorem shift {J : Cursor → Prop} {n : Nat}
    (hangle : ∀ {ys m}, J ⟨'<' :: ys, m⟩ → Ordinary ('<' :: ys) → J ⟨ys, m + '<'.utf8Size⟩)
    (h : J ⟨'<' :: '<' :: '<' :: xs, n⟩) :
    J ⟨'<' :: xs, n + byteLength ['<', '<']⟩ ∨ ¬ ['<', '<'] <+: xs := by
  by_cases hmore : ['<', '<'] <+: xs
  · obtain ⟨ys, rfl⟩ := hmore
    have hlast := hangle (hangle h (.angle rejects_string_of_angles))
      (.angle rejects_string_of_angles)
    rw [Nat.add_assoc] at hlast
    exact .inl hlast
  · exact .inr hmore

end Ordinary

namespace Code

variable {c mid next : Cursor} {cs ds : List Char}

theorem trans (h : Code c cs mid) (h' : Code mid ds next) : Code c (cs ++ ds) next := by
  induction h with
  | stop => exact h'
  | string h _ ih => exact .string h (ih h')
  | comment hstring h _ ih => exact .comment hstring h (ih h')
  | char hstring hcomment _ ih => exact .char hstring hcomment (ih h')

theorem takes (h : Code c cs next) :
    ∃ text, c.Takes text next ∧ (text = [] → cs = [] ∧ c = next) := by
  induction h with
  | stop c => exact ⟨[], .nil c, fun _ ↦ ⟨rfl, rfl⟩⟩
  | string h _ ih =>
    obtain ⟨taken, hrest, hoffset, hne⟩ := consumes_stringLiteral _ _ _ _ h
    obtain ⟨text, htext, -⟩ := ih
    exact ⟨taken ++ text, Cursor.Takes.append ⟨hrest, hoffset⟩ htext,
      fun he ↦ absurd (List.append_eq_nil_iff.mp he).1 hne⟩
  | comment _ h _ ih =>
    obtain ⟨taken, hrest, hoffset, hcomment⟩ := consumes_comment _ _ _ _ h
    obtain ⟨text, htext, -⟩ := ih
    exact ⟨taken ++ text, Cursor.Takes.append ⟨hrest, hoffset⟩ htext,
      fun he ↦ absurd (List.append_eq_nil_iff.mp he).1 hcomment.ne_nil⟩
  | @char x xs cs n next _ _ _ ih =>
    obtain ⟨text, htext, -⟩ := ih
    have hx : Cursor.Takes ⟨x :: xs, n⟩ [x] ⟨xs, n + x.utf8Size⟩ := ⟨rfl, rfl⟩
    exact ⟨[x] ++ text, hx.append htext, fun he ↦ absurd he (List.cons_ne_nil _ _)⟩

theorem eq_nil (h : Code c cs c) : cs = [] := by
  obtain ⟨text, htext, hnil⟩ := h.takes
  refine (hnil ?_).1
  by_contra hne
  exact absurd (htext.length_lt hne) (Nat.lt_irrefl _)

theorem not_back {taken : List Char} (h : Code mid cs c) (htaken : c.Takes taken mid)
    (hne : taken ≠ []) : False := by
  obtain ⟨text, htext, -⟩ := h.takes
  have hlt := htaken.length_lt hne
  have hle := htext.length_le
  omega

theorem unique (h : Code c cs next) (h' : Code c ds next) : cs = ds := by
  induction h generalizing ds with
  | stop => exact h'.eq_nil.symm
  | @string c mid next cs v f h hrest ih =>
    obtain ⟨taken, hcs, hoffset, hne⟩ := consumes_stringLiteral _ _ _ _ h
    cases h' with
    | stop => exact (hrest.not_back ⟨hcs, hoffset⟩ hne).elim
    | string h₂ hrest₂ =>
      rw [h] at h₂
      cases h₂
      exact ih hrest₂
    | comment hstring _ _ => exact absurd h hstring.not_matched
    | char hstring _ _ => exact absurd h (Rejects.not_matched hstring)
  | @comment c mid next cs u f hstring h hrest ih =>
    obtain ⟨taken, hcs, hoffset, htaken⟩ := consumes_comment _ _ _ _ h
    cases h' with
    | stop => exact (hrest.not_back ⟨hcs, hoffset⟩ htaken.ne_nil).elim
    | string h₂ _ => exact absurd h₂ hstring.not_matched
    | comment _ h₂ hrest₂ =>
      rw [h] at h₂
      cases h₂
      exact ih hrest₂
    | char _ hcomment _ => exact absurd h (Rejects.not_matched hcomment)
  | @char x xs cs n next hstring hcomment hrest ih =>
    cases h' with
    | stop =>
      have htaken : Cursor.Takes ⟨x :: xs, n⟩ [x] ⟨xs, n + x.utf8Size⟩ := ⟨rfl, rfl⟩
      exact (hrest.not_back htaken (List.cons_ne_nil _ _)).elim
    | string h₂ _ => exact absurd h₂ (Rejects.not_matched hstring)
    | comment _ h₂ _ => exact absurd h₂ (Rejects.not_matched hcomment)
    | char _ _ hrest₂ => rw [ih hrest₂]

theorem of_takes {text : List Char} (h : c.Takes text next)
    (htext : ∀ x ∈ text, x ∉ ['\'', '"', '<', '/', '#']) : Code c text next := by
  induction text generalizing c with
  | nil =>
    obtain ⟨rest, n⟩ := c
    obtain ⟨rest', n'⟩ := next
    obtain ⟨hrest, hoffset⟩ := h
    obtain rfl : rest = rest' := hrest
    obtain rfl : n' = n := hoffset
    exact .stop _
  | cons x text ih =>
    obtain ⟨hx, htext⟩ := List.forall_mem_cons.mp htext
    obtain ⟨rest, n⟩ := c
    obtain ⟨hrest, hoffset⟩ := h
    obtain rfl : rest = x :: (text ++ next.rest) := hrest
    have hordinary : Ordinary (x :: (text ++ next.rest)) := .char hx
    exact .char hordinary.string hordinary.comment
      (ih ⟨rfl, by rw [hoffset, byteLength, Nat.add_assoc]⟩ htext)

end Code

/-- Up to a place the brackets of the code are in pairs but for those that are due. Where less than
`limit` characters are left this is not asked for any more. -/
def Paired (start : Cursor) (limit : Nat) (due : List Char) (c : Cursor) : Prop :=
  c.rest.length < limit ∨ ∃ code, Code start code c ∧ Balances [] code due

namespace Paired

variable {start c next : Cursor} {limit n : Nat} {due left cs xs : List Char} {x : Char}

theorem behind (h : Paired start limit due c) (hlt : next.rest.length ≤ c.rest.length)
    (hcode : ∀ code, Code start code c → Balances [] code due →
      ∃ code', Code start code' next ∧ Balances [] code' left) : Paired start limit left next := by
  rcases h with hpast | ⟨code, hcode', hdue⟩
  · exact .inl (Nat.lt_of_le_of_lt hlt hpast)
  · exact .inr (hcode code hcode' hdue)

theorem char (h : Paired start limit due ⟨x :: xs, n⟩) (hordinary : Ordinary (x :: xs))
    (hx : Balances due [x] left) : Paired start limit left ⟨xs, n + x.utf8Size⟩ :=
  h.behind (Nat.le_succ _) fun code hcode hdue ↦
    ⟨code ++ [x], hcode.trans (.char hordinary.string hordinary.comment (.stop _)), hdue.trans hx⟩

theorem other (h : Paired start limit due ⟨x :: xs, n⟩) (hordinary : Ordinary (x :: xs))
    (hx : isOpener x = false ∧ isCloser x = false) :
    Paired start limit due ⟨xs, n + x.utf8Size⟩ :=
  h.char hordinary (.other hx.1 hx.2 (.stop _))

theorem unmarked (h : Paired start limit due ⟨x :: xs, n⟩) (hx : x ∉ marks) :
    Paired start limit due ⟨xs, n + x.utf8Size⟩ := by
  refine h.other (.unmarked hx) ⟨?_, ?_⟩
  · refine Bool.eq_false_iff.mpr fun hopener ↦ hx ?_
    rcases isOpener_iff.mp hopener with rfl | rfl <;> decide
  · refine Bool.eq_false_iff.mpr fun hcloser ↦ hx ?_
    rcases isCloser_iff.mp hcloser with rfl | rfl <;> decide

theorem angle (h : Paired start limit due ⟨'<' :: xs, n⟩)
    (hstring : Rejects stringLiteral ('<' :: xs)) :
    Paired start limit due ⟨xs, n + '<'.utf8Size⟩ := h.other (.angle hstring) (by decide)

theorem shift (h : Paired start limit due ⟨'<' :: '<' :: '<' :: xs, n⟩) :
    Paired start limit due ⟨'<' :: xs, n + byteLength ['<', '<']⟩ ∨ ¬ ['<', '<'] <+: xs :=
  Ordinary.shift (fun h hordinary ↦ h.other hordinary (by decide)) h

theorem string {v : String} {f : Failures} (h : Paired start limit due c)
    (hm : stringLiteral c = .matched v next f) : Paired start limit due next := by
  obtain ⟨taken, hrest, hoffset, -⟩ := consumes_stringLiteral _ _ _ _ hm
  have htakes : c.Takes taken next := ⟨hrest, hoffset⟩
  exact h.behind htakes.length_le fun code hcode hdue ↦
    ⟨code ++ [], hcode.trans (.string hm (.stop _)), by rwa [List.append_nil]⟩

theorem comment {u : Unit} {f : Failures} (h : Paired start limit due c)
    (hm : Grammar.comment c = .matched u next f) : Paired start limit due next := by
  obtain ⟨taken, hrest, hoffset, htaken⟩ := consumes_comment _ _ _ _ hm
  have htakes : c.Takes taken next := ⟨hrest, hoffset⟩
  have hhead : Heads ['/', '#'] c.rest := hrest ▸ htaken.heads next.rest
  exact h.behind htakes.length_le fun code hcode hdue ↦
    ⟨code ++ [], hcode.trans (.comment (hhead.rejects_stringLiteral (by decide)) hm (.stop _)),
      by rwa [List.append_nil]⟩

theorem skips {comments : List (List Char)} (hskips : Skips c comments next)
    (h : Paired start limit due c) : Paired start limit due next := by
  have hblank : ∀ x ∈ marks, isBlank x = false := List.all_iff_forall_prop.mp (by decide)
  induction hskips with
  | stop _ => exact h
  | blank hm _ ih =>
    obtain ⟨blanks, hrest, hoffset, -, hblanks⟩ := consumes_whitespace _ _ _ _ hm
    have htakes : Cursor.Takes _ blanks _ := ⟨hrest, hoffset⟩
    refine ih (htakes.induct (fun x xs n hx h ↦ h.unmarked fun hmem ↦ ?_) h)
    have hx' := hblanks x hx
    rw [hblank x hmem] at hx'
    cases hx'
  | comment _ hm _ _ ih => exact ih (h.comment hm)

end Paired

def paired (start : Cursor) (limit : Nat) : Frame where
  Near c c' := c = c'
  head := by
    rintro ⟨rest, n⟩ _ rfl
    cases rest with
    | nil => exact .inr ⟨.inl startsBlank_nil, .inl startsBlank_nil⟩
    | cons x xs => exact .inl ⟨x, xs, xs, rfl, rfl⟩
  next := by
    rintro x xs xs' n n' h -
    cases h
    rfl
  toLikeness := .shape
  position_near _ := trivial
  text_taken _ _ _ _ _ := trivial
  written_taken _ _ _ _ := trivial
  quotes_taken _ _ := trivial
  Inside := Paired start limit
  step h hx := h.unmarked hx
  opener h hx := h.char (.bracket (.inl hx)) (.opener hx (.stop _))
  closer h hx := h.char (.bracket (.inr hx)) (.closer hx (.stop _))
  slash h hx := h.other (.slash hx) (by decide)
  division := by
    rintro due xs xs' n n' h - x -
    cases h
    rfl
  angle h hx := h.angle (rejects_string_of_angle hx)
  shift h := h.shift
  string := by
    rintro due c _ rfl h
    exact agree_self consumes_stringLiteral fun _ _ _ _ hm htakes hne ↦
      ⟨⟨trivial, rfl, h.string hm⟩, htakes.length_lt hne, htakes.length_lt hne⟩
  skip := by
    rintro due c _ rfl h
    refine agree_self consumes_trivia fun _ _ _ _ hm _ _ ↦ ⟨rfl, ?_⟩
    obtain ⟨comments, hskips⟩ := skips_of_trivia hm
    exact h.skips hskips

def ruleBlock : Parser Unit := do
  literal "\x7b"
  skipMany do
    notAhead (literal "\x7d")
    oneOf .any
  literal "\x7d"

theorem consumes_ruleBlock : Consumes ruleBlock fun _ ↦ True := by
  refine consumes_of_moves fun source lo ↦ ?_
  refine .bind ((takes_literal (by decide)).moves lo) fun _ ↦ ?_
  have hrule : Moves source (do notAhead (literal "\x7d"); oneOf .any) :=
    .bind (.notAhead _) fun _ ↦ moves_oneOf _
  refine .bind (hrule.skipMany lo) fun _ ↦ ?_
  exact (takes_literal (by decide)).moves lo

def traitRules : Parser Unit := do
  keyword "use"
  trivia
  let _ ← nameList
  trivia
  literal "\x7b"

variable {α : Type} {p : Parser α} {start c next last target : Cursor} {limit k : Nat}
  {d e code fill : List Char}

theorem Paired.steady {R : α → α → Prop} {a : α} {f : Failures} (hc : Paired start limit d c)
    (h : (paired start limit).Steady (c.rest.length + 1) d e R p p)
    (hm : p c = .matched a next f) : Paired start limit e next := by
  obtain ⟨g, -, hg, -⟩ | ⟨b, _, mid, _, g, _, hg, -, -, -, -, hmid⟩ :=
    h c c ⟨rfl, hc⟩ (Nat.lt_succ_self _)
  · rw [hm] at hg
    cases hg
  · rw [hm] at hg
    cases hg
    exact hmid

theorem Paired.behind_names {c₁ c₂ c₃ c₄ : Cursor} {u₁ u₂ u₄ : Unit} {names : List Name}
    {f₁ f₂ f₃ f₄ : Failures} (hc : Paired start limit d c)
    (h₁ : keyword "use" c = .matched u₁ c₁ f₁) (h₂ : trivia c₁ = .matched u₂ c₂ f₂)
    (h₃ : nameList c₂ = .matched names c₃ f₃) (h₄ : trivia c₃ = .matched u₄ c₄ f₄) :
    Paired start limit d c₄ := by
  have hc₁ : Paired start limit d c₁ := hc.steady (Frame.firm_keyword _).steady h₁
  have hc₂ : Paired start limit d c₂ := hc₁.steady Frame.steady_trivia h₂
  have hc₃ : Paired start limit d c₃ := hc₂.steady Frame.steady_nameList h₃
  exact hc₃.steady Frame.steady_trivia h₄

theorem rejects_traitRules {text : List Char} (h : '\x7b' ∉ text) : Rejects traitRules text := by
  intro n
  cases hm : traitRules ⟨text, n⟩ with
  | failed f => exact ⟨f, rfl⟩
  | matched u next f =>
    obtain ⟨_, c₁, _, _, h₁, hm⟩ := bind_eq_matched hm
    obtain ⟨_, c₂, _, _, h₂, hm⟩ := bind_eq_matched hm
    obtain ⟨_, c₃, _, _, h₃, hm⟩ := bind_eq_matched hm
    obtain ⟨_, c₄, _, _, h₄, hbrace⟩ := bind_eq_matched hm
    have hstart : Paired ⟨text, n⟩ 0 [] ⟨text, n⟩ := .inr ⟨[], .stop _, .stop []⟩
    obtain hlt | ⟨code, hcode, -⟩ := hstart.behind_names h₁ h₂ h₃ h₄
    · exact absurd hlt (Nat.not_lt_zero _)
    · obtain ⟨taken, htaken, -⟩ := hcode.takes
      obtain ⟨hrest, -⟩ := dropText?_eq_some (literal_eq_matched hbrace)
      have htext : text = taken ++ ('\x7b' :: next.rest) := htaken.1.trans (congrArg _ hrest)
      exact absurd (htext ▸ List.mem_append_right _ List.mem_cons_self) h

theorem takes_traitUse (c : Cursor) :
    Agree traitUse traitUse c c fun a a' next next' ↦
      (a.Like .shape a' ∧ next = next') ∧ Nearer c c next next' := by
  -- So near to the end nothing is asked of the brackets.
  have hfirm : (paired c (c.rest.length + 1)).Firm (c.rest.length + 1) [] []
      (MemberKind.Like .shape) traitUse traitUse := by
    refine Frame.firm_traitUse ?_
    rintro b _ ⟨rfl, -⟩ hb
    refine agree_self consumes_ruleBlock fun _ cs next f _ htakes _ ↦ ⟨rfl, rfl, .inl ?_⟩
    have hle := htakes.length_le
    omega
  refine (hfirm c c ⟨rfl, .inl (Nat.lt_succ_self _)⟩ (Nat.lt_succ_self _)).imp
    fun _ _ _ _ h ↦ ⟨⟨h.1.1, h.1.2.1⟩, h.2⟩

theorem firm_traitUse_paired
    (hrules : ∀ t, t <:+ start.rest → limit ≤ t.length → Rejects traitRules t) :
    (paired start limit).Firm k d d (MemberKind.Like .shape) traitUse traitUse := by
  rintro c _ ⟨rfl, hc⟩ -
  refine (takes_traitUse c).imp_matched fun a _ next _ f _ hm _ ⟨⟨hlike, hsame⟩, hnearer⟩ ↦
    ⟨⟨hlike, hsame, ?_⟩, hnearer⟩
  by_cases hlimit : c.rest.length < limit
  · exact .inl (Nat.lt_trans hnearer.1 hlimit)
  have hrejects : Rejects traitRules c.rest := by
    obtain hlt | ⟨code, hcode, -⟩ := hc
    · exact absurd hlt hlimit
    · obtain ⟨text, htext, -⟩ := hcode.takes
      exact hrules _ ⟨text, htext.1.symm⟩ (Nat.le_of_not_lt hlimit)
  obtain ⟨_, c₁, _, _, h₁, hm⟩ := bind_eq_matched hm
  obtain ⟨_, c₂, _, _, h₂, hm⟩ := bind_eq_matched hm
  obtain ⟨names, c₃, _, _, h₃, hm⟩ := bind_eq_matched hm
  obtain ⟨_, c₄, _, _, h₄, hm⟩ := bind_eq_matched hm
  obtain ⟨_, c₅, _, _, h₅, hm⟩ := bind_eq_matched hm
  cases hm
  have hc₄ : Paired start limit d c₄ := hc.behind_names h₁ h₂ h₃ h₄
  obtain ⟨_, hend | hbrace⟩ := orElse_eq_matched h₅
  · exact hc₄.steady (Frame.firm_literal (by decide)).steady hend
  · obtain ⟨_, c₆, _, _, h₆, -⟩ := bind_eq_matched hbrace
    obtain ⟨g, hg⟩ := hrejects c.offset
    have hread : traitRules c = .matched () c₆ _ := bind_of_matched h₁ (bind_of_matched h₂
      (bind_of_matched h₃ (bind_of_matched h₄ h₆)))
    rw [show traitRules c = .failed g from hg] at hread
    cases hread

/-- The brackets of a statement are in pairs. -/
theorem code_of_statement {s : Stmt} {f : Failures}
    (hrules : ∀ t, t <:+ start.rest → last.rest.length ≤ t.length → Rejects traitRules t)
    (hm : (Rules.forText start.rest).statement start = .matched s last f) :
    ∃ code, Code start code last ∧ Balances [] code [] := by
  have htied : (paired start last.rest.length).Tied (start.rest.length + 1)
      (.forText start.rest) (.forText start.rest) :=
    Frame.tied_ofDepth (fun _ _ ↦ firm_traitUse_paired hrules) (Nat.le_refl _) (Nat.le_refl _)
  have hstart : Paired start last.rest.length [] start := .inr ⟨[], .stop start, .stop []⟩
  obtain hlt | hcode := hstart.steady (htied.statement []).steady_of_less hm
  · exact absurd hlt (Nat.lt_irrefl _)
  · exact hcode

/-- What closes the brackets of a statement that ends behind it is determined by its code. -/
theorem eq_closers {s : Stmt} {f : Failures} {cs : List Char}
    (hrules : ∀ t, t <:+ start.rest → last.rest.length ≤ t.length → Rejects traitRules t)
    (hm : (Rules.forText start.rest).statement start = .matched s last f)
    (hcode : Code start code target)
    (hfill : target.rest = "null".toList ++ cs ++ [';'] ++ last.rest)
    (hcs : ∀ x ∈ cs, isCloser x = true) : cs = Completion.closers code := by
  obtain ⟨whole, hwhole, hbalances⟩ := code_of_statement hrules hm
  have hplain : ∀ x ∈ "null".toList ++ cs ++ [';'], x ∉ ['\'', '"', '<', '/', '#'] := by
    have hletters : ∀ x ∈ "null".toList ++ [';'], x ∉ ['\'', '"', '<', '/', '#'] :=
      List.all_iff_forall_prop.mp (by decide)
    intro x hx
    simp only [List.mem_append] at hx
    obtain (hx | hx) | hx := hx
    · exact hletters x (List.mem_append_left _ hx)
    · rcases isCloser_iff.mp (hcs x hx) with rfl | rfl <;> decide
    · exact hletters x (List.mem_append_right _ hx)
  have hlast : target.Takes ("null".toList ++ cs ++ [';']) last := by
    obtain ⟨text, htext, -⟩ := hwhole.takes
    obtain ⟨before, hbefore, -⟩ := hcode.takes
    have hsplit : text = before ++ ("null".toList ++ cs ++ [';']) := by
      refine List.append_cancel_right (?_ : text ++ last.rest = _ ++ last.rest)
      rw [← htext.1, hbefore.1, hfill, List.append_assoc before]
    refine ⟨hfill, ?_⟩
    rw [htext.2, hsplit, byteLength_append, hbefore.2, Nat.add_assoc]
  have hsplit : whole = code ++ ("null".toList ++ cs ++ [';']) :=
    hwhole.unique (hcode.trans (.of_takes hlast hplain))
  rw [hsplit] at hbalances
  obtain ⟨due, hdue, hrest⟩ := hbalances.of_append
  rw [List.append_assoc] at hrest
  have hletters : ∀ x ∈ "null".toList, isOpener x = false ∧ isCloser x = false :=
    List.all_iff_forall_prop.mp (by decide)
  obtain ⟨left, hleft, hend⟩ := (hrest.of_others hletters).of_append
  have hnone : left = [] := by
    cases hend with
    | opener hx _ => cases hx
    | closer hx _ => cases hx
    | other _ _ hstop =>
      cases hstop
      rfl
  subst hnone
  rw [Completion.closers, hdue.closersFrom_eq (List.forall_mem_nil _), hleft.eq_due hcs]

end Grammar

end PhpInsight
