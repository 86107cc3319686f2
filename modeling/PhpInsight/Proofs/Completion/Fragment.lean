import PhpInsight.Proofs.Completion.Target
import PhpInsight.Proofs.SideBySide.Identifiers
import PhpInsight.Proofs.SideBySide.Moved
import PhpInsight.Proofs.Text.Utf8

namespace PhpInsight

open Peg Peg.Parser Text Grammar

namespace Text

theorem headBytes?_eq_some {n : Nat} {cs head : List Char} :
    headBytes? n cs = some head ↔ head <+: cs ∧ byteLength head = n := by
  constructor
  · intro h
    obtain ⟨rest, hrest, rfl⟩ := Option.map_eq_some_iff.mp h
    obtain ⟨hsplit, hlength⟩ := takeBytes_of_dropBytes? hrest
    exact ⟨⟨rest, hsplit⟩, hlength⟩
  · rintro ⟨⟨rest, rfl⟩, rfl⟩
    rw [headBytes?, dropBytes?_append, Option.map_some, Consumes.takeBytes_byteLength]

theorem headBytes?_congr {n : Nat} {cs ds : List Char}
    (h : (utf8 cs).take n = (utf8 ds).take n) : headBytes? n cs = headBytes? n ds := by
  have hsome {cs ds : List Char} (h : (utf8 cs).take n = (utf8 ds).take n) {head : List Char}
      (hhead : headBytes? n cs = some head) : headBytes? n ds = some head := by
    obtain ⟨⟨rest, rfl⟩, hlength⟩ := headBytes?_eq_some.mp hhead
    refine headBytes?_eq_some.mpr ⟨prefix_of_utf8 ((utf8 ds).drop n) ?_, hlength⟩
    have htake : (utf8 (head ++ rest)).take n = utf8 head := by
      rw [utf8, List.flatMap_append, ← hlength, ← length_utf8, utf8, List.take_left]
    rw [← htake, h, List.take_append_drop]
  refine Option.ext fun head ↦ ⟨hsome h, hsome h.symm⟩

theorem not_boundary_iff {cs : List Char} {n : Nat} :
    ¬ Boundary cs n ↔ headBytes? n cs = none := by
  rw [Option.eq_none_iff_forall_ne_some, not_iff_comm, not_forall]
  constructor
  · rintro ⟨head, hhead⟩
    obtain ⟨⟨rest, hrest⟩, hlength⟩ := headBytes?_eq_some.mp (not_ne_iff.mp hhead)
    exact ⟨head, rest, hrest.symm, hlength⟩
  · rintro ⟨head, rest, hrest, hlength⟩
    exact ⟨head, not_ne_iff.mpr (headBytes?_eq_some.mpr ⟨⟨rest, hrest.symm⟩, hlength⟩)⟩

end Text

namespace Grammar

def chainStops : List Char := [';', '\x7b', '\x7d', '=']

theorem chainBefore_stop {x : Char} (hx : x ∈ chainStops) (before chain : List Char) :
    chainBefore 0 (x :: before) chain = some chain := by
  simp only [chainStops, List.mem_cons, List.not_mem_nil, or_false] at hx
  rcases hx with rfl | rfl | rfl | rfl <;> simp [chainBefore, isChainChar, isCloser, isAsciiBlank]

/-- What stands further in front does not matter. -/
theorem chainBefore_append {x : Char} (hx : x ∈ chainStops) {depth : Nat}
    {before chain result : List Char} (more : List Char)
    (h : chainBefore depth before chain = some result) :
    chainBefore depth (before ++ x :: more) chain = some result := by
  have hhead {y : Char} (hy : y ∈ ['?', '-', ':']) {before ys : List Char}
      (he : before ++ x :: more = y :: ys) : ∃ before', before = y :: before' := by
    cases before with
    | nil =>
      obtain rfl : x = y := (List.cons.inj he).1
      simp only [chainStops, List.mem_cons, List.not_mem_nil, or_false] at hx
      rcases hx with rfl | rfl | rfl | rfl <;> exact absurd hy (by decide)
    | cons z zs => exact ⟨zs, by rw [(List.cons.inj he).1]⟩
  -- A character that is part of no operator is part of none with more in front of it.
  have hplain {c : Char} {before chain : List Char}
      (hminus : ∀ ys, c = '>' → before = '-' :: ys → False)
      (hcolon : ∀ ys, c = ':' → before = ':' :: ys → False) :
      chainBefore 0 (c :: before ++ x :: more) chain =
        if isChainChar c then chainBefore 0 (before ++ x :: more) (c :: chain)
        else if isCloser c then chainBefore 1 (before ++ x :: more) (c :: chain)
        else if isAsciiBlank c && continuesChain chain then
          chainBefore 0 (before ++ x :: more) (c :: chain)
        else some chain := by
    rw [List.cons_append, chainBefore]
    · intro ys hc he
      obtain ⟨zs, hzs⟩ := hhead (by decide) he
      exact hminus zs hc hzs
    · intro ys hc he
      obtain ⟨zs, hzs⟩ := hhead (by decide) he
      exact hminus zs hc hzs
    · intro ys hc he
      obtain ⟨zs, hzs⟩ := hhead (by decide) he
      exact hcolon zs hc hzs
  fun_induction chainBefore depth before chain with
  | case1 chain => exact (chainBefore_stop hx more chain).trans h
  | case2 => cases h
  | case3 d c before chain depth ih => simpa [chainBefore] using ih h
  | case4 before chain ih => simpa [chainBefore] using ih h
  | case5 before chain hquestion ih =>
    rw [List.cons_append, List.cons_append, chainBefore]
    · exact ih h
    · intro ys he
      obtain ⟨zs, hzs⟩ := hhead (by decide) he
      exact hquestion zs hzs
  | case6 before chain ih => simpa [chainBefore] using ih h
  | case7 c before chain _ hminus hcolon hchar ih =>
    rw [hplain hminus hcolon, if_pos hchar]
    exact ih h
  | case8 c before chain _ hminus hcolon hchar hcloser ih =>
    rw [hplain hminus hcolon, if_neg hchar, if_pos hcloser]
    exact ih h
  | case9 c before chain _ hminus hcolon hchar hcloser hblank ih =>
    rw [hplain hminus hcolon, if_neg hchar, if_neg hcloser, if_pos hblank]
    exact ih h
  | case10 c before chain _ hminus hcolon hchar hcloser hblank =>
    rw [hplain hminus hcolon, if_neg hchar, if_neg hcloser, if_neg hblank]
    exact h

namespace Frame

variable {F : Frame} {k : Nat} {d : List Char} {g g' : Rules}

theorem firm_targetHead (hg : F.Tied k g g') :
    F.Firm (k + 1) d d (Expr.Like F.toLikeness) (targetHead g) (targetHead g') :=
  (firm_primary hg).orElse (firm_constExpr firm_name)

theorem steady_missing {f f' : Nat → Expr}
    (h : ∀ n n', F.position n n' → Identifier.Like F.toLikeness [] ⟨"", ⟨n, n⟩⟩ ⟨"", ⟨n', n'⟩⟩ →
      (f n).Like F.toLikeness (f' n')) :
    F.Steady k d d (Expr.Like F.toLikeness) (do let stop ← position; return f stop)
      (do let stop ← position; return f' stop) := fun c _ hc _ ↦
  .position_bind (.pure ⟨h _ _ (F.position_near hc.1) ⟨F.text_refl _, spans_near hc.1 hc.1,
    F.quotes_taken hc.1 (.nil c)⟩, hc⟩)

theorem steady_missingVariable (f f' : Identifier → Nat → Expr)
    (h : ∀ i i' n n', i.Like F.toLikeness ['$'] i' → F.position n n' →
      (f i n).Like F.toLikeness (f' i' n')) :
    F.Steady k d d (Expr.Like F.toLikeness)
      (do
        let start ← position
        literal "$"
        let stop ← position
        return f ⟨"", ⟨start, stop⟩⟩ stop)
      (do
        let start ← position
        literal "$"
        let stop ← position
        return f' ⟨"", ⟨start, stop⟩⟩ stop) := by
  intro c c' hc hk
  have hplain : ∀ x ∈ ['$'], x ∉ marks := List.forall_mem_singleton.mpr (by decide)
  have hsign : Agree (literal "$") (literal "$") c c' fun _ _ next next' ↦
      F.At d next next' ∧ Alike (· = ['$']) c c' next next' :=
    (F.agree_literal (by decide) hc.1).imp fun _ _ next next' ⟨hnext, halike⟩ ↦
      ⟨⟨hnext, by
        obtain ⟨cs, rfl, htakes, -⟩ := halike
        exact inside_of_plain hc.2 htakes hplain⟩, halike⟩
  refine .position_bind <| hsign.bind fun _ _ next next' _ ⟨hnext, cs, hcs, htakes, _⟩ ↦
    .position_bind (.pure ⟨h _ _ _ _ ⟨F.text_refl _, spans_near hc.1 hnext.1, ?_⟩
      (F.position_near hnext.1), hnext⟩)
  obtain rfl : cs = ['$'] := hcs
  exact F.quotes_taken hc.1 htakes

theorem steady_unfinishedMember {e e' : Expr} (he : e.Like F.toLikeness e') :
    F.Steady k d d (Expr.Like F.toLikeness) (unfinishedMember e) (unfinishedMember e') := by
  refine .orElse ?_ (.orElse ?_ ?_)
  · refine firm_memberOperator.steady.bind_eq fun _ ↦ ?_
    refine steady_missing fun _ _ hstop hname ↦ ?_
    exact .mk (.propertyFetch he hname.asWritten) ⟨he.span.1, hstop⟩
  · refine (firm_literal (by decide)).steady.bind_eq fun _ ↦ ?_
    refine steady_missingVariable
      (fun i stop ↦ ⟨.staticPropertyFetch (classRefOf e) i, ⟨e.span.start, stop⟩⟩)
      (fun i stop ↦ ⟨.staticPropertyFetch (classRefOf e') i, ⟨e'.span.start, stop⟩⟩)
      fun _ _ _ _ hname hstop ↦ ?_
    exact .mk (.staticPropertyFetch (like_classRefOf he) hname) ⟨he.span.1, hstop⟩
  · refine (firm_literal (by decide)).steady.bind_eq fun _ ↦ ?_
    refine steady_missing fun _ _ hstop hname ↦ ?_
    exact .mk (.classConstFetch (like_classRefOf he) hname) ⟨he.span.1, hstop⟩

theorem steady_target (hg : F.Tied k g g') (hend : F.Sees d (oneOf .any) (oneOf .any)) :
    F.Steady k d d (Expr.Like F.toLikeness) (target g) (target g') := by
  refine .bind_eq steady_trivia fun _ ↦ ?_
  refine (firm_targetHead hg).steady.bind fun _ _ hhead ↦ ?_
  refine (steady_suffixes hhead hg).bind fun _ _ he ↦ ?_
  refine .bind (steady_optionalAfter (steady_unfinishedMember he)) fun _ _ hunfinished ↦ ?_
  refine .bind_eq steady_trivia fun _ ↦ ?_
  refine .bind_eq (.notAhead hend) fun _ ↦ .pure ?_
  cases hunfinished with
  | none => exact he
  | some h => exact h

end Frame

/-- Every position lies `n` bytes further on, and all else is the same. -/
def shifted (n : Nat) : Likeness where
  position p p' := p' = p + n
  text := Eq
  written := Eq
  quotes _ _ := True
  doc := Eq
  text_refl _ := rfl
  written_of_text h := h
  doc_none := rfl

/-- Every position lies between the two given ones. -/
def within (lo hi : Nat) : Likeness where
  position p _ := lo ≤ p ∧ p ≤ hi
  text _ _ := True
  written _ _ := True
  quotes _ _ := True
  doc _ _ := True
  text_refl _ := trivial
  written_of_text h := h
  doc_none := trivial

/-- A chain is read alike at two places. -/
theorem like_target {L : Likeness} {chain : List Char} {n n' : Nat} {t : Expr}
    (h : Moved L ⟨chain, n⟩ ⟨chain, n'⟩)
    (ht : (target (.forText chain) ⟨chain, n⟩).value? = some t) :
    ∃ t', (target (.forText chain) ⟨chain, n'⟩).value? = some t' ∧ t.Like L t' := by
  have hagree : Agree (target (.forText chain)) (target (.forText chain)) _ _ _ :=
    Frame.steady_target (tied_moved L (Nat.le_refl _) (Nat.le_refl _))
      (sees_of_unplaced (d := []) (.oneOf .any)) ⟨chain, n⟩ ⟨chain, n'⟩ ⟨h, trivial⟩
      (Nat.lt_succ_self _)
  cases hm : target (.forText chain) ⟨chain, n⟩ with
  | failed f =>
    rw [hm] at ht
    cases ht
  | matched t₀ next f =>
    rw [hm] at ht
    cases ht
    obtain ⟨t', next', f', hm', hlike, -⟩ := hagree.matched hm
    exact ⟨t', by rw [hm']; rfl, hlike⟩

def chainStart? (source : List Char) (cursor : Nat) : Option Nat := do
  let before ← headBytes? cursor source
  let chain ← chainBefore 0 before.reverse []
  return cursor - byteLength chain

theorem completionTarget_eq_some_iff {before source : List Char} {cursor : Nat} {t : Expr}
    (hbefore : headBytes? cursor source = some before) :
    completionTarget source cursor = some t ↔ ∃ chain,
      chainBefore 0 before.reverse [] = some chain ∧ (!chain.isEmpty) = true ∧
      (target (.forText chain) ⟨chain, cursor - byteLength chain⟩).value? = some t := by
  rw [completionTarget, hbefore]
  change (chainBefore 0 before.reverse [] >>= fun chain ↦ guard (!chain.isEmpty) >>= fun _ ↦
    (target (.forText chain) ⟨chain, cursor - byteLength chain⟩).value?) = some t ↔ _
  rw [Option.bind_eq_bind, Option.bind_eq_some_iff]
  refine exists_congr fun chain ↦ ?_
  refine and_congr_right fun _ ↦ ?_
  cases chain.isEmpty with
  | false => exact (and_iff_right rfl).symm
  | true => exact iff_of_false (fun h ↦ by cases h) fun h ↦ by cases h.1

theorem byteLength_chain_le {before chain : List Char}
    (h : chainBefore 0 before.reverse [] = some chain) : byteLength chain ≤ byteLength before := by
  obtain ⟨head, hsplit⟩ := chain_suffix h
  rw [List.reverse_reverse, List.append_nil] at hsplit
  rw [← hsplit, byteLength_append]
  exact Nat.le_add_left _ _

theorem target_shifted {before fragment : List Char} {t : Expr}
    (hstop : ∃ x ∈ chainStops, before.getLast? = some x)
    (h : completionTarget fragment (byteLength fragment) = some t) :
    ∃ t', completionTarget (before ++ fragment) (byteLength before + byteLength fragment) =
      some t' ∧ t.Like (shifted (byteLength before)) t' := by
  obtain ⟨x, hx, hlast⟩ := hstop
  obtain ⟨more, rfl⟩ := List.getLast?_eq_some_iff.mp hlast
  have hwhole : headBytes? (byteLength fragment) fragment = some fragment :=
    headBytes?_eq_some.mpr ⟨List.prefix_rfl, rfl⟩
  have hwhole' : headBytes? (byteLength (more ++ [x]) + byteLength fragment)
      (more ++ [x] ++ fragment) = some (more ++ [x] ++ fragment) :=
    headBytes?_eq_some.mpr ⟨List.prefix_rfl, byteLength_append _ _⟩
  obtain ⟨chain, hchain, hne, hvalue⟩ := (completionTarget_eq_some_iff hwhole).mp h
  have hchain' : chainBefore 0 (more ++ [x] ++ fragment).reverse [] = some chain := by
    have hsame := chainBefore_append hx more.reverse hchain
    rwa [← List.reverse_concat, ← List.reverse_append] at hsame
  have hmoved : Moved (shifted (byteLength (more ++ [x])))
      ⟨chain, byteLength fragment - byteLength chain⟩
      ⟨chain, byteLength (more ++ [x]) + byteLength fragment - byteLength chain⟩ := by
    have hle := byteLength_chain_le hchain
    refine ⟨rfl, fun _ _ _ ↦ ?_, fun _ _ _ _ ↦ trivial⟩
    simp only [shifted]
    omega
  obtain ⟨t', hvalue', hlike⟩ := like_target hmoved hvalue
  exact ⟨t', (completionTarget_eq_some_iff hwhole').mpr ⟨chain, hchain', hne, hvalue'⟩, hlike⟩

theorem target_congr {source source' : List Char} {cursor : Nat}
    (h : (utf8 source).take cursor = (utf8 source').take cursor) :
    completionTarget source cursor = completionTarget source' cursor := by
  rw [completionTarget, completionTarget, headBytes?_congr h]

theorem target_within {source : List Char} {cursor : Nat} {t : Expr}
    (h : completionTarget source cursor = some t) :
    ∃ start, chainStart? source cursor = some start ∧
      ∀ n ∈ (Node.expr t).walk, ∀ s ∈ n.spans,
        (start ≤ s.start ∧ s.start ≤ cursor) ∧ start ≤ s.stop ∧ s.stop ≤ cursor := by
  obtain ⟨before, hbefore, -⟩ := Option.bind_eq_some_iff.mp h
  obtain ⟨chain, hchain, -, hvalue⟩ := (completionTarget_eq_some_iff hbefore).mp h
  refine ⟨cursor - byteLength chain, ?_, ?_⟩
  · simp only [chainStart?, hbefore, hchain, Option.bind_eq_bind, Option.bind_some]
    rfl
  obtain ⟨-, hcursor⟩ := headBytes?_eq_some.mp hbefore
  have hle := byteLength_chain_le hchain
  have hmoved : Moved (within (cursor - byteLength chain) cursor)
      ⟨chain, cursor - byteLength chain⟩ ⟨chain, cursor - byteLength chain⟩ := by
    refine ⟨rfl, fun front behind hsplit ↦ ?_, fun _ _ _ _ ↦ trivial⟩
    have hlength := congrArg byteLength hsplit
    simp only [byteLength_append] at hlength
    simp only [within]
    omega
  obtain ⟨t', hvalue', hlike⟩ := like_target hmoved hvalue
  obtain rfl : t = t' := Option.some.inj (hvalue.symm.trans hvalue')
  intro n hn s hs
  have hnode : n.Like (within (cursor - byteLength chain) cursor) n :=
    List.forall₂_same.mp (Node.Like.walk (.expr hlike)) n hn
  exact List.forall₂_same.mp hnode.spans s hs

theorem no_target_inside {source : List Char} {cursor : Nat} (h : ¬ Boundary source cursor) :
    completionTarget source cursor = none := by
  rw [completionTarget, not_boundary_iff.mp h]
  rfl

/-- A target is that of the text from the start of its chain to the cursor. Behind a character that
no chain goes over it is that of the fragment, with every span so much further on. What follows the
cursor is not read, every span lies in the chain, and there is no target inside a character or
behind the end of the text. -/
theorem completionTarget_fragment (before fragment source source' : List Char) (cursor : Nat)
    (t : Expr) :
    ((∃ x ∈ chainStops, before.getLast? = some x) →
      completionTarget fragment (byteLength fragment) = some t →
      ∃ t', completionTarget (before ++ fragment) (byteLength before + byteLength fragment) =
        some t' ∧ t.Like (shifted (byteLength before)) t') ∧
    ((utf8 source).take cursor = (utf8 source').take cursor →
      completionTarget source cursor = completionTarget source' cursor) ∧
    (completionTarget source cursor = some t →
      ∃ start, chainStart? source cursor = some start ∧
        ∀ n ∈ (Node.expr t).walk, ∀ s ∈ n.spans,
          (start ≤ s.start ∧ s.start ≤ cursor) ∧ start ≤ s.stop ∧ s.stop ≤ cursor) ∧
    (¬ Boundary source cursor → completionTarget source cursor = none) :=
  ⟨target_shifted, target_congr, target_within, no_target_inside⟩

/-- A closure in an argument, of a chain that goes on over a line end. -/
theorem completionTarget_fragment_closure :
    ∃ t t' start, completionTarget "$a?->é(fn($b) => [$b, C::D])\n  ->".toList 34 = some t ∧
      completionTarget "<?php f();$a?->é(fn($b) => [$b, C::D])\n  ->".toList 44 = some t' ∧
      t.Like (shifted 10) t' ∧
      completionTarget "<?php f();$a?->é(fn($b) => [$b, C::D])\n  ->g()".toList 44 = some t' ∧
      chainStart? "<?php f();$a?->é(fn($b) => [$b, C::D])\n  ->".toList 44 = some start ∧
      (∀ n ∈ (Node.expr t').walk, ∀ s ∈ n.spans,
        (start ≤ s.start ∧ s.start ≤ 44) ∧ start ≤ s.stop ∧ s.stop ≤ 44) ∧
      completionTarget "$é->".toList 2 = none := by
  have hbefore : byteLength "<?php f();".toList = 10 := by decide +kernel
  have hfragment : byteLength "$a?->é(fn($b) => [$b, C::D])\n  ->".toList = 34 := by
    decide +kernel
  have happend : "<?php f();".toList ++ "$a?->é(fn($b) => [$b, C::D])\n  ->".toList =
      "<?php f();$a?->é(fn($b) => [$b, C::D])\n  ->".toList := by
    decide +kernel
  obtain ⟨t, ht⟩ := Option.isSome_iff_exists.mp (show
    (completionTarget "$a?->é(fn($b) => [$b, C::D])\n  ->".toList 34).isSome = true by
      decide +kernel)
  obtain ⟨hshift, -⟩ := completionTarget_fragment "<?php f();".toList
    "$a?->é(fn($b) => [$b, C::D])\n  ->".toList [] [] 0 t
  rw [happend, hbefore, hfragment] at hshift
  obtain ⟨t', ht', hlike⟩ := hshift ⟨';', by decide, by decide +kernel⟩ ht
  obtain ⟨-, hsame, hwithin, -⟩ := completionTarget_fragment [] []
    "<?php f();$a?->é(fn($b) => [$b, C::D])\n  ->".toList
    "<?php f();$a?->é(fn($b) => [$b, C::D])\n  ->g()".toList 44 t'
  obtain ⟨start, hstart, hspans⟩ := hwithin ht'
  obtain ⟨-, -, -, hinside⟩ := completionTarget_fragment [] [] "$é->".toList [] 2 t
  have hsame' := hsame (by decide +kernel)
  exact ⟨t, t', start, ht, ht', hlike, hsame' ▸ ht', hstart, hspans,
    hinside (not_boundary_iff.mpr (by decide +kernel))⟩

end Grammar

end PhpInsight
