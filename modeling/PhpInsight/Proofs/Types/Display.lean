import PhpInsight.Proofs.Span.Family
import PhpInsight.Proofs.Types.Path

namespace PhpInsight

open Peg Text

theorem beyond_ascii_of_isBlank {ch : Char} (hword : isWordChar ch = true)
    (hblank : isBlank ch = true) : 0x80 ≤ ch.toNat := by
  by_contra hlt
  have hascii : ∀ n < 0x80, isWordChar (Char.ofNat n) = true → isBlank (Char.ofNat n) = false := by
    decide +kernel
  have hchar := hascii ch.toNat (Nat.lt_of_not_le hlt)
  rw [Char.ofNat_toNat] at hchar
  rw [hchar hword] at hblank
  cases hblank

namespace Grammar

variable {c next : Cursor} {n : Name} {f : Failures}

theorem gives_name_kind : Parser.Gives name fun n ↦ ∃ full, n.kind = Name.kindOf full n.parts :=
  .after fun _ ↦ .after fun full ↦ .after fun _ ↦ .after fun _ ↦ .after fun _ ↦ .pure ⟨full, rfl⟩

theorem segmented_of_name (h : name c = .matched n next f) : n.Segmented := by
  have hwritten := gives_name _ _ _ _ h
  exact ⟨hwritten.ne_nil, fun p hp ↦ (hwritten.words p hp).isSegment, gives_name_kind _ _ _ _ h⟩

theorem blank_of_name (h : name c = .matched n next f) {ch : Char} (hch : ch ∈ n.display.toList)
    (hblank : isBlank ch = true) : 0x80 ≤ ch.toNat := by
  have hchars := (gives_name _ _ _ _ h).isPath.chars
  have hjoined : ch = '\\' ∨ ch ∈ n.joined.toList := by
    rw [Name.display] at hch
    split at hch
    · simpa using hch
    · exact .inr hch
  have hslash : ch ≠ '\\' := by
    rintro rfl
    revert hblank
    decide
  have hword := (hchars ch (hjoined.resolve_left hslash)).resolve_left hslash
  exact beyond_ascii_of_isBlank hword hblank

/-- A name that the grammar reads is read again from its text exactly if no blank starts or ends the
text, and ASCII has no such blank. The class that it means in a file, the keywords aside, is meant
by its full name behind a backslash in every document, exactly if no blank ends the full name. -/
theorem name_reread (h : name c = .matched n next f) :
    (∀ span, Name.parse? n.display span = some { n with span := span } ↔
        Trimmed n.display.toList) ∧
      (∀ ch ∈ n.display.toList, isBlank ch = true → 0x80 ≤ ch.toNat) ∧
      ∀ id uri source version d, Document.parse id uri source version = .ok d →
        Document.isClassKeyword n = false →
          ∃ q, d.resolveName? n = some q ∧ ∀ d' : Document,
            d'.resolveText? ("\\" ++ q) = some q ↔
              ∀ ch ∈ q.toList.getLast?, isBlank ch = false := by
  refine ⟨Name.parse?_display_iff (segmented_of_name h), fun ch ↦ blank_of_name h, ?_⟩
  intro id uri source version d hd hkeyword
  have hpath := Document.isPath_qualify (Document.written_of_parse hd) (gives_name _ _ _ _ h)
  exact ⟨d.qualify n, Document.resolveName?_of_not_keyword hkeyword,
    fun d' ↦ d'.resolveText?_segmented_iff hpath.isSegmented⟩

def nameOf? (text : String) : Option Name := (name ⟨text.toList, 0⟩).value?

theorem exists_read_of_nameOf? {text : String} (h : nameOf? text = some n) :
    ∃ next f, name ⟨text.toList, 0⟩ = .matched n next f := by
  unfold nameOf? at h
  cases hread : name ⟨text.toList, 0⟩ with
  | failed f =>
    rw [hread] at h
    cases h
  | matched m next f =>
    rw [hread] at h
    cases h
    exact ⟨next, f, rfl⟩

theorem name_reread_imported :
    ∃ n next f d, name ⟨"Log\\Level".toList, 0⟩ = .matched n next f ∧
      Document.parse 0 "a.php" "<?php namespace App; use Psr\\Log;".toList 0 = .ok d ∧
      Document.isClassKeyword n = false ∧
      Name.parse? n.display default = some ⟨n.parts, n.kind, default⟩ ∧
      d.resolveName? n = some "Psr\\Log\\Level" ∧
      ∀ d' : Document, d'.resolveText? "\\Psr\\Log\\Level" = some "Psr\\Log\\Level" := by
  have hname : (nameOf? "Log\\Level").map (fun n ↦ (n.display, Document.isClassKeyword n)) =
      some ("Log\\Level", false) := by decide +kernel
  obtain ⟨n, hn, hname⟩ := Option.map_eq_some_iff.mp hname
  obtain ⟨hdisplay, hkeyword⟩ := Prod.mk.inj hname
  obtain ⟨next, f, hread⟩ := exists_read_of_nameOf? hn
  have hfile : (Document.parse 0 "a.php" "<?php namespace App; use Psr\\Log;".toList 0).toOption.map
      (fun d ↦ (nameOf? "Log\\Level").bind d.resolveName?) = some (some "Psr\\Log\\Level") := by
    decide +kernel
  obtain ⟨d, hd, hclass⟩ := Option.map_eq_some_iff.mp hfile
  rw [hn, Option.bind_some] at hclass
  have hparse := Document.parse_of_toOption hd
  have htrim : Trimmed n.display.toList := by
    rw [hdisplay]
    decide +kernel
  obtain ⟨q, hq, hsame⟩ := (name_reread hread).2.2 _ _ _ _ d hparse hkeyword
  rw [hclass] at hq
  cases hq
  have hlast := (by decide +kernel : Trimmed "Psr\\Log\\Level".toList).last
  exact ⟨n, next, f, d, hread, hparse, hkeyword, ((name_reread hread).1 default).mpr htrim, hclass,
    fun d' ↦ (hsame d').mpr hlast⟩

/-- A name that ends in a no-break space loses it, and so does the class that is imported under
it. -/
theorem name_reread_shortened :
    ∃ n next f d, name ⟨"Foo\u00A0".toList, 0⟩ = .matched n next f ∧ n.parts = ["Foo\u00A0"] ∧
      (Name.parse? n.display default).map Name.parts = some ["Foo"] ∧
      Document.parse 0 "a.php" "<?php use Lib\\Foo\u00A0;".toList 0 = .ok d ∧
      Document.isClassKeyword n = false ∧ d.resolveName? n = some "Lib\\Foo\u00A0" ∧
      d.resolveText? ("\\" ++ "Lib\\Foo\u00A0") = some "Lib\\Foo" := by
  have hname : (nameOf? "Foo\u00A0").map (fun n ↦ (n.parts,
      (Name.parse? n.display default).map Name.parts, Document.isClassKeyword n)) =
      some (["Foo\u00A0"], some ["Foo"], false) := by decide +kernel
  obtain ⟨n, hn, hname⟩ := Option.map_eq_some_iff.mp hname
  simp only [Prod.mk.injEq] at hname
  obtain ⟨hparts, hagain, hkeyword⟩ := hname
  obtain ⟨next, f, hread⟩ := exists_read_of_nameOf? hn
  have hfile : (Document.parse 0 "a.php" "<?php use Lib\\Foo\u00A0;".toList 0).toOption.map
      (fun d ↦ ((nameOf? "Foo\u00A0").bind d.resolveName?,
        d.resolveText? ("\\" ++ "Lib\\Foo\u00A0"))) =
      some (some "Lib\\Foo\u00A0", some "Lib\\Foo") := by decide +kernel
  obtain ⟨d, hd, hfile⟩ := Option.map_eq_some_iff.mp hfile
  obtain ⟨hclass, hlost⟩ := Prod.mk.inj hfile
  rw [hn, Option.bind_some] at hclass
  exact ⟨n, next, f, d, hread, hparts, hagain, Document.parse_of_toOption hd, hkeyword, hclass,
    hlost⟩

end Grammar

end PhpInsight
