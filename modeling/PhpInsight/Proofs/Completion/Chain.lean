import PhpInsight.Proofs.Completion.Fragment
import PhpInsight.Proofs.Completion.Scan
import PhpInsight.Proofs.Lines.Columns
import PhpInsight.Proofs.Span.Quoting

namespace PhpInsight.Grammar.Scan

open Text

theorem codes_append (xs ys : List UInt8) : codes (xs ++ ys) = codes xs ++ codes ys :=
  List.map_append

theorem utf8Size_eq_one {c : Char} (h : c.toNat < 0x80) : c.utf8Size = 1 :=
  Char.utf8Size_eq_one_iff.mpr (UInt32.le_iff_toNat_le.mpr (Nat.le_of_lt_succ h))

theorem codes_ascii {c : Char} (h : c.toNat < 0x80) : codes (String.utf8EncodeChar c) = [c] := by
  have hbyte : Char.ofUInt8 c.val.toUInt8 = c := by
    refine Char.ext (UInt32.toNat_inj.mp ?_)
    change c.toNat % 256 = c.toNat
    exact Nat.mod_eq_of_lt (by omega)
  rw [String.utf8EncodeChar_eq_singleton (utf8Size_eq_one h), codes, List.map_singleton, hbyte]

theorem le_of_mem_codes {c x : Char} (h : 0x80 ≤ c.toNat)
    (hx : x ∈ codes (String.utf8EncodeChar c)) : 0x80 ≤ x.toNat := by
  obtain ⟨b, hb, rfl⟩ := List.mem_map.mp hx
  have hbyte (n : Nat) (hle : 128 ≤ n) (hlt : n < 256) : 128 ≤ (UInt8.ofNat n).toNat := by
    rwa [UInt8.toNat_ofNat', Nat.mod_eq_of_lt hlt]
  have hlarge : ¬ c.val.toNat ≤ 127 := Nat.not_le_of_lt h
  change 128 ≤ b.toNat
  simp only [String.utf8EncodeChar, hlarge, if_false] at hb
  split_ifs at hb <;> simp only [List.mem_cons, List.not_mem_nil, or_false] at hb
  · rcases hb with rfl | rfl <;> exact hbyte _ (by omega) (by omega)
  · rcases hb with rfl | rfl | rfl <;> exact hbyte _ (by omega) (by omega)
  · rcases hb with rfl | rfl | rfl | rfl <;> exact hbyte _ (by omega) (by omega)

theorem forall_mem_codes {p : Char → Bool} {c : Char} (hc : p c = true)
    (hlarge : ∀ x : Char, 0x80 ≤ x.toNat → p x = true) :
    ∀ x ∈ codes (String.utf8EncodeChar c), p x = true := by
  rcases Nat.lt_or_ge c.toNat 0x80 with hsmall | hle
  · rw [codes_ascii hsmall]
    exact List.forall_mem_singleton.mpr hc
  · exact fun x hx ↦ hlarge x (le_of_mem_codes hle hx)

theorem exists_codes (c : Char) : ∃ x xs, codes (String.utf8EncodeChar c) = x :: xs := by
  refine List.exists_cons_of_ne_nil fun h ↦ ?_
  exact String.utf8EncodeChar_ne_nil (List.map_eq_nil_iff.mp h)

theorem startsWith_codes {ts : List Char} (hts : ∀ t ∈ ts, t.toNat < 0x80) (cs : List Char) :
    startsWith ts (codes (utf8 cs)) = startsWith ts cs := by
  induction ts generalizing cs with
  | nil => rfl
  | cons t ts ih =>
    obtain ⟨ht, hts⟩ := List.forall_mem_cons.mp hts
    cases cs with
    | nil => rfl
    | cons c cs =>
      rw [utf8_cons, codes_append]
      rcases Nat.lt_or_ge c.toNat 0x80 with hsmall | hle
      · rw [codes_ascii hsmall]
        change (t == c && startsWith ts (codes (utf8 cs))) = (t == c && startsWith ts cs)
        rw [ih hts]
      · obtain ⟨x, xs, hxs⟩ := exists_codes c
        have hx : 0x80 ≤ x.toNat := le_of_mem_codes hle (hxs ▸ List.mem_cons_self)
        have hne : (t == x) = false := beq_false_of_ne (by rintro rfl; omega)
        have hne' : (t == c) = false := beq_false_of_ne (by rintro rfl; omega)
        rw [hxs]
        change (t == x && startsWith ts _) = (t == c && startsWith ts cs)
        rw [hne, hne', Bool.false_and, Bool.false_and]

theorem dropWhile_codes {p : Char → Bool} (hp : ∀ x, p x = true → x.toNat < 0x80)
    (cs : List Char) : (codes (utf8 cs)).dropWhile p = codes (utf8 (cs.dropWhile p)) := by
  induction cs with
  | nil => rfl
  | cons c cs ih =>
    rw [utf8_cons, codes_append]
    cases hc : p c with
    | true =>
      rw [codes_ascii (hp c hc), List.singleton_append, List.dropWhile_cons_of_pos hc, ih,
        List.dropWhile_cons_of_pos hc]
    | false =>
      have hcodes : ∀ x ∈ codes (String.utf8EncodeChar c), (!p x) = true := by
        refine forall_mem_codes (by simp [hc]) fun x hx ↦ ?_
        rw [Bool.not_eq_true']
        exact Bool.eq_false_iff.mpr fun hpx ↦ absurd (hp x hpx) (Nat.not_lt_of_le hx)
      obtain ⟨x, xs, hxs⟩ := exists_codes c
      have hx : p x = false := by simpa using hcodes x (hxs ▸ List.mem_cons_self)
      rw [hxs, List.cons_append, List.dropWhile_cons_of_neg (by simp [hx]),
        List.dropWhile_cons_of_neg (by simp [hc]), utf8_cons, codes_append, hxs, List.cons_append]

theorem toNat_lt_of_isAsciiBlank {c : Char} (h : isAsciiBlank c = true) : c.toNat < 0x80 := by
  simp only [isAsciiBlank, Bool.or_eq_true, decide_eq_true_eq] at h
  rcases h with (((rfl | rfl) | rfl) | rfl) | rfl <;> decide

theorem continuesChain_codes (cs : List Char) :
    continuesChain (codes (utf8 cs)) = continuesChain cs := by
  simp only [continuesChain, dropWhile_codes fun x ↦ toNat_lt_of_isAsciiBlank]
  rw [startsWith_codes (by simp), startsWith_codes (by simp), startsWith_codes (by simp)]

theorem toNat_lt_of_not_isChainChar {c : Char} (h : isChainChar c = false) : c.toNat < 0x80 := by
  refine Nat.lt_of_not_le fun hle ↦ ?_
  simp [isChainChar, hle] at h

theorem isBracket_eq_false_of_le {c : Char} (h : 0x80 ≤ c.toNat) : isBracket c = false := by
  refine isBracket_of_isChainChar ?_
  simp [isChainChar, h]

theorem isChainChar_of_isBracket {c : Char} (h : isBracket c = true) : isChainChar c = false := by
  refine Bool.eq_false_iff.mpr fun hname ↦ ?_
  rw [isBracket_of_isChainChar hname] at h
  cases h

theorem byteLength_reverse (cs : List Char) : byteLength cs.reverse = byteLength cs := by
  induction cs with
  | nil => rfl
  | cons c cs ih => simp [byteLength, ih, Nat.add_comm]

variable {source before chain : List Char} {bytes : List UInt8} {c x : Char}
  {index depth i n : Nat} {result : Option Nat}

theorem codes_drop (h : before.reverse ++ chain = source) :
    codes ((utf8 source).drop (byteLength before)) = codes (utf8 chain) := by
  rw [← h, utf8_append, ← byteLength_reverse, ← length_utf8, List.drop_left]

theorem codeAt?_of_lt (h : before.reverse ++ c :: chain = source) (hi : i < c.utf8Size) :
    ∃ x ∈ codes (String.utf8EncodeChar c),
      codeAt? (utf8 source) (byteLength before + i) = some x := by
  have hlength : (codes (utf8 before.reverse)).length = byteLength before := by
    rw [codes, List.length_map, length_utf8, byteLength_reverse]
  have hbound : i < (codes (String.utf8EncodeChar c)).length := by
    rwa [codes, List.length_map, String.length_utf8EncodeChar]
  refine ⟨_, List.getElem_mem hbound, ?_⟩
  rw [codeAt?, ← h, utf8_append, utf8_cons, codes_append, codes_append,
    List.getElem?_append_right (by omega), hlength, Nat.add_sub_cancel_left,
    List.getElem?_append_left hbound, List.getElem?_eq_getElem hbound]

theorem codeAt?_ascii (h : before.reverse ++ c :: chain = source) (hc : c.toNat < 0x80) :
    codeAt? (utf8 source) (byteLength before) = some c := by
  obtain ⟨x, hx, hcode⟩ := codeAt?_of_lt (i := 0) h c.utf8Size_pos
  rw [codes_ascii hc, List.mem_singleton] at hx
  rwa [hx] at hcode

theorem codeBefore?_ascii (h : before.reverse ++ chain = source) (hx : x.toNat < 0x80) :
    codeBefore? (utf8 source) (byteLength before) = some x ↔ before.head? = some x := by
  cases before with
  | nil => simp [byteLength, codeBefore?]
  | cons c before =>
    obtain ⟨n, hn⟩ := Nat.exists_eq_add_one.mpr c.utf8Size_pos
    have h' : before.reverse ++ c :: chain = source := by simpa using h
    obtain ⟨y, hy, hcode⟩ := codeAt?_of_lt (i := n) h' (by omega)
    have hbefore : codeBefore? (utf8 source) (byteLength (c :: before)) = some y := by
      rw [byteLength, hn, Nat.add_comm]
      exact hcode
    rw [hbefore, List.head?_cons, Option.some_inj, Option.some_inj]
    rcases Nat.lt_or_ge c.toNat 0x80 with hc | hc
    · rw [codes_ascii hc, List.mem_singleton] at hy
      rw [hy]
    · have hle := le_of_mem_codes hc hy
      exact iff_of_false (by rintro rfl; omega) (by rintro rfl; omega)

theorem Ends.back (h : Ends bytes index result)
    (hname : ∀ i, i < n → ∃ x, codeAt? bytes (index + i) = some x ∧ isChainChar x = true) :
    Ends bytes (index + n) result := by
  induction n with
  | zero => exact h
  | succ n ih =>
    obtain ⟨x, hx, hchain⟩ := hname n (Nat.lt_succ_self n)
    exact .goto (step_chain hx hchain) (ih fun i hi ↦ hname i (Nat.lt_succ_of_lt hi))

theorem openFrom_back
    (hplain : ∀ i, i < n → ∃ x, codeAt? bytes (index + i) = some x ∧ isBracket x = false) :
    openFrom bytes (index + n) depth = openFrom bytes index depth := by
  induction n with
  | zero => rfl
  | succ n ih =>
    obtain ⟨x, hx, hbracket⟩ := hplain n (Nat.lt_succ_self n)
    rw [← Nat.add_assoc, openFrom_other hx hbracket]
    exact ih fun i hi ↦ hplain i (Nat.lt_succ_of_lt hi)

/-- What a scan gives from a place on that is in `depth` groups. -/
def EndsIn (bytes : List UInt8) : (depth index : Nat) → (result : Option Nat) → Prop
  | 0, index, result => Ends bytes index result
  | depth + 1, index, result => ∃ found, openFrom bytes index (depth + 1) = .ok found ∧
    (∀ left ∈ found, Ends bytes left result) ∧ (found = none → result = none)

theorem byteLength_cons_ascii (hc : c.toNat < 0x80) :
    byteLength (c :: before) = byteLength before + 1 := by
  rw [byteLength, utf8Size_eq_one hc, Nat.add_comm]

theorem Ends.name (h : before.reverse ++ c :: chain = source) (hc : isChainChar c = true)
    (hrest : Ends (utf8 source) (byteLength before) result) :
    Ends (utf8 source) (byteLength (c :: before)) result := by
  rw [byteLength, Nat.add_comm]
  refine hrest.back fun i hi ↦ ?_
  obtain ⟨x, hx, hcode⟩ := codeAt?_of_lt h hi
  exact ⟨x, hcode, forall_mem_codes hc (fun y hy ↦ by simp [isChainChar, hy]) x hx⟩

theorem openFrom_plain (h : before.reverse ++ c :: chain = source) (hc : isBracket c = false) :
    openFrom (utf8 source) (byteLength (c :: before)) depth =
      openFrom (utf8 source) (byteLength before) depth := by
  rw [byteLength, Nat.add_comm]
  refine openFrom_back fun i hi ↦ ?_
  obtain ⟨x, hx, hcode⟩ := codeAt?_of_lt h hi
  have hplain := forall_mem_codes (p := (!isBracket ·)) (by simp [hc])
    (fun y hy ↦ by simp [isBracket_eq_false_of_le hy]) x hx
  exact ⟨x, hcode, by simpa using hplain⟩

theorem endsIn_group (h : before.reverse ++ c :: chain = source)
    (hrest : EndsIn (utf8 source) (if isCloser c then depth + 2 else if isOpener c then depth
      else depth + 1) (byteLength before) result) :
    EndsIn (utf8 source) (depth + 1) (byteLength (c :: before)) result := by
  cases hbracket : isBracket c with
  | false =>
    obtain ⟨hopener, hcloser⟩ := Bool.or_eq_false_iff.mp hbracket
    rw [hcloser, hopener] at hrest
    obtain ⟨found, hfound, hends⟩ := hrest
    exact ⟨found, (openFrom_plain h hbracket).trans hfound, hends⟩
  | true =>
    have hsmall := toNat_lt_of_not_isChainChar (isChainChar_of_isBracket hbracket)
    have hc := codeAt?_ascii h hsmall
    rw [byteLength_cons_ascii hsmall]
    cases hcloser : isCloser c with
    | true =>
      rw [hcloser] at hrest
      obtain ⟨found, hfound, hends⟩ := hrest
      exact ⟨found, (openFrom_closer hc hcloser).trans hfound, hends⟩
    | false =>
      have hopener : isOpener c = true := by simpa [isBracket, hcloser] using hbracket
      rw [hcloser, hopener] at hrest
      cases depth with
      | zero =>
        refine ⟨some (byteLength before), openFrom_opener hc hopener hcloser, ?_, ?_⟩
        · rintro left ⟨⟩
          exact hrest
        · rintro ⟨⟩
      | succ d =>
        obtain ⟨found, hfound, hends⟩ := hrest
        exact ⟨found, (openFrom_opener hc hopener hcloser).trans hfound, hends⟩

theorem Ends.group (h : before.reverse ++ c :: chain = source) (hc : isCloser c = true)
    (hrest : EndsIn (utf8 source) 1 (byteLength before) result) :
    Ends (utf8 source) (byteLength (c :: before)) result := by
  have hbracket : isBracket c = true := by simp [isBracket, hc]
  have hsmall := toNat_lt_of_not_isChainChar (isChainChar_of_isBracket hbracket)
  have hmove := step_closer (codeAt?_ascii h hsmall) hc
  obtain ⟨found, hfound, hends, hnone⟩ := hrest
  rw [byteLength_cons_ascii hsmall]
  rw [hfound] at hmove
  cases found with
  | none =>
    rw [hnone rfl]
    exact .unmatched hmove
  | some left => exact .goto hmove (hends left rfl)

theorem Ends.nullsafe (h : before.reverse ++ '?' :: '-' :: '>' :: chain = source)
    (hrest : Ends (utf8 source) (byteLength before) result) :
    Ends (utf8 source) (byteLength ('>' :: '-' :: '?' :: before)) result := by
  have hmiddle : ('?' :: before).reverse ++ '-' :: '>' :: chain = source := by simpa using h
  have hlast : ('-' :: '?' :: before).reverse ++ '>' :: chain = source := by simpa using h
  have hcode := codeAt?_ascii h (by decide)
  have hcode' := codeAt?_ascii hmiddle (by decide)
  have hcode'' := codeAt?_ascii hlast (by decide)
  have hmark : '?'.toNat < 0x80 := by decide
  have hminus : '-'.toNat < 0x80 := by decide
  have hangle : '>'.toNat < 0x80 := by decide
  rw [byteLength_cons_ascii hmark] at hcode'
  rw [byteLength_cons_ascii hminus, byteLength_cons_ascii hmark] at hcode''
  rw [byteLength_cons_ascii hangle, byteLength_cons_ascii hminus, byteLength_cons_ascii hmark]
  exact .goto (step_nullsafe hcode'' hcode' hcode) hrest

theorem Ends.arrow (h : before.reverse ++ '-' :: '>' :: chain = source)
    (hfront : before.head? ≠ some '?') (hrest : Ends (utf8 source) (byteLength before) result) :
    Ends (utf8 source) (byteLength ('>' :: '-' :: before)) result := by
  have hlast : ('-' :: before).reverse ++ '>' :: chain = source := by simpa using h
  have hcode := codeAt?_ascii h (by decide)
  have hcode' := codeAt?_ascii hlast (by decide)
  have hbefore : codeBefore? (utf8 source) (byteLength before) ≠ some '?' :=
    fun hmark ↦ hfront ((codeBefore?_ascii h (by decide)).mp hmark)
  have hminus : '-'.toNat < 0x80 := by decide
  have hangle : '>'.toNat < 0x80 := by decide
  rw [byteLength_cons_ascii hminus] at hcode'
  rw [byteLength_cons_ascii hangle, byteLength_cons_ascii hminus]
  exact .goto (step_arrow hcode' hcode hbefore) hrest

theorem Ends.colons (h : before.reverse ++ ':' :: ':' :: chain = source)
    (hrest : Ends (utf8 source) (byteLength before) result) :
    Ends (utf8 source) (byteLength (':' :: ':' :: before)) result := by
  have hlast : (':' :: before).reverse ++ ':' :: chain = source := by simpa using h
  have hcode := codeAt?_ascii h (by decide)
  have hcode' := codeAt?_ascii hlast (by decide)
  have hcolon : ':'.toNat < 0x80 := by decide
  rw [byteLength_cons_ascii hcolon] at hcode'
  rw [byteLength_cons_ascii hcolon, byteLength_cons_ascii hcolon]
  exact .goto (step_colons hcode' hcode) hrest

theorem step_outside (h : before.reverse ++ c :: chain = source) (hname : isChainChar c = false)
    (harrow : c = '>' → before.head? ≠ some '-') (hcolons : c = ':' → before.head? ≠ some ':')
    (hcloser : isCloser c = false) :
    step (utf8 source) (byteLength (c :: before)) =
      if isAsciiBlank c && continuesChain chain then .ok (.goto (byteLength before))
      else .ok .stop := by
  have hsmall := toNat_lt_of_not_isChainChar hname
  have h' : (c :: before).reverse ++ chain = source := by simpa using h
  have hmove := step_other (codeAt?_ascii h hsmall) hname
    (fun hc hbefore ↦ harrow hc ((codeBefore?_ascii h (by decide)).mp hbefore))
    fun hc hbefore ↦ hcolons hc ((codeBefore?_ascii h (by decide)).mp hbefore)
  rwa [hcloser, if_neg Bool.false_ne_true, ← byteLength_cons_ascii hsmall, codes_drop h',
    continuesChain_codes] at hmove

theorem endsIn_chainBefore (h : before.reverse ++ chain = source) :
    EndsIn (utf8 source) depth (byteLength before)
      ((chainBefore depth before chain).map fun cs ↦ byteLength source - byteLength cs) := by
  have hhead {x : Char} {cs : List Char} (hne : ∀ ys, cs = x :: ys → False) :
      cs.head? ≠ some x := by
    intro hx
    obtain ⟨ys, hys⟩ := List.head?_eq_some_iff.mp hx
    exact hne ys hys
  fun_induction chainBefore depth before chain with
  | case1 chain =>
    obtain rfl : chain = source := h
    rw [Option.map_some, Nat.sub_self]
    exact Ends.stop rfl
  | case2 d chain =>
    refine ⟨none, rfl, ?_, fun _ ↦ rfl⟩
    rintro left ⟨⟩
  | case3 d c before chain depth ih =>
    have h' : before.reverse ++ c :: chain = source := by simpa using h
    exact endsIn_group h' (ih h')
  | case4 before chain ih =>
    have h' : before.reverse ++ '?' :: '-' :: '>' :: chain = source := by simpa using h
    exact .nullsafe h' (ih h')
  | case5 before chain hmark ih =>
    have h' : before.reverse ++ '-' :: '>' :: chain = source := by simpa using h
    exact .arrow h' (hhead hmark) (ih h')
  | case6 before chain ih =>
    have h' : before.reverse ++ ':' :: ':' :: chain = source := by simpa using h
    exact .colons h' (ih h')
  | case7 c before chain _ _ _ hname ih =>
    have h' : before.reverse ++ c :: chain = source := by simpa using h
    exact .name h' hname (ih h')
  | case8 c before chain _ _ _ _ hcloser ih =>
    have h' : before.reverse ++ c :: chain = source := by simpa using h
    exact .group h' hcloser (ih h')
  | case9 c before chain _ harrow hcolons hname hcloser hblank ih =>
    have h' : before.reverse ++ c :: chain = source := by simpa using h
    have hmove := step_outside h' (Bool.eq_false_iff.mpr hname)
      (fun hc ↦ hhead fun ys ↦ harrow ys hc) (fun hc ↦ hhead fun ys ↦ hcolons ys hc)
      (Bool.eq_false_iff.mpr hcloser)
    rw [if_pos hblank] at hmove
    exact Ends.goto hmove (ih h')
  | case10 c before chain _ harrow hcolons hname hcloser hblank =>
    have h' : before.reverse ++ c :: chain = source := by simpa using h
    have hmove := step_outside h' (Bool.eq_false_iff.mpr hname)
      (fun hc ↦ hhead fun ys ↦ harrow ys hc) (fun hc ↦ hhead fun ys ↦ hcolons ys hc)
      (Bool.eq_false_iff.mpr hcloser)
    rw [if_neg hblank] at hmove
    have hlength : byteLength source - byteLength chain = byteLength (c :: before) := by
      rw [← h, byteLength_append, byteLength_reverse, Nat.add_sub_cancel]
    rw [Option.map_some, hlength]
    exact Ends.stop hmove

variable {cursor : Nat}

/-- Behind a byte of a character of one byte no other character is open. -/
theorem boundary_of_codeAt? (h : codeAt? (utf8 source) i = some x) (hx : x.toNat < 0x80) :
    Boundary source (i + 1) := by
  induction source generalizing i with
  | nil => cases h
  | cons c cs ih =>
    have hlength : (codes (String.utf8EncodeChar c)).length = c.utf8Size := by
      rw [codes, List.length_map, String.length_utf8EncodeChar]
    rw [codeAt?, utf8_cons, codes_append] at h
    rcases Nat.lt_or_ge i c.utf8Size with hi | hi
    · rw [List.getElem?_append_left (hlength ▸ hi)] at h
      have hsmall : c.toNat < 0x80 :=
        Nat.lt_of_not_le fun hle ↦ absurd (le_of_mem_codes hle (List.mem_of_getElem? h)) (by omega)
      have hsize := utf8Size_eq_one hsmall
      refine ⟨[c], cs, rfl, ?_⟩
      rw [byteLength, byteLength]
      omega
    · rw [List.getElem?_append_right (hlength ▸ hi), hlength] at h
      obtain ⟨before, after, rfl, hbefore⟩ := ih h
      refine ⟨c :: before, after, rfl, ?_⟩
      rw [byteLength]
      omega

theorem Ends.boundary (h : Ends ((utf8 source).take cursor) index result)
    (hle : index ≤ ((utf8 source).take cursor).length) :
    ∀ start ∈ result, Boundary source start := by
  intro start hstart
  obtain rfl | ⟨i, c, rfl, hc, hname⟩ := h.behind hle start hstart
  · exact ⟨[], source, rfl, rfl⟩
  · have hi : i < cursor := Nat.lt_of_lt_of_le (lt_length_of_codeAt? hc) (List.length_take_le _ _)
    rw [codeAt?, codes, List.map_take, List.getElem?_take_of_lt hi] at hc
    exact boundary_of_codeAt? hc (toNat_lt_of_not_isChainChar hname)

theorem slice?_eq_none (h : ¬ Boundary source cursor) (start : Nat) :
    slice? start cursor source = none := by
  refine Option.eq_none_iff_forall_ne_some.mpr fun text htext ↦ h ?_
  obtain ⟨before, after, hsplit, -, hlength⟩ := eq_of_slice? htext
  exact ⟨before ++ text, after, by rw [hsplit, List.append_assoc], hlength⟩

theorem Ends.slice (h : Ends ((utf8 source).take cursor) cursor result)
    (hle : cursor ≤ ((utf8 source).take cursor).length) :
    ((headBytes? cursor source).bind fun before ↦ chainBefore 0 before.reverse []) =
      result.bind fun start ↦ slice? start cursor source := by
  by_cases hcursor : Boundary source cursor
  · obtain ⟨before, after, rfl, rfl⟩ := hcursor
    have htake : (utf8 (before ++ after)).take (byteLength before) = utf8 before := by
      rw [utf8_append, ← length_utf8, List.take_left]
    have hbefore : headBytes? (byteLength before) (before ++ after) = some before :=
      headBytes?_eq_some.mpr ⟨List.prefix_append _ _, rfl⟩
    have hsplit : before.reverse.reverse ++ [] = before := by simp
    have hends : EndsIn (utf8 before) 0 (byteLength before.reverse)
        ((chainBefore 0 before.reverse []).map fun cs ↦ byteLength before - byteLength cs) :=
      endsIn_chainBefore hsplit
    rw [byteLength_reverse] at hends
    rw [htake] at h hle
    have hrun := h.run hle (Nat.lt_succ_self _)
    obtain rfl := Except.ok.inj (hrun.symm.trans (Ends.run hends hle (Nat.lt_succ_self _)))
    rw [hbefore, Option.bind_some]
    cases hchain : chainBefore 0 before.reverse [] with
    | none => rfl
    | some chain =>
      obtain ⟨front, hfront⟩ := chain_suffix hchain
      rw [List.reverse_reverse, List.append_nil] at hfront
      subst hfront
      rw [Option.map_some, Option.bind_some, byteLength_append, Nat.add_sub_cancel,
        List.append_assoc, slice?_append]
  · rw [not_boundary_iff.mp hcursor, Option.bind_none]
    refine (Option.eq_none_iff_forall_ne_some.mpr fun text htext ↦ ?_).symm
    obtain ⟨start, -, hslice⟩ := Option.bind_eq_some_iff.mp htext
    rw [slice?_eq_none hcursor] at hslice
    cases hslice

/-- A scan from a cursor in the text ends without a fault. The chain goes from where it ends, which
is between two characters and not behind the cursor, and every bracket in it is in a group in it
that the scan has jumped over. The scan ends nowhere just if it meets a closing bracket whose group
does not open. -/
theorem chainStart_inBounds (source : List Char) (cursor : Nat) (h : cursor ≤ byteLength source) :
    ∃ result,
      (∀ fuel, cursor < fuel → chainStart fuel (utf8 source) cursor = .ok result) ∧
      (∀ start ∈ result, start ≤ cursor ∧ Boundary source start ∧
        Grouped ((utf8 source).take cursor) start cursor) ∧
      (result = none ↔ MeetsUnpaired ((utf8 source).take cursor) cursor) ∧
      ((headBytes? cursor source).bind fun before ↦ chainBefore 0 before.reverse []) =
        result.bind fun start ↦ slice? start cursor source := by
  rw [← length_utf8] at h
  have hle : cursor ≤ ((utf8 source).take cursor).length := by
    rw [List.length_take_of_le h]
  obtain ⟨result, hends⟩ := exists_ends hle
  refine ⟨result, fun fuel hfuel ↦ ?_, fun start hstart ↦ ?_, hends.none_iff hle, hends.slice hle⟩
  · rw [chainStart, if_pos h]
    exact hends.run hle hfuel
  · exact ⟨hends.le hle start hstart, hends.boundary hle start hstart,
      hends.grouped hle start hstart⟩

/-- A group in a group behind letters of two bytes, and a group that does not open. -/
theorem chainStart_inBounds_group :
    chainStart 18 (utf8 "é=$é->f([1])\n->".toList) 17 = .ok (some 3) ∧
      Boundary "é=$é->f([1])\n->".toList 3 ∧
      Grouped ((utf8 "é=$é->f([1])\n->".toList).take 17) 3 17 ∧
      MeetsUnpaired ((utf8 "foo)->".toList).take 6) 6 := by
  obtain ⟨result, hrun, hstart, -, -⟩ :=
    chainStart_inBounds "é=$é->f([1])\n->".toList 17 (by decide +kernel)
  obtain ⟨result', hrun', -, hnone, -⟩ := chainStart_inBounds "foo)->".toList 6 (by decide +kernel)
  have hthree : chainStart 18 (utf8 "é=$é->f([1])\n->".toList) 17 = .ok (some 3) := by
    decide +kernel
  have hunpaired : chainStart 7 (utf8 "foo)->".toList) 6 = .ok none := by decide +kernel
  obtain rfl := Except.ok.inj ((hrun 18 (by decide)).symm.trans hthree)
  obtain rfl := Except.ok.inj ((hrun' 7 (by decide)).symm.trans hunpaired)
  obtain ⟨-, hboundary, hgrouped⟩ := hstart 3 rfl
  exact ⟨hthree, hboundary, hgrouped, hnone.mp rfl⟩

end PhpInsight.Grammar.Scan
