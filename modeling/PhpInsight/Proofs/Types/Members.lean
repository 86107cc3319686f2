import PhpInsight.Inference.InferredType
import PhpInsight.Proofs.Types.Text

namespace PhpInsight

open Text

namespace TypeText

structure IsMember (text : String) : Prop where
  tight : Tight text.toList
  plain : ∀ c ∈ text.toList, c ≠ '|' ∧ isOpeningBracket c = false ∧ isClosingBracket c = false

variable {d : Nat} {c : Char} {cs ds : List Char}

theorem piecesFrom_ne_nil (d : Nat) (cs : List Char) : piecesFrom d cs ≠ [] := by
  cases cs with
  | nil => exact List.cons_ne_nil _ _
  | cons c cs =>
    rw [piecesFrom]
    split
    · exact List.cons_ne_nil _ _
    · split <;> exact List.cons_ne_nil _ _

theorem piecesFrom_cons_eq_singleton_iff :
    piecesFrom d (c :: cs) = [c :: cs] ↔
      ¬(c = '|' ∧ d = 0) ∧ piecesFrom (depthAfter d c) cs = [cs] := by
  rw [piecesFrom]
  by_cases hbar : c = '|' ∧ d = 0
  · simp [hbar, piecesFrom_ne_nil]
  · simp only [hbar, Bool.and_eq_true, decide_eq_true_eq, if_false, not_false_eq_true, true_and]
    cases hp : piecesFrom (depthAfter d c) cs with
    | nil => exact absurd hp (piecesFrom_ne_nil _ _)
    | cons p ps => simp

theorem exists_piecesFrom_eq (d : Nat) (cs : List Char) :
    ∃ p ps, piecesFrom d cs = p :: ps ∧ piecesFrom d p = [p] ∧ ∀ q ∈ ps, piecesFrom 0 q = [q] := by
  induction cs generalizing d with
  | nil => exact ⟨[], [], rfl, rfl, nofun⟩
  | cons c cs ih =>
    by_cases hbar : c = '|' ∧ d = 0
    · obtain ⟨rfl, rfl⟩ := hbar
      obtain ⟨p, ps, hps, hp, hq⟩ := ih 0
      refine ⟨[], p :: ps, by simp [piecesFrom, hps], rfl, ?_⟩
      exact List.forall_mem_cons.mpr ⟨hp, hq⟩
    · obtain ⟨p, ps, hps, hp, hq⟩ := ih (depthAfter d c)
      refine ⟨c :: p, ps, ?_, piecesFrom_cons_eq_singleton_iff.mpr ⟨hbar, hp⟩, hq⟩
      simp [piecesFrom, hbar, hps]

theorem piecesFrom_of_mem {p : List Char} (h : p ∈ piecesFrom 0 cs) : piecesFrom 0 p = [p] := by
  obtain ⟨p', ps, hps, hp', hq⟩ := exists_piecesFrom_eq 0 cs
  rw [hps] at h
  rcases List.mem_cons.mp h with rfl | h
  · exact hp'
  · exact hq p h

theorem piecesFrom_prefix (h : piecesFrom d (cs ++ ds) = [cs ++ ds]) : piecesFrom d cs = [cs] := by
  induction cs generalizing d with
  | nil => rfl
  | cons c cs ih =>
    obtain ⟨hbar, h⟩ := piecesFrom_cons_eq_singleton_iff.mp h
    exact piecesFrom_cons_eq_singleton_iff.mpr ⟨hbar, ih h⟩

theorem depthAfter_blank (h : isBlank c = true) : depthAfter d c = d := by
  have hne (x : Char) (hx : isBlank x = false) : c ≠ x := by
    rintro rfl
    rw [h] at hx
    cases hx
  simp [depthAfter, isOpeningBracket, isClosingBracket, hne '<' (by decide), hne '(' (by decide),
    hne '\x7b' (by decide), hne '[' (by decide), hne '>' (by decide), hne ')' (by decide),
    hne '\x7d' (by decide), hne ']' (by decide)]

theorem piecesFrom_dropBlanks (h : piecesFrom 0 cs = [cs]) :
    piecesFrom 0 (dropBlanks cs) = [dropBlanks cs] := by
  induction cs with
  | nil => exact h
  | cons c cs ih =>
    rw [dropBlanks, List.dropWhile_cons]
    split
    case isTrue hblank =>
      obtain ⟨-, h⟩ := piecesFrom_cons_eq_singleton_iff.mp h
      rw [depthAfter_blank hblank] at h
      exact ih h
    case isFalse => exact h

theorem piecesFrom_trimChars (h : piecesFrom 0 cs = [cs]) :
    piecesFrom 0 (trimChars cs) = [trimChars cs] := by
  obtain ⟨blanks, hblanks⟩ : dropBlanksEnd (dropBlanks cs) <+: dropBlanks cs := by
    rw [← List.reverse_suffix, dropBlanksEnd, dropEnd, List.reverse_reverse]
    exact List.dropWhile_suffix isBlank
  have hdropped := piecesFrom_dropBlanks h
  rw [← hblanks] at hdropped
  exact piecesFrom_prefix hdropped

def depthBehind (d : Nat) (cs : List Char) : Nat := cs.foldl depthAfter d

theorem depthBehind_blanks (h : ∀ c ∈ cs, isBlank c = true) : depthBehind d cs = d := by
  induction cs with
  | nil => rfl
  | cons c cs ih =>
    obtain ⟨hc, hcs⟩ := List.forall_mem_cons.mp h
    rw [depthBehind, List.foldl_cons, depthAfter_blank hc]
    exact ih hcs

theorem depthBehind_trimChars (d : Nat) (cs : List Char) :
    depthBehind d (trimChars cs) = depthBehind d cs := by
  obtain ⟨left, right, hcs, hleft, hright⟩ := exists_trimChars cs
  have happend (d : Nat) (cs ds : List Char) :
      depthBehind d (cs ++ ds) = depthBehind (depthBehind d cs) ds := List.foldl_append
  calc depthBehind d (trimChars cs)
      = depthBehind d (left ++ (trimChars cs ++ right)) := by
        rw [happend, happend, depthBehind_blanks hleft, depthBehind_blanks hright]
    _ = depthBehind d cs := by rw [← hcs]

theorem depthBehind_eq_zero (h : ∀ c ∈ cs, isOpeningBracket c = false) : depthBehind 0 cs = 0 := by
  induction cs with
  | nil => rfl
  | cons c cs ih =>
    obtain ⟨hc, hcs⟩ := List.forall_mem_cons.mp h
    have hdepth : depthAfter 0 c = 0 := by simp [depthAfter, hc]
    rw [depthBehind, List.foldl_cons, hdepth]
    exact ih hcs

theorem not_isBlank_of_isOpeningBracket (h : isOpeningBracket c = true) : isBlank c = false := by
  cases hblank : isBlank c with
  | false => rfl
  | true =>
    have hdepth := depthAfter_blank (d := 0) hblank
    simp [depthAfter, h] at hdepth

theorem not_bar_of_piecesFrom (h : piecesFrom 0 cs = [cs])
    (hopen : ∀ c ∈ cs, isOpeningBracket c = false) : '|' ∉ cs := by
  induction cs with
  | nil => exact List.not_mem_nil
  | cons c cs ih =>
    obtain ⟨hc, hcs⟩ := List.forall_mem_cons.mp hopen
    obtain ⟨hbar, h⟩ := piecesFrom_cons_eq_singleton_iff.mp h
    have hdepth : depthAfter 0 c = 0 := by simp [depthAfter, hc]
    rw [List.mem_cons, not_or]
    exact ⟨fun he ↦ hbar ⟨he.symm, rfl⟩, ih (hdepth ▸ h) hcs⟩

theorem piecesFrom_plain (h : ∀ c ∈ cs, c ≠ '|' ∧ isOpeningBracket c = false) :
    piecesFrom 0 cs = [cs] := by
  induction cs with
  | nil => rfl
  | cons c cs ih =>
    obtain ⟨⟨hbar, hopen⟩, hcs⟩ := List.forall_mem_cons.mp h
    have hdepth : depthAfter 0 c = 0 := by simp [depthAfter, hopen]
    exact piecesFrom_cons_eq_singleton_iff.mpr ⟨fun hc ↦ hbar hc.1, hdepth.symm ▸ ih hcs⟩

theorem piecesFrom_bar (hone : piecesFrom d cs = [cs]) (hclosed : depthBehind d cs = 0) :
    piecesFrom d (cs ++ '|' :: ds) = cs :: piecesFrom 0 ds := by
  induction cs generalizing d with
  | nil =>
    obtain rfl : d = 0 := hclosed
    rfl
  | cons c cs ih =>
    obtain ⟨hbar, hone⟩ := piecesFrom_cons_eq_singleton_iff.mp hone
    rw [List.cons_append, piecesFrom, ih hone hclosed, if_neg (by simpa using hbar)]

theorem piecesFrom_join {ms : List (List Char)} (hne : ms ≠ [])
    (hone : ∀ m ∈ ms, piecesFrom 0 m = [m]) (hclosed : ∀ m ∈ ms.dropLast, depthBehind 0 m = 0) :
    piecesFrom 0 (['|'].intercalate ms) = ms := by
  induction ms with
  | nil => exact absurd rfl hne
  | cons m ms ih =>
    obtain ⟨hm, hms⟩ := List.forall_mem_cons.mp hone
    cases ms with
    | nil => simpa using hm
    | cons m' ms =>
      rw [List.dropLast_cons_cons] at hclosed
      obtain ⟨hm', hms'⟩ := List.forall_mem_cons.mp hclosed
      rw [List.intercalate_cons_of_ne_nil (List.cons_ne_nil _ _), List.append_assoc,
        List.singleton_append, piecesFrom_bar hm hm', ih (List.cons_ne_nil _ _) hms hms']

/-- Members that are no blank texts, that no bar divides and that close what they open, up to the
last one, are told from each other where they are joined. -/
theorem unionMembers_join {ms : List (List Char)} (hms : ∀ m ∈ ms, m ≠ [] ∧ Trimmed m)
    (hone : ∀ m ∈ ms, piecesFrom 0 m = [m]) (hclosed : ∀ m ∈ ms.dropLast, depthBehind 0 m = 0) :
    unionMembers (['|'].intercalate ms) = ms := by
  by_cases hne : ms = []
  · rw [hne]
    rfl
  · have htrim : ms.map trimChars = ms :=
      (List.map_congr_left fun m hm ↦ (hms m hm).2.trimChars).trans (List.map_id ms)
    rw [unionMembers, piecesFrom_join hne hone hclosed, htrim, List.filter_eq_self]
    intro m hm
    simpa using (hms m hm).1

theorem exists_piecesFrom_closed (d : Nat) (cs : List Char) :
    ∃ p ps, piecesFrom d cs = p :: ps ∧ (ps ≠ [] → depthBehind d p = 0) ∧
      ∀ q ∈ ps.dropLast, depthBehind 0 q = 0 := by
  induction cs generalizing d with
  | nil => exact ⟨[], [], rfl, fun h ↦ absurd rfl h, nofun⟩
  | cons c cs ih =>
    by_cases hbar : c = '|' ∧ d = 0
    · obtain ⟨rfl, rfl⟩ := hbar
      obtain ⟨p, ps, hps, hp, hq⟩ := ih 0
      refine ⟨[], p :: ps, by simp [piecesFrom, hps], fun _ ↦ rfl, ?_⟩
      cases ps with
      | nil => exact nofun
      | cons p' ps =>
        rw [List.dropLast_cons_cons]
        exact List.forall_mem_cons.mpr ⟨hp (List.cons_ne_nil _ _), hq⟩
    · obtain ⟨p, ps, hps, hp, hq⟩ := ih (depthAfter d c)
      exact ⟨c :: p, ps, by simp [piecesFrom, hbar, hps], hp, hq⟩

theorem depthBehind_of_mem_dropLast {p : List Char} (h : p ∈ (piecesFrom 0 cs).dropLast) :
    depthBehind 0 p = 0 := by
  obtain ⟨p', ps, hps, hp', hq⟩ := exists_piecesFrom_closed 0 cs
  rw [hps] at h
  cases ps with
  | nil => cases h
  | cons p'' ps =>
    rw [List.dropLast_cons_cons] at h
    rcases List.mem_cons.mp h with rfl | h
    · exact hp' (List.cons_ne_nil _ _)
    · exact hq p h

theorem mem_dropLast_of_filter {α : Type} {p : α → Bool} {l : List α} {a : α}
    (h : a ∈ (l.filter p).dropLast) : a ∈ l.dropLast := by
  obtain rfl | ⟨l, x, rfl⟩ := List.eq_nil_or_concat l
  · exact h
  · rw [List.concat_eq_append, List.filter_append] at h
    rw [List.concat_eq_append, List.dropLast_concat]
    by_cases hx : p x = true
    · rw [List.filter_cons_of_pos hx, List.filter_nil, List.dropLast_concat] at h
      exact (List.mem_filter.mp h).1
    · rw [List.filter_cons_of_neg hx, List.filter_nil, List.append_nil] at h
      exact (List.mem_filter.mp ((List.dropLast_sublist _).subset h)).1

/-- What the members of a union are like. -/
theorem of_mem_unionMembers {m : List Char} (h : m ∈ unionMembers cs) :
    m ≠ [] ∧ Trimmed m ∧ piecesFrom 0 m = [m] := by
  obtain ⟨hm, hne⟩ := List.mem_filter.mp h
  obtain ⟨p, hp, rfl⟩ := List.mem_map.mp hm
  exact ⟨by simpa using hne, trimmed_trimChars p, piecesFrom_trimChars (piecesFrom_of_mem hp)⟩

theorem depthBehind_of_mem_unionMembers {m : List Char} (h : m ∈ (unionMembers cs).dropLast) :
    depthBehind 0 m = 0 := by
  have hm := mem_dropLast_of_filter h
  rw [← List.map_dropLast] at hm
  obtain ⟨p, hp, rfl⟩ := List.mem_map.mp hm
  rw [depthBehind_trimChars]
  exact depthBehind_of_mem_dropLast hp

/-- Whether a text has blanks only where a bracket is open. -/
def blanksInside : (depth : Nat) → List Char → Bool
  | _, [] => true
  | d, c :: cs => !(isBlank c && d = 0) && blanksInside (depthAfter d c) cs

theorem blanksInside_cons :
    blanksInside d (c :: cs) = true ↔
      ¬(isBlank c = true ∧ d = 0) ∧ blanksInside (depthAfter d c) cs = true := by
  rw [blanksInside, Bool.and_eq_true, Bool.not_eq_true', ← Bool.not_eq_true, Bool.and_eq_true,
    decide_eq_true_eq]

theorem blanksInside_prefix (h : blanksInside d (cs ++ ds) = true) : blanksInside d cs = true := by
  induction cs generalizing d with
  | nil => rfl
  | cons c cs ih =>
    obtain ⟨hc, h⟩ := blanksInside_cons.mp h
    exact blanksInside_cons.mpr ⟨hc, ih h⟩

theorem exists_piecesFrom_blanksInside (h : blanksInside d cs = true) :
    ∃ p ps, piecesFrom d cs = p :: ps ∧ blanksInside d p = true ∧
      ∀ q ∈ ps, blanksInside 0 q = true := by
  induction cs generalizing d with
  | nil => exact ⟨[], [], rfl, rfl, nofun⟩
  | cons c cs ih =>
    obtain ⟨hc, h⟩ := blanksInside_cons.mp h
    obtain ⟨p, ps, hps, hp, hq⟩ := ih h
    by_cases hbar : c = '|' ∧ d = 0
    · obtain ⟨rfl, rfl⟩ := hbar
      have hps : piecesFrom 0 cs = p :: ps := hps
      exact ⟨[], p :: ps, by simp [piecesFrom, hps], rfl, List.forall_mem_cons.mpr ⟨hp, hq⟩⟩
    · exact ⟨c :: p, ps, by simp [piecesFrom, hbar, hps], blanksInside_cons.mpr ⟨hc, hp⟩, hq⟩

def blanksBehindBracket : List Char → Bool
  | [] => true
  | c :: cs => isOpeningBracket c || (!isBlank c && blanksBehindBracket cs)

theorem blanksBehindBracket_cons :
    blanksBehindBracket (c :: cs) = true ↔
      isOpeningBracket c = true ∨ isBlank c = false ∧ blanksBehindBracket cs = true := by
  rw [blanksBehindBracket, Bool.or_eq_true, Bool.and_eq_true, Bool.not_eq_true']

theorem blanksBehindBracket_of_blanksInside (h : blanksInside 0 cs = true) :
    blanksBehindBracket cs = true := by
  induction cs with
  | nil => rfl
  | cons c cs ih =>
    obtain ⟨hc, h⟩ := blanksInside_cons.mp h
    rw [blanksBehindBracket_cons]
    refine (Bool.eq_false_or_eq_true (isOpeningBracket c)).imp_right fun hopen ↦ ?_
    have hdepth : depthAfter 0 c = 0 := by simp [depthAfter, hopen]
    exact ⟨by simpa using hc, ih (hdepth ▸ h)⟩

theorem not_isBlank_of_no_bracket (h : blanksBehindBracket cs = true)
    (hopen : ∀ c ∈ cs, isOpeningBracket c = false) : ∀ c ∈ cs, isBlank c = false := by
  induction cs with
  | nil => exact nofun
  | cons c cs ih =>
    obtain ⟨hc, hcs⟩ := List.forall_mem_cons.mp hopen
    obtain hbracket | ⟨hblank, h⟩ := blanksBehindBracket_cons.mp h
    · rw [hc] at hbracket
      cases hbracket
    · exact List.forall_mem_cons.mpr ⟨hblank, ih h hcs⟩

theorem blanksInside_of_mem_unionMembers (h : blanksInside 0 cs = true) {m : List Char}
    (hm : m ∈ unionMembers cs) : blanksInside 0 m = true := by
  obtain ⟨q, hq, rfl⟩ := List.mem_map.mp (List.mem_filter.mp hm).1
  have hpiece : blanksInside 0 q = true := by
    obtain ⟨p, ps, hps, hp, hrest⟩ := exists_piecesFrom_blanksInside h
    rw [hps] at hq
    rcases List.mem_cons.mp hq with rfl | hq
    · exact hp
    · exact hrest q hq
  obtain ⟨left, right, hsplit, hleft, -⟩ := exists_trimChars q
  cases left with
  | nil =>
    rw [hsplit, List.nil_append] at hpiece
    exact blanksInside_prefix hpiece
  | cons c left =>
    rw [hsplit, List.cons_append] at hpiece
    exact absurd ⟨hleft c List.mem_cons_self, rfl⟩ (blanksInside_cons.mp hpiece).1

theorem blanksInside_splitTypeFrom (d : Nat) (cs : List Char) :
    blanksInside d (splitTypeFrom d cs).1 = true := by
  induction cs generalizing d with
  | nil => rfl
  | cons c cs ih =>
    rw [splitTypeFrom]
    split
    · rfl
    · rename_i hc
      exact blanksInside_cons.mpr ⟨by simpa using hc, ih _⟩

theorem length_splitUnion_le {text : String} (h : piecesFrom 0 text.toList = [text.toList]) :
    (splitUnion text).length ≤ 1 := by
  rw [splitUnion, unionMembers, h, List.length_map]
  exact Nat.le_trans (List.length_filter_le _ _) (by simp)

theorem toList_mem_of_splitUnion {text t : String} (h : t ∈ splitUnion text) :
    t.toList ∈ unionMembers text.toList := by
  obtain ⟨m, hm, rfl⟩ := List.mem_map.mp h
  rwa [String.toList_ofList]

theorem toList_mem_dropLast_of_splitUnion {text t : String} (h : t ∈ (splitUnion text).dropLast) :
    t.toList ∈ (unionMembers text.toList).dropLast := by
  rw [splitUnion, ← List.map_dropLast] at h
  obtain ⟨m, hm, rfl⟩ := List.mem_map.mp h
  rwa [String.toList_ofList]

theorem piecesFrom_of_mem_splitUnion {text t : String} (h : t ∈ splitUnion text) :
    piecesFrom 0 t.toList = [t.toList] :=
  (of_mem_unionMembers (toList_mem_of_splitUnion h)).2.2

theorem toList_join (ts : List String) :
    ("|".intercalate ts).toList = ['|'].intercalate (ts.map String.toList) :=
  String.toList_intercalate

theorem splitUnion_intercalate {ts : List String}
    (hts : ∀ t ∈ ts, t.toList ≠ [] ∧ Trimmed t.toList)
    (hone : ∀ t ∈ ts, piecesFrom 0 t.toList = [t.toList])
    (hclosed : ∀ t ∈ ts.dropLast, depthBehind 0 t.toList = 0) :
    splitUnion ("|".intercalate ts) = ts := by
  have hmembers :
      unionMembers (['|'].intercalate (ts.map String.toList)) = ts.map String.toList := by
    refine unionMembers_join (by simpa using hts) (by simpa using hone) ?_
    rw [← List.map_dropLast]
    exact List.forall_mem_map.mpr hclosed
  rw [splitUnion, toList_join, hmembers, List.map_map]
  simp

theorem IsMember.piecesFrom {t : String} (h : IsMember t) :
    piecesFrom 0 t.toList = [t.toList] :=
  piecesFrom_plain fun c hc ↦ ⟨(h.plain c hc).1, (h.plain c hc).2.1⟩

theorem IsMember.closed {t : String} (h : IsMember t) : depthBehind 0 t.toList = 0 :=
  depthBehind_eq_zero fun c hc ↦ (h.plain c hc).2.1

theorem splitUnion_join {ts : List String} (h : ∀ t ∈ ts, IsMember t) :
    splitUnion ("|".intercalate ts) = ts :=
  splitUnion_intercalate (fun t ht ↦ ⟨(h t ht).tight.ne_nil, (h t ht).tight.trimmed⟩)
    (fun t ht ↦ (h t ht).piecesFrom)
    fun t ht ↦ (h t ((List.dropLast_sublist _).subset ht)).closed

theorem splitUnion_member {text : String} (h : IsMember text) : splitUnion text = [text] := by
  have hjoin : splitUnion ("|".intercalate [text]) = [text] := splitUnion_join (by simpa using h)
  rwa [String.intercalate_singleton] at hjoin

theorem tight_join {ts : List String} (hne : ts ≠ []) (h : ∀ t ∈ ts, IsMember t) :
    Tight ("|".intercalate ts).toList := by
  rw [toList_join]
  induction ts with
  | nil => exact absurd rfl hne
  | cons t ts ih =>
    cases ts with
    | nil => simpa using (h t List.mem_cons_self).tight
    | cons t' ts =>
      have hrest := ih (by simp) fun u hu ↦ h u (List.mem_cons_of_mem _ hu)
      rw [List.map_cons, List.intercalate_cons_of_ne_nil (by simp), List.append_assoc]
      exact (h t List.mem_cons_self).tight.append (by decide) hrest.last

theorem splitUnion_member_bar {t : String} (h : IsMember t) (text : String) :
    splitUnion (t ++ "|" ++ text) = t :: splitUnion text := by
  have htext : (t ++ "|" ++ text).toList = t.toList ++ '|' :: text.toList := by simp
  have hpieces : piecesFrom 0 (t.toList ++ '|' :: text.toList) =
      t.toList :: piecesFrom 0 text.toList := piecesFrom_bar h.piecesFrom h.closed
  rw [splitUnion, unionMembers, htext, hpieces, List.map_cons,
    h.tight.trimChars, List.filter_cons_of_pos (by simpa using h.tight.ne_nil), List.map_cons,
    String.ofList_toList]
  rfl

theorem not_isBlank_of_mem_splitUnion {text t : String} (h : t ∈ splitUnion text) :
    ∀ c ∈ t.toList.getLast?, isBlank c = false :=
  (of_mem_unionMembers (toList_mem_of_splitUnion h)).2.1.last

end TypeText

namespace ClassInfo

open Text TypeText InferredType

variable {c : ClassInfo} {text : String} {ts : List String}

theorem withoutMark_tight (h : Tight text.toList) : withoutMark text = text := by
  unfold withoutMark
  rw [h.trimChars]
  split
  · rename_i rest hrest
    exact absurd rfl (h.first '?' (by rw [hrest]; rfl)).2
  · exact String.ofList_toList

theorem withoutMark_marked (h : Tight text.toList) : withoutMark ("?" ++ text) = text := by
  have htext : ("?" ++ text).toList = '?' :: text.toList := by simp
  unfold withoutMark
  rw [htext, trimChars_cons (by decide), dropBlanksEnd_eq_self h.last]
  exact String.ofList_toList

theorem typeOfText_member (h : IsMember (withoutMark text)) :
    c.typeOfText text = c.singleType (withoutMark text) := by
  simp only [typeOfText, splitUnion_member h]
  rfl

theorem typeOfText_join (hlen : 2 ≤ ts.length) (h : ∀ t ∈ ts, IsMember t) :
    c.typeOfText ("|".intercalate ts) = match ts.filterMap c.unionMember? with
      | [m] => c.memberType m
      | ms => ofMembers ms := by
  have hne : ts ≠ [] := by
    rintro rfl
    simp at hlen
  simp only [typeOfText, withoutMark_tight (tight_join hne h), splitUnion_join h]
  exact if_neg (by omega)

end ClassInfo

end PhpInsight
