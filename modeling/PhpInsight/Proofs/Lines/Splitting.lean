import PhpInsight.Document
import PhpInsight.Proofs.Span.Position
import PhpInsight.Proofs.Types.Text

namespace PhpInsight

namespace Text

variable {cs before line behind : List Char} {n : Nat}

/-- A line of a text with its number, counted from zero, and what stands before and behind it. -/
structure IsLine (cs : List Char) (n : Nat) (before line behind : List Char) : Prop where
  text : cs = before ++ (line ++ behind)
  number : before.count '\n' = n
  start : before = [] ∨ before.getLast? = some '\n'
  whole : '\n' ∉ line
  stop : behind = [] ∨ behind.head? = some '\n'

theorem splitBy_ne_nil (p : Char → Bool) (cs : List Char) : splitBy p cs ≠ [] := by
  cases cs with
  | nil => simp [splitBy]
  | cons c cs =>
    rw [splitBy]
    split
    · simp
    · split <;> simp

theorem splitBy_cons_of_neg {p : Char → Bool} {c : Char} (hc : p c = false) (cs : List Char) :
    ∃ w ws, splitBy p cs = w :: ws ∧ splitBy p (c :: cs) = (c :: w) :: ws := by
  obtain ⟨w, ws, hs⟩ := List.exists_cons_of_ne_nil (splitBy_ne_nil p cs)
  exact ⟨w, ws, hs, by simp [splitBy, hc, hs]⟩

theorem length_splitBy (p : Char → Bool) (cs : List Char) :
    (splitBy p cs).length = cs.countP p + 1 := by
  induction cs with
  | nil => rfl
  | cons c cs ih =>
    by_cases hc : p c = true
    · simp [splitBy, hc, ih]
    · obtain ⟨w, ws, hs, hcons⟩ := splitBy_cons_of_neg (Bool.eq_false_iff.mpr hc) cs
      rw [hs] at ih
      simpa [hcons, hc] using ih

theorem not_mem_of_mem_splitBy {p : Char → Bool} {w : List Char} (hw : w ∈ splitBy p cs) :
    ∀ c ∈ w, p c = false := by
  induction cs generalizing w with
  | nil => simp_all [splitBy]
  | cons c cs ih =>
    by_cases hc : p c = true
    · simp only [splitBy, hc, if_true, List.mem_cons] at hw
      obtain rfl | hw := hw
      · simp
      · exact ih hw
    · obtain ⟨v, vs, hs, hcons⟩ := splitBy_cons_of_neg (Bool.eq_false_iff.mpr hc) cs
      rw [hcons, List.mem_cons] at hw
      rw [hs] at ih
      obtain rfl | hw := hw
      · simpa [hc] using ih List.mem_cons_self
      · exact ih (List.mem_cons_of_mem _ hw)

theorem mem_of_mem_splitBy {p : Char → Bool} {w : List Char} (hw : w ∈ splitBy p cs) {c : Char}
    (hc : c ∈ w) : c ∈ cs := by
  induction cs generalizing w with
  | nil => simp_all [splitBy]
  | cons x cs ih =>
    by_cases hx : p x = true
    · simp only [splitBy, hx, if_true, List.mem_cons] at hw
      obtain rfl | hw := hw
      · cases hc
      · exact List.mem_cons_of_mem _ (ih hw hc)
    · obtain ⟨v, vs, hs, hcons⟩ := splitBy_cons_of_neg (Bool.eq_false_iff.mpr hx) cs
      rw [hcons, List.mem_cons] at hw
      rw [hs] at ih
      obtain rfl | hw := hw
      · exact (List.mem_cons.mp hc).elim (· ▸ List.mem_cons_self) fun hc ↦
          List.mem_cons_of_mem _ (ih List.mem_cons_self hc)
      · exact List.mem_cons_of_mem _ (ih (List.mem_cons_of_mem _ hw) hc)

theorem splitBy_append_cons (x : Char) (cs ds : List Char) :
    splitBy (· == x) (cs ++ x :: ds) = splitBy (· == x) cs ++ splitBy (· == x) ds := by
  simp only [splitBy_eq_splitOn, List.splitOn_eq_splitOnP]
  exact List.splitOnP_append_cons cs ds (by simp)

theorem intercalate_append_cons (x : Char) (earlier later : List (List Char)) (line : List Char) :
    [x].intercalate (earlier ++ line :: later) =
      earlier.flatMap (· ++ [x]) ++ (line ++ later.flatMap (x :: ·)) := by
  induction earlier with
  | nil =>
    induction later generalizing line with
    | nil => simp
    | cons w later ih =>
      have h := ih w
      simp only [List.nil_append, List.flatMap_nil] at h
      simp [List.intercalate_cons_of_ne_nil, h]
  | cons w earlier ih =>
    rw [List.cons_append, List.intercalate_cons_of_ne_nil (by simp), ih]
    simp

theorem eq_of_splitBy {earlier later : List (List Char)}
    (h : splitBy (· == '\n') cs = earlier ++ line :: later) :
    cs = earlier.flatMap (· ++ ['\n']) ++ (line ++ later.flatMap ('\n' :: ·)) := by
  rw [← intercalate_append_cons, ← h, splitBy_eq_splitOn, List.intercalate_splitOn]

theorem count_flatMap_feed {ws : List (List Char)} (h : ∀ w ∈ ws, '\n' ∉ w) :
    (ws.flatMap (· ++ ['\n'])).count '\n' = ws.length := by
  induction ws with
  | nil => rfl
  | cons w ws ih =>
    have hw : w.count '\n' = 0 := List.count_eq_zero.mpr (h w List.mem_cons_self)
    have hws := ih fun v hv ↦ h v (List.mem_cons_of_mem _ hv)
    simp [hw, hws]

theorem isLine_of_splitBy {earlier later : List (List Char)}
    (h : splitBy (· == '\n') cs = earlier ++ line :: later) :
    IsLine cs earlier.length (earlier.flatMap (· ++ ['\n'])) line (later.flatMap ('\n' :: ·)) := by
  have hfree : ∀ w ∈ earlier ++ line :: later, '\n' ∉ w := by
    intro w hw hmem
    have hfeed := not_mem_of_mem_splitBy (h ▸ hw) '\n' hmem
    simp at hfeed
  refine ⟨eq_of_splitBy h, ?_, ?_, hfree line (by simp), ?_⟩
  · apply count_flatMap_feed
    intro w hw
    exact hfree w (List.mem_append_left _ hw)
  · obtain rfl | ⟨ws, w, rfl⟩ := List.eq_nil_or_concat earlier
    · exact .inl rfl
    · simp
  · cases later with
    | nil => exact .inl rfl
    | cons w ws => simp

theorem IsLine.splitBy_eq (h : IsLine cs n before line behind) :
    ∃ earlier later, splitBy (· == '\n') cs = earlier ++ line :: later ∧ earlier.length = n ∧
      before = earlier.flatMap (· ++ ['\n']) ∧ behind = later.flatMap ('\n' :: ·) := by
  obtain ⟨rfl, hnumber, hstart, hwhole, hstop⟩ := h
  obtain ⟨later, hlater⟩ : ∃ later, splitBy (· == '\n') (line ++ behind) = line :: later := by
    have hline : splitBy (· == '\n') line = [line] := by
      rw [splitBy_eq_splitOn, List.splitOn_eq_singleton hwhole]
    obtain rfl | hstop := hstop
    · exact ⟨[], by rw [List.append_nil, hline]⟩
    · obtain ⟨ds, rfl⟩ := List.head?_eq_some_iff.mp hstop
      exact ⟨splitBy (· == '\n') ds, by rw [splitBy_append_cons, hline, List.singleton_append]⟩
  have hbehind : behind = later.flatMap ('\n' :: ·) := by
    have hsplit : splitBy (· == '\n') (line ++ behind) = [] ++ line :: later := hlater
    simpa using eq_of_splitBy hsplit
  obtain rfl | hstart := hstart
  · exact ⟨[], later, hlater, by simpa using hnumber, rfl, hbehind⟩
  · obtain ⟨ds, rfl⟩ := List.getLast?_eq_some_iff.mp hstart
    refine ⟨splitBy (· == '\n') ds, later, ?_, ?_, ?_, hbehind⟩
    · rw [List.append_assoc, List.singleton_append, splitBy_append_cons, hlater]
    · rw [← hnumber, length_splitBy, List.count_append]
      rfl
    · have hsplit : splitBy (· == '\n') (ds ++ ['\n']) = splitBy (· == '\n') ds ++ [] :: [] :=
        splitBy_append_cons '\n' ds []
      simpa using eq_of_splitBy hsplit

theorem exists_isLine (hn : n ≤ cs.count '\n') :
    ∃ before line behind, IsLine cs n before line behind := by
  have hlength : n < (splitBy (· == '\n') cs).length := by
    rw [length_splitBy]
    exact Nat.lt_succ_of_le hn
  have hsplit : splitBy (· == '\n') cs = (splitBy (· == '\n') cs).take n ++
      (splitBy (· == '\n') cs)[n] :: (splitBy (· == '\n') cs).drop (n + 1) := by
    rw [← List.drop_eq_getElem_cons hlength, List.take_append_drop]
  have h := isLine_of_splitBy hsplit
  rw [List.length_take_of_le (Nat.le_of_lt hlength)] at h
  exact ⟨_, _, _, h⟩

theorem IsLine.le_count (h : IsLine cs n before line behind) : n ≤ cs.count '\n' := by
  rw [h.text, List.count_append, h.number]
  omega

theorem IsLine.exists_rest (h : IsLine cs n before line behind) {text : List Char}
    (htext : text <+: line) : ∃ rest, cs = before ++ (text ++ rest) := by
  obtain ⟨rest, rfl⟩ := htext
  exact ⟨rest ++ behind, by rw [h.text, List.append_assoc text]⟩

/-- There is one line of a number. -/
theorem IsLine.eq {before' line' behind' : List Char} (h : IsLine cs n before line behind)
    (h' : IsLine cs n before' line' behind') : line = line' := by
  obtain ⟨earlier, later, hsplit, hlength, -, -⟩ := h.splitBy_eq
  obtain ⟨earlier', later', hsplit', hlength', -, -⟩ := h'.splitBy_eq
  have hrest := List.append_inj_right (hsplit.symm.trans hsplit') (hlength.trans hlength'.symm)
  exact (List.cons.inj hrest).1

/-- Lines with their line feeds. What stands behind the last one is no line when it is empty. -/
def terminated : List (List Char) → List (List Char)
  | [] => []
  | [last] => if last.isEmpty then [] else [last]
  | w :: ws => (w ++ ['\n']) :: terminated ws

theorem fullLines_eq (cs : List Char) : fullLines cs = terminated (splitBy (· == '\n') cs) := by
  induction cs with
  | nil => rfl
  | cons c cs ih =>
    by_cases hc : c = '\n'
    · obtain ⟨w, ws, hs⟩ := List.exists_cons_of_ne_nil (splitBy_ne_nil (· == '\n') cs)
      simp [fullLines, splitBy, hc, ih, hs, terminated]
    · obtain ⟨w, ws, hs, hcons⟩ := splitBy_cons_of_neg (p := (· == '\n')) (by simpa using hc) cs
      rw [hcons, fullLines, if_neg hc, ih, hs]
      cases ws with
      | nil => cases w <;> simp [terminated]
      | cons v vs => simp [terminated]

theorem terminated_append (earlier later : List (List Char)) (line : List Char) :
    terminated (earlier ++ line :: later) =
      earlier.map (· ++ ['\n']) ++ terminated (line :: later) := by
  induction earlier with
  | nil => rfl
  | cons w earlier ih =>
    obtain ⟨v, vs, hvs⟩ := List.exists_cons_of_ne_nil
      (List.append_ne_nil_of_right_ne_nil earlier (List.cons_ne_nil line later))
    rw [List.cons_append, hvs, terminated, ← hvs, ih]
    · rfl
    · simp

end Text

end PhpInsight
