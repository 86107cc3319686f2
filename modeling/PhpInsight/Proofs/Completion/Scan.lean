import Mathlib.Logic.Relation
import PhpInsight.Grammar.Target

namespace PhpInsight.Grammar.Scan

inductive Fault
  | belowZero
  | endless
  deriving DecidableEq

def minus (n k : Nat) : Except Fault Nat := if k ≤ n then .ok (n - k) else .error .belowZero

def codes (bytes : List UInt8) : List Char := bytes.map Char.ofUInt8

def codeAt? (bytes : List UInt8) (i : Nat) : Option Char := (codes bytes)[i]?

def codeBefore? (bytes : List UInt8) : (index : Nat) → Option Char
  | 0 => none
  | i + 1 => codeAt? bytes i

def precedes (bytes : List UInt8) (c : Char) (index : Nat) : Bool :=
  codeBefore? bytes index = some c

/-- Where the group opens that has `depth` brackets open in front of an index. -/
def openFrom (bytes : List UInt8) : (index depth : Nat) → Except Fault (Option Nat)
  | 0, _ => return none
  -- An index is taken down from above 0 only, which the depth is not guarded for.
  | index + 1, depth =>
    match codeAt? bytes index with
    | none => return none
    | some c =>
      if isCloser c then openFrom bytes index (depth + 1)
      else if isOpener c then do
        let depth ← minus depth 1
        if depth = 0 then return some index else openFrom bytes index depth
      else openFrom bytes index depth

inductive Move
  | stop
  | goto (index : Nat)
  | unmatched

/-- One step of the scan. A name goes back by a byte, an operator by two or three, a closing bracket
to the one that opens its group. -/
def step (bytes : List UInt8) (index : Nat) : Except Fault Move :=
  match codeBefore? bytes index with
  | none => return .stop
  | some c => do
    let last ← minus index 1
    if isChainChar c then
      return .goto last
    else if c = '>' && precedes bytes '-' last then
      let operator ← minus index 2
      if precedes bytes '?' operator then
        return .goto (← minus operator 1)
      else
        return .goto operator
    else if c = ':' && precedes bytes ':' last then
      return .goto (← minus index 2)
    else if isCloser c then
      match ← openFrom bytes (last + 1) 0 with
      | some left => return .goto left
      | none => return .unmatched
    else if isAsciiBlank c && continuesChain (codes (bytes.drop index)) then
      return .goto last
    else
      return .stop

def run (bytes : List UInt8) : (fuel index : Nat) → Except Fault (Option Nat)
  | 0, _ => throw .endless
  | fuel + 1, index => do
    match ← step bytes index with
    | .stop => return some index
    | .goto next => run bytes fuel next
    | .unmatched => return none

def chainStart (fuel : Nat) (bytes : List UInt8) (cursor : Nat) : Except Fault (Option Nat) :=
  if cursor ≤ bytes.length then run (bytes.take cursor) fuel cursor else return none

def isBracket (c : Char) : Bool := isOpener c || isCloser c

def At (p : Char → Bool) (bytes : List UInt8) (i : Nat) : Prop :=
  ∃ c, codeAt? bytes i = some c ∧ p c = true

def count (p : Char → Bool) (bytes : List UInt8) (start stop : Nat) : Nat :=
  ((codes (bytes.take stop)).drop start).countP p

/-- A closing bracket and the one that opens its group: from every place inside the group on, more
brackets are closed than opened. Round brackets are not told from square ones. -/
structure Pairs (bytes : List UInt8) (left right : Nat) : Prop where
  lt : left < right
  opener : At isOpener bytes left
  closer : At isCloser bytes right
  even : count isOpener bytes left (right + 1) = count isCloser bytes left (right + 1)
  inside (i : Nat) : left < i → i ≤ right →
    count isOpener bytes i (right + 1) < count isCloser bytes i (right + 1)

section

variable {bytes : List UInt8} {index stop : Nat} {c : Char} (p : Char → Bool)

theorem lt_length_of_codeAt? (h : codeAt? bytes index = some c) : index < bytes.length := by
  obtain ⟨hlt, -⟩ := List.getElem?_eq_some_iff.mp h
  simpa [codes] using hlt

theorem exists_codeAt? (h : index < bytes.length) : ∃ c, codeAt? bytes index = some c :=
  ⟨_, List.getElem?_eq_getElem (by simpa [codes] using h)⟩

theorem count_self : count p bytes index index = 0 := by
  have hlength : (codes (bytes.take index)).length ≤ index := by
    rw [codes, List.length_map]
    exact List.length_take_le index bytes
  rw [count, List.drop_of_length_le hlength, List.countP_nil]

theorem count_step (h : codeAt? bytes index = some c) (hlt : index < stop) :
    count p bytes index stop = count p bytes (index + 1) stop + if p c then 1 else 0 := by
  have hhead : (codes (bytes.take stop))[index]? = some c := by
    rw [codes, List.map_take, List.getElem?_take_of_lt hlt]
    exact h
  obtain ⟨hbound, hget⟩ := List.getElem?_eq_some_iff.mp hhead
  rw [count, List.drop_eq_getElem_cons hbound, List.countP_cons, hget, count]

end

theorem isOpener_eq_false {c : Char} (h : isCloser c = true) : isOpener c = false := by
  simp only [isCloser, Bool.or_eq_true, decide_eq_true_eq] at h
  rcases h with rfl | rfl <;> rfl

variable {bytes : List UInt8}

section

variable {i depth : Nat} {c : Char}

theorem openFrom_closer (hc : codeAt? bytes i = some c) (h : isCloser c = true) :
    openFrom bytes (i + 1) depth = openFrom bytes i (depth + 1) := by
  simp [openFrom, hc, h]

theorem openFrom_opener (hc : codeAt? bytes i = some c) (h : isOpener c = true)
    (hcloser : isCloser c = false) : openFrom bytes (i + 1) (depth + 1) =
      if depth = 0 then .ok (some i) else openFrom bytes i depth := by
  simp only [openFrom, hc, hcloser, h]
  rfl

theorem openFrom_other (hc : codeAt? bytes i = some c) (h : isBracket c = false) :
    openFrom bytes (i + 1) depth = openFrom bytes i depth := by
  obtain ⟨hopener, hcloser⟩ := Bool.or_eq_false_iff.mp h
  simp [openFrom, hc, hopener, hcloser]

end

/-- Between an index and the closing bracket more have been closed than opened, by `depth`. -/
structure Open (bytes : List UInt8) (right index depth : Nat) : Prop where
  le : index ≤ right
  depth : count isOpener bytes index (right + 1) + depth = count isCloser bytes index (right + 1)
  inside (i : Nat) : index ≤ i → i ≤ right →
    count isOpener bytes i (right + 1) < count isCloser bytes i (right + 1)

theorem Open.pos {right index depth : Nat} (h : Open bytes right index depth) : 0 < depth := by
  have hlt := h.inside index (Nat.le_refl _) h.le
  have hdepth := h.depth
  omega

theorem open_closer {right : Nat} (h : At isCloser bytes right) : Open bytes right right 1 := by
  obtain ⟨c, hc, hcloser⟩ := h
  have hcount (p : Char → Bool) : count p bytes right (right + 1) = if p c then 1 else 0 := by
    rw [count_step p hc (Nat.lt_succ_self _), count_self, Nat.zero_add]
  have hnone := isOpener_eq_false hcloser
  refine ⟨Nat.le_refl _, by simp [hcount, hcloser, hnone], fun i hle hge ↦ ?_⟩
  obtain rfl := Nat.le_antisymm hge hle
  simp [hcount, hcloser, hnone]

theorem Open.back {right index depth depth' : Nat} {c : Char}
    (h : Open bytes right (index + 1) depth) (hc : codeAt? bytes index = some c)
    (hdepth : depth' + (if isOpener c then 1 else 0) = depth + if isCloser c then 1 else 0)
    (hpos : 0 < depth') : Open bytes right index depth' := by
  have hlt : index < right + 1 := Nat.lt_succ_of_lt h.le
  have heven := h.depth
  have hopener := count_step isOpener hc hlt
  have hcloser := count_step isCloser hc hlt
  refine ⟨Nat.le_of_succ_le h.le, by omega, fun i hle hge ↦ ?_⟩
  rcases Nat.eq_or_lt_of_le hle with rfl | hlt
  · omega
  · exact h.inside i hlt hge

theorem Open.pairs {right index : Nat} {c : Char} (h : Open bytes right (index + 1) 1)
    (hc : codeAt? bytes index = some c) (hopener : isOpener c = true) (hcloser : isCloser c = false)
    (hright : At isCloser bytes right) : Pairs bytes index right := by
  have hlt : index < right + 1 := Nat.lt_succ_of_lt h.le
  have heven := h.depth
  have hopeners := count_step isOpener hc hlt
  have hclosers := count_step isCloser hc hlt
  simp only [hopener, hcloser, if_true] at hopeners hclosers
  exact ⟨h.le, ⟨c, hc, hopener⟩, hright, by simpa [hopeners, hclosers] using heven,
    fun i hlt hle ↦ h.inside i hlt hle⟩

theorem openFrom_cases {right index depth : Nat} (hright : At isCloser bytes right)
    (h : Open bytes right index depth) :
    (∃ left, openFrom bytes index depth = .ok (some left) ∧ Pairs bytes left right) ∨
      openFrom bytes index depth = .ok none ∧ ∀ left, ¬ Pairs bytes left right := by
  induction index generalizing depth with
  | zero =>
    refine .inr ⟨rfl, fun left hleft ↦ ?_⟩
    have hlt := h.inside left (Nat.zero_le _) (Nat.le_of_lt hleft.lt)
    exact absurd hleft.even (Nat.ne_of_lt hlt)
  | succ index ih =>
    have hbound : index < bytes.length := by
      obtain ⟨c, hc, -⟩ := hright
      exact Nat.lt_trans h.le (lt_length_of_codeAt? hc)
    obtain ⟨c, hc⟩ := exists_codeAt? hbound
    cases hcloser : isCloser c with
    | true =>
      have hopener := isOpener_eq_false hcloser
      rw [openFrom_closer hc hcloser]
      exact ih (h.back hc (by simp [hcloser, hopener]) (Nat.succ_pos _))
    | false =>
      cases hopener : isOpener c with
      | false =>
        rw [openFrom_other hc (Bool.or_eq_false_iff.mpr ⟨hopener, hcloser⟩)]
        exact ih (h.back hc (by simp [hcloser, hopener]) h.pos)
      | true =>
        obtain ⟨d, rfl⟩ := Nat.exists_eq_add_one.mpr h.pos
        rw [openFrom_opener hc hopener hcloser]
        cases d with
        | zero => exact .inl ⟨index, rfl, h.pairs hc hopener hcloser hright⟩
        | succ d => exact ih (h.back hc (by simp [hcloser, hopener]) (Nat.succ_pos _))

@[simp] theorem minus_of_le {n k : Nat} (h : k ≤ n) : minus n k = .ok (n - k) := if_pos h

@[simp] theorem precedes_iff {c : Char} {index : Nat} :
    precedes bytes c index = true ↔ codeBefore? bytes index = some c := by
  simp [precedes]

@[simp] theorem precedes_eq_false_iff {c : Char} {index : Nat} :
    precedes bytes c index = false ↔ codeBefore? bytes index ≠ some c := by
  simp [precedes]

theorem codeBefore?_eq_some {index : Nat} {c : Char} :
    codeBefore? bytes index = some c ↔ ∃ i, index = i + 1 ∧ codeAt? bytes i = some c := by
  cases index with
  | zero => simp [codeBefore?]
  | succ i => simp [codeBefore?]

section

variable {i : Nat} {c : Char}

theorem step_chain (hc : codeAt? bytes i = some c) (h : isChainChar c = true) :
    step bytes (i + 1) = .ok (.goto i) := by
  have hbefore : codeBefore? bytes (i + 1) = some c := hc
  simp only [step, hbefore, minus_of_le (Nat.le_add_left 1 i), h]
  rfl

theorem step_nullsafe (hlast : codeAt? bytes (i + 2) = some '>')
    (hmiddle : codeAt? bytes (i + 1) = some '-') (hfirst : codeAt? bytes i = some '?') :
    step bytes (i + 3) = .ok (.goto i) := by
  have hbefore : codeBefore? bytes (i + 3) = some '>' := hlast
  have hminus : precedes bytes '-' (i + 2) = true := precedes_iff.mpr hmiddle
  have hmark : precedes bytes '?' (i + 1) = true := precedes_iff.mpr hfirst
  have hname : isChainChar '>' = false := rfl
  simp only [step, hbefore, hname, minus_of_le (Nat.le_add_left 1 (i + 2))]
  simp [hminus, hmark, bind, Except.bind, pure, Except.pure, minus]

theorem step_arrow (hlast : codeAt? bytes (i + 1) = some '>') (hc : codeAt? bytes i = some '-')
    (hfront : codeBefore? bytes i ≠ some '?') : step bytes (i + 2) = .ok (.goto i) := by
  have hbefore : codeBefore? bytes (i + 2) = some '>' := hlast
  have hminus : precedes bytes '-' (i + 1) = true := precedes_iff.mpr hc
  have hmark : precedes bytes '?' i = false := precedes_eq_false_iff.mpr hfront
  have hname : isChainChar '>' = false := rfl
  simp only [step, hbefore, hname, minus_of_le (Nat.le_add_left 1 (i + 1))]
  simp [hminus, hmark, bind, Except.bind, pure, Except.pure, minus]

theorem step_colons (hlast : codeAt? bytes (i + 1) = some ':') (hc : codeAt? bytes i = some ':') :
    step bytes (i + 2) = .ok (.goto i) := by
  have hbefore : codeBefore? bytes (i + 2) = some ':' := hlast
  have hbehind : precedes bytes ':' (i + 1) = true := precedes_iff.mpr hc
  have hname : isChainChar ':' = false := rfl
  simp only [step, hbefore, hname, minus_of_le (Nat.le_add_left 1 (i + 1))]
  simp [hbehind, bind, Except.bind, pure, Except.pure, minus]

theorem step_other (hc : codeAt? bytes i = some c) (hname : isChainChar c = false)
    (harrow : c = '>' → codeBefore? bytes i ≠ some '-')
    (hcolons : c = ':' → codeBefore? bytes i ≠ some ':') :
    step bytes (i + 1) =
      if isCloser c then (openFrom bytes (i + 1) 0).map fun found ↦ found.elim .unmatched .goto
      else if isAsciiBlank c && continuesChain (codes (bytes.drop (i + 1))) then .ok (.goto i)
      else .ok .stop := by
  have hbefore : codeBefore? bytes (i + 1) = some c := hc
  have harrow' : (c = '>' && precedes bytes '-' i) = false := by simpa using harrow
  have hcolons' : (c = ':' && precedes bytes ':' i) = false := by simpa using hcolons
  simp only [step, hbefore, hname, minus_of_le (Nat.le_add_left 1 i), Nat.add_sub_cancel, bind,
    Except.bind, harrow', hcolons']
  cases isCloser c with
  | false => rfl
  | true =>
    cases openFrom bytes (i + 1) 0 with
    | error fault => rfl
    | ok found => cases found <;> rfl

theorem step_closer (hc : codeAt? bytes i = some c) (h : isCloser c = true) :
    step bytes (i + 1) = (openFrom bytes i 1).map fun found ↦ found.elim .unmatched .goto := by
  have hclosers : c = ')' ∨ c = ']' := by simpa [isCloser] using h
  have hother (hname : isChainChar c = false) (harrow : c ≠ '>') (hcolon : c ≠ ':') :=
    step_other hc hname (absurd · harrow) (absurd · hcolon)
  rw [← openFrom_closer hc h, hother, h, if_pos rfl] <;> rcases hclosers with rfl | rfl <;> decide

end

def Plain (bytes : List UInt8) (start stop : Nat) : Prop :=
  ∀ i, start ≤ i → i < stop → ¬ At isBracket bytes i

theorem plain_succ {i : Nat} {c : Char} (hc : codeAt? bytes i = some c)
    (hplain : isBracket c = false) : Plain bytes i (i + 1) := by
  intro j hle hlt hbracket
  obtain rfl := Nat.le_antisymm (Nat.le_of_lt_succ hlt) hle
  obtain ⟨d, hd, hbracket⟩ := hbracket
  obtain rfl := Option.some.inj (hc.symm.trans hd)
  exact absurd hbracket (by simp [hplain])

theorem Plain.trans {i j k : Nat} (h : Plain bytes i j) (h' : Plain bytes j k) :
    Plain bytes i k := by
  intro n hle hlt
  rcases Nat.lt_or_ge n j with hn | hn
  · exact h n hle hn
  · exact h' n hn hlt

theorem isBracket_eq_false {p : Char → Bool} (hp : "()[]".toList.any p = false) {c : Char}
    (h : p c = true) : isBracket c = false := by
  refine Bool.eq_false_iff.mpr fun hbracket ↦ ?_
  have hmem : c ∈ "()[]".toList := by
    simp only [isBracket, isOpener, isCloser, Bool.or_eq_true, decide_eq_true_eq] at hbracket
    rcases hbracket with (rfl | rfl) | rfl | rfl <;> decide
  exact List.any_eq_false.mp hp c hmem h

theorem isBracket_of_isChainChar {c : Char} (h : isChainChar c = true) : isBracket c = false :=
  isBracket_eq_false (by decide) h

/-- What the steps of a scan are: it stops behind a character of one byte or at the start, goes back
over bytes among which no bracket is, or jumps over a group. -/
inductive Steps (bytes : List UInt8) : (index : Nat) → Move → Prop
  | start : Steps bytes 0 .stop
  | stop {i : Nat} {c : Char} : codeAt? bytes i = some c → isChainChar c = false →
    isCloser c = false → Steps bytes (i + 1) .stop
  | back {index next : Nat} : next < index → Plain bytes next index → Steps bytes index (.goto next)
  | jump {left right : Nat} : Pairs bytes left right → Steps bytes (right + 1) (.goto left)
  | unmatched {right : Nat} : At isCloser bytes right → (∀ left, ¬ Pairs bytes left right) →
    Steps bytes (right + 1) .unmatched

/-- Every step ends without a fault. -/
theorem exists_step {index : Nat} (h : index ≤ bytes.length) :
    ∃ move, step bytes index = .ok move ∧ Steps bytes index move := by
  cases index with
  | zero => exact ⟨.stop, rfl, .start⟩
  | succ i =>
    obtain ⟨c, hc⟩ := exists_codeAt? h
    cases hname : isChainChar c with
    | true =>
      refine ⟨.goto i, step_chain hc hname, .back (Nat.lt_succ_self i) ?_⟩
      exact plain_succ hc (isBracket_of_isChainChar hname)
    | false =>
    by_cases harrow : c = '>' ∧ codeBefore? bytes i = some '-'
    · obtain ⟨rfl, hminus⟩ := harrow
      obtain ⟨i, rfl, hminus⟩ := codeBefore?_eq_some.mp hminus
      have hplain : Plain bytes i (i + 2) := (plain_succ hminus rfl).trans (plain_succ hc rfl)
      by_cases hmark : codeBefore? bytes i = some '?'
      · obtain ⟨i, rfl, hmark⟩ := codeBefore?_eq_some.mp hmark
        exact ⟨.goto i, step_nullsafe hc hminus hmark,
          .back (by omega) ((plain_succ hmark rfl).trans hplain)⟩
      · exact ⟨.goto i, step_arrow hc hminus hmark, .back (by omega) hplain⟩
    by_cases hcolons : c = ':' ∧ codeBefore? bytes i = some ':'
    · obtain ⟨rfl, hcolon⟩ := hcolons
      obtain ⟨i, rfl, hcolon⟩ := codeBefore?_eq_some.mp hcolon
      exact ⟨.goto i, step_colons hc hcolon,
        .back (by omega) ((plain_succ hcolon rfl).trans (plain_succ hc rfl))⟩
    cases hcloser : isCloser c with
    | true =>
      have hright : At isCloser bytes i := ⟨c, hc, hcloser⟩
      have hmove := step_closer hc hcloser
      obtain ⟨left, hleft, hpairs⟩ | ⟨hnone, hunpaired⟩ :=
        openFrom_cases hright (open_closer hright)
      · rw [hleft] at hmove
        exact ⟨_, hmove, .jump hpairs⟩
      · rw [hnone] at hmove
        exact ⟨_, hmove, .unmatched hright hunpaired⟩
    | false =>
    have hother := step_other hc hname (fun hc' hb ↦ harrow ⟨hc', hb⟩)
      fun hc' hb ↦ hcolons ⟨hc', hb⟩
    rw [hcloser, if_neg Bool.false_ne_true] at hother
    split at hother
    · rename_i hblank
      have hplain := isBracket_eq_false (by decide) (Bool.and_eq_true_iff.mp hblank).1
      exact ⟨_, hother, .back (Nat.lt_succ_self i) (plain_succ hc hplain)⟩
    · exact ⟨_, hother, .stop hc hname hcloser⟩

variable {index next cursor : Nat} {move : Move} {result : Option Nat}

theorem steps_of_step (hle : index ≤ bytes.length) (h : step bytes index = .ok move) :
    Steps bytes index move := by
  obtain ⟨move', hmove', hsteps⟩ := exists_step hle
  obtain rfl := Except.ok.inj (hmove'.symm.trans h)
  exact hsteps

theorem Steps.lt (h : Steps bytes index (.goto next)) : next < index := by
  cases h with
  | back hlt _ => exact hlt
  | jump hpairs => exact Nat.lt_succ_of_lt hpairs.lt

inductive Ends (bytes : List UInt8) : (index : Nat) → (result : Option Nat) → Prop
  | stop {index : Nat} : step bytes index = .ok .stop → Ends bytes index (some index)
  | unmatched {index : Nat} : step bytes index = .ok .unmatched → Ends bytes index none
  | goto {index next : Nat} {result : Option Nat} : step bytes index = .ok (.goto next) →
    Ends bytes next result → Ends bytes index result

/-- Every scan ends. -/
theorem exists_ends (h : index ≤ bytes.length) : ∃ result, Ends bytes index result := by
  induction index using Nat.strongRecOn with
  | ind index ih =>
    obtain ⟨move, hmove, hsteps⟩ := exists_step h
    cases move with
    | stop => exact ⟨_, .stop hmove⟩
    | unmatched => exact ⟨_, .unmatched hmove⟩
    | goto next =>
      have hlt := hsteps.lt
      obtain ⟨result, hresult⟩ := ih next hlt (Nat.le_trans (Nat.le_of_lt hlt) h)
      exact ⟨result, .goto hmove hresult⟩

theorem Ends.run (h : Ends bytes index result) (hle : index ≤ bytes.length) {fuel : Nat}
    (hfuel : index < fuel) : run bytes fuel index = .ok result := by
  induction h generalizing fuel with
  | stop hmove =>
    obtain ⟨fuel, rfl⟩ := Nat.exists_eq_add_one.mpr (Nat.zero_lt_of_lt hfuel)
    rw [Scan.run, hmove]
    rfl
  | unmatched hmove =>
    obtain ⟨fuel, rfl⟩ := Nat.exists_eq_add_one.mpr (Nat.zero_lt_of_lt hfuel)
    rw [Scan.run, hmove]
    rfl
  | goto hmove _ ih =>
    obtain ⟨fuel, rfl⟩ := Nat.exists_eq_add_one.mpr (Nat.zero_lt_of_lt hfuel)
    have hlt := (steps_of_step hle hmove).lt
    rw [Scan.run, hmove]
    exact ih (by omega) (by omega)

def Reaches (bytes : List UInt8) : Nat → Nat → Prop :=
  Relation.ReflTransGen fun index next ↦ step bytes index = .ok (.goto next)

structure Crosses (bytes : List UInt8) (cursor left right : Nat) : Prop where
  reaches : Reaches bytes cursor (right + 1)
  jump : step bytes (right + 1) = .ok (.goto left)
  pairs : Pairs bytes left right

def MeetsUnpaired (bytes : List UInt8) (cursor : Nat) : Prop :=
  ∃ right, Reaches bytes cursor (right + 1) ∧ At isCloser bytes right ∧
    ∀ left, ¬ Pairs bytes left right

/-- The brackets between two places are in groups between them that a scan jumps over. -/
def Grouped (bytes : List UInt8) (start cursor : Nat) : Prop :=
  ∀ i, start ≤ i → i < cursor → At isBracket bytes i → ∃ left right,
    (start ≤ left ∧ left ≤ i ∧ i ≤ right ∧ right < cursor) ∧ Crosses bytes cursor left right

theorem Crosses.head {left right : Nat} (hmove : step bytes index = .ok (.goto next))
    (h : Crosses bytes next left right) : Crosses bytes index left right :=
  ⟨.head hmove h.reaches, h.jump, h.pairs⟩

theorem Ends.le (h : Ends bytes index result) (hle : index ≤ bytes.length) :
    ∀ start ∈ result, start ≤ index := by
  induction h with
  | stop _ =>
    rintro start ⟨⟩
    exact Nat.le_refl _
  | unmatched _ => exact nofun
  | goto hmove _ ih =>
    have hlt := (steps_of_step hle hmove).lt
    intro start hstart
    exact Nat.le_trans (ih (by omega) start hstart) (Nat.le_of_lt hlt)

theorem Ends.behind (h : Ends bytes index result) (hle : index ≤ bytes.length) :
    ∀ start ∈ result, start = 0 ∨ ∃ i c, start = i + 1 ∧ codeAt? bytes i = some c ∧
      isChainChar c = false := by
  induction h with
  | stop hmove =>
    rintro start ⟨⟩
    cases steps_of_step hle hmove with
    | start => exact .inl rfl
    | stop hc hname _ => exact .inr ⟨_, _, rfl, hc, hname⟩
  | unmatched _ => exact nofun
  | goto hmove _ ih =>
    have hlt := (steps_of_step hle hmove).lt
    exact ih (by omega)

theorem Ends.grouped (h : Ends bytes index result) (hle : index ≤ bytes.length) :
    ∀ start ∈ result, Grouped bytes start index := by
  induction h with
  | stop hmove =>
    rintro start ⟨⟩ i hge hlt
    omega
  | unmatched _ => exact nofun
  | @goto index next result hmove hrest ih =>
    have hsteps := steps_of_step hle hmove
    have hnext : next ≤ bytes.length := by
      have hlt := hsteps.lt
      omega
    intro start hstart i hge hlt hbracket
    rcases Nat.lt_or_ge i next with hi | hi
    · obtain ⟨left, right, hbounds, hcrosses⟩ := ih hnext start hstart i hge hi hbracket
      have hlt := hsteps.lt
      exact ⟨left, right, by omega, hcrosses.head hmove⟩
    · cases hsteps with
      | back _ hplain => exact absurd hbracket (hplain i hi hlt)
      | jump hpairs =>
        have hstart' := hrest.le hnext start hstart
        exact ⟨_, _, ⟨hstart', hi, by omega, by omega⟩, .refl, hmove, hpairs⟩

theorem Steps.unmatched_of_unpaired {right : Nat} (h : Steps bytes (right + 1) move)
    (hright : At isCloser bytes right) (hunpaired : ∀ left, ¬ Pairs bytes left right) :
    move = .unmatched := by
  obtain ⟨c, hc, hcloser⟩ := hright
  cases h with
  | stop hd _ hplain =>
    obtain rfl := Option.some.inj (hc.symm.trans hd)
    exact absurd hcloser (by simp [hplain])
  | back hlt hplain =>
    exact absurd ⟨c, hc, by simp [isBracket, hcloser]⟩ (hplain right (by omega) (by omega))
  | jump hpairs => exact absurd hpairs (hunpaired _)
  | unmatched _ _ => rfl

theorem meetsUnpaired_iff (hle : index ≤ bytes.length) (hmove : step bytes index = .ok move) :
    MeetsUnpaired bytes index ↔ move = .unmatched ∨
      ∃ next, move = .goto next ∧ MeetsUnpaired bytes next := by
  constructor
  · rintro ⟨right, hreaches, hright, hunpaired⟩
    obtain rfl | ⟨next, hnext, hrest⟩ := Relation.ReflTransGen.cases_head hreaches
    · exact .inl ((steps_of_step hle hmove).unmatched_of_unpaired hright hunpaired)
    · exact .inr ⟨next, Except.ok.inj (hmove.symm.trans hnext), right, hrest, hright, hunpaired⟩
  · rintro (rfl | ⟨next, rfl, right, hreaches, hright, hunpaired⟩)
    · cases steps_of_step hle hmove with
      | unmatched hright hunpaired => exact ⟨_, .refl, hright, hunpaired⟩
    · exact ⟨right, .head hmove hreaches, hright, hunpaired⟩

theorem Ends.none_iff (h : Ends bytes index result) (hle : index ≤ bytes.length) :
    result = none ↔ MeetsUnpaired bytes index := by
  induction h with
  | stop hmove => simp [meetsUnpaired_iff hle hmove]
  | unmatched hmove => simp [meetsUnpaired_iff hle hmove]
  | goto hmove _ ih =>
    have hlt := (steps_of_step hle hmove).lt
    simp [meetsUnpaired_iff hle hmove, ih (by omega)]

end PhpInsight.Grammar.Scan
