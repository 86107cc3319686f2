import Mathlib.Data.Char
import Mathlib.Tactic.SplitIfs
import PhpInsight.Text.Bytes

namespace PhpInsight.Text

def utf8 (cs : List Char) : List UInt8 := cs.flatMap String.utf8EncodeChar

theorem length_utf8 (cs : List Char) : (utf8 cs).length = byteLength cs := by
  induction cs with
  | nil => rfl
  | cons c cs ih =>
    rw [utf8, List.flatMap_cons, List.length_append, String.length_utf8EncodeChar, byteLength,
      ← utf8, ih]

theorem utf8_cons (c : Char) (cs : List Char) :
    utf8 (c :: cs) = String.utf8EncodeChar c ++ utf8 cs := by
  rw [utf8, List.flatMap_cons, utf8]

theorem utf8_append (cs ds : List Char) : utf8 (cs ++ ds) = utf8 cs ++ utf8 ds :=
  List.flatMap_append

theorem utf8EncodeChar_append_inj {c d : Char} {xs ys : List UInt8}
    (h : String.utf8EncodeChar c ++ xs = String.utf8EncodeChar d ++ ys) : c = d ∧ xs = ys := by
  have hdecode (c : Char) (xs : List UInt8) :
      (String.utf8EncodeChar c ++ xs).toByteArray.utf8DecodeChar? 0 = some c := by
    rw [List.toByteArray_append, ByteArray.utf8DecodeChar?_utf8EncodeChar_append]
  obtain rfl : c = d := Option.some.inj <| by rw [← hdecode c xs, h, hdecode d ys]
  exact ⟨rfl, List.append_cancel_left h⟩

theorem prefix_of_utf8 {head ds : List Char} (zs : List UInt8) (h : utf8 head ++ zs = utf8 ds) :
    head <+: ds := by
  induction head generalizing ds with
  | nil => exact List.nil_prefix
  | cons c head ih =>
    cases ds with
    | nil =>
      rw [utf8_cons, List.append_assoc] at h
      exact absurd (List.append_eq_nil_iff.mp h).1 String.utf8EncodeChar_ne_nil
    | cons d ds =>
      rw [utf8_cons, utf8_cons, List.append_assoc] at h
      obtain ⟨rfl, hrest⟩ := utf8EncodeChar_append_inj h
      exact List.cons_prefix_cons.mpr ⟨rfl, ih hrest⟩

/-- The first byte grows with the number of bytes that a character takes, and characters of as many
bytes have the digits of their code point in them. So the bytes of a greater character are greater,
whatever follows. -/
theorem utf8EncodeChar_append_lt {c d : Char} (h : c < d) (xs ys : List UInt8) :
    String.utf8EncodeChar c ++ xs < String.utf8EncodeChar d ++ ys := by
  have hlt : c.val.toNat < d.val.toNat := h
  have hbound : d.val.toNat < 1114112 := by
    have hvalid : d.val.toNat < 55296 ∨ 57343 < d.val.toNat ∧ d.val.toNat < 1114112 := d.valid
    omega
  have hsecond (k : Nat) : k / 4096 = k / 64 / 64 := (Nat.div_div_eq_div_mul k 64 64).symm
  have hthird (k : Nat) : k / 262144 = k / 64 / 64 / 64 := by
    rw [Nat.div_div_eq_div_mul, Nat.div_div_eq_div_mul]
  simp only [String.utf8EncodeChar, hsecond, hthird]
  split_ifs <;>
    simp only [List.cons_append, List.nil_append, List.cons_lt_cons_iff, UInt8.lt_iff_toNat_lt,
      ← UInt8.toNat_inj, UInt8.toNat_ofNat'] <;>
    omega

theorem append_lt_append_iff (zs xs ys : List UInt8) : zs ++ xs < zs ++ ys ↔ xs < ys := by
  induction zs with
  | nil => rfl
  | cons z zs ih => simp [ih]

theorem utf8_lt_iff {cs ds : List Char} : utf8 cs < utf8 ds ↔ cs < ds := by
  induction cs generalizing ds with
  | nil =>
    cases ds with
    | nil => simp [utf8]
    | cons d ds =>
      obtain ⟨b, bs, hbytes⟩ := List.exists_cons_of_ne_nil (String.utf8EncodeChar_ne_nil (c := d))
      simp [utf8, hbytes]
  | cons c cs ih =>
    cases ds with
    | nil => simp [utf8]
    | cons d ds =>
      rw [utf8_cons, utf8_cons, List.cons_lt_cons_iff]
      obtain hlt | rfl | hgt := lt_trichotomy c d
      · exact iff_of_true (utf8EncodeChar_append_lt hlt _ _) (.inl hlt)
      · rw [append_lt_append_iff, ih]
        simp
      · have hbytes := utf8EncodeChar_append_lt hgt (utf8 ds) (utf8 cs)
        refine iff_of_false (fun h ↦ List.lt_asymm h hbytes) ?_
        intro h
        obtain hcd | ⟨rfl, -⟩ := h
        · exact lt_asymm hgt hcd
        · exact lt_irrefl c hgt

end PhpInsight.Text
