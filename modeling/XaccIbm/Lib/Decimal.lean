import Mathlib.Data.List.TakeWhile

/-!
# Decimal — numbers inside a text

`std::to_string` of a natural number is its decimal digits. Inside a text
the number ends where the digits end, so the text around it determines it.
-/

namespace XaccIbm.Decimal

theorem toList_toString (n : Nat) :
    (toString n).toList = Nat.toDigits 10 n := by
  simp

theorem isDigit_of_mem {n : Nat} {c : Char} (h : c ∈ (toString n).toList) :
    c.isDigit = true := by
  rw [toList_toString] at h
  exact Nat.isDigit_of_mem_toDigits (by decide) (by decide) h

theorem toDigits_inj {a b : Nat} (h : Nat.toDigits 10 a = Nat.toDigits 10 b) :
    a = b := by
  have ha := Nat.ofDigitChars_ten_toDigits (n := a)
  rw [h, Nat.ofDigitChars_ten_toDigits] at ha
  exact ha.symm

/-- The digits of a number are what a reader takes before the first
character that is not a digit. -/
theorem takeWhile_toString (n : Nat) {c : Char} (hc : c.isDigit = false)
    (s : List Char) :
    ((toString n).toList ++ c :: s).takeWhile Char.isDigit
      = (toString n).toList := by
  rw [List.takeWhile_append_of_pos (fun d hd => isDigit_of_mem hd),
    List.takeWhile_cons_of_neg (by simp [hc]), List.append_nil]

/-- A number that ends at a non-digit is determined by the text. -/
theorem toString_inj_of_append {a b : Nat} {c c' : Char} {s s' : List Char}
    (hc : c.isDigit = false) (hc' : c'.isDigit = false)
    (h : (toString a).toList ++ c :: s = (toString b).toList ++ c' :: s') :
    a = b := by
  have ht := congrArg (List.takeWhile Char.isDigit) h
  rw [takeWhile_toString a hc, takeWhile_toString b hc', toList_toString,
    toList_toString] at ht
  exact toDigits_inj ht

end XaccIbm.Decimal
