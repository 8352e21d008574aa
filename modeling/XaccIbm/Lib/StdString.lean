import Mathlib.Data.List.DropRight
import Mathlib.Data.List.Infix
import Mathlib.Data.List.TakeWhile
import XaccIbm.Lib.Json

/-!
# StdString — the C++ string functions

The functions of the standard library, and the two of the framework, that
the plugin calls on strings. `std::stod` is read as the exact decimal it
stands for; hexadecimal and special values are not accepted.
-/

namespace XaccIbm.StdString

/-- `::isspace` in the C locale. -/
def isspace (c : Char) : Bool :=
  c == ' ' || c == '\t' || c == '\n' || c == '\x0b' || c == '\x0c' || c == '\r'

/-- `erase(remove_if(…, ::isspace), …)`. -/
def eraseSpaces (s : String) : String :=
  String.ofList (s.toList.filter fun c => !isspace c)

/-- `s.find(pat) != npos`. -/
def contains (s pat : String) : Bool := decide (pat.toList <:+: s.toList)

/-- `std::regex_replace(s, std::regex("\n"), "\\n")`. -/
def escapeNewlines (s : String) : String :=
  String.ofList (s.toList.flatMap fun c => if c = '\n' then ['\\', 'n'] else [c])

/-- `s.substr(0, s.length() - 1)`: all but the last character. -/
def cutLast (s : String) : String := String.ofList s.toList.dropLast

/-- `xacc::split`: the pieces between the occurrences of a character. -/
def split (s : String) (c : Char) : List String :=
  (s.toList.splitOn c).map String.ofList

/-- `xacc::trim`: without the whitespace at the ends. -/
def trim (s : String) : String :=
  String.ofList ((s.toList.dropWhile isspace).rdropWhile isspace)

/-- A sign in front of a number. -/
def sign : List Char → Bool × List Char
  | '-' :: cs => (true, cs)
  | '+' :: cs => (false, cs)
  | cs => (false, cs)

def digitsValue (cs : List Char) : Nat :=
  cs.foldl (fun n c => 10 * n + Json.digitValue c) 0

/-- `std::stoi`: `none` where it throws. -/
def stoi (s : String) : Option Int :=
  let (negative, cs) := sign (s.toList.dropWhile isspace)
  let digits := cs.takeWhile Char.isDigit
  let n : Int := digitsValue digits
  let n := if negative then -n else n
  if digits = [] ∨ n < -2 ^ 31 ∨ 2 ^ 31 ≤ n then none else some n

theorem isspace_of_isDigit {c : Char} (h : c.isDigit = true) :
    isspace c = false := by
  cases hs : isspace c with
  | false => rfl
  | true =>
      simp only [isspace, Bool.or_eq_true, beq_iff_eq] at hs
      rcases hs with ((((rfl | rfl) | rfl) | rfl) | rfl) | rfl <;>
        exact absurd h (by decide)

theorem sign_of_isDigit {cs : List Char} (h : ∀ c ∈ cs, c.isDigit = true) :
    sign cs = (false, cs) := by
  cases cs with
  | nil => rfl
  | cons c cs =>
      have hc := h c (by simp)
      unfold sign
      split
      · rename_i heq
        cases heq
        exact absurd hc (by decide)
      · rename_i heq
        cases heq
        exact absurd hc (by decide)
      · rfl

/-- A text of digits is read whole, when the number fits an `int`. -/
theorem stoi_of_digits {s : String} (hne : s.toList ≠ [])
    (h : ∀ c ∈ s.toList, c.isDigit = true) :
    stoi s = if digitsValue s.toList < 2 ^ 31 then
      some (digitsValue s.toList : Int) else none := by
  have hdrop : s.toList.dropWhile isspace = s.toList := by
    refine List.dropWhile_eq_self_iff.mpr fun hlen => ?_
    simp [isspace_of_isDigit (h _ (List.getElem_mem hlen))]
  have htake : s.toList.takeWhile Char.isDigit = s.toList :=
    List.takeWhile_eq_self_iff.mpr h
  rw [stoi, hdrop, sign_of_isDigit h]
  simp only [htake, hne, false_or, Bool.false_eq_true, if_false]
  by_cases hlt : digitsValue s.toList < 2 ^ 31
  · rw [if_pos hlt, if_neg (by omega)]
  · rw [if_neg hlt, if_pos (by omega)]

/-- The exponent of a decimal, when one is there. -/
def exponent : List Char → Int
  | c :: cs =>
      if c = 'e' ∨ c = 'E' then
        let (negative, ds) := sign cs
        let n : Int := digitsValue (ds.takeWhile Char.isDigit)
        if negative then -n else n
      else 0
  | [] => 0

/-- `std::stod`: the longest decimal in front, `none` where it throws. -/
def stod (s : String) : Option ℚ :=
  let (negative, cs) := sign (s.toList.dropWhile isspace)
  let whole := cs.takeWhile Char.isDigit
  let rest := cs.dropWhile Char.isDigit
  let (frac, rest) :=
    match rest with
    | '.' :: ds => (ds.takeWhile Char.isDigit, ds.dropWhile Char.isDigit)
    | _ => ([], rest)
  if whole = [] ∧ frac = [] then none
  else
    let m : ℚ := digitsValue (whole ++ frac) / 10 ^ frac.length
    let e := exponent rest
    let x := if e < 0 then m / 10 ^ e.natAbs else m * 10 ^ e.natAbs
    some (if negative then -x else x)

theorem trim_space (cs : List Char) :
    trim (String.ofList (' ' :: cs)) = trim (String.ofList cs) := by
  simp only [trim, String.toList_ofList]
  rw [List.dropWhile_cons_of_pos (by decide)]

theorem trim_sublist (s : String) : (trim s).toList.Sublist s.toList := by
  rw [trim, String.toList_ofList]
  exact (List.rdropWhile_prefix _ _).sublist.trans (List.dropWhile_sublist _)

/-- A text without a character occurs on one side of the character. -/
theorem infix_append_cons {α : Type} {pat a b : List α} {x : α} (hx : x ∉ pat) :
    pat <:+: a ++ x :: b ↔ pat <:+: a ∨ pat <:+: b := by
  constructor
  · rintro ⟨s, t, h⟩
    rcases List.append_eq_append_iff.mp h with ⟨a', rfl, _⟩ | ⟨c, hc, hb⟩
    · exact .inl ⟨s, a', rfl⟩
    · rcases List.append_eq_append_iff.mp hc with ⟨d, rfl, hd⟩ | ⟨d, rfl, rfl⟩
      · cases c with
        | nil => exact .inl ⟨s, [], by rw [← List.append_nil d, ← hd]; simp⟩
        | cons y c =>
            cases hb
            exact absurd (hd ▸ by simp) hx
      · cases d with
        | nil =>
            cases pat with
            | nil => exact .inl (List.nil_infix)
            | cons y pat =>
                cases hb
                exact absurd List.mem_cons_self hx
        | cons y d =>
            cases hb
            exact .inr ⟨d, t, rfl⟩
  · rintro (⟨s, t, rfl⟩ | ⟨s, t, rfl⟩)
    · exact ⟨s, t ++ x :: b, by simp⟩
    · exact ⟨a ++ x :: s, t, by simp⟩

example : stoi " 1024 shots" = some 1024 := by decide

end XaccIbm.StdString
