import Mathlib.Data.Nat.Digits.Defs
import XaccIbm.Lib.Decimal
import XaccIbm.Lib.Lexing
import XaccIbm.Lib.StdString

/-!
# OpenQasm — Token

The tokens of `OQASM2.g4`, as the generated lexer has them: an `ID` starts
with a small letter and is no keyword, an `INT` is digits, a `REAL` has a
point. A token whose text the rule does not allow cannot be built. `WS` is
skipped; a lone newline is `WS`, so `EOL` is left with `\r\n` only.
-/

namespace XaccIbm.OpenQasm

/-- The literals of the grammar and its keywords. -/
def literals : List String :=
  ["__qpu__", "(", "AcceleratorBuffer", ",", ")", "\x7b", "\x7d", "int", "double",
    "float", ";", "include", "[", "]", "U", "CX", "if", "==", "pi", "+", "-",
    "*", "/", "^", "sin", "cos", "tan", "exp", "ln", "sqrt", "->", "qreg",
    "creg", "gate", "measure", "reset", "barrier", "OpenQASM", "OPENQASM",
    "opaque"]

/-- `[a-z]`. -/
def isLower (c : Char) : Bool := c.isLower

/-- `[A-Za-z0-9_]`. -/
def isWord (c : Char) : Bool := c.isAlphanum || c == '_'

/-- `ID`, where no keyword is meant. -/
def isID : List Char → Bool
  | c :: cs => isLower c && cs.all isWord && !literals.contains (String.ofList (c :: cs))
  | [] => false

/-- `INT`. -/
def isINT (cs : List Char) : Bool := !cs.isEmpty && cs.all Char.isDigit

/-- `REAL`: digits, a point, and digits or none. -/
def isREAL (cs : List Char) : Bool :=
  isINT (cs.takeWhile Char.isDigit) &&
    match cs.dropWhile Char.isDigit with
    | '.' :: ds => ds.all Char.isDigit
    | _ => false

/-- `STRING`. -/
def isSTRING : List Char → Bool
  | '"' :: cs => (cs.dropLast.all (· != '"')) && cs.getLast? == some '"'
  | _ => false

/-- `COMMENT`, which ends with its line. -/
def isCOMMENT : List Char → Bool
  | '/' :: '/' :: cs =>
      (cs.dropWhile fun c => c != '\r' && c != '\n') ∈ [['\n'], ['\r', '\n']]
  | _ => false

@[ext]
structure ID where
  text : String
  spelled : isID text.toList = true
  deriving DecidableEq

@[ext]
structure INT where
  text : String
  spelled : isINT text.toList = true
  deriving DecidableEq

/-- The number an `INT` stands for. -/
def INT.value (n : INT) : Nat := StdString.digitsValue n.text.toList

@[ext]
structure REAL where
  text : String
  spelled : isREAL text.toList = true
  deriving DecidableEq

@[ext]
structure STRING where
  text : String
  spelled : isSTRING text.toList = true
  deriving DecidableEq

@[ext]
structure COMMENT where
  text : String
  spelled : isCOMMENT text.toList = true
  deriving DecidableEq

/-- A literal or keyword. -/
@[ext]
structure Literal where
  text : String
  spelled : literals.contains text = true
  deriving DecidableEq

inductive Token where
  | lit (l : Literal)
  | COMMENT (c : COMMENT)
  | ID (x : ID)
  | REAL (r : REAL)
  | INT (n : INT)
  | STRING (s : STRING)
  | EOL
  deriving DecidableEq

namespace Token

/-- `getText()`. -/
def text : Token → String
  | lit l => l.text
  | COMMENT c => c.text
  | ID x => x.text
  | REAL r => r.text
  | INT n => n.text
  | STRING s => s.text
  | EOL => "\r\n"

end Token

/-- `WS`. -/
def isWS (c : Char) : Bool := c == ' ' || c == '\t' || c == '\r' || c == '\n'

/-- The lexer of the grammar. -/
def lexer : Lexing.Tokens Char Token where
  text t := t.text.toList
  skip := isWS

/-! ## Characters of tokens -/

/-- A name starts with a small letter. -/
theorem ID.toList_eq (x : ID) : ∃ c cs, x.text.toList = c :: cs ∧ c.isLower = true := by
  have hspelled := x.spelled
  cases htext : x.text.toList with
  | nil =>
      rw [htext] at hspelled
      cases hspelled
  | cons c cs =>
      rw [htext, isID, Bool.and_eq_true, Bool.and_eq_true] at hspelled
      exact ⟨c, cs, rfl, hspelled.1.1⟩

theorem isWord_of_isLower {c : Char} (h : c.isLower = true) : isWord c = true := by
  show (((c.isUpper || c.isLower) || c.isDigit) || c == '_') = true
  rw [h, Bool.or_true]
  rfl

theorem isWord_of_isDigit {c : Char} (h : c.isDigit = true) : isWord c = true := by
  show (((c.isUpper || c.isLower) || c.isDigit) || c == '_') = true
  rw [h, Bool.or_true]
  rfl

theorem ID.isWord_of_mem {x : ID} {c : Char} (hc : c ∈ x.text.toList) : isWord c = true := by
  have hspelled := x.spelled
  cases htext : x.text.toList with
  | nil =>
      rw [htext] at hc
      cases hc
  | cons d cs =>
      rw [htext, isID, Bool.and_eq_true, Bool.and_eq_true] at hspelled
      rw [htext] at hc
      rcases List.mem_cons.mp hc with rfl | hc
      · exact isWord_of_isLower hspelled.1.1
      · exact List.all_eq_true.mp hspelled.1.2 c hc

theorem INT.isDigit_of_mem {n : INT} {c : Char} (hc : c ∈ n.text.toList) :
    c.isDigit = true := by
  have hspelled := n.spelled
  rw [isINT, Bool.and_eq_true] at hspelled
  exact List.all_eq_true.mp hspelled.2 c hc

theorem REAL.isDigit_of_mem {r : REAL} {c : Char} (hc : c ∈ r.text.toList) :
    c.isDigit = true ∨ c = '.' := by
  have hspelled := r.spelled
  rw [isREAL, Bool.and_eq_true] at hspelled
  rw [← List.takeWhile_append_dropWhile (p := Char.isDigit) (l := r.text.toList)] at hc
  rcases List.mem_append.mp hc with hc | hc
  · exact .inl (List.mem_takeWhile_imp hc)
  · obtain ⟨_, hrest⟩ := hspelled
    split at hrest
    · rename_i ds hds
      rw [hds] at hc
      rcases List.mem_cons.mp hc with rfl | hc
      · exact .inr rfl
      · exact .inl (List.all_eq_true.mp hrest c hc)
    · cases hrest

theorem Literal.mem_literals (l : Literal) : l.text ∈ literals :=
  List.contains_iff_mem.mp l.spelled

end XaccIbm.OpenQasm
