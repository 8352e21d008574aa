import Mathlib.Algebra.Order.Field.Rat
import XaccIbm.Lib.Decimal

/-!
# Json — reading a JSON text

A reader for JSON texts: a text is well formed when `parse` gives a value,
and the value is what the text says. It works in three passes of one
character or one token at a time, so that reading `a ++ b` is reading `a`
and then `b`: the number automaton (`readNumber`), the lexer (`lexRun`) and
the stack machine over tokens (`parseRun`). Numbers are their exact decimal
values.
-/

namespace XaccIbm

inductive Json where
  | null
  | bool (b : Bool)
  | num (x : ℚ)
  | str (s : String)
  | arr (elems : List Json)
  | obj (members : List (String × Json))

namespace Json

/-- A member of an object. -/
def get? (j : Json) (key : String) : Option Json :=
  match j with
  | obj members => members.lookup key
  | _ => none

/-- The value at the end of a path of members. -/
def member (j : Json) (path : List String) : Option Json := path.foldlM get? j

/-- The elements of an array. -/
def elems? : Json → Option (List Json)
  | arr elems => some elems
  | _ => none

def str? : Json → Option String
  | str s => some s
  | _ => none

def num? : Json → Option ℚ
  | num x => some x
  | _ => none

def bool? : Json → Option Bool
  | bool b => some b
  | _ => none

def members? : Json → Option (List (String × Json))
  | obj members => some members
  | _ => none

/-- A whole number that fits an `int`. -/
def int? : Json → Option Int
  | num x => if x.den = 1 ∧ x.num.bmod (2 ^ 32) = x.num then some x.num else none
  | _ => none

/-! ## Numbers -/

/-- How far a number text has got. -/
inductive NumPhase where
  | start
  | minus
  | zero
  | int
  | point
  | frac
  | exp
  | expSign
  | expInt
  deriving DecidableEq

/-- A number text read so far: its digits as one number, how many of them
are behind the point, and its exponent. -/
structure NumAcc where
  phase : NumPhase := .start
  negative : Bool := false
  digits : Nat := 0
  scale : Nat := 0
  expNegative : Bool := false
  exponent : Nat := 0

def digitValue (c : Char) : Nat := c.toNat - '0'.toNat

def NumAcc.digit (a : NumAcc) (phase : NumPhase) (c : Char) : NumAcc :=
  { a with phase := phase, digits := 10 * a.digits + digitValue c }

def NumAcc.fracDigit (a : NumAcc) (c : Char) : NumAcc :=
  { a with
    phase := .frac
    digits := 10 * a.digits + digitValue c
    scale := a.scale + 1 }

def NumAcc.expDigit (a : NumAcc) (c : Char) : NumAcc :=
  { a with phase := .expInt, exponent := 10 * a.exponent + digitValue c }

/-- The number grammar: `-? int frac? exp?`, no leading zeros. -/
def NumAcc.step (a : NumAcc) (c : Char) : Option NumAcc :=
  match a.phase with
  | .start =>
      if c = '-' then some { a with phase := .minus, negative := true }
      else if c = '0' then some (a.digit .zero c)
      else if c.isDigit then some (a.digit .int c)
      else none
  | .minus =>
      if c = '0' then some (a.digit .zero c)
      else if c.isDigit then some (a.digit .int c)
      else none
  | .zero =>
      if c = '.' then some { a with phase := .point }
      else if c = 'e' ∨ c = 'E' then some { a with phase := .exp }
      else none
  | .int =>
      if c.isDigit then some (a.digit .int c)
      else if c = '.' then some { a with phase := .point }
      else if c = 'e' ∨ c = 'E' then some { a with phase := .exp }
      else none
  | .point => if c.isDigit then some (a.fracDigit c) else none
  | .frac =>
      if c.isDigit then some (a.fracDigit c)
      else if c = 'e' ∨ c = 'E' then some { a with phase := .exp }
      else none
  | .exp =>
      if c = '-' then some { a with phase := .expSign, expNegative := true }
      else if c = '+' then some { a with phase := .expSign }
      else if c.isDigit then some (a.expDigit c)
      else none
  | .expSign => if c.isDigit then some (a.expDigit c) else none
  | .expInt => if c.isDigit then some (a.expDigit c) else none

def NumAcc.value (a : NumAcc) : ℚ :=
  let m : ℚ := (a.digits : ℚ) / 10 ^ a.scale
  let m := if a.expNegative then m / 10 ^ a.exponent else m * 10 ^ a.exponent
  if a.negative then -m else m

/-- A number may end after its integer part, its fraction or its exponent. -/
def NumAcc.finish (a : NumAcc) : Option ℚ :=
  match a.phase with
  | .zero | .int | .frac | .expInt => some a.value
  | _ => none

def NumAcc.run (a : NumAcc) : List Char → Option NumAcc
  | [] => some a
  | c :: cs => (a.step c).bind fun b => b.run cs

/-- The value of a number text. -/
def readNumber (cs : List Char) : Option ℚ :=
  (NumAcc.run {} cs).bind NumAcc.finish

/-- The characters a number text is made of. -/
def isNumberChar (c : Char) : Bool :=
  c.isDigit || c == '-' || c == '+' || c == '.' || c == 'e' || c == 'E'

theorem NumAcc.isNumberChar_of_step {a b : NumAcc} {c : Char}
    (h : a.step c = some b) : isNumberChar c = true := by
  by_contra hc
  simp only [isNumberChar, Bool.or_eq_true, not_or, beq_iff_eq,
    Bool.not_eq_true] at hc
  obtain ⟨⟨⟨⟨⟨hd, h1⟩, h2⟩, h3⟩, h4⟩, h5⟩ := hc
  have h0 : c ≠ '0' := by
    rintro rfl
    cases hd
  unfold NumAcc.step at h
  cases hp : a.phase <;> simp [hp, hd, h0, h1, h2, h3, h4, h5] at h

theorem NumAcc.run_append (a : NumAcc) (cs ds : List Char) :
    a.run (cs ++ ds) = (a.run cs).bind fun b => b.run ds := by
  induction cs generalizing a with
  | nil => rfl
  | cons c cs ih =>
      simp only [List.cons_append, NumAcc.run]
      cases a.step c with
      | none => rfl
      | some b => exact ih b

theorem NumAcc.isNumberChar_of_run {a b : NumAcc} {cs : List Char}
    (h : a.run cs = some b) : ∀ c ∈ cs, isNumberChar c = true := by
  induction cs generalizing a with
  | nil => simp
  | cons c cs ih =>
      rw [NumAcc.run, Option.bind_eq_some_iff] at h
      obtain ⟨a', hs, hr⟩ := h
      intro d hd
      rcases List.mem_cons.mp hd with rfl | hd
      · exact NumAcc.isNumberChar_of_step hs
      · exact ih hr d hd

theorem isNumberChar_of_readNumber {cs : List Char} {x : ℚ}
    (h : readNumber cs = some x) : ∀ c ∈ cs, isNumberChar c = true := by
  rw [readNumber, Option.bind_eq_some_iff] at h
  obtain ⟨b, hb, _⟩ := h
  exact NumAcc.isNumberChar_of_run hb

/-- A number text starts with a sign or a digit. -/
theorem readNumber_cons {cs : List Char} {x : ℚ}
    (h : readNumber cs = some x) :
    ∃ c ds, cs = c :: ds ∧ (c = '-' ∨ c.isDigit = true) := by
  cases cs with
  | nil => cases h
  | cons c ds =>
      refine ⟨c, ds, rfl, ?_⟩
      by_contra hc
      rw [not_or, Bool.not_eq_true] at hc
      have h0 : c ≠ '0' := by
        rintro rfl
        cases hc.2
      simp [readNumber, NumAcc.run, NumAcc.step, hc.1, hc.2, h0] at h

private theorem digitChar_facts : ∀ d, d < 10 →
    (Nat.digitChar d).isDigit = true ∧ digitValue (Nat.digitChar d) = d ∧
      (Nat.digitChar d = '0' ↔ d = 0) ∧ Nat.digitChar d ≠ '-' := by
  decide

/-- The digits of a positive number, read as a number text. -/
theorem run_toDigits (n : Nat) (hn : 0 < n) :
    NumAcc.run {} (Nat.toDigits 10 n)
      = some { phase := .int, digits := n } := by
  induction n using Nat.strong_induction_on with
  | _ n ih =>
      by_cases hlt : n < 10
      · obtain ⟨hd, hv, h0, hm⟩ := digitChar_facts n hlt
        have h0' : Nat.digitChar n ≠ '0' := fun h => by
          have := h0.mp h
          omega
        rw [Nat.toDigits_of_lt_base hlt]
        simp [NumAcc.run, NumAcc.step, NumAcc.digit, hd, hv, h0', hm]
      · obtain ⟨hd, hv, _, _⟩ := digitChar_facts (n % 10)
          (Nat.mod_lt _ (by decide))
        rw [Nat.toDigits_of_base_le (by decide) (by omega), NumAcc.run_append,
          ih (n / 10) (by omega) (by omega)]
        simp only [Option.bind_some, NumAcc.run, NumAcc.step, hd, if_true,
          NumAcc.digit, hv]
        rw [show 10 * (n / 10) + n % 10 = n by omega]

/-- `std::to_string` writes a number text. -/
theorem readNumber_toString (n : Nat) :
    readNumber (toString n).toList = some (n : ℚ) := by
  rw [Decimal.toList_toString]
  rcases Nat.eq_zero_or_pos n with rfl | hn
  · simp [readNumber, Nat.toDigits_zero, NumAcc.run, NumAcc.step, NumAcc.digit,
      NumAcc.finish, NumAcc.value, digitValue]
  · rw [readNumber, run_toDigits n hn]
    simp [NumAcc.finish, NumAcc.value]

/-! ## Tokens -/

inductive Token where
  | lbrace
  | rbrace
  | lbracket
  | rbracket
  | colon
  | comma
  | str (s : String)
  | num (x : ℚ)
  | bool (b : Bool)
  | null
deriving DecidableEq

/-- What the lexer is in the middle of. -/
inductive Mode where
  | idle
  | str (acc : List Char)
  | escape (acc : List Char)
  /-- In `\uXXXX`: `left` digits to come, `value` so far, and the high half
  of a surrogate pair when this is its low half. -/
  | unicode (acc : List Char) (high : Option Nat) (left value : Nat)
  /-- After a high surrogate: a backslash, then a `u`, are due. -/
  | pairEscape (acc : List Char) (high : Nat)
  | pairU (acc : List Char) (high : Nat)
  | num (acc : List Char)
  | word (acc : List Char)
deriving DecidableEq

def isSpace (c : Char) : Bool :=
  c == ' ' || c == '\t' || c == '\n' || c == '\r'

def hexValue (c : Char) : Option Nat :=
  if c.isDigit then some (c.toNat - '0'.toNat)
  else if 'a' ≤ c ∧ c ≤ 'f' then some (c.toNat - 'a'.toNat + 10)
  else if 'A' ≤ c ∧ c ≤ 'F' then some (c.toNat - 'A'.toNat + 10)
  else none

/-- The character a simple escape stands for. -/
def escaped (c : Char) : Option Char :=
  if c = '"' ∨ c = '\\' ∨ c = '/' then some c
  else if c = 'b' then some '\x08'
  else if c = 'f' then some '\x0c'
  else if c = 'n' then some '\n'
  else if c = 'r' then some '\r'
  else if c = 't' then some '\t'
  else none

/-- What to do with a finished `\uXXXX`. -/
def finishUnicode (acc : List Char) (high : Option Nat) (value : Nat) :
    Option Mode :=
  match high with
  | none =>
      if 0xD800 ≤ value ∧ value < 0xDC00 then some (.pairEscape acc value)
      else if 0xDC00 ≤ value ∧ value < 0xE000 then none
      else some (.str (acc ++ [Char.ofNat value]))
  | some h =>
      if 0xDC00 ≤ value ∧ value < 0xE000 then
        some (.str (acc ++ [Char.ofNat
          (0x10000 + (h - 0xD800) * 0x400 + (value - 0xDC00))]))
      else none

/-- The word literals. -/
def keyword (acc : List Char) : Option Token :=
  if acc = ['t', 'r', 'u', 'e'] then some (.bool true)
  else if acc = ['f', 'a', 'l', 's', 'e'] then some (.bool false)
  else if acc = ['n', 'u', 'l', 'l'] then some .null
  else none

/-- A character between tokens. -/
def idleStep (c : Char) : Option (Mode × List Token) :=
  if isSpace c then some (.idle, [])
  else if c = '\x7b' then some (.idle, [.lbrace])
  else if c = '\x7d' then some (.idle, [.rbrace])
  else if c = '[' then some (.idle, [.lbracket])
  else if c = ']' then some (.idle, [.rbracket])
  else if c = ':' then some (.idle, [.colon])
  else if c = ',' then some (.idle, [.comma])
  else if c = '"' then some (.str [], [])
  else if c = '-' || c.isDigit then some (.num [c], [])
  else if c.isLower then some (.word [c], [])
  else none

/-- One character; tokens come out when they are complete. -/
def lexStep (m : Mode) (c : Char) : Option (Mode × List Token) :=
  match m with
  | .idle => idleStep c
  | .str acc =>
      if c = '"' then some (.idle, [.str (String.ofList acc)])
      else if c = '\\' then some (.escape acc, [])
      else if c.toNat < 0x20 then none
      else some (.str (acc ++ [c]), [])
  | .escape acc =>
      if c = 'u' then some (.unicode acc none 4 0, [])
      else (escaped c).map fun d => (.str (acc ++ [d]), [])
  | .unicode acc high left value =>
      (hexValue c).bind fun d =>
        if left ≤ 1 then (finishUnicode acc high (16 * value + d)).map (·, [])
        else some (.unicode acc high (left - 1) (16 * value + d), [])
  | .pairEscape acc high =>
      if c = '\\' then some (.pairU acc high, []) else none
  | .pairU acc high =>
      if c = 'u' then some (.unicode acc (some high) 4 0, []) else none
  | .num acc =>
      if isNumberChar c then some (.num (acc ++ [c]), [])
      else (readNumber acc).bind fun x =>
        (idleStep c).map fun p => (p.1, .num x :: p.2)
  | .word acc =>
      if c.isLower then some (.word (acc ++ [c]), [])
      else (keyword acc).bind fun t =>
        (idleStep c).map fun p => (p.1, t :: p.2)

/-- Lex a piece of text from a mode: where it ends and what came out. -/
def lexRun (m : Mode) : List Char → Option (Mode × List Token)
  | [] => some (m, [])
  | c :: cs =>
      (lexStep m c).bind fun p =>
        (lexRun p.1 cs).map fun r => (r.1, p.2 ++ r.2)

/-- The token the end of the text completes. -/
def lexFinish : Mode → Option (List Token)
  | .idle => some []
  | .num acc => (readNumber acc).map fun x => [.num x]
  | .word acc => (keyword acc).map fun t => [t]
  | _ => none

def lex (cs : List Char) : Option (List Token) :=
  (lexRun .idle cs).bind fun p => (lexFinish p.1).map (p.2 ++ ·)

theorem lexRun_append (m : Mode) (a b : List Char) :
    lexRun m (a ++ b) = (lexRun m a).bind fun p =>
      (lexRun p.1 b).map fun r => (r.1, p.2 ++ r.2) := by
  induction a generalizing m with
  | nil => simp [lexRun]
  | cons c a ih =>
      simp only [List.cons_append, lexRun]
      cases lexStep m c with
      | none => rfl
      | some p =>
          simp only [Option.bind_some, ih]
          cases lexRun p.1 a with
          | none => rfl
          | some q =>
              simp only [Option.bind_some, Option.map_some]
              cases lexRun q.1 b <;> simp

/-- A text that is whole tokens: it starts and ends between them. -/
def LexesTo (cs : List Char) (ts : List Token) : Prop :=
  lexRun .idle cs = some (.idle, ts)

theorem LexesTo.append {a b : List Char} {s t : List Token}
    (ha : LexesTo a s) (hb : LexesTo b t) : LexesTo (a ++ b) (s ++ t) := by
  rw [LexesTo] at ha hb ⊢
  rw [lexRun_append, ha]
  simp [hb]

/-- What is not lexed behind whole tokens is not lexed with them. -/
theorem LexesTo.append_none {a b : List Char} {s : List Token} (ha : LexesTo a s)
    (hb : lexRun .idle b = none) : lexRun .idle (a ++ b) = none := by
  rw [LexesTo] at ha
  rw [lexRun_append, ha, Option.bind_some, hb]
  rfl

theorem LexesTo.lex {cs : List Char} {ts : List Token} (h : LexesTo cs ts) :
    lex cs = some ts := by
  rw [LexesTo] at h
  rw [Json.lex, h]
  simp [lexFinish]

/-- Inside a number the lexer only collects. -/
theorem lexRun_numberChars {cs : List Char}
    (h : ∀ c ∈ cs, isNumberChar c = true) (acc : List Char) :
    lexRun (.num acc) cs = some (.num (acc ++ cs), []) := by
  induction cs generalizing acc with
  | nil => simp [lexRun]
  | cons c cs ih =>
      have hc := h c (by simp)
      rw [lexRun, lexStep, if_pos hc, Option.bind_some,
        ih (fun d hd => h d (by simp [hd]))]
      simp

theorem idleStep_number {c : Char} (h : c = '-' ∨ c.isDigit = true) :
    idleStep c = some (.num [c], []) := by
  have hne : ∀ d : Char, d ≠ '-' → d.isDigit = false → c ≠ d := by
    rintro d h1 h2 rfl
    rcases h with h | h
    · exact h1 h
    · rw [h2] at h
      cases h
  have hs : isSpace c = false := by
    simp [isSpace, hne ' ' (by decide) (by decide),
      hne '\t' (by decide) (by decide), hne '\n' (by decide) (by decide),
      hne '\r' (by decide) (by decide)]
  have hn : (c = '-' || c.isDigit) = true := by simpa using h
  simp [idleStep, hs, hn, hne '\x7b' (by decide) (by decide),
    hne '\x7d' (by decide) (by decide), hne '[' (by decide) (by decide),
    hne ']' (by decide) (by decide), hne ':' (by decide) (by decide),
    hne ',' (by decide) (by decide), hne '"' (by decide) (by decide)]

/-- **A number in a text** is one token, ended by the character after it. -/
theorem LexesTo.number {t b : List Char} {x : ℚ} {s : List Token} {c : Char}
    (ht : readNumber t = some x) (hhead : b.head? = some c)
    (hc : isNumberChar c = false) (hb : LexesTo b s) :
    LexesTo (t ++ b) (.num x :: s) := by
  obtain ⟨b, rfl⟩ : ∃ b', b = c :: b' := by
    cases b with
    | nil => cases hhead
    | cons d b =>
        cases hhead
        exact ⟨b, rfl⟩
  obtain ⟨d, ds, rfl, hd⟩ := readNumber_cons ht
  have hall := isNumberChar_of_readNumber ht
  have hrun : lexRun .idle (d :: ds) = some (.num (d :: ds), []) := by
    rw [lexRun, lexStep, idleStep_number hd, Option.bind_some,
      lexRun_numberChars (fun e he => hall e (by simp [he]))]
    rfl
  rw [LexesTo, lexRun, Option.bind_eq_some_iff] at hb
  obtain ⟨p, hp, hrest⟩ := hb
  rw [lexStep] at hp
  rw [LexesTo, lexRun_append, hrun, Option.bind_some, lexRun, lexStep,
    if_neg (by simp [hc]), ht, Option.bind_some, hp]
  simp only [Option.map_some, Option.bind_some]
  rw [Option.map_eq_some_iff] at hrest
  obtain ⟨⟨m, ts⟩, hr, hrs⟩ := hrest
  obtain ⟨rfl, rfl⟩ := Prod.mk.inj hrs
  rw [hr]
  rfl

theorem isNumberChar_of_isDigit {c : Char} (h : c.isDigit = true) : isNumberChar c = true := by
  simp [isNumberChar, h]

/-- Digits that are no number text are not lexed. -/
theorem lexRun_digits {t b : List Char} {c : Char} (hdigits : ∀ d ∈ t, d.isDigit = true)
    (hne : t ≠ []) (ht : readNumber t = none) (hc : isNumberChar c = false) :
    lexRun .idle (t ++ c :: b) = none := by
  obtain ⟨d, ds, rfl⟩ := List.exists_cons_of_ne_nil hne
  have hrun : lexRun .idle (d :: ds) = some (.num (d :: ds), []) := by
    rw [lexRun, lexStep, idleStep_number (.inr (hdigits d (by simp))), Option.bind_some,
      lexRun_numberChars (fun e he => isNumberChar_of_isDigit (hdigits e (by simp [he])))]
    rfl
  rw [lexRun_append, hrun, Option.bind_some, lexRun, lexStep, if_neg (by simp [hc]), ht]
  rfl

/-! ## The stack machine -/

/-- A container that is open. -/
inductive Frame where
  | arr (done : List Json)
  | member (done : List (String × Json)) (key : String)

/-- What must come next, above the containers that are open. -/
inductive Due where
  | value (stack : List Frame)
  /-- Right after `[`. -/
  | element (stack : List Frame)
  | key (done : List (String × Json)) (stack : List Frame)
  /-- Right after an opening brace. -/
  | firstKey (stack : List Frame)
  | colon (done : List (String × Json)) (key : String) (stack : List Frame)
  /-- A value has just ended. -/
  | after (v : Json) (stack : List Frame)

/-- The first token of a value. -/
def startValue (stack : List Frame) : Token → Option Due
  | .str s => some (.after (.str s) stack)
  | .num x => some (.after (.num x) stack)
  | .bool b => some (.after (.bool b) stack)
  | .null => some (.after .null stack)
  | .lbracket => some (.element stack)
  | .lbrace => some (.firstKey stack)
  | _ => none

def parseStep : Due → Token → Option Due
  | .value st, t => startValue st t
  | .element st, .rbracket => some (.after (.arr []) st)
  | .element st, t => startValue (.arr [] :: st) t
  | .key done st, .str k => some (.colon done k st)
  | .firstKey st, .str k => some (.colon [] k st)
  | .firstKey st, .rbrace => some (.after (.obj []) st)
  | .colon done k st, .colon => some (.value (.member done k :: st))
  | .after v (.arr done :: st), .comma => some (.value (.arr (done ++ [v]) :: st))
  | .after v (.arr done :: st), .rbracket =>
      some (.after (.arr (done ++ [v])) st)
  | .after v (.member done k :: st), .comma => some (.key (done ++ [(k, v)]) st)
  | .after v (.member done k :: st), .rbrace =>
      some (.after (.obj (done ++ [(k, v)])) st)
  | _, _ => none

def parseRun (d : Due) : List Token → Option Due
  | [] => some d
  | t :: ts => (parseStep d t).bind fun d' => parseRun d' ts

theorem parseRun_append (d : Due) (s t : List Token) :
    parseRun d (s ++ t) = (parseRun d s).bind fun d' => parseRun d' t := by
  induction s generalizing d with
  | nil => rfl
  | cons a s ih =>
      simp only [List.cons_append, parseRun]
      cases parseStep d a with
      | none => rfl
      | some d' => exact ih d'

/-- A whole text is one value with nothing open around it. -/
def Due.whole : Due → Option Json
  | .after v [] => some v
  | _ => none

def parseTokens (ts : List Token) : Option Json :=
  (parseRun (.value []) ts).bind Due.whole

/-- **Reading a JSON text.** -/
def parse (s : String) : Option Json := (lex s.toList).bind parseTokens

theorem parse_of_lexesTo {s : String} {ts : List Token}
    (h : LexesTo s.toList ts) : parse s = parseTokens ts := by
  rw [parse, h.lex, Option.bind_some]

/-- A text that reads as one value, wherever a value is due. -/
def Reads (cs : List Char) (j : Json) : Prop :=
  ∃ ts, LexesTo cs ts ∧
    ∀ st, parseRun (.value st) ts = some (.after j st)

theorem Reads.of_lexesTo {cs cs' : List Char} {ts : List Token} {j : Json}
    (hlex : LexesTo cs' ts) (htext : cs = cs')
    (hrun : ∀ st, parseRun (.value st) ts = some (.after j st)) :
    Reads cs j := by
  subst htext
  exact ⟨ts, hlex, hrun⟩

theorem Reads.parse {s : String} {j : Json} (h : Reads s.toList j) :
    parse s = some j := by
  obtain ⟨ts, hlex, hrun⟩ := h
  rw [parse_of_lexesTo hlex, parseTokens, hrun []]
  rfl

/-- The elements of an array, each with a comma behind it: without the last
comma, and closed, they are read into the array that is open. -/
private theorem reads_elements {texts : List (List Char)} {vals : List Json}
    (h : List.Forall₂ Reads texts vals) (hne : texts ≠ []) :
    ∃ body ts, texts.flatMap (· ++ [',']) = body ++ [','] ∧
      LexesTo body ts ∧
      ∀ done st, parseRun (.value (.arr done :: st)) (ts ++ [.rbracket])
        = some (.after (.arr (done ++ vals)) st) := by
  induction h with
  | nil => exact absurd rfl hne
  | @cons t j texts vals hj hrest ih =>
      obtain ⟨ts, hlex, hrun⟩ := hj
      cases hrest with
      | nil =>
          refine ⟨t, ts, by simp, hlex, fun done st => ?_⟩
          rw [parseRun_append, hrun]
          rfl
      | cons hj' hrest' =>
          obtain ⟨body, us, hbody, hus, hruns⟩ := ih (by simp)
          refine ⟨t ++ ([','] ++ body), ts ++ ([.comma] ++ us), ?_, ?_, ?_⟩
          · rw [List.flatMap_cons, hbody]
            simp
          · exact hlex.append (LexesTo.append rfl hus)
          · intro done st
            rw [List.append_assoc, parseRun_append, hrun, Option.bind_some,
              List.append_assoc, parseRun_append]
            show parseRun (.value (.arr (done ++ [j]) :: st)) _ = _
            rw [hruns]
            simp

/-- **An array of texts that read as values reads as the array of the
values**, written the way code in a loop writes it: a comma behind every
element, and the last comma cut. -/
theorem Reads.array {texts : List (List Char)} {vals : List Json}
    (h : List.Forall₂ Reads texts vals) (hne : texts ≠ []) :
    Reads ('[' :: (texts.flatMap (· ++ [','])).dropLast ++ [']'])
      (.arr vals) := by
  obtain ⟨body, ts, hbody, hlex, hrun⟩ := reads_elements h hne
  refine ⟨.lbracket :: (ts ++ [.rbracket]), ?_, fun st => ?_⟩
  · rw [hbody, List.dropLast_concat]
    have h1 : LexesTo ['['] [.lbracket] := rfl
    have h2 : LexesTo [']'] [.rbracket] := rfl
    exact h1.append (hlex.append h2)
  · have hval := hrun [] st
    -- The first token of an element is not the bracket that ends an empty
    -- array, so an element is read as any value is.
    cases ts with
    | nil => cases hval
    | cons t ts =>
        show (parseStep (.element st) t).bind _ = _
        have ht : parseStep (.element st) t = startValue (.arr [] :: st) t := by
          cases t with
          | rbracket => cases hval
          | _ => rfl
        rw [ht]
        exact hval

example : (parse "\x7b\"a\": [1, \"x\\n\", true], \"b\":\x7b\x7d\x7d").isSome = true := by
  decide

example : (parse "[1,]").isNone = true := by decide

end Json

end XaccIbm
