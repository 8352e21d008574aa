import XaccIbm.OpenQasm.Spelling
import XaccIbm.OpenQasmVisitor.Emission

/-!
# OpenQasm — Statements

The statements of the grammar that the visitor's operations are, given an
expression for every parameter, and the reading of their texts: an operation
is written as the tokens of its statements, whatever comes after it.
-/

namespace XaccIbm.OpenQasm

open Lexing

/-! ## Words of the visitor -/

namespace Written

def q : ID := ⟨"q", Eq.refl true⟩
def id : ID := ⟨"id", Eq.refl true⟩
def u1 : ID := ⟨"u1", Eq.refl true⟩
def u2 : ID := ⟨"u2", Eq.refl true⟩
def u3 : ID := ⟨"u3", Eq.refl true⟩
def cx : ID := ⟨"cx", Eq.refl true⟩
def zero : INT := ⟨"0", Eq.refl true⟩
def one : INT := ⟨"1", Eq.refl true⟩
def pi : REAL := ⟨"3.14159", Eq.refl true⟩
def halfPi : REAL := ⟨"1.5708", Eq.refl true⟩

end Written

theorem isINT_toString (n : Nat) : isINT (toString n).toList = true := by
  rw [isINT, Bool.and_eq_true, List.all_eq_true, Bool.not_eq_true', List.isEmpty_eq_false_iff]
  refine ⟨?_, fun c hc => Decimal.isDigit_of_mem hc⟩
  rw [Decimal.toList_toString]
  exact Nat.toDigits_ne_nil

/-- A number as the stream writes it. -/
def numeral (n : Nat) : INT := ⟨toString n, isINT_toString n⟩

theorem numeral_value (n : Nat) : (numeral n).value = n := by
  show StdString.digitsValue (toString n).toList = n
  rw [Decimal.toList_toString]
  exact Nat.ofDigitChars_ten_toDigits

theorem literals_no_creg : ∀ s ∈ literals, s.toList.head? = some 'c' →
    s.toList.tail.head?.any Char.isDigit = false := by decide

theorem isID_creg (c : Nat) : isID ("c" ++ toString c).toList = true := by
  have htext : ("c" ++ toString c).toList = 'c' :: (toString c).toList :=
    String.toList_append
  rw [htext, isID, Bool.and_eq_true, Bool.and_eq_true, ← htext, String.ofList_toList]
  refine ⟨⟨rfl, List.all_eq_true.mpr fun d hd => ?_⟩, ?_⟩
  · exact isWord_of_isDigit (Decimal.isDigit_of_mem hd)
  · rw [Bool.not_eq_true', Bool.eq_false_iff, Ne, List.contains_iff_mem]
    intro hmem
    have hno := literals_no_creg _ hmem
    rw [htext] at hno
    obtain ⟨d, ds, hds, hdigit⟩ := (numeral c).toList_eq
    have hdigits : (toString c).toList = d :: ds := hds
    rw [hdigits] at hno
    have hnone : d.isDigit = false := hno rfl
    rw [hdigit] at hnone
    cases hnone

/-- `c` and the number of a measurement. -/
def creg (c : Nat) : ID := ⟨"c" ++ toString c, isID_creg c⟩

/-- `q[n]`. -/
def operand (n : Nat) : GateArg := .indexed Written.q (numeral n)

end XaccIbm.OpenQasm

namespace XaccIbm

open OpenQasm Lexing

variable {P : Type}

/-- An angle as an expression. -/
def Angle.exp (spell : P → Exp) : Angle P → Exp
  | zero => .INT Written.zero
  | pi => .real Written.pi
  | halfPi => .real Written.halfPi
  | negHalfPi => .neg (.real Written.halfPi)
  | param p => spell p

namespace QOp

/-- The tree of an operation. -/
def qop (spell : P → Exp) : QOp P → Qop
  | id n => .uop (.UserDefGate (.plain Written.id) none ⟨operand n, []⟩)
  | u1 a n => .uop (.UserDefGate (.plain Written.u1) (some ⟨a.exp spell, []⟩) ⟨operand n, []⟩)
  | u2 a b n =>
      .uop (.UserDefGate (.plain Written.u2) (some ⟨a.exp spell, [b.exp spell]⟩)
        ⟨operand n, []⟩)
  | u3 a b c n =>
      .uop (.UserDefGate (.plain Written.u3)
        (some ⟨a.exp spell, [b.exp spell, c.exp spell]⟩) ⟨operand n, []⟩)
  | U a b c n => .uop (.U (some ⟨a.exp spell, [b.exp spell, c.exp spell]⟩) (operand n))
  | cx a b => .uop (.UserDefGate (.plain Written.cx) none ⟨operand a, [operand b]⟩)
  | measure n c =>
      .measure ⟨.gatearg (operand n), .gatearg (.indexed (creg c) Written.zero)⟩

/-- The statements of an operation: a measurement declares its register. -/
def statements (spell : P → Exp) : QOp P → List Statement
  | measure n c =>
      [.regdecl (.creg (.sized (creg c) Written.one)), .qop ((measure n c).qop spell)]
  | o => [.qop (o.qop spell)]

end QOp

/-! ## Texts of statements -/

namespace OpenQasm

/-- The end of a line. -/
theorem spells_end : Spells [';', '\n'] [lit ";"] := spells_newline.punct ";"

/-- An operand that ends its line. -/
def target (n : Nat) : List Char := 'q' :: '[' :: ((toString n).toList ++ [']', ';', '\n'])

theorem spells_target (n : Nat) : Spells (target n) ((operand n).tokens ++ [lit ";"]) :=
  spells_end.indexed (x := Written.q) (i := numeral n)

/-- The texts of expressions, separated by a comma and a space. -/
def separated : Exp → List Exp → List Char
  | e, [] => e.text.toList
  | e, f :: es => e.text.toList ++ ',' :: ' ' :: separated f es

theorem Exp.toList_text (e : Exp) : e.text.toList = textOf lexer e.tokens :=
  String.toList_ofList

theorem spells_separated (e : Exp) (es : List Exp) {c : Char} {cs : List Char}
    {us : List Token} (hc : isWord c = false) (hpoint : c ≠ '.') (h : Spells (c :: cs) us) :
    Spells (separated e es ++ c :: cs) (Explist.tokens ⟨e, es⟩ ++ us) := by
  induction es generalizing e with
  | nil =>
      rw [separated, e.toList_text, Explist.tokens, CommaList.tokens_single]
      exact e.compact.spells hc hpoint h
  | cons f es ih =>
      rw [separated, e.toList_text, Explist.tokens, CommaList.tokens_cons, List.append_assoc,
        List.append_assoc]
      exact e.compact.spells rfl (by decide) ((ih f).space.punct ",")

/-- An application of expressions to one operand. -/
theorem spells_application {t : Token} (ht : Wordlike t) (e : Exp) (es : List Exp) (n : Nat) :
    Spells (t.text.toList ++ '(' :: (separated e es ++ ')' :: ' ' :: target n))
      (t :: lit "(" :: (Explist.tokens ⟨e, es⟩ ++ lit ")" :: ((operand n).tokens
        ++ [lit ";"]))) := by
  refine ht.spells rfl (by decide) (.punct "(" (spells_separated e es rfl (by decide) ?_))
  exact (spells_target n).space.punct ")"

theorem tokens_application (x : ID) (es : Explist) (n : Nat) :
    [Statement.qop (.uop (.UserDefGate (.plain x) (some es) ⟨operand n, []⟩))].flatMap
        Statement.tokens
      = .ID x :: lit "(" :: (es.tokens ++ lit ")" :: ((operand n).tokens ++ [lit ";"])) := by
  simp [Statement.tokens, Qop.tokens, Uop.tokens, GateName.tokens, GateArgList.tokens,
    CommaList.tokens, CommaList.toList]

theorem tokens_U (es : Explist) (n : Nat) :
    [Statement.qop (.uop (.U (some es) (operand n)))].flatMap Statement.tokens
      = lit "U" :: lit "(" :: (es.tokens ++ lit ")" :: ((operand n).tokens ++ [lit ";"])) := by
  simp [Statement.tokens, Qop.tokens, Uop.tokens]

theorem wordlike_U : Wordlike (lit "U") := ⟨'U', rfl, rfl⟩

theorem wordlike_creg : Wordlike (lit "creg") := ⟨'c', rfl, rfl⟩

theorem wordlike_measure : Wordlike (lit "measure") := ⟨'m', rfl, rfl⟩

end OpenQasm

/-- **An operation is written as its statements.** -/
theorem QOp.spells [ToString P] {spell : P → Exp} {o : QOp P}
    (h : ∀ a ∈ o.params, (a.exp spell).text = a.text) :
    Spells (Piece.render o.pieces).toList ((o.statements spell).flatMap Statement.tokens) := by
  cases o with
  | id n =>
      have htext : (Piece.render (id n : QOp P).pieces).toList
          = 'i' :: 'd' :: ' ' :: target n := by
        simp [Piece.render, pieces, Piece.chunks, chunks, target]
      rw [htext]
      exact (wordlike_id Written.id).spells rfl (by decide) (spells_target n).space
  | u1 a n =>
      have ha := h a (by simp [params])
      have htext : (Piece.render (u1 a n).pieces).toList
          = 'u' :: '1' :: '(' :: (separated (a.exp spell) [] ++ ')' :: ' ' :: target n) := by
        simp [Piece.render, pieces, Piece.chunks, chunks, separated, target, ha]
      have htokens : ((u1 a n).statements spell).flatMap Statement.tokens = _ :=
        tokens_application Written.u1 ⟨a.exp spell, []⟩ n
      rw [htext, htokens]
      exact spells_application (wordlike_id Written.u1) _ _ n
  | u2 a b n =>
      have ha := h a (by simp [params])
      have hb := h b (by simp [params])
      have htext : (Piece.render (u2 a b n).pieces).toList
          = 'u' :: '2' :: '('
            :: (separated (a.exp spell) [b.exp spell] ++ ')' :: ' ' :: target n) := by
        simp [Piece.render, pieces, Piece.chunks, chunks, separated, target, ha, hb]
      have htokens : ((u2 a b n).statements spell).flatMap Statement.tokens = _ :=
        tokens_application Written.u2 ⟨a.exp spell, [b.exp spell]⟩ n
      rw [htext, htokens]
      exact spells_application (wordlike_id Written.u2) _ _ n
  | u3 a b c n =>
      have ha := h a (by simp [params])
      have hb := h b (by simp [params])
      have hc := h c (by simp [params])
      have htext : (Piece.render (u3 a b c n).pieces).toList
          = 'u' :: '3' :: '('
            :: (separated (a.exp spell) [b.exp spell, c.exp spell] ++ ')' :: ' ' :: target n) := by
        simp [Piece.render, pieces, Piece.chunks, chunks, separated, target, ha, hb, hc]
      have htokens : ((u3 a b c n).statements spell).flatMap Statement.tokens = _ :=
        tokens_application Written.u3 ⟨a.exp spell, [b.exp spell, c.exp spell]⟩ n
      rw [htext, htokens]
      exact spells_application (wordlike_id Written.u3) _ _ n
  | U a b c n =>
      have ha := h a (by simp [params])
      have hb := h b (by simp [params])
      have hc := h c (by simp [params])
      have htext : (Piece.render (U a b c n).pieces).toList
          = 'U' :: '('
            :: (separated (a.exp spell) [b.exp spell, c.exp spell] ++ ')' :: ' ' :: target n) := by
        simp [Piece.render, pieces, Piece.chunks, chunks, separated, target, ha, hb, hc]
      have htokens : ((U a b c n).statements spell).flatMap Statement.tokens = _ :=
        tokens_U ⟨a.exp spell, [b.exp spell, c.exp spell]⟩ n
      rw [htext, htokens]
      exact spells_application wordlike_U _ _ n
  | cx a b =>
      have htext : (Piece.render (cx a b : QOp P).pieces).toList
          = 'c' :: 'x' :: ' ' :: 'q' :: '['
            :: ((toString a).toList ++ ']' :: ',' :: ' ' :: target b) := by
        simp [Piece.render, pieces, Piece.chunks, chunks, target]
      rw [htext]
      refine (wordlike_id Written.cx).spells rfl (by decide) (.space ?_)
      exact ((spells_target b).space.punct ",").indexed (x := Written.q) (i := numeral a)
  | measure n c =>
      -- two statements: the register is declared on a line of its own
      have htext : (Piece.render (measure n c : QOp P).pieces).toList
          = 'c' :: 'r' :: 'e' :: 'g' :: ' ' :: ((creg c).text.toList ++ '['
            :: (Written.one.text.toList ++ ']' :: ';' :: '\n' :: 'm' :: 'e' :: 'a' :: 's' :: 'u'
            :: 'r' :: 'e' :: ' ' :: 'q' :: '[' :: ((toString n).toList ++ ']' :: ' ' :: '-' :: '>'
            :: ' ' :: ((creg c).text.toList ++ '['
              :: (Written.zero.text.toList ++ [']', ';', '\n']))))) := by
        simp [Piece.render, pieces, Piece.chunks, chunks, creg, Written.one, Written.zero]
      rw [htext]
      refine wordlike_creg.spells rfl (by decide) (.space (.indexed (spells_end.append ?_)))
      refine wordlike_measure.spells rfl (by decide) (.space ?_)
      refine Spells.indexed (x := Written.q) (i := numeral n) (.space (.punct "->" (.space ?_)))
      exact .indexed spells_end

end XaccIbm
