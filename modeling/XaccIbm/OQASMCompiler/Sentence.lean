import XaccIbm.OQASMCompiler.Translate
import XaccIbm.OpenQasm.Spacing

/-!
# OQASMCompiler — Sentence

Whether the text `translate` returns is a sentence of the grammar. Its first
line is `include \"qelib1.inc\";`, escaped for a JSON document, and no token
of the grammar begins before the first backslash and contains it.
-/

namespace XaccIbm.OQASMCompiler

open OpenQasm OpenQasmVisitor

theorem backslash_notMem_literals : ∀ s ∈ literals, '\\' ∉ s.toList := by decide

/-- **A token with a backslash in it** is a string or a comment. -/
theorem head_of_backslash {t : Token} (h : '\\' ∈ t.text.toList) :
    t.text.toList.head? = some '"' ∨ t.text.toList.head? = some '/' := by
  cases t with
  | lit l => exact absurd h (backslash_notMem_literals _ l.mem_literals)
  | COMMENT c =>
      obtain ⟨cs, htext⟩ := c.toList_eq
      right
      show c.text.toList.head? = _
      rw [htext]
      rfl
  | ID x => exact absurd (x.isWord_of_mem h) (by decide)
  | REAL r =>
      rcases r.isDigit_of_mem h with hdigit | hpoint
      · exact absurd hdigit (by decide)
      · exact absurd hpoint (by decide)
  | INT n => exact absurd (n.isDigit_of_mem h) (by decide)
  | STRING s =>
      obtain ⟨cs, htext⟩ := s.toList_eq
      left
      show s.text.toList.head? = _
      rw [htext]
      rfl
  | EOL => exact absurd h (by decide)

variable {P : Type} [ToString P]

/-- **No text of `translate` is a sentence.** The backslash of the first line
lies in no token. -/
theorem translate_not_lexes {function : Function (Gate P)} {text : String}
    (h : translate function = .ok text) {ts : List Token} :
    ¬ Lexing.Lexes lexer text.toList ts := by
  intro hlex
  obtain ⟨_, rfl⟩ := translate_ok.mp h
  have hinclude : "\ninclude \\\"qelib1.inc\\\";\nqreg q[".toList
      = "\ninclude ".toList ++ '\\' :: "\"qelib1.inc\\\";\nqreg q[".toList := by decide
  have htext : ∃ after, ((new (nQubits function) false).native
      ++ Piece.render (written function)).toList = "\ninclude ".toList ++ '\\' :: after := by
    rw [new, if_neg (by decide), String.append_assoc, String.append_assoc, String.toList_append,
      hinclude, List.append_assoc]
    exact ⟨_, rfl⟩
  obtain ⟨after, htext⟩ := htext
  obtain ⟨t, ht, d, hd, hmem⟩ := hlex.exists_token htext rfl
  have hd : t.text.toList.head? = some d := hd
  rcases head_of_backslash ht with hhead | hhead
  · rw [hhead] at hd
    cases hd
    revert hmem
    decide
  · rw [hhead] at hd
    cases hd
    revert hmem
    decide

/-- **The sentences among the texts**: there are none. -/
theorem translate_not_sentence {function : Function (Gate P)} {text : String}
    (h : translate function = .ok text) : ¬ Sentence text := by
  rintro ⟨ls, _, hlex⟩
  exact translate_not_lexes h hlex

/-- A function with one gate. -/
def flip : Function (Gate String) where
  name := "f"
  body := [.leaf true (.x 0)]

theorem flip_translates : ∃ text, translate flip = .ok text := ⟨_, rfl⟩

theorem flip_not_sentence : ∃ text, translate flip = .ok text ∧ ¬ Sentence text := by
  obtain ⟨text, h⟩ := flip_translates
  exact ⟨text, h, translate_not_sentence h⟩

theorem not_translate_sentence :
    ¬ ∀ (function : Function (Gate String)) (text : String),
      translate function = .ok text → Sentence text := by
  intro hall
  obtain ⟨text, h⟩ := flip_translates
  obtain ⟨ls, _, hlex⟩ := hall flip text h
  exact translate_not_lexes h hlex

end XaccIbm.OQASMCompiler
