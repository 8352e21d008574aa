import Mathlib.Data.List.Chain
import XaccIbm.Lib.Decimal
import XaccIbm.OpenQasm.Spacing

/-!
# OpenQasm — Spelling

Texts that are read as given tokens wherever they stand: tokens side by side
each of which is ended by the next, and white space between them. The text
of an expression is such tokens, as long as a comma or a parenthesis comes
after it.
-/

namespace XaccIbm.OpenQasm

open Lexing

/-! ## Texts and their tokens -/

/-- A text that is read as some tokens, whatever is read after it. -/
def Spells (cs : List Char) (ts : List Token) : Prop :=
  ∀ rest us, Lexes lexer rest us → Lexes lexer (cs ++ rest) (ts ++ us)

theorem Spells.append {cs ds : List Char} {ts us : List Token} (h : Spells cs ts)
    (h' : Spells ds us) : Spells (cs ++ ds) (ts ++ us) := by
  intro rest vs hrest
  rw [List.append_assoc, List.append_assoc]
  exact h _ _ (h' _ _ hrest)

theorem literals_no_space : ∀ s ∈ literals, s.toList.head? ≠ some ' ' ∧
    s.toList.head? ≠ some '\n' := by decide

/-- White space starts no token. -/
theorem not_starts_space (t : Token) : ¬ t.Starts ' ' ∧ ¬ t.Starts '\n' := by
  cases t with
  | lit l => exact literals_no_space _ l.mem_literals
  | COMMENT c => exact ⟨show ' ' ≠ '/' by decide, show '\n' ≠ '/' by decide⟩
  | ID x => exact ⟨show ¬ ' '.isLower = true by decide, show ¬ '\n'.isLower = true by decide⟩
  | REAL r => exact ⟨show ¬ ' '.isDigit = true by decide, show ¬ '\n'.isDigit = true by decide⟩
  | INT n => exact ⟨show ¬ ' '.isDigit = true by decide, show ¬ '\n'.isDigit = true by decide⟩
  | STRING s => exact ⟨show ' ' ≠ '"' by decide, show '\n' ≠ '"' by decide⟩
  | EOL => exact ⟨show ' ' ≠ '\r' by decide, show '\n' ≠ '\r' by decide⟩

/-- Where no token starts. -/
theorem not_prefix_of_not_starts {c : Char} (hno : ∀ t : Token, ¬ t.Starts c) (cs : List Char)
    (t : Token) : ¬ lexer.text t <+: c :: cs := by
  intro hprefix
  have hprefix : t.text.toList <+: c :: cs := hprefix
  cases htext : t.text.toList with
  | nil => exact t.toList_ne_nil htext
  | cons d ds =>
      rw [htext, List.cons_prefix_cons] at hprefix
      refine hno t (Token.starts_of_head ?_)
      rw [htext, ← hprefix.1]
      rfl

theorem spells_space_of {c : Char} (hws : isWS c = true) (hno : ∀ t : Token, ¬ t.Starts c) :
    Spells [c] [] :=
  fun rest _ hrest => .skip hws (not_prefix_of_not_starts hno rest) hrest

theorem spells_space : Spells [' '] [] :=
  spells_space_of rfl fun t => (not_starts_space t).1

theorem spells_newline : Spells ['\n'] [] :=
  spells_space_of rfl fun t => (not_starts_space t).2

theorem textOf_single (t : Token) : textOf lexer [t] = t.text.toList := List.append_nil _

/-! ## Tokens side by side -/

/-- A token that may follow another one directly. -/
def Follows (t t' : Token) : Prop := ∀ c ∈ t'.text.toList.head?, Ends lexer t c

/-- A token ended by everything. -/
def Shut (t : Token) : Prop := ∀ c, Ends lexer t c

theorem Shut.follows {t : Token} (h : Shut t) (t' : Token) : Follows t t' := fun c _ => h c

theorem forall_head {p : Char → Prop} {o : Option Char} {c : Char} (h : o = some c) (hc : p c) :
    ∀ d ∈ o, p d := by
  intro d hd
  rw [h] at hd
  cases hd
  exact hc

theorem chained_of_isChain {ts : List Token} (h : ts.IsChain Follows) {rest : List Char}
    (hlast : ∀ t ∈ ts.getLast?, EndsAt lexer t rest) : Chained lexer ts rest := by
  induction ts with
  | nil => exact trivial
  | cons t ts ih =>
      cases ts with
      | nil => exact ⟨hlast t rfl, trivial⟩
      | cons t' ts =>
          rw [List.isChain_cons_cons] at h
          refine ⟨?_, ih h.2 fun u hu => hlast u ?_⟩
          · intro c hc
            refine h.1 c ?_
            have hc : ((t'.text.toList ++ textOf lexer ts) ++ rest).head? = some c := hc
            rw [List.append_assoc, List.head?_append] at hc
            cases htext : t'.text.toList with
            | nil => exact absurd htext t'.toList_ne_nil
            | cons d ds =>
                rw [htext] at hc
                exact hc
          · rw [List.getLast?_cons_cons]
            exact hu

/-! ## Words and punctuation in a chain -/

theorem shut_closed {s : String} (hs : literals.contains s = true) (h : s ∈ closed) :
    Shut (lit s hs) := fun c => ends_closed (l := ⟨s, hs⟩) h c

theorem shut_brace : Shut (lit "\x7b") ∧ Shut (lit "\x7d") :=
  ⟨fun c => ends_literal (by decide) (by decide) c, fun c => ends_literal (by decide) (by decide) c⟩

/-- A token that starts like a word. -/
def Wordlike (t : Token) : Prop := ∃ c, t.text.toList.head? = some c ∧ isWord c = true

theorem wordlike_id (x : ID) : Wordlike (.ID x) := by
  obtain ⟨c, cs, h, hlower⟩ := x.toList_eq
  refine ⟨c, ?_, isWord_of_isLower hlower⟩
  show x.text.toList.head? = some c
  rw [h]
  rfl

theorem wordlike_int (n : INT) : Wordlike (.INT n) := by
  obtain ⟨c, cs, h, hdigit⟩ := n.toList_eq
  refine ⟨c, ?_, isWord_of_isDigit hdigit⟩
  show n.text.toList.head? = some c
  rw [h]
  rfl

theorem wordlike_real (r : REAL) : Wordlike (.REAL r) := by
  obtain ⟨c, cs, h, hdigit⟩ := r.toList_eq
  refine ⟨c, ?_, isWord_of_isDigit hdigit⟩
  show r.text.toList.head? = some c
  rw [h]
  rfl

theorem Wordlike.ends {t : Token} (h : Wordlike t) {d : Char} (hd : isWord d = false)
    (hpoint : d ≠ '.') : Ends lexer t d := by
  obtain ⟨c, hc, hw⟩ := h
  exact ends_word hc hw hd hpoint

/-! ## Expressions -/

/-- Tokens that an expression can be: side by side, the first one no arrow or
comment with a minus or a slash before it, and the last one ended by what is
neither a word character nor a point. -/
structure Compact (ts : List Token) : Prop where
  chain : ts.IsChain Follows
  ne_nil : ts ≠ []
  first : ∀ t ∈ ts.head?, ∀ c ∈ t.text.toList.head?, c ≠ '>' ∧ c ≠ '/'
  last : ∀ t ∈ ts.getLast?, ∀ d, isWord d = false → d ≠ '.' → Ends lexer t d

theorem Compact.single {t : Token} (hfirst : ∀ c ∈ t.text.toList.head?, c ≠ '>' ∧ c ≠ '/')
    (hlast : ∀ d, isWord d = false → d ≠ '.' → Ends lexer t d) : Compact [t] where
  chain := List.isChain_singleton t
  ne_nil := by simp
  first := by
    intro u hu
    cases hu
    exact hfirst
  last := by
    intro u hu
    cases hu
    exact hlast

theorem Wordlike.compact {t : Token} (h : Wordlike t) : Compact [t] := by
  refine .single ?_ fun d hd hpoint => h.ends hd hpoint
  obtain ⟨c, hc, hw⟩ := h
  intro d hd
  rw [hc] at hd
  cases hd
  constructor
  · intro hgt
    rw [hgt] at hw
    exact absurd hw (by decide)
  · intro hslash
    rw [hslash] at hw
    exact absurd hw (by decide)

/-- A token between two chains may start with anything but a word character
or a point. -/
theorem Compact.between {ts us : List Token} {t : Token} (h : Compact ts) (h' : Compact us)
    (ht : ∀ c ∈ t.text.toList.head?, isWord c = false ∧ c ≠ '.')
    (hus : ∀ u ∈ us.head?, Follows t u) : Compact (ts ++ t :: us) where
  chain := by
    refine List.isChain_append.mpr ⟨h.chain, List.isChain_cons.mpr ⟨hus, h'.chain⟩, ?_⟩
    intro t' ht' u hu c hc
    cases hu
    obtain ⟨hw, hpoint⟩ := ht c hc
    exact h.last t' ht' c hw hpoint
  ne_nil := by simp
  first := by
    intro t' ht'
    rw [List.head?_append_of_ne_nil _ h.ne_nil] at ht'
    exact h.first t' ht'
  last := by
    intro t' ht'
    rw [List.getLast?_append_of_ne_nil _ (List.cons_ne_nil _ _),
      List.getLast?_cons_of_ne_nil h'.ne_nil] at ht'
    exact h'.last t' ht'

theorem Compact.cons {t : Token} {ts : List Token} (h : Compact ts)
    (hfirst : ∀ c ∈ t.text.toList.head?, c ≠ '>' ∧ c ≠ '/')
    (ht : ∀ u ∈ ts.head?, Follows t u) : Compact (t :: ts) where
  chain := List.isChain_cons.mpr ⟨ht, h.chain⟩
  ne_nil := by simp
  first := by
    intro u hu
    cases hu
    exact hfirst
  last := by
    intro u hu
    rw [List.getLast?_cons_of_ne_nil h.ne_nil] at hu
    exact h.last u hu

/-- A chain with a closing parenthesis after it. -/
theorem Compact.close {ts : List Token} (h : Compact ts) : Compact (ts ++ [lit ")"]) where
  chain := by
    refine List.isChain_append.mpr ⟨h.chain, List.isChain_singleton _, ?_⟩
    intro t ht u hu c hc
    cases hu
    cases hc
    exact h.last t ht ')' rfl (by decide)
  ne_nil := by simp
  first := by
    intro t ht
    rw [List.head?_append_of_ne_nil _ h.ne_nil] at ht
    exact h.first t ht
  last := by
    intro t ht d _ _
    rw [List.getLast?_append_of_ne_nil _ (List.cons_ne_nil _ _)] at ht
    cases ht
    exact shut_closed rfl (by decide) d

theorem Compact.paren {ts : List Token} (h : Compact ts) :
    Compact (lit "(" :: ts ++ [lit ")"]) :=
  h.close.cons (forall_head rfl (by decide)) fun u _ => (shut_closed rfl (by decide)).follows u

theorem Binop.token_head (op : Binop) :
    ∀ c ∈ op.token.text.toList.head?, isWord c = false ∧ c ≠ '.' := by
  cases op with
  | plus => exact forall_head rfl (by decide)
  | minus => exact forall_head rfl (by decide)
  | times => exact forall_head rfl (by decide)
  | divide => exact forall_head rfl (by decide)
  | power => exact forall_head rfl (by decide)

/-- An operator may stand before what no expression starts with. -/
theorem Binop.follows (op : Binop) {u : Token}
    (hu : ∀ c ∈ u.text.toList.head?, c ≠ '>' ∧ c ≠ '/') : Follows op.token u := by
  cases op with
  | plus => exact (shut_closed rfl (by decide)).follows u
  | minus => exact fun c hc => ends_minus (hu c hc).1
  | times => exact (shut_closed rfl (by decide)).follows u
  | divide => exact fun c hc => ends_slash (hu c hc).2
  | power => exact (shut_closed rfl (by decide)).follows u

theorem Unaryop.wordlike (f : Unaryop) : Wordlike f.token := by
  cases f with
  | sin => exact ⟨'s', rfl, rfl⟩
  | cos => exact ⟨'c', rfl, rfl⟩
  | tan => exact ⟨'t', rfl, rfl⟩
  | exp => exact ⟨'e', rfl, rfl⟩
  | ln => exact ⟨'l', rfl, rfl⟩
  | sqrt => exact ⟨'s', rfl, rfl⟩

/-- **The tokens of an expression** stand side by side. -/
theorem Exp.compact (e : Exp) : Compact e.tokens := by
  induction e with
  | real r => exact (wordlike_real r).compact
  | INT n => exact (wordlike_int n).compact
  | pi => exact Wordlike.compact ⟨'p', rfl, rfl⟩
  | id x => exact (wordlike_id x).compact
  | binary a op b iha ihb =>
      exact iha.between ihb op.token_head fun u hu => op.follows (ihb.first u hu)
  | neg a ih =>
      refine ih.cons (forall_head rfl (by decide)) fun u hu c hc => ?_
      exact ends_minus (ih.first u hu c hc).1
  | paren a ih => exact ih.paren
  | unary f a ih =>
      have hf := f.wordlike.compact
      refine ih.paren.cons (hf.first _ rfl) ?_
      intro u hu c hc
      cases hu
      cases hc
      exact f.wordlike.ends rfl (by decide)

/-- Compact tokens in front of a text they do not go on with. -/
theorem Compact.spells {ts us : List Token} (h : Compact ts) {c : Char} {cs : List Char}
    (hc : isWord c = false) (hpoint : c ≠ '.') (hcs : Spells (c :: cs) us) :
    Spells (textOf lexer ts ++ c :: cs) (ts ++ us) := by
  intro rest vs hrest
  rw [List.append_assoc, List.append_assoc]
  refine Lexes.chained Token.toList_ne_nil (chained_of_isChain h.chain ?_) (hcs rest vs hrest)
  intro t ht d hd
  cases hd
  exact h.last t ht c hc hpoint

/-- A word in front of a text it does not go on with. -/
theorem Wordlike.spells {t : Token} (h : Wordlike t) {us : List Token} {c : Char}
    {cs : List Char} (hc : isWord c = false) (hpoint : c ≠ '.') (hcs : Spells (c :: cs) us) :
    Spells (t.text.toList ++ c :: cs) (t :: us) := by
  rw [← textOf_single]
  exact h.compact.spells hc hpoint hcs

/-- A token that is ended by everything. -/
theorem Shut.spells {t : Token} (h : Shut t) {cs : List Char} {us : List Token}
    (hcs : Spells cs us) : Spells (t.text.toList ++ cs) (t :: us) := by
  intro rest vs hrest
  rw [List.append_assoc]
  exact Lexes.cons t.toList_ne_nil (fun d _ => h d) (hcs rest vs hrest)

theorem Spells.space {cs : List Char} {us : List Token} (h : Spells cs us) :
    Spells (' ' :: cs) us := spells_space.append h

theorem Spells.newline {cs : List Char} {us : List Token} (h : Spells cs us) :
    Spells ('\n' :: cs) us := spells_newline.append h

/-- Punctuation in front of a text that is read. -/
theorem Spells.punct (s : String) {hs : literals.contains s = true}
    {cs : List Char} {us : List Token} (h : Spells cs us) (hclosed : s ∈ closed := by decide) :
    Spells (s.toList ++ cs) (lit s hs :: us) :=
  (shut_closed hs hclosed).spells h

/-- `x[i]`. -/
theorem Spells.indexed {x : ID} {i : INT} {cs : List Char} {us : List Token}
    (h : Spells cs us) :
    Spells (x.text.toList ++ '[' :: (i.text.toList ++ ']' :: cs))
      ((GateArg.indexed x i).tokens ++ us) := by
  refine (wordlike_id x).spells rfl (by decide) (.punct "[" ?_)
  exact (wordlike_int i).spells rfl (by decide) (h.punct "]")

end XaccIbm.OpenQasm
