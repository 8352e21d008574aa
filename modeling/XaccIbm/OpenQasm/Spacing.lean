import XaccIbm.OpenQasm.Grammar

/-!
# OpenQasm — Spacing

What a character tells about the tokens it can stand in: the first character
of a token gives its kind, so that tokens with one text are one token, and a
token is ended by a character that no token with its first character goes on
with. White space is in no token that does not begin with a quote or a slash.
-/

namespace XaccIbm.OpenQasm

/-! ## The first character of a token -/

theorem STRING.toList_eq (s : STRING) : ∃ cs, s.text.toList = '"' :: cs := by
  have hspelled := s.spelled
  rw [isSTRING.eq_def] at hspelled
  split at hspelled
  · rename_i cs htext
    exact ⟨cs, htext⟩
  · cases hspelled

theorem COMMENT.toList_eq (c : COMMENT) : ∃ cs, c.text.toList = '/' :: '/' :: cs := by
  have hspelled := c.spelled
  rw [isCOMMENT.eq_def] at hspelled
  split at hspelled
  · rename_i cs htext
    exact ⟨cs, htext⟩
  · cases hspelled

theorem INT.toList_eq (n : INT) : ∃ c cs, n.text.toList = c :: cs ∧ c.isDigit = true := by
  have hspelled := n.spelled
  cases htext : n.text.toList with
  | nil =>
      rw [htext] at hspelled
      cases hspelled
  | cons c cs => exact ⟨c, cs, rfl, n.isDigit_of_mem (by simp [htext])⟩

theorem REAL.toList_eq (r : REAL) : ∃ c cs, r.text.toList = c :: cs ∧ c.isDigit = true := by
  have hspelled := r.spelled
  rw [isREAL, Bool.and_eq_true, isINT, Bool.and_eq_true] at hspelled
  cases htext : r.text.toList with
  | nil =>
      rw [htext] at hspelled
      cases hspelled.1.1
  | cons c cs =>
      refine ⟨c, cs, rfl, ?_⟩
      rw [htext, List.takeWhile_cons] at hspelled
      by_cases hc : c.isDigit = true
      · exact hc
      · rw [if_neg hc] at hspelled
        cases hspelled.1.1

theorem literals_ne_nil : ∀ s ∈ literals, s.toList ≠ [] := by decide

/-- The first characters of the tokens of a kind. -/
def Token.Starts : Token → Char → Prop
  | lit l, c => l.text.toList.head? = some c
  | COMMENT _, c => c = '/'
  | ID _, c => c.isLower = true
  | REAL _, c => c.isDigit = true
  | INT _, c => c.isDigit = true
  | STRING _, c => c = '"'
  | EOL, c => c = '\r'

theorem Token.exists_head (t : Token) : ∃ c cs, t.text.toList = c :: cs ∧ t.Starts c := by
  cases t with
  | lit l =>
      obtain ⟨c, cs, h⟩ := List.exists_cons_of_ne_nil (literals_ne_nil _ l.mem_literals)
      exact ⟨c, cs, h, congrArg List.head? h⟩
  | COMMENT c =>
      obtain ⟨cs, h⟩ := c.toList_eq
      exact ⟨'/', _, h, rfl⟩
  | ID x => exact x.toList_eq
  | REAL r => exact r.toList_eq
  | INT n => exact n.toList_eq
  | STRING s =>
      obtain ⟨cs, h⟩ := s.toList_eq
      exact ⟨'"', _, h, rfl⟩
  | EOL => exact ⟨'\r', ['\n'], rfl, rfl⟩

theorem Token.toList_ne_nil (t : Token) : t.text.toList ≠ [] := by
  obtain ⟨c, cs, h, _⟩ := t.exists_head
  rw [h]
  exact List.cons_ne_nil c cs

theorem Token.starts_of_head {t : Token} {c : Char} (hc : t.text.toList.head? = some c) :
    t.Starts c := by
  obtain ⟨d, cs, h, hstarts⟩ := t.exists_head
  rw [h] at hc
  cases hc
  exact hstarts

/-- The first character of a longer token is that of its beginning. -/
theorem head_of_prefix {t t' : Token} {d : Char}
    (h : lexer.text t ++ [d] <+: lexer.text t') {c : Char}
    (hc : t.text.toList.head? = some c) : t'.text.toList.head? = some c := by
  obtain ⟨rest, hrest⟩ := h
  have hrest : t.text.toList ++ [d] ++ rest = t'.text.toList := hrest
  rw [← hrest, List.append_assoc, List.head?_append, hc]
  rfl

/-! ## Words -/

theorem literals_words : ∀ s ∈ literals, s.toList.head?.any isWord = true →
    s.toList.all isWord = true := by decide

/-- **A token that starts like a word** has only word characters and points. -/
theorem Token.word_of_head {t : Token} {c : Char} (hc : t.text.toList.head? = some c)
    (hw : isWord c = true) {d : Char} (hd : d ∈ t.text.toList) :
    isWord d = true ∨ d = '.' := by
  have hstarts := Token.starts_of_head hc
  cases t with
  | lit l =>
      have hany : l.text.toList.head?.any isWord = true :=
        (Option.any_eq_true _ _).mpr ⟨c, hc, hw⟩
      exact .inl (List.all_eq_true.mp (literals_words _ l.mem_literals hany) d hd)
  | ID x => exact .inl (x.isWord_of_mem hd)
  | REAL r => exact (r.isDigit_of_mem hd).imp_left isWord_of_isDigit
  | INT n => exact .inl (isWord_of_isDigit (n.isDigit_of_mem hd))
  | COMMENT c' =>
      cases hstarts
      exact absurd hw (by decide)
  | STRING s =>
      cases hstarts
      exact absurd hw (by decide)
  | EOL =>
      cases hstarts
      exact absurd hw (by decide)

/-- A word is ended by what is neither a word character nor a point. -/
theorem ends_word {t : Token} {c : Char} (hc : t.text.toList.head? = some c)
    (hw : isWord c = true) {d : Char} (hd : isWord d = false) (hpoint : d ≠ '.') :
    Lexing.Ends lexer t d := by
  intro t' hprefix
  have hhead := head_of_prefix hprefix hc
  have hd' : d ∈ t'.text.toList := hprefix.subset (List.mem_append_right _ (by simp))
  rcases Token.word_of_head hhead hw hd' with h | h
  · rw [hd] at h
    cases h
  · exact hpoint h

/-! ## Punctuation -/

/-- Tokens that start with anything but a word character, a quote, a slash or
a carriage return are literals. -/
theorem Token.lit_of_head {t : Token} {c : Char} (hc : t.text.toList.head? = some c)
    (hw : isWord c = false) (hquote : c ≠ '"') (hslash : c ≠ '/') (hreturn : c ≠ '\r') :
    ∃ l, t = .lit l := by
  have hstarts := Token.starts_of_head hc
  cases t with
  | lit l => exact ⟨l, rfl⟩
  | COMMENT c' => exact absurd hstarts hslash
  | STRING s => exact absurd hstarts hquote
  | EOL => exact absurd hstarts hreturn
  | ID x =>
      rw [isWord_of_isLower hstarts] at hw
      cases hw
  | REAL r =>
      rw [isWord_of_isDigit hstarts] at hw
      cases hw
  | INT n =>
      rw [isWord_of_isDigit hstarts] at hw
      cases hw

/-- The literals no other token begins with. -/
def closed : List String := ["(", ")", ",", ";", "[", "]", "+", "*", "^", "->"]

theorem closed_longest : ∀ s ∈ closed, ∀ s' ∈ literals, s.toList <+: s'.toList →
    s'.toList.length ≤ s.toList.length := by decide

theorem closed_head : ∀ s ∈ closed, s.toList.head?.any (fun c =>
    !isWord c && c != '"' && c != '/' && c != '\r') = true := by decide

/-- A literal no other literal begins with is ended by everything, when only
literals start like it. -/
theorem ends_literal {l : Literal}
    (hlongest : ∀ s ∈ literals, l.text.toList <+: s.toList →
      s.toList.length ≤ l.text.toList.length)
    (hfirst : l.text.toList.head?.any (fun c =>
      !isWord c && c != '"' && c != '/' && c != '\r') = true) (d : Char) :
    Lexing.Ends lexer (.lit l) d := by
  intro t' hprefix
  obtain ⟨c, hc, hp⟩ := (Option.any_eq_true _ _).mp hfirst
  simp only [Bool.and_eq_true, Bool.not_eq_true', bne_iff_ne] at hp
  obtain ⟨⟨⟨hw, hquote⟩, hslash⟩, hreturn⟩ := hp
  have hhead : t'.text.toList.head? = some c := head_of_prefix hprefix hc
  obtain ⟨l', rfl⟩ := Token.lit_of_head hhead hw hquote hslash hreturn
  have hshort := hlongest _ l'.mem_literals ((List.prefix_append _ _).trans hprefix)
  have hlong := hprefix.length_le
  rw [List.length_append, List.length_singleton] at hlong
  have hle : l'.text.toList.length ≤ l.text.toList.length := hshort
  have hlt : l.text.toList.length + 1 ≤ l'.text.toList.length := hlong
  omega

/-- Punctuation is ended by everything. -/
theorem ends_closed {l : Literal} (hl : l.text ∈ closed) (d : Char) :
    Lexing.Ends lexer (.lit l) d :=
  ends_literal (closed_longest _ hl) (closed_head _ hl) d

theorem minus_prefix : ∀ s ∈ literals, "-".toList <+: s.toList →
    s.toList = ['-'] ∨ s.toList = ['-', '>'] := by decide

theorem ends_minus {d : Char} (hd : d ≠ '>') : Lexing.Ends lexer (lit "-") d := by
  intro t' hprefix
  have hhead : t'.text.toList.head? = some '-' := head_of_prefix hprefix rfl
  obtain ⟨l', rfl⟩ := Token.lit_of_head hhead rfl (by decide) (by decide) (by decide)
  have hprefix : ['-', d] <+: l'.text.toList := hprefix
  rcases minus_prefix _ l'.mem_literals ((List.prefix_append ['-'] [d]).trans hprefix) with h | h
  · rw [h] at hprefix
    have hle := hprefix.length_le
    simp at hle
  · rw [h] at hprefix
    have heq := hprefix.eq_of_length rfl
    cases heq
    exact hd rfl

theorem slash_prefix : ∀ s ∈ literals, "/".toList <+: s.toList → s.toList = ['/'] := by decide

theorem ends_slash {d : Char} (hd : d ≠ '/') : Lexing.Ends lexer (lit "/") d := by
  intro t' hprefix
  have hhead : t'.text.toList.head? = some '/' := head_of_prefix hprefix rfl
  have hstarts := Token.starts_of_head hhead
  cases t' with
  | lit l' =>
      have hprefix : ['/', d] <+: l'.text.toList := hprefix
      have h := slash_prefix _ l'.mem_literals ((List.prefix_append ['/'] [d]).trans hprefix)
      rw [h] at hprefix
      have hle := hprefix.length_le
      simp at hle
  | COMMENT c =>
      obtain ⟨cs, h⟩ := c.toList_eq
      have hprefix : ['/', d] <+: c.text.toList := hprefix
      rw [h, List.cons_prefix_cons, List.cons_prefix_cons] at hprefix
      exact hd hprefix.2.1
  | ID x => exact absurd hstarts (show ¬ '/'.isLower = true by decide)
  | REAL r => exact absurd hstarts (show ¬ '/'.isDigit = true by decide)
  | INT n => exact absurd hstarts (show ¬ '/'.isDigit = true by decide)
  | STRING s => exact absurd hstarts (show '/' ≠ '"' by decide)
  | EOL => exact absurd hstarts (show '/' ≠ '\r' by decide)

/-! ## One text, one token -/

/-- The kind of a token, read off its text. -/
def kindOf (s : String) : Nat :=
  if literals.contains s then 0
  else match s.toList with
    | [] => 0
    | c :: cs =>
        if c = '/' then 1
        else if c = '"' then 2
        else if c = '\r' then 3
        else if c.isDigit then (if cs.contains '.' then 4 else 5)
        else 6

def Token.kind : Token → Nat
  | lit _ => 0
  | COMMENT _ => 1
  | STRING _ => 2
  | EOL => 3
  | REAL _ => 4
  | INT _ => 5
  | ID _ => 6

theorem literals_no_number : ∀ s ∈ literals, isINT s.toList = false ∧ isREAL s.toList = false ∧
    isSTRING s.toList = false ∧ isCOMMENT s.toList = false ∧ s ≠ "\r\n" := by decide

theorem kindOf_of_not_literal {s : String} (h : s ∉ literals) {c : Char} {cs : List Char}
    (hs : s.toList = c :: cs) :
    kindOf s = if c = '/' then 1 else if c = '"' then 2 else if c = '\r' then 3
      else if c.isDigit then (if cs.contains '.' then 4 else 5) else 6 := by
  rw [kindOf, if_neg (by rwa [List.contains_iff_mem]), hs]

theorem isDigit_ne {c d : Char} (h : c.isDigit = true) (hd : d.isDigit = false) : c ≠ d := by
  rintro rfl
  rw [hd] at h
  cases h

theorem isLower_ne {c d : Char} (h : c.isLower = true) (hd : d.isLower = false) : c ≠ d := by
  rintro rfl
  rw [hd] at h
  cases h

theorem not_isDigit_of_isLower {c : Char} (h : c.isLower = true) : c.isDigit = false := by
  have hlower : (decide ('a'.val ≤ c.val) && decide (c.val ≤ 'z'.val)) = true := h
  rw [Bool.and_eq_true, decide_eq_true_eq, decide_eq_true_eq, UInt32.le_iff_toNat_le] at hlower
  rw [Bool.eq_false_iff]
  intro hdigit
  have hle := (Char.isDigit_iff_toNat.mp hdigit).2
  exact absurd (Nat.le_trans hlower.1 hle) (by decide)

/-- A text of digits is of one of two kinds, by whether it has a point. -/
theorem kindOf_of_isDigit {s : String} (h : s ∉ literals) {c : Char} {cs : List Char}
    (hs : s.toList = c :: cs) (hdigit : c.isDigit = true) :
    kindOf s = if cs.contains '.' then 4 else 5 := by
  rw [kindOf_of_not_literal h hs, if_neg (isDigit_ne hdigit rfl), if_neg (isDigit_ne hdigit rfl),
    if_neg (isDigit_ne hdigit rfl), if_pos hdigit]

theorem REAL.point_mem (r : REAL) {c : Char} {cs : List Char} (h : r.text.toList = c :: cs)
    (hdigit : c.isDigit = true) : '.' ∈ cs := by
  have hspelled := r.spelled
  rw [isREAL, Bool.and_eq_true, h, List.dropWhile_cons, if_pos hdigit] at hspelled
  obtain ⟨_, hrest⟩ := hspelled
  split at hrest
  · rename_i ds hds
    have hpoint : '.' ∈ cs.dropWhile Char.isDigit := by
      rw [hds]
      exact List.mem_cons_self
    exact (List.dropWhile_suffix _).subset hpoint
  · cases hrest

theorem kindOf_text (t : Token) : kindOf t.text = t.kind := by
  cases t with
  | lit l => exact if_pos l.spelled
  | COMMENT c =>
      obtain ⟨cs, h⟩ := c.toList_eq
      refine kindOf_of_not_literal (fun hmem => ?_) h
      have hno := (literals_no_number _ hmem).2.2.2.1
      rw [c.spelled] at hno
      cases hno
  | STRING s =>
      obtain ⟨cs, h⟩ := s.toList_eq
      refine kindOf_of_not_literal (fun hmem => ?_) h
      have hno := (literals_no_number _ hmem).2.2.1
      rw [s.spelled] at hno
      cases hno
  | EOL => decide
  | REAL r =>
      obtain ⟨c, cs, h, hdigit⟩ := r.toList_eq
      have hliteral : r.text ∉ literals := by
        intro hmem
        have hno := (literals_no_number _ hmem).2.1
        rw [r.spelled] at hno
        cases hno
      rw [Token.text, kindOf_of_isDigit hliteral h hdigit]
      exact if_pos (List.contains_iff_mem.mpr (r.point_mem h hdigit))
  | INT n =>
      obtain ⟨c, cs, h, hdigit⟩ := n.toList_eq
      have hliteral : n.text ∉ literals := by
        intro hmem
        have hno := (literals_no_number _ hmem).1
        rw [n.spelled] at hno
        cases hno
      rw [Token.text, kindOf_of_isDigit hliteral h hdigit]
      refine if_neg fun hcontains => ?_
      have hpoint : '.' ∈ n.text.toList := by
        rw [h]
        exact List.mem_cons_of_mem c (List.contains_iff_mem.mp hcontains)
      exact absurd (n.isDigit_of_mem hpoint) (by decide)
  | ID x =>
      obtain ⟨c, cs, h, hlower⟩ := x.toList_eq
      have hliteral : x.text ∉ literals := by
        intro hmem
        have hspelled := x.spelled
        rw [h, isID, ← h, String.ofList_toList, Bool.and_eq_true,
          List.contains_iff_mem.mpr hmem] at hspelled
        cases hspelled.2
      rw [Token.text, kindOf_of_not_literal hliteral h, if_neg (isLower_ne hlower rfl),
        if_neg (isLower_ne hlower rfl), if_neg (isLower_ne hlower rfl),
        if_neg (by rw [not_isDigit_of_isLower hlower]; decide)]
      rfl

/-- **A token is known by its text.** -/
theorem text_injective : Function.Injective lexer.text := by
  intro t t' h
  have htext : t.text = t'.text := String.toList_inj.mp h
  have hkind : t.kind = t'.kind := by rw [← kindOf_text, ← kindOf_text, htext]
  -- tokens of two kinds go by the kind, tokens of one by the text
  cases t with
  | lit a =>
      cases t' with
      | lit b => exact congrArg Token.lit (Literal.ext htext)
      | _ => cases hkind
  | COMMENT a =>
      cases t' with
      | COMMENT b => exact congrArg Token.COMMENT (COMMENT.ext htext)
      | _ => cases hkind
  | ID a =>
      cases t' with
      | ID b => exact congrArg Token.ID (ID.ext htext)
      | _ => cases hkind
  | REAL a =>
      cases t' with
      | REAL b => exact congrArg Token.REAL (REAL.ext htext)
      | _ => cases hkind
  | INT a =>
      cases t' with
      | INT b => exact congrArg Token.INT (INT.ext htext)
      | _ => cases hkind
  | STRING a =>
      cases t' with
      | STRING b => exact congrArg Token.STRING (STRING.ext htext)
      | _ => cases hkind
  | EOL =>
      cases t' with
      | EOL => rfl
      | _ => cases hkind

end XaccIbm.OpenQasm
