import XaccIbm.Lib.Json

/-!
# JsonTokens — the tokens of a value

A JSON value is spelled by one list of tokens: the parser reads these and no
others as the value. So a text says a value exactly when its tokens are the
value's own, and what stands in a text up to some place is what stands in the
value up to that place.
-/

namespace XaccIbm.Json

mutual

/-- The tokens a value is spelled with. -/
def tokens : Json → List Token
  | null => [.null]
  | bool b => [.bool b]
  | num x => [.num x]
  | str s => [.str s]
  | arr elems => .lbracket :: ((elemTokens elems).dropLast ++ [.rbracket])
  | obj members => .lbrace :: ((memberTokens members).dropLast ++ [.rbrace])

/-- The elements of an array, with a comma behind each. -/
def elemTokens : List Json → List Token
  | [] => []
  | v :: vs => tokens v ++ .comma :: elemTokens vs

/-- The members of an object, with a comma behind each. -/
def memberTokens : List (String × Json) → List Token
  | [] => []
  | (k, v) :: ms => .str k :: .colon :: (tokens v ++ .comma :: memberTokens ms)

end

theorem tokens_str (s : String) : (str s).tokens = [.str s] := by
  rw [tokens]

theorem tokens_num (x : ℚ) : (num x).tokens = [.num x] := by
  rw [tokens]

theorem tokens_arr (vs : List Json) :
    (arr vs).tokens = .lbracket :: ((elemTokens vs).dropLast ++ [.rbracket]) := by
  rw [tokens]

theorem tokens_obj (ms : List (String × Json)) :
    (obj ms).tokens = .lbrace :: ((memberTokens ms).dropLast ++ [.rbrace]) := by
  rw [tokens]

@[simp] theorem elemTokens_nil : elemTokens [] = [] := by
  rw [elemTokens]

@[simp] theorem elemTokens_cons (v : Json) (vs : List Json) :
    elemTokens (v :: vs) = tokens v ++ .comma :: elemTokens vs := by
  rw [elemTokens]

@[simp] theorem memberTokens_nil : memberTokens [] = [] := by
  rw [memberTokens]

@[simp] theorem memberTokens_cons (k : String) (v : Json) (ms : List (String × Json)) :
    memberTokens ((k, v) :: ms)
      = .str k :: .colon :: (tokens v ++ .comma :: memberTokens ms) := by
  rw [memberTokens]

theorem elemTokens_append (vs ws : List Json) :
    elemTokens (vs ++ ws) = elemTokens vs ++ elemTokens ws := by
  induction vs with
  | nil => simp
  | cons v vs ih => simp [ih]

theorem memberTokens_append (ms ns : List (String × Json)) :
    memberTokens (ms ++ ns) = memberTokens ms ++ memberTokens ns := by
  induction ms with
  | nil => simp
  | cons m ms ih =>
      obtain ⟨k, v⟩ := m
      simp [ih]

theorem dropLast_elemTokens_concat (vs : List Json) (v : Json) :
    (elemTokens (vs ++ [v])).dropLast = elemTokens vs ++ tokens v := by
  rw [elemTokens_append, elemTokens_cons, elemTokens_nil, ← List.append_assoc,
    List.dropLast_concat]

theorem dropLast_memberTokens_concat (ms : List (String × Json)) (k : String) (v : Json) :
    (memberTokens (ms ++ [(k, v)])).dropLast
      = memberTokens ms ++ .str k :: .colon :: tokens v := by
  have h : memberTokens (ms ++ [(k, v)])
      = (memberTokens ms ++ .str k :: .colon :: tokens v) ++ [.comma] := by
    rw [memberTokens_append, memberTokens_cons, memberTokens_nil]
    simp
  rw [h, List.dropLast_concat]

theorem dropLast_memberTokens_singleton (k : String) (v : Json) :
    (memberTokens [(k, v)]).dropLast = .str k :: .colon :: tokens v :=
  dropLast_memberTokens_concat [] k v

theorem tokens_obj_concat (ms : List (String × Json)) (k : String) (v : Json) :
    (obj (ms ++ [(k, v)])).tokens
      = .lbrace :: (memberTokens ms ++ .str k :: .colon :: (v.tokens ++ [.rbrace])) := by
  rw [tokens_obj, dropLast_memberTokens_concat]
  simp

theorem dropLast_elemTokens_cons (v w : Json) (vs : List Json) :
    (elemTokens (v :: w :: vs)).dropLast
      = tokens v ++ .comma :: (elemTokens (w :: vs)).dropLast := by
  rw [elemTokens_cons, List.dropLast_append_of_ne_nil (by simp),
    List.dropLast_cons_of_ne_nil (by simp)]

theorem dropLast_memberTokens_cons (k : String) (v : Json) (m : String × Json)
    (ms : List (String × Json)) :
    (memberTokens ((k, v) :: m :: ms)).dropLast
      = .str k :: .colon :: (tokens v ++ .comma :: (memberTokens (m :: ms)).dropLast) := by
  obtain ⟨l, w⟩ := m
  rw [memberTokens_cons, List.dropLast_cons_of_ne_nil (by simp),
    List.dropLast_cons_of_ne_nil (by simp), List.dropLast_append_of_ne_nil (by simp),
    List.dropLast_cons_of_ne_nil (by simp)]

/-! ## What the parser has read -/

/-- The tokens of the containers that are open, outermost first. -/
def stackTokens : List Frame → List Token
  | [] => []
  | .arr done :: st => stackTokens st ++ .lbracket :: elemTokens done
  | .member done k :: st =>
      stackTokens st ++ .lbrace :: (memberTokens done ++ [.str k, .colon])

/-- The tokens that lead to a state of the parser. -/
def Due.read : Due → List Token
  | .value st => stackTokens st
  | .element st => stackTokens st ++ [.lbracket]
  | .key done st => stackTokens st ++ .lbrace :: memberTokens done
  | .firstKey st => stackTokens st ++ [.lbrace]
  | .colon done k st => stackTokens st ++ .lbrace :: (memberTokens done ++ [.str k])
  | .after v st => stackTokens st ++ tokens v

theorem read_startValue {st : List Frame} {t : Token} {d : Due}
    (h : startValue st t = some d) : d.read = stackTokens st ++ [t] := by
  cases t <;> cases h <;> simp [Due.read, tokens]

/-- A step adds its token to what was read. -/
theorem read_parseStep {d d' : Due} {t : Token} (h : parseStep d t = some d') :
    d'.read = d.read ++ [t] := by
  unfold parseStep at h
  split at h
  · exact read_startValue h
  · cases h
    simp [Due.read, tokens]
  · rw [read_startValue h]
    simp [stackTokens, Due.read]
  -- what is done goes to the end of its array or object, and that may end too
  case h_8 =>
    cases h
    simp [Due.read, stackTokens, elemTokens_append]
  case h_9 =>
    cases h
    simp [Due.read, stackTokens, tokens, dropLast_elemTokens_concat]
  case h_10 =>
    cases h
    simp [Due.read, stackTokens, memberTokens_append]
  case h_11 =>
    cases h
    simp [Due.read, stackTokens, tokens, dropLast_memberTokens_concat]
  all_goals
    cases h
    try simp [Due.read, stackTokens, tokens]

/-- So does a run. -/
theorem read_parseRun {d d' : Due} {ts : List Token} (h : parseRun d ts = some d') :
    d'.read = d.read ++ ts := by
  induction ts generalizing d with
  | nil =>
      cases h
      simp
  | cons t ts ih =>
      obtain ⟨d1, hstep, hrun⟩ := Option.bind_eq_some_iff.mp h
      rw [ih hrun, read_parseStep hstep, List.append_assoc]
      rfl

/-! ## The tokens of a value are read as the value -/

/-- The first token of an element is not the bracket that ends an empty
array, so an element is read as any value is. -/
theorem parseRun_element {st : List Frame} {ts : List Token} {v : Json}
    (h : parseRun (.value (.arr [] :: st)) ts = some (.after v st)) :
    parseRun (.element st) ts = some (.after v st) := by
  cases ts with
  | nil => cases h
  | cons t ts =>
      cases t with
      | rbracket => cases h
      | _ => exact h

mutual

/-- Where a value is due, its tokens are read as the value. -/
theorem parseRun_tokens (v : Json) (st : List Frame) :
    parseRun (.value st) v.tokens = some (.after v st) :=
  match v with
  | .null => by rw [tokens]; rfl
  | .bool b => by rw [tokens]; rfl
  | .num x => by rw [tokens]; rfl
  | .str s => by rw [tokens]; rfl
  | .arr [] => by rw [tokens, elemTokens]; rfl
  | .arr (w :: vs) => by
      rw [tokens]
      exact parseRun_element (parseRun_elemTokens (w :: vs) (by simp) [] st)
  | .obj [] => by rw [tokens, memberTokens]; rfl
  | .obj ((k, w) :: ms) => by
      have h := parseRun_memberTokens ((k, w) :: ms) (by simp) [] st
      have hhead : (memberTokens ((k, w) :: ms)).dropLast
          = .str k :: (.colon :: (tokens w ++ .comma :: memberTokens ms)).dropLast := by
        rw [memberTokens_cons, List.dropLast_cons_of_ne_nil (by simp)]
      rw [tokens, hhead]
      rw [hhead] at h
      exact h

/-- The elements of an open array, and its end. -/
theorem parseRun_elemTokens (vs : List Json) (hne : vs ≠ []) (done : List Json)
    (st : List Frame) :
    parseRun (.value (.arr done :: st)) ((elemTokens vs).dropLast ++ [.rbracket])
      = some (.after (.arr (done ++ vs)) st) :=
  match vs with
  | [] => absurd rfl hne
  | [v] => by
      rw [← List.nil_append [v], dropLast_elemTokens_concat, elemTokens_nil,
        List.nil_append, parseRun_append, parseRun_tokens v]
      rfl
  | v :: w :: vs => by
      have h := parseRun_elemTokens (w :: vs) (by simp) (done ++ [v]) st
      rw [List.append_assoc] at h
      rw [dropLast_elemTokens_cons, List.append_assoc, parseRun_append, parseRun_tokens v]
      exact h

/-- The members of an open object, and its end. -/
theorem parseRun_memberTokens (ms : List (String × Json)) (hne : ms ≠ [])
    (done : List (String × Json)) (st : List Frame) :
    parseRun (.key done st) ((memberTokens ms).dropLast ++ [.rbrace])
      = some (.after (.obj (done ++ ms)) st) :=
  match ms with
  | [] => absurd rfl hne
  | [(k, v)] => by
      rw [← List.nil_append [(k, v)], dropLast_memberTokens_concat, memberTokens_nil,
        List.nil_append]
      show parseRun (.value (.member done k :: st)) (tokens v ++ [.rbrace]) = _
      rw [parseRun_append, parseRun_tokens v]
      rfl
  | (k, v) :: m :: ms => by
      have h := parseRun_memberTokens (m :: ms) (by simp) (done ++ [(k, v)]) st
      rw [List.append_assoc] at h
      rw [dropLast_memberTokens_cons]
      show parseRun (.value (.member done k :: st))
        (tokens v ++ .comma :: (memberTokens (m :: ms)).dropLast ++ [.rbrace]) = _
      rw [List.append_assoc, parseRun_append, parseRun_tokens v]
      exact h

end

/-- **What is read as a value is its tokens.** -/
theorem parseTokens_eq_some {ts : List Token} {v : Json} :
    parseTokens ts = some v ↔ ts = v.tokens := by
  constructor
  · intro h
    obtain ⟨d, hrun, hwhole⟩ := Option.bind_eq_some_iff.mp h
    unfold Due.whole at hwhole
    split at hwhole
    · cases hwhole
      exact (read_parseRun hrun).symm
    · cases hwhole
  · rintro rfl
    rw [parseTokens, parseRun_tokens]
    rfl

/-- **A text says a value** exactly when its tokens are the value's. -/
theorem parse_eq_some {s : String} {v : Json} :
    parse s = some v ↔ lex s.toList = some v.tokens := by
  rw [parse, Option.bind_eq_some_iff]
  constructor
  · rintro ⟨ts, hlex, hts⟩
    rw [hlex, parseTokens_eq_some.mp hts]
  · intro h
    exact ⟨_, h, parseTokens_eq_some.mpr rfl⟩

/-- A text reads as a value wherever one is due, if it is the value's tokens. -/
theorem reads_iff {cs : List Char} {v : Json} : Reads cs v ↔ LexesTo cs v.tokens := by
  constructor
  · rintro ⟨ts, hlex, hrun⟩
    have hread := read_parseRun (hrun [])
    rw [show ts = v.tokens from hread.symm] at hlex
    exact hlex
  · intro h
    exact ⟨_, h, parseRun_tokens v⟩

/-- An object whose text ends with its last member. -/
theorem Reads.obj_concat {head t : List Char} {ms : List (String × Json)} {k : String}
    {v : Json} (hhead : LexesTo head (.lbrace :: (memberTokens ms ++ [.str k, .colon])))
    (ht : Reads t v) : Reads (head ++ (t ++ ['\x7d'])) (.obj (ms ++ [(k, v)])) := by
  have hclose : LexesTo ['\x7d'] [.rbrace] := rfl
  have hlex := hhead.append ((reads_iff.mp ht).append hclose)
  rw [reads_iff, tokens_obj_concat]
  simpa using hlex

/-! ## What a value begins with -/

/-- Nothing follows a value that is whole. -/
theorem tokens_append_inj {v w : Json} {x y : List Token}
    (h : v.tokens ++ x = w.tokens ++ y) : v = w ∧ x = y := by
  have hnil : ∀ {v w : Json} {z : List Token}, w.tokens = v.tokens ++ z → v = w ∧ z = [] := by
    intro v w z hz
    have hrun := parseRun_tokens w []
    rw [hz, parseRun_append, parseRun_tokens v, Option.bind_some] at hrun
    cases z with
    | nil =>
        cases hrun
        exact ⟨rfl, rfl⟩
    | cons t z => cases hrun
  rcases List.append_eq_append_iff.mp h with ⟨z, hz, rfl⟩ | ⟨z, hz, rfl⟩
  · obtain ⟨rfl, rfl⟩ := hnil hz
    exact ⟨rfl, rfl⟩
  · obtain ⟨rfl, rfl⟩ := hnil hz
    exact ⟨rfl, rfl⟩

/-- **The first members of an object** are the members that its tokens begin
with. -/
theorem members_prefix {ms ms0 : List (String × Json)} {x z : List Token}
    (h : (memberTokens ms).dropLast ++ .rbrace :: x = memberTokens ms0 ++ z) :
    ∃ ms', ms = ms0 ++ ms' ∧ (memberTokens ms').dropLast ++ .rbrace :: x = z := by
  induction ms0 generalizing ms with
  | nil => exact ⟨ms, rfl, by simpa using h⟩
  | cons m0 ms0 ih =>
      obtain ⟨k0, v0⟩ := m0
      rw [memberTokens_cons] at h
      match ms with
      | [] => cases h
      | [(k, v)] =>
          -- behind the last member stands no comma
          rw [← List.nil_append [(k, v)], dropLast_memberTokens_concat, memberTokens_nil,
            List.nil_append] at h
          simp only [List.cons_append, List.append_assoc, List.cons.injEq, true_and] at h
          have hcomma := (tokens_append_inj h.2).2
          cases hcomma
      | (k, v) :: m :: ms =>
          rw [dropLast_memberTokens_cons] at h
          simp only [List.cons_append, List.append_assoc, List.cons.injEq, true_and,
            Token.str.injEq] at h
          obtain ⟨rfl, htokens⟩ := h
          obtain ⟨rfl, htail⟩ := tokens_append_inj htokens
          obtain ⟨ms', hms, hz⟩ := ih (List.cons.inj htail).2
          exact ⟨ms', by rw [hms]; rfl, hz⟩

end XaccIbm.Json
