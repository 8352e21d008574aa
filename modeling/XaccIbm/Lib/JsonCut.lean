import XaccIbm.Lib.JsonText

/-!
# JsonCut — arrays closed by cutting a character

Code that writes a comma behind every element of an array, and cuts the last
character before it closes the array, cuts the opening bracket when there is
no element. What is left then is no value, whatever follows it; and what is
read back from a text that is known up to a place is known up to that place.
-/

namespace XaccIbm.Json

/-! ## Texts of known values -/

/-- A whole text inside another one: a delimiter ends its last token. -/
theorem lexesTo_ended {cs : List Char} {ts us : List Token} {c : Char} (h : lex cs = some ts)
    (hc : idleStep c = some (.idle, us)) (hnum : isNumberChar c = false)
    (hlower : c.isLower = false) : LexesTo (cs ++ [c]) (ts ++ us) := by
  obtain ⟨⟨m, vs⟩, hm, h⟩ := Option.bind_eq_some_iff.mp h
  obtain ⟨ws, hws, rfl⟩ := Option.map_eq_some_iff.mp h
  have hstep : lexStep m c = some (.idle, ws ++ us) := by
    cases m with
    | idle =>
        cases hws
        exact hc
    | num acc =>
        obtain ⟨x, hx, rfl⟩ := Option.map_eq_some_iff.mp hws
        rw [lexStep, if_neg (by simp [hnum]), hx, Option.bind_some, hc]
        rfl
    | word acc =>
        obtain ⟨t, ht, rfl⟩ := Option.map_eq_some_iff.mp hws
        rw [lexStep, if_neg (by simp [hlower]), ht, Option.bind_some, hc]
        rfl
    | _ => cases hws
  rw [LexesTo, lexRun_append, hm, Option.bind_some, lexRun, hstep]
  simp [lexRun]

/-- A text that ends with a bracket or a brace ends between tokens. -/
theorem lexesTo_of_lex {cs : List Char} {ts : List Token} {t : Token}
    (h : lex cs = some (ts ++ [t])) (ht : t = .rbrace ∨ t = .rbracket) :
    LexesTo cs (ts ++ [t]) := by
  obtain ⟨⟨m, vs⟩, hm, h⟩ := Option.bind_eq_some_iff.mp h
  obtain ⟨ws, hws, h⟩ := Option.map_eq_some_iff.mp h
  -- a number or a word that the end of the text closes would be the last token
  have hlast : ∀ u, ws = [u] → u = t := by
    rintro u rfl
    exact (List.append_inj' h rfl).2 |> List.head_eq_of_cons_eq
  cases m with
  | idle =>
      cases hws
      rw [← h, List.append_nil]
      exact hm
  | num acc =>
      obtain ⟨x, _, rfl⟩ := Option.map_eq_some_iff.mp hws
      have hx := hlast _ rfl
      rcases ht with rfl | rfl <;> cases hx
  | word acc =>
      obtain ⟨u, hu, rfl⟩ := Option.map_eq_some_iff.mp hws
      have hut := hlast _ rfl
      subst hut
      unfold keyword at hu
      rcases ht with rfl | rfl <;> split_ifs at hu <;> cases hu
  | _ => cases hws

theorem reads_of_parse_obj {s : String} {ms : List (String × Json)}
    (h : parse s = some (.obj ms)) : Reads s.toList (.obj ms) := by
  rw [parse_eq_some] at h
  rw [reads_iff]
  rw [tokens_obj, ← List.cons_append] at h ⊢
  exact lexesTo_of_lex h (.inl rfl)

theorem reads_of_parse_arr {s : String} {vs : List Json} (h : parse s = some (.arr vs)) :
    Reads s.toList (.arr vs) := by
  rw [parse_eq_some] at h
  rw [reads_iff]
  rw [tokens_arr, ← List.cons_append] at h ⊢
  exact lexesTo_of_lex h (.inr rfl)

/-! ## Arrays that are cut -/

/-- An array whose elements are written with a comma behind each, and that is
closed in the place of its last character. -/
def cutArray (texts : List (List Char)) : List Char :=
  ('[' :: texts.flatMap (· ++ [','])).dropLast ++ [']']

theorem cutArray_eq {texts : List (List Char)} (h : texts ≠ []) :
    cutArray texts = '[' :: (texts.flatMap (· ++ [','])).dropLast ++ [']'] := by
  obtain ⟨t, texts, rfl⟩ := List.exists_cons_of_ne_nil h
  rw [cutArray, List.dropLast_cons_of_ne_nil (by simp)]

theorem reads_cutArray {texts : List (List Char)} {vals : List Json}
    (h : List.Forall₂ Reads texts vals) (hne : texts ≠ []) :
    Reads (cutArray texts) (.arr vals) := by
  rw [cutArray_eq hne]
  exact Reads.array h hne

/-- Its characters are those of the elements, but for brackets and commas. -/
theorem mem_cutArray {texts : List (List Char)} {c : Char} (h : c ∈ cutArray texts) :
    (∃ t ∈ texts, c ∈ t) ∨ c = '[' ∨ c = ',' ∨ c = ']' := by
  rw [cutArray, List.mem_append, List.mem_singleton] at h
  rcases h with h | rfl
  · rcases List.mem_cons.mp (List.dropLast_subset _ h) with rfl | h
    · exact .inr (.inl rfl)
    · obtain ⟨t, ht, hc⟩ := List.mem_flatMap.mp h
      rcases List.mem_append.mp hc with hc | hc
      · exact .inl ⟨t, ht, hc⟩
      · exact .inr (.inr (.inl (List.mem_singleton.mp hc)))
  · exact .inr (.inr (.inr rfl))

section

variable {α : Type} {text : α → List Char} {R : α → Json} {good : α → Prop}

/-- The elements of an array that is read back, one after the other. -/
theorem elements_of_lexFrom {as : List α} (hne : as ≠ [])
    (h : ∀ a ∈ as, ∀ rest us, lexFrom .idle (text a ++ rest) = some ((R a).tokens ++ us) →
      good a ∧ lexFrom .idle rest = some us)
    {rest : List Char} {us : List Token}
    (hlex : lexFrom .idle (((as.map text).flatMap (· ++ [','])).dropLast ++ rest)
      = some ((elemTokens (as.map R)).dropLast ++ us)) :
    (∀ a ∈ as, good a) ∧ lexFrom .idle rest = some us := by
  induction as with
  | nil => exact absurd rfl hne
  | cons a as ih =>
      have ha := h a List.mem_cons_self
      cases as with
      | nil =>
          have htokens : (elemTokens [R a]).dropLast = (R a).tokens := by
            rw [← List.nil_append [R a], dropLast_elemTokens_concat, elemTokens_nil,
              List.nil_append]
          simp only [List.map_cons, List.map_nil, List.flatMap_cons, List.flatMap_nil,
            List.append_nil, List.dropLast_concat, htokens] at hlex
          obtain ⟨hgood, hrest⟩ := ha _ _ hlex
          exact ⟨by simpa using hgood, hrest⟩
      | cons b as =>
          rw [List.map_cons, List.flatMap_cons, List.dropLast_append_of_ne_nil (by simp),
            List.append_assoc, List.append_assoc, List.map_cons (f := R), List.map_cons (f := R),
            dropLast_elemTokens_cons, List.append_assoc] at hlex
          obtain ⟨hgood, hrest⟩ := ha _ _ hlex
          have hcomma : lexRun .idle [','] = some (.idle, [.comma]) := rfl
          obtain ⟨hall, hlast⟩ := ih (by simp) (fun c hc => h c (List.mem_cons_of_mem _ hc))
            (lexFrom_rest hcomma hrest)
          exact ⟨List.forall_mem_cons.mpr ⟨hgood, hall⟩, hlast⟩

/-- **An array that is cut is read back** only when it has an element. -/
theorem cutArray_of_lexFrom {as : List α}
    (h : ∀ a ∈ as, ∀ rest us, lexFrom .idle (text a ++ rest) = some ((R a).tokens ++ us) →
      good a ∧ lexFrom .idle rest = some us)
    {rest : List Char} {us : List Token}
    (hlex : lexFrom .idle (cutArray (as.map text) ++ rest)
      = some ((arr (as.map R)).tokens ++ us)) :
    as ≠ [] ∧ (∀ a ∈ as, good a) ∧ lexFrom .idle rest = some us := by
  rw [tokens] at hlex
  by_cases hne : as = []
  · -- The text begins with the bracket that ends an array.
    subst hne
    have hclose : lexRun .idle [']'] = some (.idle, [.rbracket]) := rfl
    obtain ⟨vs, hvs, _⟩ := lexFrom_append hclose hlex
    cases hvs
  · have hopen : lexRun .idle ['['] = some (.idle, [.lbracket]) := rfl
    have hclose : lexRun .idle [']'] = some (.idle, [.rbracket]) := rfl
    have helements : lexFrom .idle (((as.map text).flatMap (· ++ [','])).dropLast ++ ([']'] ++ rest))
        = some ((elemTokens (as.map R)).dropLast ++ ([.rbracket] ++ us)) := by
      rw [cutArray_eq (by simpa using hne)] at hlex
      simp only [List.append_assoc, List.cons_append] at hlex
      exact lexFrom_rest hopen hlex
    obtain ⟨hall, hrest⟩ := elements_of_lexFrom hne h helements
    exact ⟨hne, hall, lexFrom_rest hclose hrest⟩

end

/-! ## Members behind known members -/

/-- The first member of a key. -/
theorem get?_append {ms ms' : List (String × Json)} {k : String} {v : Json}
    (h : k ∉ ms.map Prod.fst) : (obj (ms ++ (k, v) :: ms')).get? k = some v := by
  rw [get?]
  induction ms with
  | nil => simp
  | cons m ms ih =>
      rw [List.map_cons, List.mem_cons, not_or] at h
      have hne : (k == m.1) = false := by
        simpa using h.1
      rw [List.cons_append, List.lookup_cons, hne]
      exact ih h.2

/-- An object whose tokens go on with a new key after some members has a member
of that key. -/
theorem get?_of_tokens {v : Json} {ms : List (String × Json)} {k : String} {x z : List Token}
    (h : v.tokens ++ x = .lbrace :: (memberTokens ms ++ .str k :: .colon :: z))
    (hk : k ∉ ms.map Prod.fst) : ∃ w y, v.get? k = some w ∧ w.tokens ++ y = z := by
  obtain ⟨ns, rfl⟩ : ∃ ns, v = .obj ns := by
    cases v with
    | obj ns => exact ⟨ns, rfl⟩
    | _ =>
        rw [tokens] at h
        cases h
  rw [tokens, List.cons_append, List.append_assoc] at h
  obtain ⟨ms', rfl, hz⟩ := members_prefix (List.cons.inj h).2
  -- the members in front are `ms`, so the next one has the name `k`
  match ms' with
  | [] => cases hz
  | [(l, w)] =>
      rw [dropLast_memberTokens_singleton] at hz
      simp only [List.cons_append, List.cons.injEq, Token.str.injEq, true_and] at hz
      obtain ⟨rfl, hz⟩ := hz
      exact ⟨w, _, get?_append hk, hz⟩
  | (l, w) :: m :: ms' =>
      rw [dropLast_memberTokens_cons] at hz
      simp only [List.cons_append, List.append_assoc, List.cons.injEq, Token.str.injEq,
        true_and] at hz
      obtain ⟨rfl, hz⟩ := hz
      exact ⟨w, _, get?_append hk, hz⟩

end XaccIbm.Json
