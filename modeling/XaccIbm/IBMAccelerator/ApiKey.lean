import Mathlib.Data.List.Nodup
import XaccIbm.Lib.StdString

/-!
# IBMAccelerator — ApiKey

`IBMAccelerator::findApiKeyInFile`: the lines `field: value` of the
configuration file. A line is taken for the first field, in a fixed order,
whose name occurs anywhere in it, and the value is put together from the
pieces between the colons: one of them, or two for the url. What was written
is read back when no value has the name of an earlier field in it and the url
has no second colon.
-/

namespace XaccIbm.IBMAccelerator

open StdString

inductive Field where
  | key
  | url
  | hub
  | group
  | project
  deriving DecidableEq, Repr

namespace Field

def name : Field → String
  | key => "key"
  | url => "url"
  | hub => "hub"
  | group => "group"
  | project => "project"

/-- The place of a field in the order in which a line is searched. -/
def rank : Field → Nat
  | key => 0
  | url => 1
  | hub => 2
  | group => 3
  | project => 4

/-- The field that a line is taken for. -/
def ofLine (l : String) : Option Field :=
  if contains l "key" then some key
  else if contains l "url" then some url
  else if contains l "hub" then some hub
  else if contains l "group" then some group
  else if contains l "project" then some project
  else none

/-- The value of a line; `none` where the pieces are read past the last. -/
def value (f : Field) (l : String) : Option String :=
  match f with
  | url => do
      let scheme ← (split l ':')[1]?
      let rest ← (split l ':')[2]?
      some (trim (scheme ++ ":" ++ rest))
  | _ => (split l ':')[1]?.map trim

theorem rank_injective : Function.Injective rank := by
  intro f g h
  cases f <;> cases g <;> first | rfl | cases h

theorem rank_lt (f : Field) : f.rank < 5 := by
  cases f <;> decide

/-- A line is taken for the first field whose name it has. -/
theorem ofLine_eq_some {l : String} {f : Field} :
    ofLine l = some f ↔
      contains l f.name = true ∧ ∀ g : Field, g.rank < f.rank → contains l g.name = false := by
  have hall : ∀ p : Field → Prop,
      (∀ g, p g) ↔ p key ∧ p url ∧ p hub ∧ p group ∧ p project := by
    intro p
    refine ⟨fun h => ⟨h _, h _, h _, h _, h _⟩, ?_⟩
    rintro ⟨_, _, _, _, _⟩ g
    cases g <;> assumption
  rw [hall, ofLine]
  cases f <;> simp only [name, rank] <;> grind

theorem exists_ofLine {l : String} {f : Field} (h : contains l f.name = true) :
    ∃ g, ofLine l = some g := by
  have hsome : ofLine l ≠ none := by
    unfold ofLine
    cases f <;> simp only [name] at h <;> grind
  exact Option.ne_none_iff_exists'.mp hsome

end Field

/-- The values that the accelerator connects with, by field. -/
abbrev Credentials := Field → String

/-- One line. -/
def readLine (c : Credentials) (l : String) : Option Credentials :=
  match Field.ofLine l with
  | none => some c
  | some f => (f.value l).map (Function.update c f)

/-- **`findApiKeyInFile`** on the contents of the file. -/
def findApiKeyInFile (contents : String) (c : Credentials) : Option Credentials :=
  (split contents '\n').foldlM readLine c

/-! ## The file of an assignment -/

/-- The line of a field. -/
def lineText (f : Field) (v : String) : String := f.name ++ ": " ++ v

/-- `scheme://host` with an optional port and path. -/
def IsUrl (v : String) : Prop :=
  ∃ scheme host port path : List Char,
    v.toList = scheme ++ ':' :: '/' :: '/' :: (host ++ port ++ path) ∧
    scheme ≠ [] ∧ host ≠ [] ∧ (∀ c ∈ scheme ++ host, c ≠ ':' ∧ c ≠ '/') ∧
    (port = [] ∨ ∃ ds, ds ≠ [] ∧ (∀ d ∈ ds, d.isDigit = true) ∧ port = ':' :: ds) ∧
    (path = [] ∨ ∃ p, path = '/' :: p)

/-- A value of a field: one line without whitespace around it. -/
structure IsValue (f : Field) (v : String) : Prop where
  nonempty : v ≠ ""
  oneLine : '\n' ∉ v.toList
  trimmed : trim v = v
  url : f = .url → IsUrl v
  plain : f ≠ .url → ':' ∉ v.toList

/-- Fields with values, in the order of their lines. -/
abbrev Assignment := List (Field × String)

/-- Every field at most once, with a value of its own. -/
structure Assignment.Valid (entries : Assignment) : Prop where
  nodup : (entries.map Prod.fst).Nodup
  values : ∀ e ∈ entries, IsValue e.1 e.2

/-- The contents of a file of lines, with or without a newline at the end. -/
def IsFileOf (lines : List String) (contents : String) : Prop :=
  contents.toList = ['\n'].intercalate (lines.map String.toList) ∨
    contents.toList = (lines.map String.toList).flatMap (· ++ ['\n'])

/-- What a file says: the assigned values, and the others as they were. -/
def Assignment.apply (entries : Assignment) (c : Credentials) : Credentials :=
  fun f => ((entries.find? fun e => decide (e.1 = f)).map Prod.snd).getD (c f)

/-- **The assignment is read back**, whatever was there before. -/
def Assignment.ReadsBack (entries : Assignment) : Prop :=
  ∀ contents, IsFileOf (entries.map fun e => lineText e.1 e.2) contents →
    ∀ c, findApiKeyInFile contents c = some (entries.apply c)

/-- No value has the name of a field that a line is searched for earlier, and
the url has no colon but the one behind its scheme. -/
structure Assignment.Plain (entries : Assignment) : Prop where
  unnamed : ∀ e ∈ entries, ∀ g : Field, g.rank < e.1.rank → contains e.2 g.name = false
  oneColon : ∀ e ∈ entries, e.1 = .url → e.2.toList.count ':' = 1

/-! ## One line -/

theorem Field.name_ne_nil (f : Field) : f.name.toList ≠ [] := by
  cases f <;> simp [name]

theorem Field.not_mem_name (f : Field) {c : Char} (h : c.isAlpha = false) :
    c ∉ f.name.toList := by
  have hname : ∀ d ∈ f.name.toList, d.isAlpha = true := by
    cases f <;> simp [name]
  intro hmem
  rw [hname c hmem] at h
  cases h

theorem lineText_toList (f : Field) (v : String) :
    (lineText f v).toList = f.name.toList ++ ':' :: ([] ++ ' ' :: v.toList) := by
  simp [lineText]

/-- The name of a field in a line: in front or in the value. -/
theorem contains_lineText {f g : Field} {v : String} :
    contains (lineText f v) g.name = true ↔
      g.name.toList <:+: f.name.toList ∨ contains v g.name = true := by
  rw [contains, contains, decide_eq_true_eq, decide_eq_true_eq, lineText_toList,
    infix_append_cons (g.not_mem_name rfl), infix_append_cons (g.not_mem_name rfl),
    List.infix_nil, or_iff_right g.name_ne_nil]

/-- When a line is taken for its own field. -/
theorem ofLine_lineText {f : Field} {v : String} :
    Field.ofLine (lineText f v) = some f ↔
      ∀ g : Field, g.rank < f.rank → contains v g.name = false := by
  have hnames : ∀ g : Field, g.rank < f.rank → ¬ g.name.toList <:+: f.name.toList := by
    intro g hg
    cases f <;> cases g <;> first | exact absurd hg (by decide) | decide
  rw [Field.ofLine_eq_some, and_iff_right (contains_lineText.mpr (.inl List.infix_rfl))]
  refine forall_congr' fun g => imp_congr_right fun hg => ?_
  rw [← Bool.not_eq_true, contains_lineText, ← Bool.not_eq_true, not_or,
    and_iff_right (hnames g hg)]

/-- A line is never taken for a later field. -/
theorem rank_of_ofLine {f g : Field} {v : String}
    (h : Field.ofLine (lineText f v) = some g) : g.rank ≤ f.rank := by
  rcases Nat.lt_or_ge f.rank g.rank with hlt | hle
  · have hown : contains (lineText f v) f.name = true :=
      contains_lineText.mpr (.inl List.infix_rfl)
    rw [(Field.ofLine_eq_some.mp h).2 f hlt] at hown
    cases hown
  · exact hle

theorem exists_ofLine (f : Field) (v : String) :
    ∃ g, Field.ofLine (lineText f v) = some g :=
  Field.exists_ofLine (contains_lineText.mpr (.inl List.infix_rfl))

/-- The pieces of a line behind its name. -/
theorem split_lineText (f : Field) (v : String) :
    split (lineText f v) ':'
      = f.name :: ((' ' :: v.toList).splitOn ':').map String.ofList := by
  rw [split, lineText_toList, List.nil_append,
    List.splitOn_append_cons_self_of_not_mem (f.not_mem_name rfl), List.map_cons,
    String.ofList_toList]

/-- The value of a url: its scheme and what stands up to the next colon. -/
theorem value_url {scheme rest after : List Char} {others : List (List Char)} {v : String}
    (hscheme : ':' ∉ ' ' :: scheme) (hv : v.toList = scheme ++ ':' :: after)
    (hafter : after.splitOn ':' = rest :: others) :
    Field.url.value (lineText .url v)
      = some (trim (String.ofList (' ' :: (scheme ++ ':' :: rest)))) := by
  have hsplit : split (lineText .url v) ':' = "url" ::
      String.ofList (' ' :: scheme) :: String.ofList rest :: others.map String.ofList := by
    rw [split_lineText, hv, ← List.cons_append,
      List.splitOn_append_cons_self_of_not_mem hscheme, hafter]
    rfl
  have hjoin : String.ofList (' ' :: scheme) ++ ":" ++ String.ofList rest
      = String.ofList (' ' :: (scheme ++ ':' :: rest)) :=
    String.toList_inj.mp (by simp)
  rw [Field.value, hsplit]
  exact congrArg (fun t => some (trim t)) hjoin

theorem trim_written {f : Field} {v : String} (h : IsValue f v) :
    trim (String.ofList (' ' :: v.toList)) = v := by
  rw [trim_space, String.ofList_toList, h.trimmed]

/-- A url is read as it was written if the colon behind its scheme is the only one. -/
theorem value_lineText_url {v : String} (h : IsValue .url v) :
    ∃ w, Field.url.value (lineText .url v) = some w ∧ (w = v ↔ v.toList.count ':' = 1) := by
  obtain ⟨scheme, host, port, path, hv, _, _, hplain, _⟩ := h.url rfl
  have hscheme : ':' ∉ ' ' :: scheme := by
    rw [List.mem_cons, not_or]
    exact ⟨by decide, fun hmem => (hplain ':' (List.mem_append_left _ hmem)).1 rfl⟩
  have hscheme0 : scheme.count ':' = 0 :=
    List.count_eq_zero.mpr fun hmem => hscheme (List.mem_cons_of_mem _ hmem)
  by_cases hcolon : ':' ∈ '/' :: '/' :: (host ++ port ++ path)
  · -- A second colon is where the value ends.
    obtain ⟨r, r', hr, hnot⟩ := List.eq_append_cons_of_mem hcolon
    rw [hr] at hv
    refine ⟨_, value_url hscheme hv (List.splitOn_append_cons_self_of_not_mem hnot _), ?_⟩
    have hr0 : r.count ':' = 0 := List.count_eq_zero.mpr hnot
    have hcount : v.toList.count ':' = 2 + r'.count ':' := by
      rw [hv]
      simp [hr0, hscheme0]
      omega
    refine iff_of_false (fun heq => ?_) (by omega)
    -- what was read has one colon only
    have hle := (trim_sublist (String.ofList (' ' :: (scheme ++ ':' :: r)))).count_le ':'
    rw [heq, hcount] at hle
    simp [hr0, hscheme0] at hle
    omega
  · refine ⟨v, ?_, iff_of_true rfl ?_⟩
    · rw [value_url hscheme hv (List.splitOn_eq_singleton hcolon), ← hv]
      exact congrArg some (trim_written h)
    · rw [hv, List.count_append, List.count_cons_self, hscheme0, List.count_eq_zero.mpr hcolon]

/-- The value of a line is the one that was written, unless it is a url with
more colons. -/
theorem value_lineText {f : Field} {v : String} (h : IsValue f v) :
    ∃ w, f.value (lineText f v) = some w ∧
      (w = v ↔ (f = .url → v.toList.count ':' = 1)) := by
  by_cases hf : f = .url
  · subst hf
    obtain ⟨w, hvalue, hiff⟩ := value_lineText_url h
    exact ⟨w, hvalue, hiff.trans ⟨fun hone _ => hone, fun hone => hone rfl⟩⟩
  · have hnot : ':' ∉ ' ' :: v.toList := by
      rw [List.mem_cons, not_or]
      exact ⟨by decide, h.plain hf⟩
    refine ⟨v, ?_, iff_of_true rfl fun h => absurd h hf⟩
    have hpiece : (split (lineText f v) ':')[1]?.map trim = some v := by
      rw [split_lineText, List.splitOn_eq_singleton hnot]
      exact congrArg some (trim_written h)
    cases f with
    | url => exact absurd rfl hf
    | _ => exact hpiece

/-! ## All lines -/

theorem splitOn_lines {lines : List (List Char)} (h : ∀ l ∈ lines, '\n' ∉ l) :
    (lines.flatMap (· ++ ['\n'])).splitOn '\n' = lines ++ [[]] := by
  induction lines with
  | nil => rfl
  | cons l lines ih =>
      rw [List.flatMap_cons, List.append_assoc, List.singleton_append,
        List.splitOn_append_cons_self_of_not_mem (h l (by simp)),
        ih fun l' hl' => h l' (by simp [hl']), List.cons_append]

/-- The pieces of a file are its lines, and an empty one after the last newline. -/
theorem split_file {lines : List String} {contents : String}
    (h : IsFileOf lines contents) (hlines : ∀ l ∈ lines, '\n' ∉ l.toList) :
    split contents '\n' = lines ∨ split contents '\n' = lines ++ [""] := by
  have hchars : ∀ l ∈ lines.map String.toList, '\n' ∉ l := by
    intro l hl
    obtain ⟨l', hl', rfl⟩ := List.mem_map.mp hl
    exact hlines l' hl'
  have hback : (lines.map String.toList).map String.ofList = lines := by
    simp [Function.comp_def]
  rcases h with h | h
  · cases lines with
    | nil =>
        rw [split, h]
        exact .inr rfl
    | cons l lines =>
        rw [split, h, List.splitOn_intercalate _ hchars (by simp)]
        exact .inl hback
  · rw [split, h, splitOn_lines hchars, List.map_append, hback]
    exact .inr rfl

/-- Reading a file is reading its lines. -/
theorem findApiKeyInFile_eq {lines : List String} {contents : String}
    (h : IsFileOf lines contents) (hlines : ∀ l ∈ lines, '\n' ∉ l.toList)
    (c : Credentials) : findApiKeyInFile contents c = lines.foldlM readLine c := by
  rw [findApiKeyInFile]
  rcases split_file h hlines with hs | hs
  · rw [hs]
  · rw [hs, List.foldlM_append]
    cases lines.foldlM readLine c <;> rfl

theorem newline_not_mem_lineText {f : Field} {v : String} (h : IsValue f v) :
    '\n' ∉ (lineText f v).toList := by
  rw [lineText_toList, List.mem_append, not_or]
  exact ⟨f.not_mem_name rfl, by simpa using h.oneLine⟩

/-- A field that ends with another value had a line. -/
theorem exists_line_of_ne {lines : List String} {c c' : Credentials} {f : Field}
    (h : lines.foldlM readLine c = some c') (hne : c' f ≠ c f) :
    ∃ l ∈ lines, Field.ofLine l = some f := by
  induction lines generalizing c with
  | nil =>
      cases h
      exact absurd rfl hne
  | cons l lines ih =>
      rw [List.foldlM_cons] at h
      obtain ⟨c1, hline, h⟩ := Option.bind_eq_some_iff.mp h
      by_cases hf : c1 f = c f
      · obtain ⟨l', hl', hl'f⟩ := ih h (hf ▸ hne)
        exact ⟨l', List.mem_cons_of_mem _ hl', hl'f⟩
      · refine ⟨l, List.mem_cons_self, ?_⟩
        unfold readLine at hline
        split at hline
        · cases hline
          exact absurd rfl hf
        · rename_i g hg
          obtain ⟨v, _, rfl⟩ := Option.map_eq_some_iff.mp hline
          by_cases hfg : f = g
          · rw [hg, hfg]
          · exact absurd (Function.update_of_ne hfg _ _) hf

section

variable {entries : Assignment}

theorem find?_eq_of_mem (hn : (entries.map Prod.fst).Nodup) {e : Field × String}
    (he : e ∈ entries) : entries.find? (fun e' => decide (e'.1 = e.1)) = some e := by
  induction entries with
  | nil => cases he
  | cons e' entries ih =>
      rw [List.map_cons, List.nodup_cons] at hn
      rcases List.mem_cons.mp he with rfl | he
      · rw [List.find?_cons_of_pos (by simp)]
      · have hne : ¬ e'.1 = e.1 := by
          intro heq
          exact hn.1 (heq ▸ List.mem_map_of_mem he)
        rw [List.find?_cons_of_neg (by simpa using hne), ih hn.2 he]

/-- Lines that are taken for their own fields set them, and nothing else. -/
theorem foldlM_own {w : Field × String → String} (hn : (entries.map Prod.fst).Nodup)
    (hown : ∀ e ∈ entries, Field.ofLine (lineText e.1 e.2) = some e.1)
    (hvalue : ∀ e ∈ entries, e.1.value (lineText e.1 e.2) = some (w e)) (c : Credentials) :
    (entries.map fun e => lineText e.1 e.2).foldlM readLine c
      = some fun f => ((entries.find? fun e => decide (e.1 = f)).map w).getD (c f) := by
  induction entries generalizing c with
  | nil => rfl
  | cons e entries ih =>
      rw [List.map_cons, List.nodup_cons] at hn
      have hread : readLine c (lineText e.1 e.2) = some (Function.update c e.1 (w e)) := by
        rw [readLine, hown e (by simp)]
        exact congrArg (Option.map _) (hvalue e (by simp))
      rw [List.map_cons, List.foldlM_cons, hread]
      show (entries.map _).foldlM readLine (Function.update c e.1 (w e)) = _
      rw [ih hn.2 (fun e he => hown e (by simp [he])) fun e he => hvalue e (by simp [he])]
      congr 1
      funext f
      by_cases hf : e.1 = f
      · subst hf
        have hnone : entries.find? (fun e' => decide (e'.1 = e.1)) = none := by
          rw [List.find?_eq_none]
          intro e' he' heq
          exact hn.1 (of_decide_eq_true heq ▸ List.mem_map_of_mem he')
        rw [List.find?_cons_of_pos (by simp), hnone, Function.update_self]
        rfl
      · rw [List.find?_cons_of_neg (by simpa using hf), Function.update_of_ne (Ne.symm hf)]

theorem apply_of_mem (hn : (entries.map Prod.fst).Nodup) {e : Field × String}
    (he : e ∈ entries) (c : Credentials) : entries.apply c e.1 = e.2 := by
  rw [Assignment.apply, find?_eq_of_mem hn he]
  rfl

/-- Reading back is reading the lines. -/
theorem readsBack_iff_foldlM (hvalid : entries.Valid) :
    entries.ReadsBack ↔ ∀ c, (entries.map fun e => lineText e.1 e.2).foldlM readLine c
      = some (entries.apply c) := by
  have hlines : ∀ l ∈ entries.map (fun e => lineText e.1 e.2), '\n' ∉ l.toList := by
    intro l hl
    obtain ⟨e, he, rfl⟩ := List.mem_map.mp hl
    exact newline_not_mem_lineText (hvalid.values e he)
  constructor
  · intro h c
    have hfile : IsFileOf (entries.map fun e => lineText e.1 e.2)
        (String.ofList (['\n'].intercalate
          ((entries.map fun e => lineText e.1 e.2).map String.toList))) :=
      .inl (String.toList_ofList ..)
    rw [← findApiKeyInFile_eq hfile hlines]
    exact h _ hfile c
  · intro h contents hfile c
    rw [findApiKeyInFile_eq hfile hlines, h]

/-- What is read back was taken for its own field. A line that was taken for
an earlier field leaves its own to a later line, so the last such line has
none. -/
theorem ofLine_of_readsBack (hvalid : entries.Valid) (h : entries.ReadsBack)
    (e : Field × String) (he : e ∈ entries) :
    Field.ofLine (lineText e.1 e.2) = some e.1 := by
  induction hk : 5 - e.1.rank using Nat.strong_induction_on generalizing e with
  | _ k ih =>
      obtain ⟨g, hg⟩ := exists_ofLine e.1 e.2
      by_cases hge : g = e.1
      · rw [hg, hge]
      · have hread := (readsBack_iff_foldlM hvalid).mp h fun _ => ""
        have hne : entries.apply (fun _ => "") e.1 ≠ "" := by
          rw [apply_of_mem hvalid.nodup he]
          exact (hvalid.values e he).nonempty
        obtain ⟨l, hl, hlf⟩ := exists_line_of_ne hread hne
        obtain ⟨e', he', rfl⟩ := List.mem_map.mp hl
        have hrank := rank_of_ofLine hlf
        have hlast := e'.1.rank_lt
        rcases Nat.lt_or_eq_of_le hrank with hlt | heq
        · rw [ih (5 - e'.1.rank) (by omega) e' he' rfl] at hlf
          rw [Option.some.inj hlf] at hlt
          exact absurd hlt (Nat.lt_irrefl _)
        · have hfind := find?_eq_of_mem hvalid.nodup he
          rw [Field.rank_injective heq, find?_eq_of_mem hvalid.nodup he'] at hfind
          cases hfind
          rw [hg] at hlf
          exact absurd (Option.some.inj hlf) hge

/-- **Which assignments are read back**: those without the name of an earlier
field in a value and without a second colon in the url. -/
theorem readsBack_iff (hvalid : entries.Valid) : entries.ReadsBack ↔ entries.Plain := by
  constructor
  · intro h
    have hown := ofLine_of_readsBack hvalid h
    refine ⟨fun e he => ofLine_lineText.mp (hown e he), fun e he hurl => ?_⟩
    have hvalue : ∀ e ∈ entries, e.1.value (lineText e.1 e.2)
        = some ((e.1.value (lineText e.1 e.2)).getD "") := by
      intro e he
      obtain ⟨v, hv, _⟩ := value_lineText (hvalid.values e he)
      rw [hv]
      rfl
    have hread := (readsBack_iff_foldlM hvalid).mp h fun _ => ""
    rw [foldlM_own hvalid.nodup hown hvalue] at hread
    have hlast := congrFun (Option.some.inj hread) e.1
    rw [apply_of_mem hvalid.nodup he, find?_eq_of_mem hvalid.nodup he, Option.map_some,
      Option.getD_some] at hlast
    obtain ⟨v, hv, hiff⟩ := value_lineText (hvalid.values e he)
    rw [hv] at hlast
    exact hiff.mp hlast hurl
  · intro h
    refine (readsBack_iff_foldlM hvalid).mpr fun c => ?_
    refine foldlM_own hvalid.nodup (fun e he => ofLine_lineText.mpr (h.unnamed e he)) ?_ c
    intro e he
    obtain ⟨v, hv, hiff⟩ := value_lineText (hvalid.values e he)
    rw [hv, hiff.mpr (h.oneColon e he)]

end

/-- The port of a url is lost. -/
theorem port_not_readsBack : ¬ ∀ entries : Assignment, entries.Valid → entries.ReadsBack := by
  intro h
  have hvalid : Assignment.Valid [(.key, "abc"), (.url, "http://host:8080")] := by
    refine ⟨by decide, fun e he => ?_⟩
    rcases List.mem_cons.mp he with rfl | he
    · exact ⟨by decide, by decide, by decide, nofun, fun _ => by decide⟩
    · rw [List.mem_singleton.mp he]
      refine ⟨by decide, by decide, by decide, fun _ => ?_, fun h => absurd rfl h⟩
      exact ⟨"http".toList, "host".toList, ":8080".toList, [], by decide, by decide, by decide,
        by simp, .inr ⟨"8080".toList, by decide, by simp, rfl⟩, .inl rfl⟩
  have hread := h _ hvalid "key: abc\nurl: http://host:8080" (.inl (by decide)) fun _ => ""
  have hurl := congrArg (Option.map fun c : Credentials => c .url) hread
  exact absurd hurl (by decide)

/-- The theorem at a file with a hub. -/
theorem readsBack_hub :
    Assignment.ReadsBack [(.hub, "ibm-q-ornl"), (.key, "abc"),
      (.url, "https://q-console-api.mybluemix.net/api")] := by
  have hunnamed : ∀ g : Field, ∀ e ∈ [(Field.hub, "ibm-q-ornl"), (.key, "abc"),
      (.url, "https://q-console-api.mybluemix.net/api")],
      g.rank < e.1.rank → contains e.2 g.name = false := by
    intro g
    cases g <;> decide
  refine (readsBack_iff ⟨by decide, fun e he => ?_⟩).mpr
    ⟨fun e he g => hunnamed g e he, by decide⟩
  rcases List.mem_cons.mp he with rfl | he
  · exact ⟨by decide, by decide, by decide, nofun, fun _ => by decide⟩
  rcases List.mem_cons.mp he with rfl | he
  · exact ⟨by decide, by decide, by decide, nofun, fun _ => by decide⟩
  · rw [List.mem_singleton.mp he]
    refine ⟨by decide, by decide, by decide, fun _ => ?_, fun h => absurd rfl h⟩
    exact ⟨"https".toList, "q-console-api.mybluemix.net".toList, [], "/api".toList, by decide,
      by decide, by decide, by simp, .inl rfl, .inr ⟨"api".toList, rfl⟩⟩

end XaccIbm.IBMAccelerator
