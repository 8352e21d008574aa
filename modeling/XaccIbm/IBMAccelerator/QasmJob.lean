import XaccIbm.Accelerator.Outcomes
import XaccIbm.IBMAccelerator.JobText
import XaccIbm.Lib.JsonCut
import XaccIbm.OpenQasmVisitor.Operations

/-!
# IBMAccelerator — QasmJob

The document of a job of gate kernels. A program reaches its reader through
two escapings: the visitor writes the quotes of the include with their
backslashes, the accelerator escapes the newlines. What is left must stand for
itself between quotes, and does when the parameters do.
-/

namespace XaccIbm

open Json OpenQasmVisitor StdString Submission

/-! ## The text of a program -/

/-- A program whose quotes, escaped in the text already, are plain. -/
def readQuotes : List Char → List Char
  | '\\' :: '"' :: cs => '"' :: readQuotes cs
  | c :: cs => c :: readQuotes cs
  | [] => []

/-- A character that is at most a newline to be escaped. -/
def isProgramChar (c : Char) : Bool := c == '\n' || isPlainChar c

/-- A text that has its quotes escaped and its newlines still to be. -/
inductive Quotable : List Char → Prop where
  | nil : Quotable []
  | char {c : Char} {cs : List Char} : isProgramChar c = true → Quotable cs → Quotable (c :: cs)
  | quote {cs : List Char} : Quotable cs → Quotable ('\\' :: '"' :: cs)

namespace Quotable

theorem append {cs ds : List Char} (hc : Quotable cs) (hd : Quotable ds) :
    Quotable (cs ++ ds) := by
  induction hc with
  | nil => exact hd
  | char h _ ih => exact .char h ih
  | quote _ ih => exact .quote ih

theorem of_chars {cs : List Char} (h : ∀ c ∈ cs, isProgramChar c = true) : Quotable cs := by
  induction cs with
  | nil => exact .nil
  | cons c cs ih => exact .char (h c (by simp)) (ih fun d hd => h d (by simp [hd]))

/-- **A program between quotes** is read as it was before its escapings. -/
theorem lexRun {cs : List Char} (h : Quotable cs) (acc : List Char) :
    lexRun (.str acc) (cs.flatMap fun c => if c = '\n' then ['\\', 'n'] else [c])
      = some (.str (acc ++ readQuotes cs), []) := by
  induction h generalizing acc with
  | nil => simp [Json.lexRun, readQuotes]
  | @char c cs hc _ ih =>
      by_cases hn : c = '\n'
      · subst hn
        have hstep : Json.lexRun (.str acc) ['\\', 'n'] = some (.str (acc ++ ['\n']), []) := rfl
        rw [List.flatMap_cons, if_pos rfl, lexRun_append, hstep, Option.bind_some, ih]
        simp [readQuotes]
      · have hplain : isPlainChar c = true := by
          simpa [isProgramChar, hn] using hc
        have hslash : c ≠ '\\' := by
          rintro rfl
          exact absurd hplain (by decide)
        have hread : readQuotes (c :: cs) = c :: readQuotes cs := by
          rw [readQuotes]
          exact fun _ h => absurd h hslash
        rw [List.flatMap_cons, if_neg hn, List.singleton_append, Json.lexRun,
          lexStep_plain hplain, Option.bind_some, ih, hread]
        simp
  | @quote cs _ ih =>
      have hstep : Json.lexRun (.str acc) ['\\', '"'] = some (.str (acc ++ ['"']), []) := rfl
      have htext : ('\\' :: '"' :: cs).flatMap (fun c => if c = '\n' then ['\\', 'n'] else [c])
          = ['\\', '"'] ++ cs.flatMap fun c => if c = '\n' then ['\\', 'n'] else [c] := by
        simp
      rw [htext, lexRun_append, hstep, Option.bind_some, ih]
      simp [readQuotes]

end Quotable

theorem isProgramChar_of_isDigit {c : Char} (h : c.isDigit = true) : isProgramChar c = true := by
  have hquote : c ≠ '"' := by
    rintro rfl
    exact absurd h (by decide)
  have hslash : c ≠ '\\' := by
    rintro rfl
    exact absurd h (by decide)
  have hcontrol : ¬ c.toNat < 0x20 := by
    simp only [Char.isDigit, Bool.and_eq_true, decide_eq_true_eq] at h
    have hlow : 48 ≤ c.toNat := h.1
    omega
  simp [isProgramChar, isPlainChar, hquote, hslash, hcontrol]

/-- The opening of a program. -/
theorem quotable_new (size : Nat) : Quotable (new size false).native.toList := by
  have hinclude : Quotable "\ninclude ".toList := .of_chars (List.all_eq_true.mp (by decide))
  have hlib : Quotable "qelib1.inc".toList := .of_chars (List.all_eq_true.mp (by decide))
  have hqreg : Quotable ";\nqreg q[".toList := .of_chars (List.all_eq_true.mp (by decide))
  have hsize : Quotable (toString size).toList :=
    .of_chars fun c hc => isProgramChar_of_isDigit (Decimal.isDigit_of_mem hc)
  have hclose : Quotable "];\n".toList := .of_chars (List.all_eq_true.mp (by decide))
  have hopen : Quotable "\ninclude \\\"qelib1.inc\\\";\nqreg q[".toList :=
    hinclude.append (.quote (hlib.append (.quote hqreg)))
  have htext : (new size false).native.toList
      = "\ninclude \\\"qelib1.inc\\\";\nqreg q[".toList ++ (toString size).toList
        ++ "];\n".toList := by
    simp [new_native]
  rw [htext]
  exact (hopen.append hsize).append hclose

/-- A text of program characters. -/
def CleanText (t : String) : Prop := ∀ c ∈ t.toList, isProgramChar c = true

instance (t : String) : Decidable (CleanText t) :=
  decidable_of_iff (t.toList.all isProgramChar = true) List.all_eq_true

@[simp] theorem cleanText_repr (n : Nat) : CleanText n.repr :=
  fun _ hc => isProgramChar_of_isDigit (Decimal.isDigit_of_mem hc)

theorem cleanText_join {ts : List String} (h : ∀ t ∈ ts, CleanText t) :
    CleanText (String.join ts) := by
  intro c hc
  rw [String.toList_join, List.mem_flatMap] at hc
  obtain ⟨t, ht, hc⟩ := hc
  exact h t ht c hc

section

variable {P : Type} [ToString P]

theorem Angle.cleanText {a : Angle P} (h : ∀ p, a = .param p → Plain (toString p)) :
    CleanText a.text := by
  cases a with
  | param p =>
      intro c hc
      simp [isProgramChar, h p rfl c hc]
  | zero => exact (by decide : CleanText "0")
  | pi => exact (by decide : CleanText "3.14159")
  | halfPi => exact (by decide : CleanText "1.5708")
  | negHalfPi => exact (by decide : CleanText "-1.5708")

theorem QOp.cleanText {o : QOp P} (h : ∀ p, .param p ∈ o.params → Plain (toString p)) :
    ∀ t ∈ o.chunks, CleanText t := by
  have hangle : ∀ a ∈ o.params, CleanText a.text := by
    intro a ha
    refine Angle.cleanText fun p hp => h p (hp ▸ ha)
  have hseps : CleanText ", " ∧ CleanText ") q[" ∧ CleanText "];\n" := by decide
  cases o with
  | id q =>
      have hid : CleanText "id q[" := by decide
      simp [chunks, hid, hseps]
  | u1 a q =>
      have hu1 : CleanText "u1(" := by decide
      simp [chunks, hu1, hseps, hangle a (by simp [params])]
  | u2 a b q =>
      have hu2 : CleanText "u2(" := by decide
      simp [chunks, hu2, hseps, hangle a (by simp [params]), hangle b (by simp [params])]
  | u3 a b c q =>
      have hu3 : CleanText "u3(" := by decide
      simp [chunks, hu3, hseps, hangle a (by simp [params]), hangle b (by simp [params]),
        hangle c (by simp [params])]
  | U a b c q =>
      have hU : CleanText "U(" := by decide
      simp [chunks, hU, hseps, hangle a (by simp [params]), hangle b (by simp [params]),
        hangle c (by simp [params])]
  | cx a b =>
      have hcx : CleanText "cx q[" ∧ CleanText "], q[" := by decide
      simp [chunks, hcx, hseps]
  | measure q c =>
      have hmeasure : CleanText "measure q[" ∧ CleanText "] -> c" ∧ CleanText "[0];\n" := by
        decide
      simp [chunks, hmeasure]

theorem Gate.cleanText {g : Gate P} (h : ∀ p ∈ g.writtenParameters, Plain (toString p))
    (c : Nat) : ∀ piece ∈ g.pieces c, ∀ t ∈ piece.chunks, CleanText t := by
  intro piece hpiece t ht
  obtain ⟨o, ho, hpiece⟩ := List.mem_flatMap.mp hpiece
  have hclean : ∀ t ∈ o.chunks, CleanText t :=
    QOp.cleanText fun p hp => h p (mem_writtenParameters ho hp)
  cases o with
  | measure q k =>
      rcases List.mem_cons.mp hpiece with rfl | hpiece
      · have hcreg : CleanText "creg c" ∧ CleanText "[1];\n" := by decide
        have hall : ∀ t ∈ (Piece.creg k : Piece P).chunks, CleanText t := by
          simp [Piece.chunks, hcreg]
        exact hall t ht
      · rw [List.mem_singleton.mp hpiece] at ht
        exact hclean t ht
  | _ =>
      rw [List.mem_singleton.mp hpiece] at ht
      exact hclean t ht

/-- The parameters that a visitor of the kernel can write are plain, those in the
bodies of conditionals included. -/
def PlainParameters (kernel : Function (Gate P)) : Prop :=
  ∀ e g, .leaf e g ∈ kernel.walk → ∀ p ∈ g.writtenParameters, Plain (toString p)

theorem cleanText_render {kernel : Function (Gate P)} (h : PlainParameters kernel)
    (r : Registers) :
    CleanText (Piece.render (piecesList r (kernel.walk.filter Instruction.isEnabled))) := by
  refine cleanText_join fun t ht => ?_
  obtain ⟨piece, hpiece, ht⟩ := List.mem_flatMap.mp ht
  rcases gate_of_mem_piecesList hpiece with ⟨c, rfl⟩ | ⟨e, g, c, hg, hp⟩
  · have hguard : CleanText "if (c" ∧ CleanText " == 1) " := by decide
    have hall : ∀ t ∈ (Piece.guard c : Piece P).chunks, CleanText t := by
      simp [Piece.chunks, hguard]
    exact hall t ht
  · obtain ⟨i, hi, hleaf⟩ := Instruction.mem_preorderList.mp hg
    have hwalk := Instruction.preorder_subset (List.mem_filter.mp hi).1 hleaf
    exact Gate.cleanText (h e g hwalk) c piece hp t ht

/-- **The visitor's program is quotable**, for kernels with plain parameters. -/
theorem quotable_program {size : Nat} {kernel : Function (Gate P)}
    (h : PlainParameters kernel) {v : OpenQasmVisitor}
    (hv : passAll accept kernel.walk (new size false) = .ok () v) :
    Quotable v.getOpenQasmString.toList := by
  obtain ⟨_, rfl⟩ := acceptAll_ok (visited_of_passAll hv)
  rw [getOpenQasmString, native_withRegisters, native_emit, String.toList_append]
  exact (quotable_new size).append (.of_chars (cleanText_render h _))

end

/-! ## The document -/

namespace IBMAccelerator

/-- The document of a job of programs. -/
def qasmDocument (backendName : String) (shots : ℚ) (programs : List String) : Json :=
  .obj [("qasms", .arr (programs.map fun p => .obj [("qasm", .str p)])),
    ("shots", .num shots), ("maxCredits", .num 5),
    ("backend", .obj [("name", .str backendName)])]

/-- The text of a job behind its array. -/
def qasmEnd (backendName shots : String) : List Char :=
  ", \"shots\": ".toList ++ (shots.toList ++ (", \"maxCredits\": 5, ".toList ++
    (backendText backendName).toList))

theorem lexesTo_qasmEnd {backendName shots : String} {x : ℚ}
    (hshots : readNumber shots.toList = some x) (hname : Plain backendName) :
    LexesTo (qasmEnd backendName shots)
      [.comma, .str "shots", .colon, .num x, .comma, .str "maxCredits", .colon, .num 5,
        .comma, .str "backend", .colon, .lbrace, .str "name", .colon, .str backendName,
        .rbrace, .rbrace] := by
  have hkey : LexesTo ", \"shots\": ".toList [.comma, .str "shots", .colon] := rfl
  have hcredits : LexesTo ", \"maxCredits\": 5, ".toList
      [.comma, .str "maxCredits", .colon, .num 5, .comma] := by
    rw [LexesTo]
    decide +kernel
  exact hkey.append (LexesTo.number hshots (c := ',') rfl (by decide)
    (hcredits.append (lexesTo_backendText hname)))

/-- The text of a job of some elements. -/
theorem toList_qasmJob (backendName shots : String) {texts : String}
    {elements : List (List Char)} (h : texts.toList = elements.flatMap (· ++ [','])) :
    (qasmJob backendName shots texts).toList
      = "\x7b\"qasms\": ".toList ++ (cutArray elements ++ qasmEnd backendName shots) := by
  have hbracket : "\x7b\"qasms\": [".toList = "\x7b\"qasms\": ".toList ++ ['['] := rfl
  have hclose : "]".toList = [']'] := rfl
  unfold qasmJob qasmEnd cutLast cutArray
  simp only [String.toList_append, String.toList_ofList, List.append_assoc, h, hbracket, hclose]
  rw [List.dropLast_append_of_ne_nil (by simp)]
  simp only [List.append_assoc, List.cons_append, List.nil_append]

variable {P : Type} [ToString P]

/-- The visitor's program for a kernel, as its reader gets it. -/
def Program (size : Nat) (kernel : Function (Gate P)) (program : String) : Prop :=
  ∃ v, passAll accept kernel.walk (new size false) = .ok () v ∧
    program = String.ofList (readQuotes v.getOpenQasmString.toList)

/-- A kernel adds one object and a comma. -/
theorem reads_of_adds {size : Nat} {kernel : Function (Gate P)} (h : PlainParameters kernel)
    {t : String} (ht : (Kernel.gates kernel).Adds size t) :
    ∃ element program, t.toList = element ++ [','] ∧ Program size kernel program ∧
      Reads element (.obj [("qasm", .str program)]) := by
  obtain ⟨v, hv, rfl⟩ := ht
  have hkey : lexRun .idle "\x7b\"qasm\": \"".toList
      = some (.str [], [.lbrace, .str "qasm", .colon]) := rfl
  have hclose : LexesTo "\x7d".toList [.rbrace] := rfl
  have hread := LexesTo.within hkey ((quotable_program h hv).lexRun []) hclose
  refine ⟨_, _, ?_, ⟨v, hv, rfl⟩, reads_iff.mpr hread⟩
  simp [escapeNewlines]

theorem reads_of_forall₂_adds {size : Nat} {functions : List (Function (Gate P))}
    (h : ∀ kernel ∈ functions, PlainParameters kernel) {ts : List String}
    (hts : List.Forall₂ (fun kernel t => (Kernel.gates kernel).Adds size t) functions ts) :
    ∃ elements programs, (String.join ts).toList = elements.flatMap (· ++ [',']) ∧
      List.Forall₂ (Program size) functions programs ∧
      List.Forall₂ Reads elements (programs.map fun p => .obj [("qasm", .str p)]) := by
  induction hts with
  | nil => exact ⟨[], [], rfl, .nil, .nil⟩
  | cons ht _ ih =>
      obtain ⟨elements, programs, hjoin, hprograms, hreads⟩ :=
        ih fun kernel hk => h kernel (List.mem_cons_of_mem _ hk)
      obtain ⟨element, program, helement, hprogram, hread⟩ := reads_of_adds (h _ (by simp)) ht
      refine ⟨element :: elements, program :: programs, ?_, .cons hprogram hprograms,
        .cons hread hreads⟩
      rw [String.join_cons, String.toList_append, helement, hjoin, List.flatMap_cons]

/-- A job without a program is not well-formed: the bracket of the array is cut. -/
theorem parse_qasmJob_nil {backendName shots : String} {x : ℚ}
    (hshots : readNumber shots.toList = some x) (hname : Plain backendName) :
    parse (qasmJob backendName shots "") = none := by
  have hopen : LexesTo "\x7b\"qasms\": ".toList [.lbrace, .str "qasms", .colon] := rfl
  have hcut : LexesTo (cutArray []) [.rbracket] := rfl
  have htext := @toList_qasmJob backendName shots "" [] rfl
  rw [parse, htext, (hopen.append (hcut.append (lexesTo_qasmEnd hshots hname))).lex]
  rfl

/-- A job of some objects reads as the document of them. -/
theorem parse_qasmJob {backendName shots : String} {x : ℚ}
    (hshots : readNumber shots.toList = some x) (hname : Plain backendName)
    {elements : List (List Char)} {programs : List String} (hne : elements ≠ [])
    (hreads : List.Forall₂ Reads elements (programs.map fun p => .obj [("qasm", .str p)]))
    {texts : String} (htexts : texts.toList = elements.flatMap (· ++ [','])) :
    parse (qasmJob backendName shots texts)
      = some (qasmDocument backendName x programs) := by
  have hopen : LexesTo "\x7b\"qasms\": ".toList [.lbrace, .str "qasms", .colon] := rfl
  have harray := reads_iff.mp (reads_cutArray hreads hne)
  have htext := toList_qasmJob backendName shots htexts
  rw [parse_eq_some, htext, (hopen.append (harray.append (lexesTo_qasmEnd hshots hname))).lex]
  rw [qasmDocument, tokens_obj]
  simp only [dropLast_memberTokens_cons, dropLast_memberTokens_singleton]
  simp [tokens_str, tokens_num, tokens_obj]

/-- Digits that are no number, those with a zero too many in front, are put into
the text as they are, and it is not well-formed. -/
theorem parse_qasmJob_digits {backendName shots : String}
    (hdigits : ∀ c ∈ shots.toList, c.isDigit = true) (hempty : shots ≠ "")
    (hshots : readNumber shots.toList = none) {elements : List (List Char)}
    {documents : List Json} (hne : elements ≠ [])
    (hreads : List.Forall₂ Reads elements documents)
    {texts : String} (htexts : texts.toList = elements.flatMap (· ++ [','])) :
    parse (qasmJob backendName shots texts) = none := by
  have hopen : LexesTo "\x7b\"qasms\": ".toList [.lbrace, .str "qasms", .colon] := rfl
  have hkey : LexesTo ", \"shots\": ".toList [.comma, .str "shots", .colon] := rfl
  have harray := reads_iff.mp (reads_cutArray hreads hne)
  have hcomma : ", \"maxCredits\": 5, ".toList = ',' :: " \"maxCredits\": 5, ".toList := by
    decide
  have hnumber : lexRun .idle (shots.toList ++ (", \"maxCredits\": 5, ".toList ++
      (backendText backendName).toList)) = none := by
    rw [hcomma, List.cons_append]
    exact lexRun_digits hdigits (by simpa using hempty) hshots (by decide)
  have hend : lexRun .idle (qasmEnd backendName shots) = none := hkey.append_none hnumber
  have hrun := hopen.append_none (harray.append_none hend)
  rw [parse, toList_qasmJob backendName shots htexts, lex, hrun]
  rfl

/-- **A job of gate kernels is well-formed exactly when it has a kernel**, and is
then the document of the visitor's programs, in the order of the kernels. -/
theorem processInput_qasmDocument {options : Options} {pulseLibrary : List (String × String)}
    {functions : List (Function (Gate P))} {s s' : Session} {text : String} {x : ℚ}
    (hparams : ∀ kernel ∈ functions, PlainParameters kernel)
    (hshots : readNumber (shots options).toList = some x)
    (hname : Plain (jobBackend options))
    (h : processInput options pulseLibrary (functions.map .gates) s = .ok text s') :
    ((parse text).isSome ↔ functions ≠ []) ∧
      (functions ≠ [] → ∃ programs,
        List.Forall₂ (Program s.buffer.size) functions programs ∧
          parse text = some (qasmDocument (jobBackend options) x programs)) := by
  obtain ⟨ts, hts, rfl⟩ := processInput_text h
  rw [List.forall₂_map_left_iff] at hts
  have hanalogs : nAnalogs (functions.map Kernel.gates) = 0 := by
    simp [nAnalogs, Kernel.isAnalog]
  rw [if_neg (by omega)]
  -- without kernels the cut takes the bracket of the array
  by_cases hne : functions = []
  · subst hne
    cases hts
    have hnone := parse_qasmJob_nil hshots hname
    exact ⟨by simp [String.join, hnone], fun h => absurd rfl h⟩
  · obtain ⟨elements, programs, hjoin, hprograms, hreads⟩ := reads_of_forall₂_adds hparams hts
    have helements : elements ≠ [] := by
      rintro rfl
      have hlen := hreads.length_eq
      simp only [List.length_nil, List.length_map, ← hprograms.length_eq] at hlen
      exact hne (List.length_eq_zero_iff.mp hlen.symm)
    have hparse := parse_qasmJob hshots hname helements hreads hjoin
    exact ⟨by simp [hparse, hne], fun _ => ⟨programs, hprograms, hparse⟩⟩

/-- A kernel with a parameter in the body of a conditional. -/
def feedback : Function (Gate String) where
  name := "feedback"
  body := [.leaf true (.hadamard 0), .leaf true (.measure 0 0),
    .conditional true 0 [.leaf true (.rz "theta" 1)]]

theorem plainParameters_feedback : PlainParameters feedback := by
  intro e g hg p hp
  have htheta : g.writtenParameters = [] ∨ g.writtenParameters = ["theta"] := by
    simp [feedback, Function.walk, Function.toInstruction, Instruction.preorder,
      Instruction.preorderList] at hg
    rcases hg with ⟨rfl, rfl⟩ | ⟨rfl, rfl⟩ | ⟨rfl, rfl⟩ <;> simp [Gate.writtenParameters]
  rcases htheta with h | h
  · rw [h] at hp
    cases hp
  · rw [h, List.mem_singleton] at hp
    subst hp
    exact (by decide : Plain "theta")

/-- The theorem at two kernels, for the default backend. -/
theorem processInput_qasmDocument_feedback :
    ∃ text s' programs,
      processInput ∅ [] ([feedback, feedback].map .gates)
          { acc := {}, buffer := ⟨"q", 2, [], []⟩, replies := [] } = .ok text s' ∧
        List.Forall₂ (Program 2) [feedback, feedback] programs ∧
        parse text = some (qasmDocument defaultBackend 1024 programs) := by
  have hrun : Exec.succeeds (processInput ∅ [] ([feedback, feedback].map .gates)
      { acc := {}, buffer := ⟨"q", 2, [], []⟩, replies := [] }) = true := by
    decide +kernel
  obtain ⟨text, s', htext⟩ := Exec.succeeds_iff.mp hrun
  have hshots : readNumber (shots ∅).toList = some 1024 := readNumber_toString 1024
  obtain ⟨_, hdoc⟩ := processInput_qasmDocument (by simp [plainParameters_feedback]) hshots (by decide) htext
  obtain ⟨programs, hprograms, hparse⟩ := hdoc (by simp)
  exact ⟨text, s', programs, htext, hprograms, hparse⟩

/-- Shots with a zero in front. -/
def paddedShots : Options := (∅ : Options).set "ibm-shots" "0100"

/-- Shots that are digits are not enough: `0100` is no number. -/
theorem padded_not_qasmDocument :
    ¬ ∀ (options : Options) (functions : List (Function (Gate String))) (s s' : Session)
        (text : String),
      (∀ kernel ∈ functions, PlainParameters kernel) →
      shots options ≠ "" → (∀ c ∈ (shots options).toList, c.isDigit = true) →
      Plain (jobBackend options) →
      processInput options [] (functions.map .gates) s = .ok text s' →
      ((parse text).isSome ↔ functions ≠ []) := by
  intro hall
  have hrun : Exec.succeeds (processInput paddedShots [] ([feedback].map .gates)
      { acc := {}, buffer := ⟨"q", 2, [], []⟩, replies := [] }) = true := by
    decide +kernel
  obtain ⟨text, s', htext⟩ := Exec.succeeds_iff.mp hrun
  have hdigits : ∀ c ∈ (shots paddedShots).toList, c.isDigit = true :=
    List.all_eq_true.mp (by decide)
  obtain ⟨ts, hts, rfl⟩ := processInput_text htext
  rw [List.forall₂_map_left_iff] at hts
  obtain ⟨elements, programs, hjoin, hprograms, hreads⟩ :=
    reads_of_forall₂_adds (by simp [plainParameters_feedback]) hts
  have hne : elements ≠ [] := by
    rintro rfl
    have hlen := hreads.length_eq
    rw [List.length_map, ← hprograms.length_eq] at hlen
    cases hlen
  have hnone : parse (qasmJob (jobBackend paddedShots) (shots paddedShots) (String.join ts))
      = none :=
    parse_qasmJob_digits hdigits (by decide) (by decide) hne hreads hjoin
  have hsome := (hall _ [feedback] _ _ _ (by simp [plainParameters_feedback]) (by decide) hdigits
    (by decide) htext).mpr (by simp)
  rw [if_neg (by decide), hnone] at hsome
  cases hsome

end IBMAccelerator

end XaccIbm
