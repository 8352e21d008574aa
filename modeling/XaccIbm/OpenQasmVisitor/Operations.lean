import Mathlib.Data.List.Forall2
import XaccIbm.Lib.Json
import XaccIbm.OpenQasmVisitor.Guards

/-!
# OpenQasmVisitor — Operations

The JSON array against the program text. Every `visit` writes an operation
twice, once as a statement and once as an element of the array; this module
reads both back and compares them. The array is read with a JSON reader, so
a parameter that is no JSON number, or an array that is not closed right,
shows as a text that does not read at all.
-/

namespace XaccIbm

open OpenQasmVisitor StdString

variable {P : Type}

/-! ## The operations of a text, without their guards -/

/-- A guard reaches the next operation, however far away it is. -/
theorem exists_guarded (c : Nat) {qs : List (Piece P)}
    (hq : qs.filterMap Piece.op? ≠ []) (pending : List Nat)
    (ps : List (Piece P)) :
    ∃ g ∈ operationsFrom pending (ps ++ .guard c :: qs), g.guards ≠ [] := by
  have hhead : ∀ (qs : List (Piece P)), qs.filterMap Piece.op? ≠ [] →
      ∀ pending : List Nat, pending ≠ [] →
      ∃ g ∈ operationsFrom pending qs, g.guards ≠ [] := by
    intro qs
    induction qs with
    | nil => intro h; exact absurd rfl h
    | cons p qs ih =>
        intro h pending hp
        cases p with
        | guard c => exact ih h _ (by simp)
        | creg c => exact ih h _ hp
        | op o => exact ⟨⟨pending, o⟩, by simp [operationsFrom], hp⟩
  induction ps generalizing pending with
  | nil => exact hhead qs hq _ (by simp)
  | cons p ps ih =>
      cases p with
      | guard d => exact ih _
      | creg d => exact ih _
      | op o =>
          obtain ⟨g, hg, hne⟩ := ih []
          exact ⟨g, by simp [operationsFrom, hg], hne⟩

theorem filterMap_op_flatMap_pieces (os : List (QOp P)) :
    (os.flatMap QOp.pieces).filterMap Piece.op? = os := by
  have h := map_op_operationsFrom [] (os.flatMap QOp.pieces ++ [])
  rw [operationsFrom_pieces] at h
  simpa [operationsFrom, Function.comp_def] using h.symm

/-- What the array records is part of what the text says, in its order. -/
theorem recordedList_sublist (r : Registers)
    (is : List (Instruction (Gate P))) :
    List.Sublist (recordedList r is)
      ((piecesList r is).filterMap Piece.op?) := by
  induction is generalizing r with
  | nil => simp
  | cons i is ih =>
      rw [recordedList_cons, piecesList_cons, List.filterMap_append]
      refine List.Sublist.append ?_ (ih _)
      cases i with
      | leaf e g =>
          rw [recorded, pieces, Gate.pieces, filterMap_op_flatMap_pieces]
      | conditional e q body => exact List.nil_sublist _
      | function e n body => exact List.nil_sublist _

/-- No operation in the text means that no statement was written. -/
theorem filterMap_op_eq_nil_iff (r : Registers)
    (is : List (Instruction (Gate P))) :
    (piecesList r is).filterMap Piece.op? = [] ↔ statementsList is = 0 := by
  rw [← noStatementList_iff r is, List.filterMap_eq_nil_iff]
  constructor
  · intro h p hp
    by_contra hs
    obtain ⟨o, ho, hop⟩ := hasOp_piecesList r is ⟨p, hp, by simpa using hs⟩
    cases o with
    | op o => cases h _ ho
    | guard c => cases hop
    | creg c => cases hop
  · intro h p hp
    cases p with
    | op o => cases h _ hp
    | guard c => rfl
    | creg c => rfl

/-- The operations of a gate that is visited are recorded. -/
theorem mem_recordedList {is : List (Instruction (Gate P))} {e : Bool}
    {g : Gate P} (h : .leaf e g ∈ is) (r : Registers) :
    ∃ c, ∀ o ∈ g.ops c, o ∈ recordedList r is := by
  induction is generalizing r with
  | nil => cases h
  | cons i is ih =>
      rcases List.mem_cons.mp h with rfl | h
      · exact ⟨r.counter, fun o ho => List.mem_append_left _ ho⟩
      · obtain ⟨c, hc⟩ := ih h (r.step i)
        exact ⟨c, fun o ho => List.mem_append_right _ (hc o ho)⟩

/-- Without guards in front of operations the text says what is recorded. -/
theorem operations_of_unguarded {is : List (Instruction (Gate P))}
    (h : ∀ before e q body later,
      is = before ++ .conditional e q body :: later →
        statementsList body = 0 ∧ ∀ i ∈ later, statements i = 0)
    (r : Registers) :
    operations (piecesList r is) = (recordedList r is).map (⟨[], ·⟩) := by
  induction is generalizing r with
  | nil => rfl
  | cons i is ih =>
      have htail := ih (fun before e q body later his =>
        h (i :: before) e q body later (by rw [his]; rfl)) (r.step i)
      rw [piecesList_cons, recordedList_cons, List.map_append]
      cases i with
      | leaf e g =>
          rw [operations, pieces, Gate.pieces, operationsFrom_pieces]
          exact congrArg _ htail
      | function e n body =>
          rw [pieces]
          exact htail
      | conditional e q body =>
          obtain ⟨hbody, hlater⟩ := h [] e q body is rfl
          have hps := (filterMap_op_eq_nil_iff {} body).mpr hbody
          have hqs := (filterMap_op_eq_nil_iff (r.step (.conditional e q body))
            is).mpr (statementsList_eq_zero.mpr hlater)
          have hrec : recordedList (r.step (.conditional e q body)) is = [] := by
            have hsub := recordedList_sublist (r.step (.conditional e q body)) is
            rw [hqs] at hsub
            exact List.sublist_nil.mp hsub
          rw [hrec, operations, operationsFrom_eq_nil]
          · rfl
          · rw [pieces, List.filterMap_append, hqs]
            simpa [Piece.op?] using hps

/-- When every operation of the text is recorded, nothing is behind a
guard that the array does not know of. -/
theorem statementsList_body_of_recorded {e : Bool} {q : Nat}
    {before body later : List (Instruction (Gate P))}
    (h : recordedList {} (before ++ .conditional e q body :: later)
      = (piecesList {} (before ++ .conditional e q body :: later)).filterMap
          Piece.op?) : statementsList body = 0 := by
  rw [← filterMap_op_eq_nil_iff {} body, ← List.length_eq_zero_iff]
  have hb := (recordedList_sublist {} before).length_le
  have hl := (recordedList_sublist
    ((Registers.steps {} before).step (.conditional e q body)) later).length_le
  have hlen := congrArg List.length h
  simp only [recordedList_append, piecesList_append, recordedList_cons,
    piecesList_cons, recorded, pieces, List.filterMap_append,
    List.filterMap_cons, Piece.op?, List.length_append, List.length_nil] at hlen
  omega

/-! ## The elements of the array -/

variable [ToString P]

/-- The value of a parameter that is a number text. -/
def Angle.number (a : Angle P) : ℚ := (Json.readNumber a.text.toList).getD 0

/-- Every parameter of the operation is a number text. -/
def QOp.Numeric (o : QOp P) : Prop :=
  ∀ a ∈ o.params, (Json.readNumber a.text.toList).isSome = true

/-- The element of an operation, as a value. -/
def QOp.element : QOp P → Json
  | .measure q c =>
      .obj [("clbits", .arr [.num c]), ("name", .str "measure"),
        ("qubits", .arr [.num q])]
  | o =>
      .obj [("name", .str o.name),
        ("params", .arr (o.params.map fun a => .num a.number)),
        ("qubits", .arr (o.qubits.map fun q => .num q))]

/-- The members an operation is described by. -/
def operationMembers : List String := ["name", "params", "qubits", "clbits"]

/-- **An element describes an operation of the text**: the same name,
parameters, qubits and classical registers, where a missing list is an empty
one; and it has a member of its own for the condition exactly when the
operation has one. -/
structure Describes (j : Json) (g : GuardedOp P) : Prop where
  isObj : ∃ members, j = .obj members ∧
    (g.guards = [] ↔ ∀ m ∈ members, m.1 ∈ operationMembers)
  name : j.get? "name" = some (.str g.op.name)
  params : ∃ xs : List ℚ, (j.get? "params").getD (.arr []) = .arr (xs.map .num) ∧
    g.op.params.map (fun a => Json.readNumber a.text.toList) = xs.map some
  qubits : (j.get? "qubits").getD (.arr [])
    = .arr (g.op.qubits.map fun q => .num q)
  clbits : (j.get? "clbits").getD (.arr [])
    = .arr (g.op.clbits.map fun c => .num c)

theorem QOp.Numeric.read {o : QOp P} (h : o.Numeric) {a : Angle P}
    (ha : a ∈ o.params) : Json.readNumber a.text.toList = some a.number := by
  obtain ⟨x, hx⟩ := Option.isSome_iff_exists.mp (h a ha)
  rw [Angle.number, hx]
  rfl

/-- The element of an operation describes it when nothing guards it. -/
theorem describes_element {o : QOp P} (h : o.Numeric) :
    Describes o.element ⟨[], o⟩ := by
  have hp : o.params.map (fun a => Json.readNumber a.text.toList)
      = (o.params.map Angle.number).map some := by
    rw [List.map_map]
    exact List.map_congr_left fun a ha => h.read ha
  cases o with
  | measure q c =>
      exact ⟨⟨_, rfl, by simp [operationMembers]⟩, rfl, ⟨[], rfl, rfl⟩, rfl, rfl⟩
  | _ =>
      refine ⟨⟨_, rfl, by simp [operationMembers]⟩, rfl, ⟨_, ?_, hp⟩, rfl, rfl⟩
      rfl

/-- The members of an element leave no room for a condition. -/
theorem guards_eq_nil_of_describes {o : QOp P} {g : GuardedOp P}
    (h : Describes o.element g) : g.guards = [] := by
  obtain ⟨members, hm, hg⟩ := h.isObj
  refine hg.mpr ?_
  cases o with
  | measure q c =>
      obtain rfl := Json.obj.inj hm
      simp [operationMembers]
  | _ =>
      obtain rfl := Json.obj.inj hm
      simp [operationMembers]

theorem Describes.numeric {j : Json} {g : GuardedOp P} (h : Describes j g) :
    g.op.Numeric := by
  obtain ⟨xs, _, hxs⟩ := h.params
  intro a ha
  have hmem := List.mem_map_of_mem (f := fun a : Angle P =>
    Json.readNumber a.text.toList) ha
  rw [hxs] at hmem
  obtain ⟨x, _, hx⟩ := List.mem_map.mp hmem
  rw [← hx]
  rfl

/-! ## The array reads as its elements -/

/-- An element without the comma behind it. -/
def QOp.elementText (o : QOp P) : List Char :=
  o.jsonChunks.dropLast.flatMap String.toList ++ "]\x7d".toList

theorem QOp.elementText_comma (o : QOp P) :
    (String.join o.jsonChunks).toList = o.elementText ++ [','] := by
  have hlast : o.jsonChunks = o.jsonChunks.dropLast ++ ["]\x7d,"] := by
    cases o with
    | u2 a b q => cases a <;> rfl
    | _ => rfl
  rw [elementText, String.toList_join, hlast, List.flatMap_append,
    List.dropLast_concat, List.append_assoc]
  rfl

open Json

/-- The last number of an element and what closes the element. -/
theorem lexesTo_close (q : Nat) :
    LexesTo ((toString q).toList ++ "]\x7d".toList)
      [.num q, .rbracket, .rbrace] := by
  have h : LexesTo "]\x7d".toList [.rbracket, .rbrace] := rfl
  exact LexesTo.number (readNumber_toString q) rfl rfl h

/-- The member behind the parameters. -/
private theorem lexesTo_qubit (q : Nat) :
    LexesTo
      ("],\"qubits\":[".toList ++ ((toString q).toList ++ "]\x7d".toList))
      [.rbracket, .comma, .str "qubits", .colon, .lbracket, .num q, .rbracket,
        .rbrace] := by
  have h : LexesTo "],\"qubits\":[".toList
      [.rbracket, .comma, .str "qubits", .colon, .lbracket] := rfl
  exact h.append (lexesTo_close q)

/-- A parameter, a separator and the rest. -/
private theorem lexesTo_param {t rest : List Char} {x : ℚ} {ts : List Token}
    (ht : readNumber t = some x) (hrest : LexesTo rest ts) :
    LexesTo (t ++ (", ".toList ++ rest)) (.num x :: .comma :: ts) := by
  have h : LexesTo ", ".toList [.comma] := rfl
  exact LexesTo.number ht rfl rfl (h.append hrest)

/-- Three parameters, as `u3` and `U` write them. -/
private theorem lexesTo_three {a b c : List Char} {x y z : ℚ} (q : Nat)
    (ha : readNumber a = some x) (hb : readNumber b = some y)
    (hc : readNumber c = some z) :
    LexesTo (a ++ (", ".toList ++ (b ++ (", ".toList ++ (c ++
        ("],\"qubits\":[".toList ++ ((toString q).toList ++ "]\x7d".toList)))))))
      [.num x, .comma, .num y, .comma, .num z, .rbracket, .comma, .str "qubits",
        .colon, .lbracket, .num q, .rbracket, .rbrace] :=
  lexesTo_param ha (lexesTo_param hb (LexesTo.number hc rfl rfl (lexesTo_qubit q)))

private theorem number_zero : (Angle.zero : Angle P).number = 0 := by
  simp [Angle.number, Angle.text, readNumber, NumAcc.run, NumAcc.step,
    NumAcc.digit, NumAcc.finish, NumAcc.value, digitValue]

/-- `0.0` is zero too. -/
private theorem readNumber_zero_point :
    readNumber "0.0".toList = some (Angle.zero : Angle P).number := by
  rw [number_zero]
  simp [readNumber, NumAcc.run, NumAcc.step, NumAcc.digit, NumAcc.fracDigit,
    NumAcc.finish, NumAcc.value, digitValue]

/-- **The text of an element reads as the element.** The literal parts are
whole tokens, and a number ends at the character after it. -/
theorem QOp.reads_element {o : QOp P} (h : o.Numeric) :
    Reads o.elementText o.element := by
  cases o with
  | id q =>
      have hd : LexesTo
          "\x7b\"name\":\"id\",\"params\": [],\"qubits\":[".toList
          [.lbrace, .str "name", .colon, .str "id", .comma, .str "params",
            .colon, .lbracket, .rbracket, .comma, .str "qubits", .colon,
            .lbracket] := rfl
      have hlex := hd.append (lexesTo_close q)
      exact .of_lexesTo hlex (by simp [elementText, jsonChunks]) fun st => rfl
  | cx a b =>
      have hd : LexesTo
          "\x7b\"name\":\"cx\",\"params\": [],\"qubits\":[".toList
          [.lbrace, .str "name", .colon, .str "cx", .comma, .str "params",
            .colon, .lbracket, .rbracket, .comma, .str "qubits", .colon,
            .lbracket] := rfl
      have hlex := hd.append
        (lexesTo_param (readNumber_toString a) (lexesTo_close b))
      exact .of_lexesTo hlex (by simp [elementText, jsonChunks]) fun st => rfl
  | measure q c =>
      have hd : LexesTo "\x7b\"clbits\":[".toList
          [.lbrace, .str "clbits", .colon, .lbracket] := rfl
      have hn : LexesTo "],\"name\":\"measure\",\"qubits\":[".toList
          [.rbracket, .comma, .str "name", .colon, .str "measure", .comma,
            .str "qubits", .colon, .lbracket] := rfl
      have hlex := hd.append (LexesTo.number (readNumber_toString c) rfl rfl
        (hn.append (lexesTo_close q)))
      exact .of_lexesTo hlex (by simp [elementText, jsonChunks]) fun st => rfl
  | u1 a q =>
      have hd : LexesTo "\x7b\"name\":\"u1\",\"params\": [".toList
          [.lbrace, .str "name", .colon, .str "u1", .comma, .str "params",
            .colon, .lbracket] := rfl
      have ha : readNumber a.text.toList = some a.number := h.read (by simp [params])
      have hlex := hd.append (LexesTo.number ha rfl rfl (lexesTo_qubit q))
      exact .of_lexesTo hlex (by simp [elementText, jsonChunks]) fun st => rfl
  | u2 a b q =>
      have hd : LexesTo "\x7b\"name\":\"u2\",\"params\": [".toList
          [.lbrace, .str "name", .colon, .str "u2", .comma, .str "params",
            .colon, .lbracket] := rfl
      have hs : LexesTo ",".toList [.comma] := rfl
      have hb : readNumber b.text.toList = some b.number := h.read (by simp [params])
      cases a with
      | zero =>
          -- The zero of a `u2` is written `0.0` here and `0` in the text.
          have hlex := hd.append (LexesTo.number (readNumber_zero_point (P := P))
            rfl rfl (hs.append (LexesTo.number hb rfl rfl (lexesTo_qubit q))))
          exact .of_lexesTo hlex (by simp [elementText, jsonChunks]) fun st => rfl
      | _ =>
          have hlex := hd.append (LexesTo.number (h.read (List.mem_cons_self)) rfl
            rfl (hs.append (LexesTo.number hb rfl rfl (lexesTo_qubit q))))
          exact .of_lexesTo hlex (by simp [elementText, jsonChunks]) fun st => rfl
  | u3 a b c q =>
      have hd : LexesTo "\x7b\"name\":\"u3\",\"params\": [".toList
          [.lbrace, .str "name", .colon, .str "u3", .comma, .str "params",
            .colon, .lbracket] := rfl
      have hlex := hd.append (lexesTo_three q (h.read (a := a) (by simp [params]))
        (h.read (a := b) (by simp [params])) (h.read (a := c) (by simp [params])))
      exact .of_lexesTo hlex (by simp [elementText, jsonChunks]) fun st => rfl
  | U a b c q =>
      have hd : LexesTo "\x7b\"name\":\"U\",\"params\": [".toList
          [.lbrace, .str "name", .colon, .str "U", .comma, .str "params",
            .colon, .lbracket] := rfl
      have hlex := hd.append (lexesTo_three q (h.read (a := a) (by simp [params]))
        (h.read (a := b) (by simp [params])) (h.read (a := c) (by simp [params])))
      exact .of_lexesTo hlex (by simp [elementText, jsonChunks]) fun st => rfl

/-! ## The two encodings compared -/

/-- The text of the array, when something is recorded. -/
theorem operationsJson_toList {os : List (QOp P)} (hne : os ≠ []) :
    (cutLast ("[" ++ jsonText os) ++ "]").toList
      = '[' :: (os.flatMap fun o => o.elementText ++ [',']).dropLast ++ [']'] := by
  have htext : (jsonText os).toList = os.flatMap fun o => o.elementText ++ [','] := by
    rw [jsonText, String.toList_join, List.flatMap_assoc]
    refine List.flatMap_congr fun o ho => ?_
    rw [← QOp.elementText_comma, String.toList_join]
  have hjson : (jsonText os).toList ≠ [] := by
    obtain ⟨o, os', rfl⟩ := List.exists_cons_of_ne_nil hne
    rw [htext]
    simp
  have hopen : ("[" ++ jsonText os).toList = ['['] ++ (jsonText os).toList := by
    simp
  rw [cutLast, String.toList_append, String.toList_ofList, hopen,
    List.dropLast_append_of_ne_nil hjson, htext]
  rfl

/-- The array reads as the elements of its operations. -/
theorem parse_operationsJson {os : List (QOp P)} (hne : os ≠ [])
    (hnum : ∀ o ∈ os, o.Numeric) :
    parse (cutLast ("[" ++ jsonText os) ++ "]")
      = some (.arr (os.map QOp.element)) := by
  have hreads : List.Forall₂ Reads (os.map QOp.elementText)
      (os.map QOp.element) := by
    rw [List.forall₂_map_left_iff, List.forall₂_map_right_iff, List.forall₂_same]
    exact fun o ho => QOp.reads_element (hnum o ho)
  refine Reads.parse ?_
  rw [operationsJson_toList hne, ← List.flatMap_map QOp.elementText (· ++ [','])]
  exact Reads.array hreads (by simpa using hne)

/-- Nothing recorded leaves the array without its opening bracket. -/
theorem parse_operationsJson_nil :
    parse (cutLast ("[" ++ jsonText ([] : List (QOp P))) ++ "]") = none := by
  rw [jsonText_nil]
  rfl

/-- **The array says what the text says**: it is an array, and its elements
describe the operations of the text in order. -/
def OperationsAgree (json : String) (text : List (Piece P)) : Prop :=
  ∃ elems, parse json = some (.arr elems) ∧
    List.Forall₂ Describes elems (operations text)

/-- The parameters a gate writes into its operations. -/
def Gate.writtenParameters : Gate P → List P
  | .rx theta _ | .ry theta _ | .rz theta _ => [theta]
  | .u theta phi lambda _ => [theta, phi, lambda]
  | _ => []

omit [ToString P] in
/-- The parameters of a gate's operations are the gate's. -/
theorem Gate.mem_writtenParameters {c : Nat} {g : Gate P} {o : QOp P} (ho : o ∈ g.ops c)
    {p : P} (hp : .param p ∈ o.params) : p ∈ g.writtenParameters := by
  have hswap : ∀ a b : Nat, Angle.param p ∉ (QOp.cx a b).params := by
    simp [QOp.params]
  cases g with
  | cz a b => cases ho
  | cphase theta a b => cases ho
  | swap a b =>
      simp only [ops, List.mem_cons, List.not_mem_nil, or_false] at ho
      rcases ho with rfl | rfl | rfl <;> exact absurd hp (hswap _ _)
  | _ =>
      rw [ops, List.mem_singleton] at ho
      subst ho
      simp_all [QOp.params, writtenParameters]

/-- When the array can say what the text says. -/
structure Recordable (is : List (Instruction (Gate P))) : Prop where
  /-- Something is written at all. -/
  written : ∃ i ∈ is, statements i ≠ 0
  /-- A parameter that is written is a number text. -/
  numeric : ∀ e g, .leaf e g ∈ is → ∀ p ∈ g.writtenParameters,
    (readNumber (toString p).toList).isSome = true
  /-- A conditional writes no statement, and nothing after it does. -/
  unguarded : ∀ before e q body later,
    is = before ++ .conditional e q body :: later →
      statementsList body = 0 ∧ ∀ i ∈ later, statements i = 0

/-- The constants of the visitor are number texts. -/
private theorem isSome_constant (a : Angle P) (h : ∀ p, a ≠ .param p) :
    (readNumber a.text.toList).isSome = true := by
  have h0 : (readNumber "0".toList).isSome = true := by decide
  have h1 : (readNumber "3.14159".toList).isSome = true := by decide
  have h2 : (readNumber "1.5708".toList).isSome = true := by decide
  have h3 : (readNumber "-1.5708".toList).isSome = true := by decide
  cases a with
  | zero => exact h0
  | pi => exact h1
  | halfPi => exact h2
  | negHalfPi => exact h3
  | param p => exact absurd rfl (h p)

theorem Angle.text_param (p : P) : (Angle.param p).text = toString p := rfl

theorem Gate.numeric_iff (c : Nat) (g : Gate P) :
    (∀ o ∈ g.ops c, o.Numeric) ↔
      ∀ p ∈ g.writtenParameters,
        (readNumber (toString p).toList).isSome = true := by
  cases g <;>
    simp [ops, writtenParameters, QOp.Numeric, QOp.params, isSome_constant,
      Angle.text_param]

theorem numeric_recordedList {is : List (Instruction (Gate P))}
    (h : ∀ e g, .leaf e g ∈ is → ∀ p ∈ g.writtenParameters,
      (readNumber (toString p).toList).isSome = true) (r : Registers) :
    ∀ o ∈ recordedList r is, o.Numeric := by
  intro o ho
  obtain ⟨e, g, c, hg, hops⟩ := gate_of_mem_recordedList ho
  exact (g.numeric_iff c).mpr (h e g hg) o hops

theorem agree_of_recordable {is : List (Instruction (Gate P))}
    (h : Recordable is) :
    OperationsAgree (cutLast ("[" ++ jsonText (recordedList {} is)) ++ "]")
      (piecesList {} is) := by
  have hnum := numeric_recordedList h.numeric {}
  have hops := operations_of_unguarded h.unguarded {}
  have hne : recordedList {} is ≠ [] := by
    obtain ⟨i, hi, hs⟩ := h.written
    intro hnil
    rw [hnil] at hops
    have hzero := (filterMap_op_eq_nil_iff {} is).mp
      (by rw [← map_op_operationsFrom [], ← operations, hops]; rfl)
    exact hs (statementsList_eq_zero.mp hzero i hi)
  refine ⟨_, parse_operationsJson hne hnum, ?_⟩
  rw [hops, List.forall₂_map_left_iff, List.forall₂_map_right_iff,
    List.forall₂_same]
  exact fun o ho => describes_element (hnum o ho)

/-- An operation that some element describes has number texts only. -/
theorem numeric_of_describes {elems : List Json} {gs : List (GuardedOp P)}
    (h : List.Forall₂ Describes elems gs) : ∀ g ∈ gs, g.op.Numeric := by
  induction h with
  | nil => simp
  | cons hj _ ih =>
      intro g hg
      rcases List.mem_cons.mp hg with rfl | hg
      · exact hj.numeric
      · exact ih g hg

/-- Elements as the visitor writes them describe unguarded operations. -/
theorem guards_of_describes {os : List (QOp P)} {gs : List (GuardedOp P)}
    (h : List.Forall₂ Describes (os.map QOp.element) gs) :
    ∀ g ∈ gs, g.guards = [] := by
  rw [List.forall₂_map_left_iff] at h
  induction h with
  | nil => simp
  | cons hj _ ih =>
      intro g hg
      rcases List.mem_cons.mp hg with rfl | hg
      · exact guards_eq_nil_of_describes hj
      · exact ih g hg

theorem recordable_of_agree {is : List (Instruction (Gate P))}
    (h : OperationsAgree (cutLast ("[" ++ jsonText (recordedList {} is)) ++ "]")
      (piecesList {} is)) : Recordable is := by
  obtain ⟨elems, hparse, hall⟩ := h
  have hops := map_op_operationsFrom [] (piecesList {} is)
  have hsub := recordedList_sublist {} is
  have hnum : ∀ o ∈ recordedList {} is, o.Numeric := by
    intro o ho
    have hmem := hsub.subset ho
    rw [← hops] at hmem
    obtain ⟨g, hg, rfl⟩ := List.mem_map.mp hmem
    exact numeric_of_describes hall g hg
  have hne : recordedList {} is ≠ [] := by
    intro hnil
    rw [hnil, parse_operationsJson_nil] at hparse
    cases hparse
  rw [parse_operationsJson hne hnum] at hparse
  obtain rfl : (recordedList {} is).map QOp.element = elems :=
    Json.arr.inj (Option.some.inj hparse)
  -- The array has one element for each operation of the text, so every
  -- operation is recorded; and its elements carry no condition.
  have heq : recordedList {} is = (piecesList {} is).filterMap Piece.op? := by
    refine hsub.eq_of_length ?_
    have hlen := hall.length_eq
    rwa [List.length_map, ← List.length_map GuardedOp.op, operations, hops] at hlen
  have hguards := guards_of_describes hall
  constructor
  · by_contra hno
    push Not at hno
    have hzero := (filterMap_op_eq_nil_iff {} is).mpr
      (statementsList_eq_zero.mpr hno)
    exact hne (heq.trans hzero)
  · intro e g hg
    obtain ⟨c, hc⟩ := mem_recordedList hg {}
    exact (g.numeric_iff c).mp fun o ho => hnum o (hc o ho)
  · rintro before e q body later rfl
    refine ⟨statementsList_body_of_recorded heq, ?_⟩
    by_contra hlater
    rw [← statementsList_eq_zero, ← filterMap_op_eq_nil_iff
      ((Registers.steps {} before).step (.conditional e q body))] at hlater
    have hops : (piecesList {} body ++ piecesList
        ((Registers.steps {} before).step (.conditional e q body))
          later).filterMap Piece.op? ≠ [] := by
      rw [List.filterMap_append]
      simp [hlater]
    obtain ⟨g, hg, hgne⟩ := exists_guarded
      ((Registers.steps {} before).index.getD q 0) hops [] (piecesList {} before)
    refine hgne (hguards g ?_)
    rw [operations, piecesList_append, piecesList_cons, pieces]
    exact hg

theorem agree_iff_recordable {n : Nat} {skipPreamble : Bool}
    {is : List (Instruction (Gate P))} {v : OpenQasmVisitor}
    (h : acceptAll is (new n skipPreamble) = .ok () v) :
    OperationsAgree v.getOperationsJsonString (piecesList {} is)
      ↔ Recordable is := by
  obtain ⟨_, rfl⟩ := acceptAll_ok h
  rw [getOperationsJsonString, operationsJsonStr_withRegisters,
    operationsJsonStr_emit]
  exact ⟨recordable_of_agree, agree_of_recordable⟩

/-- **The two encodings of a kernel.** The array a kernel's visits build is
a JSON array that says, operation by operation, what the text says, if and
only if the kernel writes something, every parameter it writes is a number,
and no conditional guards anything. -/
theorem operationsAgree_iff {n : Nat} {skipPreamble : Bool}
    {is : List (Instruction (Gate P))} {v : OpenQasmVisitor}
    (h : acceptAll is (new n skipPreamble) = .ok () v) :
    v.getOpenQasmString = (new n skipPreamble).native ++
        Piece.render (piecesList {} is) ∧
      (OperationsAgree v.getOperationsJsonString (piecesList {} is)
        ↔ Recordable is) := by
  have hagree := agree_iff_recordable h
  obtain ⟨_, rfl⟩ := acceptAll_ok h
  exact ⟨rfl, hagree⟩

/-- A conditional is in the text and not in the array. -/
theorem conditional_not_operationsAgree :
    ¬ ∀ (n : Nat) (skipPreamble : Bool)
        (is : List (Instruction (Gate String))) (v : OpenQasmVisitor),
        acceptAll is (new n skipPreamble) = .ok () v →
        OperationsAgree v.getOperationsJsonString (piecesList {} is) := by
  intro h
  obtain ⟨v, hv⟩ : ∃ v, acceptAll [.leaf true (.measure 0 0 : Gate String),
      .conditional true 0 [.leaf false (.x 1)]] (new 2 false) = .ok () v :=
    ⟨_, rfl⟩
  have hrec := (agree_iff_recordable hv).mp (h 2 false _ v hv)
  have hone := (hrec.unguarded [.leaf true (.measure 0 0)] true 0
    [.leaf false (.x 1)] [] rfl).1
  cases hone

/-- The theorem at a kernel of the simulator's tests: `H`, then `CNOT`. -/
theorem operationsAgree_bell :
    ∃ v, acceptAll [.leaf true (.hadamard 0 : Gate String),
        .leaf true (.cnot 0 1)] (new 2 false) = .ok () v ∧
      OperationsAgree v.getOperationsJsonString
        (piecesList {} [.leaf true (.hadamard 0 : Gate String),
          .leaf true (.cnot 0 1)]) := by
  obtain ⟨v, hv⟩ : ∃ v, acceptAll [.leaf true (.hadamard 0 : Gate String),
      .leaf true (.cnot 0 1)] (new 2 false) = .ok () v := ⟨_, rfl⟩
  refine ⟨v, hv, ?_⟩
  have h := operationsAgree_iff hv
  refine h.2.mpr ⟨⟨_, List.mem_cons_self, by decide⟩, ?_, ?_⟩
  · intro e g hg p hp
    rcases List.mem_cons.mp hg with h1 | hg
    · cases h1
      cases hp
    · rcases List.mem_singleton.mp hg
      cases hp
  · intro before e q body later his
    have hmem : Instruction.conditional e q body
        ∈ [.leaf true (.hadamard 0), .leaf true (.cnot 0 1 : Gate String)] := by
      rw [his]
      simp
    simp at hmem

end XaccIbm
