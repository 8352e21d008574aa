import XaccIbm.Accelerator.Outcomes
import XaccIbm.Lib.JsonText
import XaccIbm.LocalIBMAccelerator.Batch
import XaccIbm.OpenQasmVisitor.Operations

/-!
# LocalIBMAccelerator — Circuits

The two bookkeepings of a circuit. The number of classical bits and the
measured qubits that decode the results come from the accelerator's own loop,
the measure operations from the visitor's counter; the visitor numbers every
measurement, in a conditional or not, when the loop remembers it. The
operations are read back from a text, into which the parameters are written
as they are, so what they may say is theirs to keep to.
-/

namespace XaccIbm

open Json OpenQasmVisitor StdString

variable {P : Type}

/-! ## The measurements that are recorded -/

/-- Every measured qubit is recorded with the next register. -/
theorem recordedList_measurements (is : List (Instruction (Gate P))) (r : Registers) :
    (recordedList r (is.filter Instruction.isEnabled)).filterMap QOp.measurement?
      = (is.filterMap Instruction.measuredQubit).zipIdx r.counter := by
  induction is generalizing r with
  | nil => rfl
  | cons i is ih =>
      -- only an enabled measurement takes a register
      by_cases he : i.isEnabled = true
      · rw [List.filter_cons_of_pos he, recordedList_cons, List.filterMap_append, ih]
        cases i with
        | leaf e g =>
            have henabled : e = true := he
            subst henabled
            cases g with
            | measure q k =>
                have hm : (Instruction.leaf true (Gate.measure q k : Gate P)).measuredQubit
                    = some q := rfl
                rw [List.filterMap_cons_some hm]
                rfl
            | _ => rfl
        | conditional e q body =>
            have hm : (Instruction.conditional e q body).measuredQubit = none := by
              rw [Instruction.measuredQubit]
              split <;> rfl
            rw [List.filterMap_cons_none hm]
            rfl
        | function e n body =>
            have hm : (Instruction.function e n body).measuredQubit = none := by
              rw [Instruction.measuredQubit]
              split <;> rfl
            rw [List.filterMap_cons_none hm]
            rfl
      · have hm : i.measuredQubit = none := by
          rw [Instruction.measuredQubit, if_neg fun h => he h.1]
        rw [List.filter_cons_of_neg he, ih, List.filterMap_cons_none hm]

/-! ## The elements of the array, read back -/

/-- A measure operation of the simulator's document. -/
def measureOperation (q c : Nat) : Json :=
  .obj [("clbits", .arr [.num c]), ("name", .str "measure"), ("qubits", .arr [.num q])]

def isMeasure (j : Json) : Bool :=
  match j.get? "name" with
  | some (.str name) => name == "measure"
  | _ => false

/-- What an element can be read back as: the operation, with any parameters. -/
def QOp.Element (o : QOp P) (j : Json) : Prop :=
  match o with
  | .measure q c => j = measureOperation q c
  | o => ∃ params, j = .obj [("name", .str o.name), ("params", .arr params),
      ("qubits", .arr (o.qubits.map fun q => .num q))]

theorem QOp.Element.isMeasure {o : QOp P} {j : Json} (h : o.Element j) :
    isMeasure j = o.measurement?.isSome := by
  cases o with
  | measure q c =>
      obtain rfl : j = measureOperation q c := h
      rfl
  | _ =>
      obtain ⟨params, rfl⟩ := h
      rfl

/-- The measure operations among the elements. -/
theorem filter_isMeasure {os : List (QOp P)} {vs : List Json}
    (h : List.Forall₂ QOp.Element os vs) :
    vs.filter isMeasure
      = (os.filterMap QOp.measurement?).map fun m => measureOperation m.1 m.2 := by
  induction h with
  | nil => rfl
  | @cons o v os vs ho _ ih =>
      have hm := ho.isMeasure
      cases o with
      | measure q c =>
          rw [List.filter_cons_of_pos hm, ih]
          exact congrArg (· :: _) ho
      | _ => rw [List.filter_cons_of_neg (by simp [hm, QOp.measurement?]), ih]; rfl

section

variable [ToString P]

/-- The text of an angle opens and closes nothing. -/
def Angle.Flat (a : Angle P) : Prop := ∀ c ∈ a.text.toList, isFlatChar c = true

def QOp.FlatParams (o : QOp P) : Prop := ∀ a ∈ o.params, a.Flat

/-- The element of a gate on one qubit. -/
theorem readsAs_gate {name : String} {head params : List Char} (q : Nat)
    (hhead : LexesTo head [.lbrace, .str "name", .colon, .str name, .comma, .str "params",
      .colon, .lbracket])
    (hparams : ∀ c ∈ params, isFlatChar c = true) :
    ReadsAs (head ++ (params ++ ("],\"qubits\":[".toList ++
        ((toString q).toList ++ "]\x7d".toList))))
      fun j => ∃ params, j = .obj [("name", .str name), ("params", .arr params),
        ("qubits", .arr [.num q])] := by
  intro m ts h
  have hidle : ∀ m' us, lexRun .idle head = some (m', us) → m' = .idle := by
    intro m' us hus
    rw [LexesTo] at hhead
    rw [hhead] at hus
    cases hus
    rfl
  have hqubits : LexesTo (",\"qubits\":[".toList ++ ((toString q).toList ++ "]\x7d".toList))
      [.comma, .str "qubits", .colon, .lbracket, .num q, .rbracket, .rbrace] := by
    have hkey : LexesTo ",\"qubits\":[".toList [.comma, .str "qubits", .colon, .lbracket] := rfl
    exact hkey.append (lexesTo_close q)
  -- the head is read as it is written; up to the bracket anything flat may stand
  obtain ⟨us, vs, rfl, hus, hvs⟩ := lexRun_append_of_idle hidle h
  rw [LexesTo] at hhead
  rw [hhead] at hus
  cases hus
  obtain ⟨rfl, flats, rfl, hflat⟩ := lexRun_bracketed hparams hqubits hvs
  refine ⟨rfl, fun st d hd => ?_⟩
  have hopen : parseRun (.value st) [.lbrace, .str "name", .colon, .str name, .comma,
      .str "params", .colon, .lbracket]
        = some (.element (.member [("name", .str name)] "params" :: st)) := rfl
  rw [parseRun_append, hopen, Option.bind_some, parseRun_append] at hd
  obtain ⟨d1, hd1, hd⟩ := Option.bind_eq_some_iff.mp hd
  obtain ⟨d2, hd2, hd⟩ := Option.bind_eq_some_iff.mp hd
  have hin : InArray (.member [("name", .str name)] "params" :: st)
      (.element (.member [("name", .str name)] "params" :: st)) := rfl
  obtain ⟨xs, rfl⟩ := (hin.run hflat hd1).rbracket hd2
  cases hd
  exact ⟨_, ⟨xs, rfl⟩, rfl⟩

/-- The parameters as they are written; the zero of a `u2` is `0.0`. -/
def QOp.paramsText : QOp P → List Char
  | .u1 a _ => a.text.toList
  | .u2 .zero b _ => "0.0,".toList ++ b.text.toList
  | .u2 a b _ => a.text.toList ++ (",".toList ++ b.text.toList)
  | .u3 a b c _ | .U a b c _ =>
      a.text.toList ++ (", ".toList ++ (b.text.toList ++ (", ".toList ++ c.text.toList)))
  | _ => []

theorem QOp.FlatParams.paramsText {o : QOp P} (h : o.FlatParams) :
    ∀ c ∈ o.paramsText, isFlatChar c = true := by
  have hzero : ∀ c ∈ "0.0,".toList, isFlatChar c = true :=
    List.all_eq_true.mp (by decide)
  have hcomma : ∀ c ∈ ",".toList, isFlatChar c = true :=
    List.all_eq_true.mp (by decide)
  have hsep : ∀ c ∈ ", ".toList, isFlatChar c = true :=
    List.all_eq_true.mp (by decide)
  unfold QOp.paramsText
  split
  · exact h _ (by simp [params])
  · exact List.forall_mem_append.mpr ⟨hzero, h _ (by simp [params])⟩
  · simp only [List.forall_mem_append]
    exact ⟨h _ (by simp [params]), hcomma, h _ (by simp [params])⟩
  · simp only [List.forall_mem_append]
    exact ⟨h _ (by simp [params]), hsep, h _ (by simp [params]), hsep, h _ (by simp [params])⟩
  · simp only [List.forall_mem_append]
    exact ⟨h _ (by simp [params]), hsep, h _ (by simp [params]), hsep, h _ (by simp [params])⟩
  · simp

/-- The text of an element with parameters. -/
theorem QOp.elementText_params {o : QOp P} (hne : o.params ≠ []) :
    ∃ q, o.qubits = [q] ∧ o.elementText
      = ("\x7b\"name\":\"".toList ++ (o.name.toList ++ '"' :: ",\"params\": [".toList)) ++
        (o.paramsText ++ ("],\"qubits\":[".toList ++
          ((toString q).toList ++ "]\x7d".toList))) := by
  cases o with
  | id q => exact absurd rfl hne
  | cx a b => exact absurd rfl hne
  | measure q c => exact absurd rfl hne
  | u2 a b q =>
      refine ⟨q, rfl, ?_⟩
      cases a <;> simp [elementText, jsonChunks, paramsText, name]
  | _ => exact ⟨_, rfl, by simp [elementText, jsonChunks, paramsText, name]⟩

theorem lexesTo_gateHead {name : String} (h : Plain name) :
    LexesTo ("\x7b\"name\":\"".toList ++ (name.toList ++ '"' :: ",\"params\": [".toList))
      [.lbrace, .str "name", .colon, .str name, .comma, .str "params", .colon, .lbracket] := by
  have hopen : lexRun .idle "\x7b\"name\":\"".toList
      = some (.str [], [.lbrace, .str "name", .colon]) := rfl
  have hparams : LexesTo ",\"params\": [".toList
      [.comma, .str "params", .colon, .lbracket] := rfl
  exact LexesTo.plain hopen h hparams

theorem QOp.readsAs_element {o : QOp P} (h : o.FlatParams) :
    ReadsAs o.elementText o.Element := by
  by_cases hne : o.params = []
  · have hreads := QOp.reads_element (o := o) (by simp [Numeric, hne])
    cases o with
    | id q => exact hreads.readsAs ⟨[], rfl⟩
    | cx a b => exact hreads.readsAs ⟨[], rfl⟩
    | measure q c => exact hreads.readsAs rfl
    | _ => cases hne
  · obtain ⟨q, hq, htext⟩ := QOp.elementText_params hne
    have hname : Plain o.name := by
      cases o <;> simp only [name] <;> decide
    have hread := readsAs_gate q (lexesTo_gateHead hname) h.paramsText
    rw [htext]
    cases o with
    | measure q c => exact absurd rfl hne
    | id q => exact absurd rfl hne
    | cx a b => exact absurd rfl hne
    | _ =>
        cases hq
        exact hread

/-- An array that reads has the elements of its operations. -/
theorem elements_of_parse {os : List (QOp P)} (hflat : ∀ o ∈ os, o.FlatParams) {v : Json}
    (h : parse (cutLast ("[" ++ jsonText os) ++ "]") = some v) :
    ∃ vs, v = .arr vs ∧ List.Forall₂ QOp.Element os vs := by
  by_cases hne : os = []
  · subst hne
    rw [parse_operationsJson_nil] at h
    cases h
  · refine ReadsAs.array (fun o ho => QOp.readsAs_element (hflat o ho)) hne (fun o _ => ?_)
      (operationsJson_toList hne) h
    rw [QOp.elementText]
    cases o with
    | u2 a b q => cases a <;> exact ⟨_, rfl⟩
    | _ => exact ⟨_, rfl⟩

/-- No parameter that the enabled instructions of a kernel write opens or closes
a string, an array or an object. -/
def FlatParameters (kernel : Function (Gate P)) : Prop :=
  ∀ g, .leaf true g ∈ kernel.walk → ∀ p ∈ g.writtenParameters,
    ∀ c ∈ (toString p).toList, isFlatChar c = true

theorem Gate.flatParams {g : Gate P} (h : ∀ p ∈ g.writtenParameters,
    ∀ c ∈ (toString p).toList, isFlatChar c = true) (c : Nat) :
    ∀ o ∈ g.ops c, o.FlatParams := by
  intro o ho a ha
  cases a with
  | param p => exact h p (Gate.mem_writtenParameters ho ha)
  | _ => simp [Angle.Flat, Angle.text, isFlatChar]

theorem flatParams_recordedList {is : List (Instruction (Gate P))}
    (h : ∀ e g, .leaf e g ∈ is → ∀ p ∈ g.writtenParameters,
      ∀ c ∈ (toString p).toList, isFlatChar c = true) (r : Registers) :
    ∀ o ∈ recordedList r is, o.FlatParams := by
  intro o ho
  obtain ⟨e, g, c, hg, hops⟩ := gate_of_mem_recordedList ho
  exact g.flatParams (h e g hg) c o hops

end

namespace LocalIBMAccelerator

/-- **A circuit is consistent** with the measured qubits that decode its
results: its measure operations use the classical bits of the header once each,
in order, and the bit `i` is for the qubit `i` of the list. -/
structure Consistent (c : Json) (supports : List Nat) : Prop where
  nClbits : member c ["compiled_circuit", "header", "number_of_clbits"]
    = some (.num supports.length)
  measures : ∃ operations, member c ["compiled_circuit", "operations"] = some (.arr operations) ∧
    operations.filter isMeasure = supports.zipIdx.map fun m => measureOperation m.1 m.2

variable [ToString P]

theorem consistent_of_compiles {size : Nat} {kernel : Function (Gate P)} {c : Json}
    (hflat : FlatParameters kernel) (h : Compiles size kernel c) :
    Consistent c (Submission.measuredQubits kernel) := by
  obtain ⟨v, operations, hpass, hparse, rfl⟩ := h
  obtain ⟨_, rfl⟩ := acceptAll_ok (visited_of_passAll hpass)
  rw [getOperationsJsonString, operationsJsonStr_withRegisters,
    operationsJsonStr_emit] at hparse
  have hrecorded : ∀ o ∈ recordedList {} (kernel.walk.filter Instruction.isEnabled),
      o.FlatParams := by
    refine flatParams_recordedList (fun e g hg => ?_) {}
    obtain ⟨hmem, rfl⟩ := List.mem_filter.mp hg
    exact hflat g hmem
  obtain ⟨vs, rfl, hvs⟩ := elements_of_parse hrecorded hparse
  refine ⟨?_, vs, rfl, ?_⟩
  · rw [circuit, header]
    by_cases hsize : size = 0
    · rw [if_pos hsize]
      rfl
    · rw [if_neg hsize]
      rfl
  · rw [filter_isMeasure hvs, recordedList_measurements]
    rfl

/-- **Every circuit that is submitted is consistent**, whatever the kernels are:
what the loop leaves under a kernel's number is what the circuit of the kernel
measures, bit by bit. -/
theorem submitCircuits_consistent {size : Nat} {functions : List (Function (Gate P))}
    (hflat : ∀ kernel ∈ functions, FlatParameters kernel) {cs : List Json} {ms : Supports}
    (h : submitCircuits size 0 functions ∅ = .ok cs ms) :
    cs.length = functions.length ∧
      ∀ (k : Nat) c, cs[k]? = some c → Consistent c (ms.getD k []) := by
  have hall := (submitCircuits_ok fun k _ => StdMap.getD_empty k []).mp ⟨ms, h⟩
  have hlen := hall.length_eq
  refine ⟨hlen.symm, fun k c hc => ?_⟩
  obtain ⟨hk, rfl⟩ := List.getElem?_eq_some_iff.mp hc
  have hk' : k < functions.length := by
    omega
  have hcompiles := (List.forall₂_iff_get.mp hall).2 k hk' hk
  rw [submitCircuits_entries h k, StdMap.getD_empty, List.getElem?_eq_getElem hk']
  exact consistent_of_compiles (hflat _ (List.getElem_mem hk')) hcompiles

/-- Whether kernels are submitted, with circuits and entries of which `p` holds. -/
def submits (size : Nat) (functions : List (Function (Gate P)))
    (p : List Json → Supports → Bool) : Bool :=
  match submitCircuits size 0 functions ∅ with
  | .ok cs ms => p cs ms
  | .error _ _ => false

theorem exists_of_submits {size : Nat} {functions : List (Function (Gate P))}
    {p : List Json → Supports → Bool} (h : submits size functions p = true) :
    ∃ cs ms, submitCircuits size 0 functions ∅ = .ok cs ms ∧ p cs ms = true := by
  rw [submits] at h
  cases hrun : submitCircuits size 0 functions ∅ with
  | error e ms =>
      rw [hrun] at h
      cases h
  | ok cs ms =>
      rw [hrun] at h
      exact ⟨cs, ms, rfl, h⟩

/-- A parameter that ends its operation and begins a measurement. -/
def injected : String :=
  "0],\"qubits\":[0]\x7d,\x7b\"clbits\":[7],\"name\":\"measure\",\"qubits\":[1]\x7d," ++
    "\x7b\"name\":\"u3\",\"params\": [0"

/-- A measurement that a parameter writes is none of the accelerator's. -/
theorem injected_not_consistent :
    ¬ ∀ (size : Nat) (functions : List (Function (Gate String))) (cs : List Json)
        (ms : Supports), submitCircuits size 0 functions ∅ = .ok cs ms →
        ∀ (k : Nat) c, cs[k]? = some c → Consistent c (ms.getD k []) := by
  intro h
  have hrun : submits 2 [⟨"foo", true, [.leaf true (.rx injected 0)]⟩] (fun cs ms =>
      decide (ms.getD 0 [] = [] ∧ (cs[0]?.bind fun c =>
        (member c ["compiled_circuit", "operations"]).bind fun ops =>
          ops.elems?.map fun elems => (elems.filter isMeasure).length) = some 1)) = true := by
    decide +kernel
  obtain ⟨cs, ms, hcs, hp⟩ := exists_of_submits hrun
  obtain ⟨hms, hone⟩ := of_decide_eq_true hp
  obtain ⟨c, hc, hone⟩ := Option.bind_eq_some_iff.mp hone
  obtain ⟨operations, hoperations, hmeasures⟩ := (h 2 _ cs ms hcs 0 c hc).measures
  rw [hms] at hmeasures
  rw [hoperations] at hone
  have hlen : (operations.filter isMeasure).length = 1 := Option.some.inj hone
  rw [hmeasures] at hlen
  cases hlen

/-- A kernel with a parameter, a conditional and repeated measurements, and another
one. -/
def twoKernels : List (Function (Gate String)) :=
  [⟨"foo", true, [.leaf true (.rx "0.5" 0), .leaf true (.measure 1 0),
      .conditional true 1 [.leaf true (.measure 0 0)], .leaf false (.measure 1 0),
      .leaf true (.measure 1 0)]⟩,
    ⟨"bar", true, [.leaf true (.measure 0 0)]⟩]

/-- The theorem at these kernels. -/
theorem submitCircuits_consistent_conditional :
    ∃ cs ms, submitCircuits 2 0 twoKernels ∅ = .ok cs ms ∧ cs.length = 2 ∧
      ms.getD 0 [] = [1, 0, 1] ∧ ms.getD 1 [] = [0] ∧
      ∀ (k : Nat) c, cs[k]? = some c → Consistent c (ms.getD k []) := by
  have hrun : submits 2 twoKernels (fun _ ms =>
      decide (ms.getD 0 [] = [1, 0, 1] ∧ ms.getD 1 [] = [0])) = true := by
    decide +kernel
  obtain ⟨cs, ms, h, hms⟩ := exists_of_submits hrun
  obtain ⟨hfoo, hbar⟩ := of_decide_eq_true hms
  have hflat : ∀ kernel ∈ twoKernels, FlatParameters kernel := by
    intro kernel hk g hg p hp
    have hhalf : p = "0.5" := by
      rcases List.mem_pair.mp hk with rfl | rfl
      · simp [Function.walk, Function.toInstruction, Instruction.preorder,
          Instruction.preorderList] at hg
        rcases hg with rfl | rfl | rfl | rfl
        · exact List.mem_singleton.mp hp
        · cases hp
        · cases hp
        · cases hp
      · simp [Function.walk, Function.toInstruction, Instruction.preorder,
          Instruction.preorderList] at hg
        rw [hg] at hp
        cases hp
    have hchars : "0.5".toList.all isFlatChar = true := by decide
    rw [hhalf]
    exact List.all_eq_true.mp hchars
  obtain ⟨hlen, hall⟩ := submitCircuits_consistent hflat h
  exact ⟨cs, ms, h, hlen, hfoo, hbar, hall⟩

end LocalIBMAccelerator

end XaccIbm
