import XaccIbm.Accelerator.Decode
import XaccIbm.Accelerator.Submission
import XaccIbm.OpenQasmVisitor.Visit

/-!
# LocalIBMAccelerator — Execute

`LocalIBMAccelerator::execute` on a list of functions: every kernel becomes
a circuit of one document, the simulator answers the document with a text,
and the results are decoded kernel by kernel. The simulator is a parameter.
Every exception on the way, of the visitor, of `json::parse` or of
`std::stoi`, leaves the accelerator as it was at that point.
-/

namespace XaccIbm

open Decode StdString

/-- The members of the accelerator. -/
structure LocalIBMAccelerator where
  measurementSupports : Supports := ∅

namespace LocalIBMAccelerator

variable {P : Type} [ToString P]

/-- Run a part of a call that works on `measurementSupports`. -/
def onSupports {α : Type} (x : Exec Supports α) : Exec LocalIBMAccelerator α :=
  Exec.onPart measurementSupports (fun ms s => { s with measurementSupports := ms }) x

/-! ## The submitted document -/

/-- `circuit["compiled_circuit"]["header"]`; a buffer without qubits has no
`qubit_labels`. -/
def header (size nMeasured : Nat) : Json :=
  .obj ((if size = 0 then [] else
      [("qubit_labels", .arr ((List.range size).map fun i =>
        .arr [.str "q", .num i]))]) ++
    [("clbit_labels", .arr [.arr [.str "c", .num nMeasured]]),
      ("number_of_qubits", .num size), ("number_of_clbits", .num nMeasured)])

/-- `circuit["compiled_circuit"]["config"]`. -/
def circuitConfig : Json :=
  .obj [("basis_gates", .str "u1,u2,u3,cx,id,snapshot"),
    ("coupling_map", .str "None"), ("seed", .str "None"),
    ("layout", .str "None")]

def circuit (name : String) (size nMeasured : Nat) (qasmStr : String)
    (operations : Json) : Json :=
  .obj [("compiled_circuit", .obj [("header", header size nMeasured),
    ("compiled_circuit_qasm", .str (escapeNewlines qasmStr)),
    ("name", .str name), ("operations", operations),
    ("config", circuitConfig)])]

/-- `json::parse`. -/
def jsonParse {σ : Type} (s : String) : Exec σ Json :=
  match Json.parse s with
  | some j => pure j
  | none => throw (.error "parse error")

/-- One iteration of the submission loop. -/
def submitCircuit (size kernelCounter : Nat) (kernel : Function (Gate P)) :
    Exec Supports Json := do
  let visitor ← Submission.submitKernel OpenQasmVisitor.accept
    (OpenQasmVisitor.new size false) kernelCounter kernel
  let ms ← get
  let nMeasured := (ms.getD kernelCounter []).length
  let operations ← jsonParse visitor.getOperationsJsonString
  pure (circuit kernel.name size nMeasured visitor.getOpenQasmString operations)

/-- The submission loop, from a kernel counter on. -/
def submitCircuits (size : Nat) :
    Nat → List (Function (Gate P)) → Exec Supports (List Json)
  | _, [] => pure []
  | kernelCounter, kernel :: rest => do
      let c ← submitCircuit size kernelCounter kernel
      let cs ← submitCircuits size (kernelCounter + 1) rest
      pure (c :: cs)

/-- An option that must be a number when it is there. -/
def numberOption (options : Options) (key : String)
    (read : String → Option ℚ) (error : String) :
    Except String (Option ℚ) :=
  match options.find key with
  | none => .ok none
  | some s =>
      match read s with
      | some x => .ok (some x)
      | none => .error error

/-- `config2["noise_params"]["readout_error"]`. -/
def readoutError (options : Options) : Except String (List (String × Json)) :=
  match options.find "local-ibm-ro-error" with
  | none => .ok []
  | some probStr =>
      match (split probStr ',').mapM stod with
      | some xs => .ok [("readout_error", .arr (xs.map .num))]
      | none => .error "stod"

/-- `config2`. -/
def config (options : Options) : Except String Json := do
  let shots ← numberOption options "ibm-shots"
    (fun s => (stoi s).map fun n => (n : ℚ)) "stoi"
  let ro ← readoutError options
  let u ← numberOption options "u-p-depol" stod "stod"
  let cx ← numberOption options "cx-p-depol" stod "stod"
  let depol : String → Option ℚ → List (String × Json) := fun gate p =>
    match p with
    | some x => [(gate, .obj [("p_depol", .num x)])]
    | none => []
  let noise := ro ++ depol "U" u ++ depol "CX" cx
  pure (.obj ([("backend", .str "qasm_simulator_cpp"), ("max_credits", .num 10),
      ("shots", .num (shots.getD 1024))] ++
    if noise = [] then [] else [("noise_params", .obj noise)]))

/-- The document of circuits and a configuration; without circuits there is
no such member. -/
def qobj (circuits : List Json) (config2 : Json) : Json :=
  .obj ((if circuits = [] then [] else [("circuits", .arr circuits)]) ++
    [("config", config2), ("id", .str "fakeid")])

/-! ## The results -/

/-- `j[key]`: a member that is not there is `null`, and so is every member
of `null`. Anything but an object throws. -/
def subscript (j : Json) (key : String) : Option Json :=
  match j with
  | .obj members => some ((members.lookup key).getD .null)
  | .null => some .null
  | _ => none

/-- What a loop over a value runs over. -/
def range : Json → List Json
  | .null => []
  | .arr elems => elems
  | .obj members => members.map Prod.snd
  | j => [j]

/-- `get<int>`: a number is cut to a whole one and wrapped. -/
def getInt : Json → Option Int
  | .num x => some ((x.num.tdiv x.den).bmod (2 ^ 32))
  | .bool b => some (if b then 1 else 0)
  | _ => none

/-- `result["data"]["counts"]` as a table; only an object has keys. -/
def resultCounts (result : Json) : Option (List (String × Int)) := do
  let data ← subscript result "data"
  let counts ← subscript data "counts"
  match counts with
  | .null => some []
  | .arr [] => some []
  | .obj members => members.mapM fun m => (getInt m.2).map fun n => (m.1, n)
  | _ => none

/-- The table of a result, decoded for the measured qubits. -/
def decodeResult (size : Nat) (supports : List Nat) (result : Json) :
    Option (List (String × Int)) :=
  (resultCounts result).bind (decodeTable (remap size supports))

/-- `measurementSupports[kernelCounter]`, read. -/
def readSupports (kernelCounter : Nat) :
    Exec LocalIBMAccelerator (List Nat) := fun s =>
  let (supports, ms) := s.measurementSupports.subscript kernelCounter []
  .ok supports { s with measurementSupports := ms }

/-- The result loop, from a kernel counter on: the counter numbers the names
and the measured qubits. -/
def storeResults (size : Nat) (names : List String) :
    Nat → List Json → Exec LocalIBMAccelerator (List AcceleratorBuffer)
  | _, [] => pure []
  | kernelCounter, result :: rest => do
      let name ← Exec.demand names[kernelCounter]?
      let tmpBuffer ← createBuffer name size
      let supports ← readSupports kernelCounter
      let counts ← Exec.demand (decodeResult size supports result)
      let bs ← storeResults size names (kernelCounter + 1) rest
      pure (tmpBuffer.appendEach counts :: bs)

/-- `measurementSupports.clear()`. -/
def clearSupports : Exec LocalIBMAccelerator Unit :=
  modify fun s => { s with measurementSupports := ∅ }

/-- Everything after the submission loop. The simulator gets the document
and gives a text, or throws. -/
def simulate (simulator : Json → Except String String) (options : Options)
    (size : Nat) (names : List String) (circuits : List Json) :
    Exec LocalIBMAccelerator (List AcceleratorBuffer) := do
  let config2 ← Exec.reply (config options)
  let response ← Exec.reply ((simulator (qobj circuits config2)).mapError
    fun what =>
      "local qasm sim error: Failed to execute qobj (" ++ what ++ ")")
  let document ← jsonParse response
  let results ← Exec.demand (subscript document "result")
  let buffers ← storeResults size names 0 (range results)
  clearSupports
  pure buffers

/-- `execute(buffer, functions)`; of the buffer only the size is read. -/
def execute (simulator : Json → Except String String) (options : Options)
    (size : Nat) (functions : List (Function (Gate P))) :
    Exec LocalIBMAccelerator (List AcceleratorBuffer) := do
  let circuits ← onSupports (submitCircuits size 0 functions)
  simulate simulator options size (functions.map Function.name) circuits

/-- `execute(buffer, kernel)`: the counts of the one buffer, as the framework
lists them, are appended to the caller's one measurement at a time. -/
def executeOne (getMeasurementCounts : List (String × Int) → List (String × Int))
    (simulator : Json → Except String String) (options : Options)
    (buffer : AcceleratorBuffer) (kernel : Function (Gate P)) :
    Exec LocalIBMAccelerator AcceleratorBuffer := do
  let buffers ← execute simulator options buffer.size [kernel]
  let b ← Exec.demand buffers.head?
  pure (buffer.appendEach (getMeasurementCounts b.measurements))

end LocalIBMAccelerator

end XaccIbm
