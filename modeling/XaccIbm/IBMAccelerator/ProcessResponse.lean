import XaccIbm.Accelerator.Decode
import XaccIbm.IBMAccelerator.ProcessInput

/-!
# IBMAccelerator — ProcessResponse

`IBMAccelerator::processResponse`: wait for the job of a response, and store
the results of its document. One result goes to the caller's buffer, the
strings as they come; several go to buffers of their own, the strings
decoded for the measured qubits. A run is `processInput`, the POST of the
base class, and `processResponse`.
-/

namespace XaccIbm

open Decode StdString

/-- What is attached to a buffer of a physical backend. -/
def IBMBackend.calibration (b : IBMBackend) : List (String × ExtraInfo) :=
  [("gateSet", .str b.gateSet), ("basisGates", .str b.basisGates),
    ("readoutErrors", .nums b.readoutErrors), ("gateErrors", .nums b.gateErrors),
    ("multiQubitGates", .strs b.multiQubitGates),
    ("multiQubitGateErrors", .nums b.multiQubitGateErrors),
    ("frequencies", .nums b.frequencies), ("T1", .nums b.T1s), ("T2", .nums b.T2s)]

namespace IBMAccelerator

open Session

/-! ## Waiting for the job -/

/-- What the progress report reads of a reply: its status and, when there is
a queue, the queue's status and position. -/
def reports (d : Json) : Option Unit := do
  let _ ← (d.get? "status").bind Json.str?
  match d.get? "infoQueue" with
  | none => some ()
  | some info =>
      let _ ← (info.get? "status").bind Json.str?
      match info.get? "position" with
      | none => some ()
      | some position => position.int?.map fun _ => ()

/-- Ask until a reply says that the job is completed. -/
def pollJob (getPath : String) : Nat → Exec Session String
  | 0 => throw .waiting
  | fuel + 1 => do
      let s ← get
      let getResponse ← restGet s.acc.url getPath
      if contains getResponse "ERROR_RUNNING_JOB" then
        throw (.error "Error encountered running IBM job.")
      else
        let d ← Exec.demand (Json.parse getResponse)
        let _ ← Exec.demand (reports d)
        if contains getResponse "COMPLETED" then pure getResponse
        else pollJob getPath fuel

/-- The results of the job, one for each program. -/
def awaitJob (response : String) : Exec Session (List Json) := do
  if contains response "error" then throw (.error response)
  else
    let s ← get
    let jobId ← Exec.demand
      (((Json.parse response).bind fun d => d.get? "id").bind Json.str?)
    let getPath := "/api/Jobs/" ++ jobId ++ "?access_token=" ++ s.acc.currentApiToken
    -- The first reply is thrown away.
    let _ ← restGet s.acc.url getPath
    let getResponse ← pollJob getPath s.replies.length
    Exec.demand
      (((Json.parse getResponse).bind fun d => d.get? "qasms").bind Json.elems?)

/-! ## Storing the results -/

/-- `["result"]["data"][key]`. -/
def resultData (qasm : Json) (key : String) : Option Json := do
  let result ← qasm.get? "result"
  let data ← result.get? "data"
  data.get? key

/-- `["result"]["data"]["counts"]` as a table, in the document's order. -/
def rawCounts (qasm : Json) : Option (List (String × Int)) := do
  match ← resultData qasm "counts" with
  | .obj members => members.mapM fun m => m.2.int?.map fun n => (m.1, n)
  | _ => none

def resultTime (qasm : Json) : Option ℚ :=
  (resultData qasm "time").bind Json.num?

/-- Work on the caller's buffer. -/
def onBuffer (f : AcceleratorBuffer → AcceleratorBuffer) : Exec Session Unit :=
  modify fun s => { s with buffer := f s.buffer }

/-- The calibration data, when the chosen backend is physical. -/
def attachCalibration : Exec Session Unit := do
  let s ← get
  if s.acc.chosenBackend.isSimulator then pure ()
  else onBuffer fun b =>
    s.acc.chosenBackend.calibration.foldl (fun b i => b.addExtraInfo i.1 i.2) b

/-- `measurementSupports.clear()`. -/
def clearSupports : Exec Session Unit :=
  modify fun s => { s with acc := { s.acc with measurementSupports := ∅ } }

/-- `measurementSupports[i]`, read. -/
def readSupports (i : Nat) : Exec Session (List Nat) :=
  onSupports fun ms => .ok (ms.subscript i []).1 (ms.subscript i []).2

/-- One result: everything goes to the caller's buffer. -/
def storeAlone (qasm : Json) : Exec Session (List AcceleratorBuffer) := do
  let s ← get
  let counts ← Exec.demand (rawCounts qasm)
  onBuffer fun b => b.appendAll (counts.map fun e =>
    (decodeAlone s.acc.chosenBackend.isSimulator e.1, e.2))
  let time ← Exec.demand (resultTime qasm)
  onBuffer fun b => b.addExtraInfo "time" (.num time)
  let kernel ← Exec.demand s.acc.kernelNames.head?
  onBuffer fun b => b.addExtraInfo "kernel" (.str kernel)
  attachCalibration
  pure []

/-- The result `i` of several: a buffer of its own. -/
def storeResult (i : Nat) (qasm : Json) : Exec Session AcceleratorBuffer := do
  let s ← get
  let supports ← readSupports i
  let name ← Exec.demand s.acc.kernelNames[i]?
  let tmpBuffer ← createBuffer name s.buffer.size
  let time ← Exec.demand (resultTime qasm)
  let counts ← Exec.demand (rawCounts qasm)
  let decoded ← Exec.demand (decodeTable
    (decodeBatch s.acc.chosenBackend.isSimulator s.buffer.size supports) counts)
  pure ((tmpBuffer.addExtraInfo "time" (.num time)).appendAll decoded)

/-- The loop over several results, from a number on. -/
def storeResults : Nat → List Json → Exec Session (List AcceleratorBuffer)
  | _, [] => pure []
  | i, qasm :: rest => do
      let b ← storeResult i qasm
      let bs ← storeResults (i + 1) rest
      pure (b :: bs)

/-- Several results, or none. -/
def storeSeveral (qasms : List Json) : Exec Session (List AcceleratorBuffer) := do
  attachCalibration
  storeResults 0 qasms

def storeResultsOf (qasms : List Json) : Exec Session (List AcceleratorBuffer) :=
  match qasms with
  | [qasm] => storeAlone qasm
  | _ => storeSeveral qasms

/-- Both ways to store the results end by clearing `measurementSupports`. -/
def storeJob (qasms : List Json) : Exec Session (List AcceleratorBuffer) := do
  let buffers ← storeResultsOf qasms
  clearSupports
  pure buffers

/-- **`processResponse`.** -/
def processResponse (response : String) :
    Exec Session (List AcceleratorBuffer) := do
  let qasms ← awaitJob response
  storeJob qasms

end IBMAccelerator

/-! ## Runs -/

/-- One run on an accelerator: what the caller and the framework hand over,
and what the service answers. -/
structure Run (P : Type) where
  options : Options
  pulseLibrary : List (String × String)
  buffer : AcceleratorBuffer
  functions : List (Kernel P)
  /-- The POST of the job. -/
  post : String → Except String String
  replies : Replies

namespace Run

variable {P : Type} [ToString P]

/-- The session a run starts. -/
def start (r : Run P) (acc : IBMAccelerator) : Session where
  acc := acc
  buffer := r.buffer
  replies := r.replies

/-- The run up to the results of its job. -/
def awaited (r : Run P) : Exec Session (List Json) := do
  let text ← IBMAccelerator.processInput r.options r.pulseLibrary r.functions
  let response ← Exec.reply (r.post text)
  IBMAccelerator.awaitJob response

/-- The whole run. -/
def execute (r : Run P) : Exec Session (List AcceleratorBuffer) := do
  let text ← IBMAccelerator.processInput r.options r.pulseLibrary r.functions
  let response ← Exec.reply (r.post text)
  IBMAccelerator.processResponse response

end Run

end XaccIbm
