import XaccIbm.Accelerator.Buffer
import XaccIbm.OpenPulseVisitor
import XaccIbm.OpenQasmVisitor.Visit

/-!
# IBMAccelerator — ProcessInput

`IBMAccelerator::processInput`: from a list of functions and the options to
the text of a job. The service answers a GET with the next of a list of
replies; a loop that polls beyond the list is still waiting. Braces of the
JSON texts are written `\x7b` and `\x7d`.
-/

namespace XaccIbm

open StdString

/-- What the plugin reads of a backend once it is known. -/
structure IBMBackend where
  status : Bool := true
  isSimulator : Bool := true
  gateSet : String := ""
  basisGates : String := ""
  readoutErrors : List ℚ := []
  gateErrors : List ℚ := []
  multiQubitGates : List String := []
  multiQubitGateErrors : List ℚ := []
  T1s : List ℚ := []
  T2s : List ℚ := []
  frequencies : List ℚ := []

/-- The members that `processInput` and `processResponse` use, with the
`remoteUrl` of the base class. -/
structure IBMAccelerator where
  currentApiToken : String := ""
  url : String := ""
  hub : String := ""
  remoteUrl : String := ""
  availableBackends : StdMap String IBMBackend := ∅
  measurementSupports : Supports := ∅
  kernelNames : List String := []
  chosenBackend : IBMBackend := {}

/-- What the service answers to a url and a path, request by request. -/
abbrev Replies := List (String → String → Except String String)

/-- Everything a run works on: the accelerator, the caller's buffer and the
replies still to come. -/
structure Session where
  acc : IBMAccelerator
  buffer : AcceleratorBuffer
  replies : Replies

namespace Session

/-- `handleExceptionRestClientGet(url, path)`. -/
def restGet (url path : String) : Exec Session String := fun s =>
  match s.replies with
  | [] => .error .waiting s
  | reply :: rest =>
      match reply url path with
      | .ok text => .ok text { s with replies := rest }
      | .error msg => .error (.error msg) { s with replies := rest }

/-- Run a part of a call that works on `measurementSupports`. -/
def onSupports {α : Type} (x : Exec Supports α) : Exec Session α :=
  Exec.onPart (fun s => s.acc.measurementSupports)
    (fun ms s => { s with acc := { s.acc with measurementSupports := ms } }) x

end Session

namespace IBMAccelerator

open Session

/-- The backend of a job whose option is not set. -/
def defaultBackend : String := "ibmq_qasm_simulator"

/-- A backend of the options must be known and on; it becomes the chosen
one. -/
def useBackend (newBackend : String) : Exec Session String := fun s =>
  match s.acc.availableBackends.find newBackend with
  | none => .error (.error "Invalid IBM Backend string") s
  | some backend =>
      if backend.status then
        .ok newBackend { s with acc := { s.acc with chosenBackend := backend } }
      else
        .error (.error (newBackend ++ " is currently unavailable, status = off")) s

/-- The name of the job's backend. -/
def chooseBackend (options : Options) : Exec Session String :=
  match options.find "ibm-backend" with
  | none => pure defaultBackend
  | some newBackend => useBackend newBackend

def shots (options : Options) : String :=
  (options.find "ibm-shots").getD "1024"

variable {P : Type}

def nAnalogs (functions : List (Kernel P)) : Nat :=
  functions.countP Kernel.isAnalog

/-- Analog functions cannot be mixed with others. -/
def checkAnalogs (functions : List (Kernel P)) : Exec Session Unit :=
  if nAnalogs functions > 0 ∧ nAnalogs functions ≠ functions.length then
    throw (.error ("Cannot mix OpenQasm and OpenPulse executions. You have " ++
      toString functions.length ++ " functions but " ++
      toString (nAnalogs functions) ++ " analog functions."))
  else pure ()

/-! ## The submission loop -/

/-- `kernelNames.push_back(name)`. -/
def pushName (name : String) : Exec Session Unit :=
  modify fun s =>
    { s with acc := { s.acc with kernelNames := s.acc.kernelNames ++ [name] } }

section

variable [ToString P]

/-- The visitor's part of an iteration: the text of a kernel, with the comma
behind it. -/
def visitKernel (size kernelCounter : Nat) : Kernel P → Exec Supports String
  | .gates f => do
      let visitor ← Submission.submitKernel OpenQasmVisitor.accept
        (OpenQasmVisitor.new size false) kernelCounter f
      pure ("\x7b\"qasm\": \"" ++ escapeNewlines visitor.getOpenQasmString ++
        "\"\x7d,")
  | .analog f => do
      let visitor ← Submission.submitKernel OpenPulseVisitor.accept
        (OpenPulseVisitor.new f.name) kernelCounter f
      pure (visitor.getOpenPulseInstructionsJson ++ ",")

/-- The submission loop, from a kernel counter on. -/
def submitKernels (size : Nat) : Nat → List (Kernel P) → Exec Session String
  | _, [] => pure ""
  | kernelCounter, kernel :: rest => do
      let text ← onSupports (visitKernel size kernelCounter kernel)
      pushName kernel.name
      let texts ← submitKernels size (kernelCounter + 1) rest
      pure (text ++ texts)

end

/-! ## The text of the job -/

def measlofreq : String :=
  "7.02304866,6.988508651,7.021087557,6.914462388,7.085532103,6." ++
  "949279909,7.108946695,6.909172065,6.994924756,6.901232112,7.046906055," ++
  "7.002697717,7.056662542, " ++
  "6.944036858,7.102260098,6.942593417,7.087802113,6.89580952,7." ++
  "003100376,6.89580523"

def qubitlofreq : String :=
  "4.920222867865243,4.832046403202443,4.940398096698374,4." ++
  "514466758212148,4.662970579288438,4.957220580605086,4.995704948314061," ++
  "4.811225865860375,5.0124078826037755,5.0564924363956045,4." ++
  "72033587911043,4.899360137518408,4.772030460533516,5.110023809671274," ++
  "4.990894220665049,4.806558974441183,4.956319934060655,4." ++
  "599367389589547,4.827896792802955,4.938182460530852"

/-- The opening of an analog job, up to the pulse library. -/
def analogInit (backendName shots : String) : String :=
  "\x7b \"qObject\": \x7b\"qobj_id\": \"xacc-qobj\", \"schema_version\": \"1.0.0\", \"type\": " ++
  "\"PULSE\", \"header\": \x7b \"description\": \"\", \"backend_name\": \"" ++
  backendName ++ "\" \x7d, \"config\": \x7b \"meas_lo_freq\": [" ++ measlofreq ++
  "], \"qubit_lo_freq\": [" ++ qubitlofreq ++
  "], \"rep_time\": 500, \"meas_level\": 1, \"shots\":" ++ shots ++
  ", \"meas_return\": \"avg\", \"memory_slot_size\": 1, \"seed\": 1, " ++
  "\"pulse_library\": ["

/-- An entry of the pulse library, with the comma behind it. -/
def pulseText (entry : String × String) : String :=
  "\x7b\"name\": \"" ++ entry.1 ++ "\", \"samples\": " ++ entry.2 ++ "\x7d,"

/-- The end of a job, with the name of its backend. -/
def backendText (backendName : String) : String :=
  "\"backend\": \x7b\"name\": \"" ++ backendName ++ "\"\x7d\x7d"

/-- The job of analog kernels. The pulse library is a cache of the framework:
names and the texts of their samples. -/
def analogJob (backendName shots : String) (pulseLibrary : List (String × String))
    (texts : String) : String :=
  cutLast (analogInit backendName shots ++ String.join (pulseLibrary.map pulseText)) ++
    cutLast ("] \x7d, \"experiments\": [" ++ texts) ++
    "]\x7d, " ++ backendText backendName

def qasmJob (backendName shots texts : String) : String :=
  cutLast ("\x7b\"qasms\": [" ++ texts) ++ "]" ++
    ", \"shots\": " ++ shots ++ ", \"maxCredits\": 5, " ++ backendText backendName

/-! ## The device's status -/

/-- `d["status"].GetString()` of a reply. -/
def statusOf (response : String) : Option String :=
  ((Json.parse response).bind fun d => d.get? "status").bind Json.str?

/-- Ask until the device is on. -/
def pollDevice (checkBackend : String) : Nat → Exec Session Unit
  | 0 => throw .waiting
  | fuel + 1 => do
      let s ← get
      let deviceResponse ← restGet s.acc.remoteUrl checkBackend
      let status ← Exec.demand (statusOf deviceResponse)
      if status = "on" then pure () else pollDevice checkBackend fuel

/-- Any backend but the default one must be on before the job goes out. Each
round of the loop takes a reply, so one more round than replies is enough. -/
def awaitDevice (backendName : String) : Exec Session Unit := do
  if backendName = defaultBackend then pure ()
  else
    let s ← get
    let checkBackend :=
      if s.acc.hub = "" then "/api/Backends/" ++ backendName
      else "/api/Network/ibm-q-ornl/devices/" ++ backendName ++
        "?access_token=" ++ s.acc.currentApiToken
    pollDevice checkBackend (s.replies.length + 1)

variable [ToString P]

/-- **`processInput`.** -/
def processInput (options : Options) (pulseLibrary : List (String × String))
    (functions : List (Kernel P)) : Exec Session String := do
  let backendName ← chooseBackend options
  checkAnalogs functions
  let s ← get
  let texts ← submitKernels s.buffer.size 0 functions
  awaitDevice backendName
  pure (if nAnalogs functions > 0 then
      analogJob backendName (shots options) pulseLibrary texts
    else qasmJob backendName (shots options) texts)

end IBMAccelerator

end XaccIbm
