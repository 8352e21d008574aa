import XaccIbm.IBMAccelerator.ApiKey
import XaccIbm.IBMAccelerator.ProcessInput

/-!
# IBMAccelerator — Initialize

`IBMAccelerator::initialize`: find the key, log in, read the service's list
of backends into `availableBackends`, and check the backend of the option. A
call on an initialized accelerator does nothing. Members keep what a call has
written before it raised an exception, backends it has read among them.
-/

namespace XaccIbm.IBMAccelerator

open StdString

/-- `IBMBackend` with the members that only `initialize` writes. -/
structure Backend extends IBMBackend where
  name : String := ""
  description : String := ""
  /-- A document without the member leaves it unset. -/
  nQubits : Option Int := none
  couplers : List (Int × Int) := []

/-- The members of the accelerator that `initialize` works on, with the paths
of the base class. -/
structure Connection where
  currentApiToken : String := ""
  url : String := ""
  hub : String := ""
  group : String := ""
  project : String := ""
  postPath : String := ""
  remoteUrl : String := ""
  availableBackends : StdMap String Backend := ∅
  chosenBackend : Backend := {}
  initialized : Bool := false

/-- One call: what it finds in its environment, and what the service
answers. -/
structure Attempt where
  /-- `getenv("HOME")`. -/
  home : Option String
  /-- `getenv("IBM_CONFIG")`. -/
  ibmConfig : Option String := none
  /-- The contents of the files that exist. -/
  files : String → Option String := fun _ => none
  options : Options
  /-- The POST of the login: url, path, parameter and headers. -/
  post : String → String → String → List (String × String) → Except String String
  replies : Replies

/-- What a call works on. -/
structure Startup where
  acc : Connection
  replies : Replies

/-- `handleExceptionRestClientGet(url, path)`. -/
def request (url path : String) : Exec Replies String := fun replies =>
  match replies with
  | [] => .error .waiting []
  | reply :: rest =>
      match reply url path with
      | .ok text => .ok text rest
      | .error msg => .error (.error msg) rest

/-- A part of a call that only sends requests. -/
def requesting {α : Type} (x : Exec Replies α) : Exec Startup α :=
  Exec.onPart Startup.replies (fun replies s => { s with replies := replies }) x

/-! ## The key -/

/-- What `searchAPIKey` is given by reference; the key is not a member. -/
def Connection.credentials (c : Connection) : Credentials
  | .key => ""
  | .url => c.url
  | .hub => c.hub
  | .group => c.group
  | .project => c.project

/-- The members as the search leaves them. -/
def Connection.withCredentials (c : Connection) (found : Credentials) : Connection :=
  { c with
    url := found .url
    hub := found .hub
    group := found .group
    project := found .project }

/-- The options that set a member. -/
def Connection.withOptions (c : Connection) (options : Options) : Connection :=
  { c with
    url := (options.find "ibm-api-url").getD c.url
    hub := (options.find "ibm-api-hub").getD c.hub
    group := (options.find "ibm-api-group").getD c.group
    project := (options.find "ibm-api-project").getD c.project }

def searchFile (contents : String) : Exec Startup String := do
  let s ← get
  let found ← Exec.demand (findApiKeyInFile contents s.acc.credentials)
  set { s with acc := s.acc.withCredentials found }
  pure (found .key)

def searchOptions (options : Options) : Exec Startup String :=
  match options.find "ibm-api-key" with
  | none => throw (.error "Cannot execute kernel on IBM chip without API Key.")
  | some key => do
      modify fun s => { s with acc := s.acc.withOptions options }
      pure key

/-- Where the key is looked for: in `$HOME/.ibm_config`, in the file of
`$IBM_CONFIG`, which may be missing, and in the options. -/
def searchKey (a : Attempt) (home : String) : Exec Startup String :=
  match a.files (home ++ "/.ibm_config"), a.ibmConfig with
  | some contents, _ => searchFile contents
  | none, some path => searchFile ((a.files path).getD "")
  | none, none => searchOptions a.options

/-- **`searchAPIKey`.** -/
def searchAPIKey (a : Attempt) : Exec Startup String := do
  let home ← Exec.demand a.home
  let key ← searchKey a home
  if key = "" then
    throw (.error ("Error. The API Key is empty. Please place it " ++
      "in your $HOME/.ibm_config file, $IBM_CONFIG env var, " ++
      "or provide --ibm-api-key argument."))
  else pure key

/-! ## The login -/

/-- The headers of the login's POST. -/
def headers (tokenParam : String) : List (String × String) :=
  [("Content-Type", "application/x-www-form-urlencoded"), ("Connection", "keep-alive"),
    ("Content-Length", toString tokenParam.utf8ByteSize)]

def login (a : Attempt) (apiKey : String) : Exec Startup Unit := do
  let s ← get
  let tokenParam := "apiToken=" ++ apiKey
  let response ← Exec.reply
    (a.post s.acc.url "/api/users/loginWithToken" tokenParam (headers tokenParam))
  if contains response "error" then
    throw (.error ("Error received from IBM\n" ++ response))
  else
    let token ← Exec.demand
      (((Json.parse response).bind fun d => d.get? "id").bind Json.str?)
    modify fun s => { s with acc := { s.acc with currentApiToken := token } }

/-! ## The list of the backends -/

def Connection.getBackendPath (c : Connection) : String :=
  if c.hub = "" then "/api/Backends?access_token="
  else "/api/Network/" ++ c.hub ++ "/Groups/" ++ c.group ++ "/Projects/" ++
    c.project ++ "/devices?access_token="

def Connection.postJobPath (c : Connection) : String :=
  if c.hub = "" then "/api/Jobs?access_token="
  else "/api/Network/" ++ c.hub ++ "/Groups/" ++ c.group ++ "/Projects/" ++
    c.project ++ "/jobs?access_token="

/-- The documents of the list. -/
def listBackends : Exec Startup (List Json) := do
  let s ← get
  let response ← requesting
    (request s.acc.url (s.acc.getBackendPath ++ s.acc.currentApiToken))
  Exec.demand ((Json.parse response).bind Json.elems?)

/-- A member that may be missing. -/
def optional {α : Type} (j : Json) (key : String) (read : Json → Option α) :
    Option (Option α) :=
  match j.get? key with
  | none => some none
  | some member => (read member).map some

/-- A pair of the coupling map. -/
def readCoupler (pair : Json) : Option (Int × Int) := do
  let qubits ← pair.elems?
  let source ← qubits[0]?.bind Json.int?
  let target ← qubits[1]?.bind Json.int?
  some (source, target)

/-- The couplers of a device, and its gates when the document names a gate
set; a document without an array of pairs has neither. -/
def readCouplers (b : Json) (backend : Backend) : Option Backend :=
  match b.get? "couplingMap" with
  | some (.arr pairs) => do
      let couplers ← pairs.mapM readCoupler
      match ← optional b "gateSet" Json.str? with
      | none => some { backend with couplers := couplers }
      | some gateSet =>
          let basisGates ← (b.get? "basisGates").bind Json.str?
          some { backend with
            couplers := couplers, gateSet := gateSet, basisGates := basisGates }
  | _ => some backend

/-- What the list says of a backend. -/
def readBackend (b : Json) : Option Backend := do
  let nQubits ← optional b "nQubits" Json.int?
  let name ← (b.get? "name").bind Json.str?
  let description ← optional b "description" Json.str?
  let status ← (b.get? "status").bind Json.str?
  let isSimulator ← (b.get? "simulator").bind Json.bool?
  let backend : Backend :=
    { name := name
      description := description.getD ""
      nQubits := nQubits
      status := !(contains status "off")
      isSimulator := isSimulator }
  if isSimulator then some backend else readCouplers b backend

/-! ## The data of a device -/

/-- `[key]["value"].GetDouble()`. -/
def valueOf (key : String) (j : Json) : Option ℚ :=
  ((j.get? key).bind fun entry => entry.get? "value").bind Json.num?

def readCalibration (backend : Backend) (d : Json) : Option Backend := do
  let _ ← d.members?
  match d.get? "qubits", d.get? "multiQubitGates" with
  | some qubits, some mqGates => do
      let qubits ← qubits.elems?
      let mqGates ← mqGates.elems?
      let readoutErrors ← qubits.mapM (valueOf "readoutError")
      let gateErrors ← qubits.mapM (valueOf "gateError")
      let multiQubitGates ← mqGates.mapM fun gate => (gate.get? "name").bind Json.str?
      let multiQubitGateErrors ← mqGates.mapM (valueOf "gateError")
      some { backend with
        readoutErrors := readoutErrors
        gateErrors := gateErrors
        multiQubitGates := multiQubitGates
        multiQubitGateErrors := multiQubitGateErrors }
  | _, _ => some backend

def readParameters (backend : Backend) (d : Json) : Option Backend := do
  let _ ← d.members?
  match d.get? "qubits" with
  | some qubits => do
      let qubits ← qubits.elems?
      let T1s ← qubits.mapM (valueOf "T1")
      let T2s ← qubits.mapM (valueOf "T2")
      let frequencies ← qubits.mapM (valueOf "frequency")
      some { backend with T1s := T1s, T2s := T2s, frequencies := frequencies }
  | none => some backend

/-- What the requests for a device are made of. -/
structure Account where
  url : String
  hub : String
  token : String

def Connection.account (c : Connection) : Account := ⟨c.url, c.hub, c.currentApiToken⟩

/-- The path of a device's data. It is only asked for with a hub. -/
def Account.devicePath (a : Account) (name data : String) : String :=
  if a.hub = "" then "/api/Backends/" ++ name ++ "/" ++ data ++ "?access_token=" ++ a.token
  else "/api/Network/" ++ a.hub ++ "/devices/" ++ name ++ "/" ++ data ++
    "?access_token=" ++ a.token

/-- One backend: what the list says, and for a device of a hub its
calibration and its parameters. -/
def describe (account : Account) (b : Json) : Exec Replies Backend := do
  let backend ← Exec.demand (readBackend b)
  if backend.isSimulator = true ∨ account.hub = "" then pure backend
  else
    let response ← request account.url (account.devicePath backend.name "calibration")
    let backend ← Exec.demand ((Json.parse response).bind (readCalibration backend))
    let response ← request account.url (account.devicePath backend.name "parameters")
    Exec.demand ((Json.parse response).bind (readParameters backend))

/-- `availableBackends.insert({backend.name, backend})`. -/
def Connection.insertBackend (c : Connection) (backend : Backend) : Connection :=
  { c with availableBackends := c.availableBackends.insert backend.name backend }

/-- The loop over the list. -/
def loadBackends : List Json → Exec Startup Unit
  | [] => pure ()
  | b :: rest => do
      let s ← get
      let backend ← requesting (describe s.acc.account b)
      modify fun s => { s with acc := s.acc.insertBackend backend }
      loadBackends rest

/-! ## The whole call -/

/-- Everything up to the list. -/
def documents (a : Attempt) : Exec Startup (List Json) := do
  let apiKey ← searchAPIKey a
  login a apiKey
  listBackends

/-- The flag is set, with what the base class sends jobs by. -/
def Connection.connected (c : Connection) : Connection :=
  { c with
    postPath := c.postJobPath ++ c.currentApiToken
    remoteUrl := c.url
    initialized := true }

/-- The backend of the option must be known and on; it becomes the chosen
one. -/
def checkBackend (options : Options) : Exec Startup Unit := fun s =>
  match options.find "ibm-backend" with
  | none => .ok () s
  | some newBackend =>
      match s.acc.availableBackends.find newBackend with
      | none => .error (.error "Invalid IBM Backend string") s
      | some backend =>
          if backend.status then
            .ok () { s with acc := { s.acc with chosenBackend := backend } }
          else
            .error (.error (newBackend ++ " is currently unavailable, status = off")) s

/-- **`initialize`.** The flag is set before the backend is checked. -/
def initializeAccelerator (a : Attempt) : Exec Startup Unit := do
  let s ← get
  if s.acc.initialized then pure ()
  else
    let bs ← documents a
    loadBackends bs
    modify fun s => { s with acc := s.acc.connected }
    checkBackend a.options

namespace Attempt

/-- The call on an accelerator. -/
def run (a : Attempt) (c : Connection) : EStateM.Result Failure Startup Unit :=
  initializeAccelerator a ⟨c, a.replies⟩

/-- The accelerator after a call, however it ends. -/
def next (a : Attempt) (c : Connection) : Connection := (Exec.after (a.run c)).acc

end Attempt

/-- What the other methods work on: a connection, with nothing submitted. -/
def Connection.accelerator (c : Connection) : IBMAccelerator where
  currentApiToken := c.currentApiToken
  url := c.url
  hub := c.hub
  remoteUrl := c.remoteUrl
  availableBackends := c.availableBackends.map Backend.toIBMBackend
  chosenBackend := c.chosenBackend.toIBMBackend

end XaccIbm.IBMAccelerator
