import XaccIbm.IBMAccelerator.Reachable
import XaccIbm.Lib.JsonTokens

/-!
# IBMAccelerator — Registry

`initialize` against a service that lists its backends. `ListedBy`,
`CalibratedBy` and `ParametersBy` say what the documents of the service tell
of a backend, among whatever else is in them; a service that serves a
registry answers the list and, for the devices of a hub, their data. The call
asks for exactly these, and `availableBackends` is the registry afterwards.
-/

namespace XaccIbm.IBMAccelerator

open StdString

/-! ## What the documents say -/

/-- A number that fits an `int`. -/
def FitsInt (n : Int) : Prop := -2 ^ 31 ≤ n ∧ n < 2 ^ 31

theorem int?_of_fitsInt {n : Int} (h : FitsInt n) : (Json.num n).int? = some n := by
  obtain ⟨hlow, hhigh⟩ := h
  have hmod : n.bmod (2 ^ 32) = n := by
    rw [Int.bmod_eq_of_le] <;> omega
  rw [Json.int?]
  exact if_pos ⟨rfl, hmod⟩

/-- `[key]["value"]` of a document. -/
def HasValue (key : String) (j : Json) (x : ℚ) : Prop :=
  ∃ entry, j.get? key = some entry ∧ entry.get? "value" = some (.num x)

theorem valueOf_of_hasValue {key : String} {j : Json} {x : ℚ} (h : HasValue key j x) :
    valueOf key j = some x := by
  obtain ⟨entry, hentry, hvalue⟩ := h
  rw [valueOf, hentry, Option.bind_some, hvalue]
  rfl

/-- A pair of the coupling map. -/
def IsCoupler (coupler : Int × Int) (j : Json) : Prop :=
  j = .arr [.num coupler.1, .num coupler.2] ∧ FitsInt coupler.1 ∧ FitsInt coupler.2

/-- The gates of a device, when the document names a gate set. -/
def Backend.GatesBy (b : Backend) (d : Json) : Prop :=
  (d.get? "gateSet" = some (.str b.gateSet) ∧ d.get? "basisGates" = some (.str b.basisGates)) ∨
    (d.get? "gateSet" = none ∧ b.gateSet = "" ∧ b.basisGates = "")

/-- **A document of the list** that lists a backend. -/
structure Backend.ListedBy (b : Backend) (d : Json) : Prop where
  name : d.get? "name" = some (.str b.name)
  description : d.get? "description" = some (.str b.description) ∨
    (d.get? "description" = none ∧ b.description = "")
  nQubits : d.get? "nQubits" = b.nQubits.map fun n => .num n
  int : ∀ n, b.nQubits = some n → FitsInt n
  status : ∃ text, d.get? "status" = some (.str text) ∧ b.status = !(contains text "off")
  isSimulator : d.get? "simulator" = some (.bool b.isSimulator)
  simulator : b.isSimulator = true → b.couplers = [] ∧ b.gateSet = "" ∧ b.basisGates = ""
  device : b.isSimulator = false → ∃ pairs, d.get? "couplingMap" = some (.arr pairs) ∧
    List.Forall₂ IsCoupler b.couplers pairs ∧ b.GatesBy d

/-- A backend without the data of its device. -/
def Backend.listed (b : Backend) : Backend :=
  { b with
    readoutErrors := [], gateErrors := [], multiQubitGates := [], multiQubitGateErrors := []
    T1s := [], T2s := [], frequencies := [] }

/-- **A calibration document** of a backend. -/
structure Backend.CalibratedBy (b : Backend) (d : Json) : Prop where
  data : ∃ qubits mqGates, d.get? "qubits" = some (.arr qubits) ∧
    d.get? "multiQubitGates" = some (.arr mqGates) ∧
    List.Forall₂ (HasValue "readoutError") qubits b.readoutErrors ∧
    List.Forall₂ (HasValue "gateError") qubits b.gateErrors ∧
    List.Forall₂ (fun gate name => gate.get? "name" = some (.str name)) mqGates
      b.multiQubitGates ∧
    List.Forall₂ (HasValue "gateError") mqGates b.multiQubitGateErrors

/-- **A document of the parameters** of a backend. -/
structure Backend.ParametersBy (b : Backend) (d : Json) : Prop where
  data : ∃ qubits, d.get? "qubits" = some (.arr qubits) ∧
    List.Forall₂ (HasValue "T1") qubits b.T1s ∧
    List.Forall₂ (HasValue "T2") qubits b.T2s ∧
    List.Forall₂ (HasValue "frequency") qubits b.frequencies

/-! ## Reading them back -/

theorem mapM_valueOf {key : String} {js : List Json} {xs : List ℚ}
    (h : List.Forall₂ (HasValue key) js xs) : js.mapM (valueOf key) = some xs :=
  Traverse.mapM_eq_some.mpr (h.imp fun _ _ => valueOf_of_hasValue)

theorem members?_of_get? {d : Json} {key : String} {j : Json} (h : d.get? key = some j) :
    ∃ ms, d.members? = some ms := by
  cases d with
  | obj ms => exact ⟨ms, rfl⟩
  | _ => cases h

theorem readCoupler_of_isCoupler {coupler : Int × Int} {j : Json} (h : IsCoupler coupler j) :
    readCoupler j = some coupler := by
  obtain ⟨rfl, hsource, htarget⟩ := h
  simp [readCoupler, Json.elems?, int?_of_fitsInt hsource, int?_of_fitsInt htarget]

/-- **The list is read back.** -/
theorem readBackend_listedBy {b : Backend} {d : Json} (h : b.ListedBy d) :
    readBackend d = some b.listed := by
  obtain ⟨text, hstatus, hon⟩ := h.status
  have hqubits : optional d "nQubits" Json.int? = some b.nQubits := by
    rw [optional, h.nQubits]
    cases hn : b.nQubits with
    | none => rfl
    | some n =>
        simp only [Option.map_some]
        rw [int?_of_fitsInt (h.int n hn)]
        rfl
  obtain ⟨description, hdescription, htext⟩ :
      ∃ o, optional d "description" Json.str? = some o ∧ o.getD "" = b.description := by
    rcases h.description with hd | ⟨hd, hempty⟩
    · exact ⟨some b.description, by rw [optional, hd]; rfl, rfl⟩
    · exact ⟨none, by rw [optional, hd], hempty.symm⟩
  have hstr : ∀ s, (Json.str s).str? = some s := fun _ => rfl
  have hbool : ∀ x, (Json.bool x).bool? = some x := fun _ => rfl
  simp only [readBackend, hqubits, h.name, hdescription, hstatus, h.isSimulator, htext, ← hon,
    hstr, hbool, Option.bind_eq_bind, Option.bind_some]
  cases hsim : b.isSimulator with
  | true =>
      obtain ⟨hcouplers, hset, hbasis⟩ := h.simulator hsim
      simp [Backend.listed, hsim, hcouplers, hset, hbasis]
  | false =>
      obtain ⟨pairs, hpairs, hcouplers, hgates⟩ := h.device hsim
      have hread : pairs.mapM readCoupler = some b.couplers :=
        Traverse.mapM_eq_some.mpr (hcouplers.flip.imp fun _ _ => readCoupler_of_isCoupler)
      simp only [Bool.false_eq_true, if_false, readCouplers, hpairs, hread,
        Option.bind_eq_bind, Option.bind_some]
      rcases hgates with ⟨hset, hbasis⟩ | ⟨hset, hempty, hempty'⟩
      · simp [optional, hset, hbasis, hstr, Backend.listed, hsim]
      · simp [optional, hset, Backend.listed, hsim, hempty, hempty']

/-- **The calibration is read back.** -/
theorem readCalibration_calibratedBy {b b' : Backend} {d : Json} (h : b.CalibratedBy d) :
    readCalibration b' d = some { b' with
      readoutErrors := b.readoutErrors, gateErrors := b.gateErrors
      multiQubitGates := b.multiQubitGates
      multiQubitGateErrors := b.multiQubitGateErrors } := by
  obtain ⟨qubits, mqGates, hqubits, hgates, hread, hgate, hnames, herrors⟩ := h.data
  obtain ⟨ms, hms⟩ := members?_of_get? hqubits
  have helems : ∀ vs, (Json.arr vs).elems? = some vs := fun _ => rfl
  have hread' : (mqGates.mapM fun gate => (gate.get? "name").bind Json.str?)
      = some b.multiQubitGates := by
    apply Traverse.mapM_eq_some.mpr
    apply hnames.imp
    intro gate name hname
    rw [hname]
    rfl
  simp only [readCalibration, hms, hqubits, hgates, helems, mapM_valueOf hread, mapM_valueOf hgate,
    hread', mapM_valueOf herrors, Option.bind_eq_bind, Option.bind_some]

/-- **So are the parameters.** -/
theorem readParameters_parametersBy {b b' : Backend} {d : Json} (h : b.ParametersBy d) :
    readParameters b' d = some { b' with
      T1s := b.T1s, T2s := b.T2s, frequencies := b.frequencies } := by
  obtain ⟨qubits, hqubits, ht1, ht2, hfreq⟩ := h.data
  obtain ⟨ms, hms⟩ := members?_of_get? hqubits
  have helems : ∀ vs, (Json.arr vs).elems? = some vs := fun _ => rfl
  simp only [readParameters, hms, hqubits, helems, mapM_valueOf ht1, mapM_valueOf ht2, mapM_valueOf hfreq,
    Option.bind_eq_bind, Option.bind_some]

/-! ## The service -/

/-- Whether the data of a device are asked for. -/
def Backend.asked (hub : String) (b : Backend) : Bool := !b.isSimulator && hub != ""

/-- The requests for a registry, but for its list. -/
def requests (hub : String) (registry : List Backend) : Nat :=
  2 * registry.countP (Backend.asked hub)

/-- **A service that serves a registry** to an account: it answers the list of
the backends, and the data of every device that is asked for. -/
structure Serves (service : String → String → Except String String) (c : Connection)
    (registry : List Backend) : Prop where
  list : ∃ text docs, service c.url (c.getBackendPath ++ c.currentApiToken) = .ok text ∧
    Json.parse text = some (.arr docs) ∧ List.Forall₂ Backend.ListedBy registry docs
  calibration : ∀ b ∈ registry, b.asked c.hub = true → ∃ text d,
    service c.url (c.account.devicePath b.name "calibration") = .ok text ∧
      Json.parse text = some d ∧ b.CalibratedBy d
  parameters : ∀ b ∈ registry, b.asked c.hub = true → ∃ text d,
    service c.url (c.account.devicePath b.name "parameters") = .ok text ∧
      Json.parse text = some d ∧ b.ParametersBy d
  without : ∀ b ∈ registry, b.asked c.hub = false → b = b.listed

theorem request_of_ok {service : String → String → Except String String} {url path text : String}
    (h : service url path = .ok text) (rest : Replies) :
    request url path (service :: rest) = .ok text rest := by
  simp [request, h]

/-- **One backend** is described with the requests that it is asked for. -/
theorem describe_serves {service : String → String → Except String String} {c : Connection}
    {registry : List Backend} (hserves : Serves service c registry) {b : Backend}
    (hb : b ∈ registry) {d : Json} (hd : b.ListedBy d) (rest : Replies) :
    describe c.account d (List.replicate (requests c.hub [b]) service ++ rest) = .ok b rest := by
  have hlisted := readBackend_listedBy hd
  cases hasked : b.asked c.hub with
  | false =>
      have hnone : requests c.hub [b] = 0 := by simp [requests, hasked]
      have hskip : b.listed.isSimulator = true ∨ c.account.hub = "" := by
        rw [Backend.asked, Bool.and_eq_false_iff] at hasked
        simpa [Backend.listed, Connection.account] using hasked
      rw [describe, hlisted, Exec.bind_of_ok (Exec.demand_some _ _), if_pos hskip, hnone,
        ← hserves.without b hb hasked]
      rfl
  | true =>
      have htwo : requests c.hub [b] = 2 := by simp [requests, hasked]
      have hask : ¬ (b.listed.isSimulator = true ∨ c.account.hub = "") := by
        rw [Backend.asked, Bool.and_eq_true] at hasked
        simpa [Backend.listed, Connection.account] using hasked
      obtain ⟨text, doc, hanswer, hparse, hcalibrated⟩ := hserves.calibration b hb hasked
      obtain ⟨text', doc', hanswer', hparse', hparameters⟩ := hserves.parameters b hb hasked
      rw [describe, hlisted, Exec.bind_of_ok (Exec.demand_some _ _), if_neg hask, htwo]
      show (request c.url (c.account.devicePath b.name "calibration") >>= _)
        (service :: service :: rest) = _
      rw [Exec.bind_of_ok (request_of_ok hanswer _), hparse, Option.bind_some,
        readCalibration_calibratedBy hcalibrated, Exec.bind_of_ok (Exec.demand_some _ _)]
      show (request c.url (c.account.devicePath b.name "parameters") >>= _) (service :: rest) = _
      rw [Exec.bind_of_ok (request_of_ok hanswer' _), hparse', Option.bind_some,
        readParameters_parametersBy hparameters]
      rfl

/-- **The whole list** is described with the requests of a registry. -/
theorem describeAll_serves {service : String → String → Except String String} {c : Connection}
    {registry : List Backend} (hserves : Serves service c registry) {backends : List Backend}
    (hsub : ∀ b ∈ backends, b ∈ registry) {docs : List Json}
    (hdocs : List.Forall₂ Backend.ListedBy backends docs) (rest : Replies) :
    describeAll c.account docs (List.replicate (requests c.hub backends) service ++ rest)
      = .ok backends rest := by
  induction hdocs with
  | nil => rfl
  | @cons b d backends docs hd _ ih =>
      have hsplit : requests c.hub (b :: backends)
          = requests c.hub [b] + requests c.hub backends := by
        simp only [requests, List.countP_cons, List.countP_nil]
        omega
      rw [hsplit, List.replicate_add, List.append_assoc, describeAll,
        Exec.bind_of_ok (describe_serves hserves (hsub b (by simp)) hd _),
        Exec.bind_of_ok (ih fun x hx => hsub x (by simp [hx]))]
      rfl

/-! ## The whole call -/

/-- The key is found, and the login is answered with a token: the connection
is the one that was found, with the token. -/
def Attempt.LogsIn (a : Attempt) (c c' : Connection) : Prop :=
  ∃ key found text d,
    searchAPIKey a ⟨c, a.replies⟩ = .ok key ⟨found, a.replies⟩ ∧
    a.post found.url "/api/users/loginWithToken" ("apiToken=" ++ key)
      (headers ("apiToken=" ++ key)) = .ok text ∧
    contains text "error" = false ∧ Json.parse text = some d ∧
    d.get? "id" = some (.str c'.currentApiToken) ∧
    c' = { found with currentApiToken := c'.currentApiToken }

/-- **Everything before the flag**, against a service. -/
theorem connect_serves {a : Attempt} {c c' : Connection}
    {service : String → String → Except String String} {registry : List Backend} {rest : Replies}
    (hlogin : a.LogsIn c c') (hserves : Serves service c' registry)
    (hreplies : a.replies
      = service :: (List.replicate (requests c'.hub registry) service ++ rest)) :
    (documents a >>= loadBackends) ⟨c, a.replies⟩ = .ok () ⟨c'.insertAll registry, rest⟩ := by
  obtain ⟨key, found, text, d, hkey, hpost, hnoError, hparse, hid, hfound⟩ := hlogin
  obtain ⟨listText, docs, hanswer, hdocs, hall⟩ := hserves.list
  have hlogin : login a key ⟨found, a.replies⟩ = .ok () ⟨c', a.replies⟩ := by
    have hnot : ¬ contains text "error" = true := by simp [hnoError]
    have hstr : (Json.str c'.currentApiToken).str? = some c'.currentApiToken := rfl
    rw [login, Exec.get_bind]
    show (Exec.reply (a.post found.url _ _ _) >>= _) _ = _
    rw [hpost, Exec.bind_of_ok (Exec.reply_ok _ _), if_neg hnot, hparse, Option.bind_some, hid,
      Option.bind_some, hstr, Exec.bind_of_ok (Exec.demand_some _ _), Exec.modify_apply]
    rw [← hfound]
  have hlist : listBackends ⟨c', a.replies⟩
      = .ok docs ⟨c', List.replicate (requests c'.hub registry) service ++ rest⟩ := by
    have hask := requesting_ok (s := ⟨c', a.replies⟩) (hreplies ▸ request_of_ok hanswer _)
    have helems : (Json.arr docs).elems? = some docs := rfl
    rw [listBackends, Exec.get_bind, Exec.bind_of_ok hask, hdocs, Option.bind_some, helems]
    rfl
  have hdocuments : documents a ⟨c, a.replies⟩
      = .ok docs ⟨c', List.replicate (requests c'.hub registry) service ++ rest⟩ := by
    rw [documents, Exec.bind_of_ok hkey, Exec.bind_of_ok hlogin, hlist]
  rw [Exec.bind_of_ok hdocuments, loadBackends_ok]
  exact ⟨registry, rest, describeAll_serves hserves (fun _ hb => hb) hall rest, rfl⟩

/-- The search for the key writes none of the backends. -/
theorem Attempt.LogsIn.kept {a : Attempt} {c c' : Connection} (h : a.LogsIn c c') :
    c'.availableBackends = c.availableBackends ∧ c'.rest = c.rest := by
  obtain ⟨key, found, text, d, hkey, _, _, _, _, hfound⟩ := h
  have hkept : outcome ⟨found, a.replies⟩ = outcome ⟨c, a.replies⟩ :=
    (searchAPIKey_keeps a).of_ok hkey
  rw [hfound]
  exact ⟨congrArg Prod.fst hkept, congrArg Prod.snd hkept⟩

/-! The checks at the end of a call. -/

theorem checkBackend_replies (options : Options) (s : Startup) :
    (Exec.after (checkBackend options s)).replies = s.replies := by
  rw [checkBackend]
  split
  · rfl
  · split
    · rfl
    · split
      · rfl
      · rfl

theorem checkBackend_unset {options : Options} (h : options.find "ibm-backend" = none)
    (s : Startup) : checkBackend options s = .ok () s := by
  rw [checkBackend, h]

theorem checkBackend_on {options : Options} {name : String} {b : Backend} {s : Startup}
    (hname : options.find "ibm-backend" = some name)
    (hfind : s.acc.availableBackends.find name = some b) (hon : b.status = true) :
    checkBackend options s = .ok () { s with acc := { s.acc with chosenBackend := b } } := by
  rw [checkBackend, hname]
  simp only [hfind, if_pos hon]

theorem checkBackend_succeeds (options : Options) (s : Startup) :
    Exec.succeeds (checkBackend options s) = true ↔
      ∀ name, options.find "ibm-backend" = some name →
        ∃ b, s.acc.availableBackends.find name = some b ∧ b.status = true := by
  cases hname : options.find "ibm-backend" with
  | none =>
      rw [checkBackend_unset hname]
      simp
  | some name =>
      constructor
      · intro h name' hname'
        cases hname'
        rw [checkBackend, hname] at h
        simp only at h
        cases hfind : s.acc.availableBackends.find name with
        | none =>
            rw [hfind] at h
            cases h
        | some b =>
            simp only [hfind] at h
            split at h
            · rename_i hon
              exact ⟨b, rfl, hon⟩
            · cases h
      · intro h
        obtain ⟨b, hfind, hon⟩ := h name rfl
        rw [checkBackend_on hname hfind hon]
        rfl

/-- **What a call leaves that has read a registry.** -/
structure Attempt.Registers (a : Attempt) (c c' : Connection) (registry : List Backend)
    (rest : Replies) : Prop where
  flag : (a.next c).initialized = true
  account : (a.next c).account = c'.account
  remoteUrl : (a.next c).remoteUrl = c'.url
  postPath : (a.next c).postPath = c'.postJobPath ++ c'.currentApiToken
  /-- The entries are those of the registry, behind those that were there. -/
  backends : ∀ name, (a.next c).availableBackends.find name = c.entry registry name
  /-- Nothing else is asked for. -/
  asked : (Exec.after (a.run c)).replies = rest
  returns : Exec.succeeds (a.run c) = true ↔ ∀ name,
    a.options.find "ibm-backend" = some name →
      ∃ b, c.entry registry name = some b ∧ b.status = true
  chosen : ∀ name b, a.options.find "ibm-backend" = some name →
    c.entry registry name = some b → b.status = true → (a.next c).chosenBackend = b
  unchosen : a.options.find "ibm-backend" = none →
    (a.next c).chosenBackend = c.chosenBackend

/-- **`initialize` against a service**: a call that logs in to a service reads
the registry that the service serves, with the data of its devices, asks for
nothing else, and returns if and only if the backend of the option, if there
is one, is in the registry and on. -/
theorem Attempt.run_serves {a : Attempt} {c c' : Connection}
    {service : String → String → Except String String} {registry : List Backend} {rest : Replies}
    (hset : c.initialized = false) (hlogin : a.LogsIn c c')
    (hserves : Serves service c' registry)
    (hreplies : a.replies
      = service :: (List.replicate (requests c'.hub registry) service ++ rest)) :
    a.Registers c c' registry rest := by
  obtain ⟨hknown, hrest⟩ := hlogin.kept
  have hconnected := connect_serves hlogin hserves hreplies
  have hfind : ∀ name, (c'.insertAll registry).connected.availableBackends.find name
      = c.entry registry name := by
    intro name
    show (c'.insertAll registry).availableBackends.find name = _
    rw [find_insertAll, entry_congr hknown]
  have hbefore : (c'.insertAll registry).connected.chosenBackend = c.chosenBackend :=
    (congrArg Prod.fst (insertAll_rest c' registry)).trans (congrArg Prod.fst hrest)
  have hmembers := Device.insertAll_eq c' registry
  have hrun : a.run c
      = checkBackend a.options ⟨(c'.insertAll registry).connected, rest⟩ := by
    rw [a.run_eq hset, Exec.bind_of_ok hconnected, Exec.modify_bind]
  -- the checks write nothing but the choice
  obtain ⟨chosen, _, hafter⟩ := checkBackend_after a.options
    ⟨(c'.insertAll registry).connected, rest⟩
  have hnext : a.next c = { (c'.insertAll registry).connected with chosenBackend := chosen } := by
    rw [Attempt.next, hrun]
    exact hafter
  constructor
  · rw [hnext]
    rfl
  · rw [hnext, hmembers]
    rfl
  · rw [hnext, hmembers]
    rfl
  · rw [hnext, hmembers]
    rfl
  · intro name
    rw [hnext]
    exact hfind name
  · rw [hrun, checkBackend_replies]
  · rw [hrun, checkBackend_succeeds]
    simp only [hfind]
  · intro name b hname hentry hon
    rw [Attempt.next, hrun, checkBackend_on hname ((hfind name).trans hentry) hon]
    rfl
  · intro hname
    rw [Attempt.next, hrun, checkBackend_unset hname]
    exact hbefore

/-! ## A hub with a device -/

/-- The options of an account of a hub. -/
def hubOptions : Options :=
  ((((deviceOptions.set "ibm-api-url" "https://q").set "ibm-api-hub" "ibm-q").set
    "ibm-api-group" "ornl").set "ibm-api-project" "bes")

/-- The device of the registry. -/
def hubBackend : Backend where
  name := "ibmqx4"
  nQubits := some 2
  isSimulator := false
  couplers := [(1, 0)]
  readoutErrors := [2]
  gateErrors := [3]
  multiQubitGates := ["CX1_0"]
  multiQubitGateErrors := [4]
  T1s := [5]
  T2s := [6]
  frequencies := [7]

/-- The simulator and the device. -/
def hubRegistry : List Backend := [{ name := "ibmq_qasm_simulator" }, hubBackend]

def hubListText : String :=
  "[\x7b\"name\": \"ibmq_qasm_simulator\", \"status\": \"on\", \"simulator\": true\x7d, " ++
  "\x7b\"name\": \"ibmqx4\", \"status\": \"on\", \"nQubits\": 2, \"simulator\": false, " ++
  "\"couplingMap\": [[1, 0]]\x7d]"

def hubCalibrationText : String :=
  "\x7b\"qubits\": [\x7b\"readoutError\": \x7b\"value\": 2\x7d, " ++
  "\"gateError\": \x7b\"value\": 3\x7d\x7d], " ++
  "\"multiQubitGates\": [\x7b\"name\": \"CX1_0\", \"gateError\": \x7b\"value\": 4\x7d\x7d]\x7d"

def hubParametersText : String :=
  "\x7b\"qubits\": [\x7b\"T1\": \x7b\"value\": 5\x7d, \"T2\": \x7b\"value\": 6\x7d, " ++
  "\"frequency\": \x7b\"value\": 7\x7d\x7d]\x7d"

/-- The service of the hub. -/
def hubService (url path : String) : Except String String :=
  if url ≠ "https://q" then .error "no route to host"
  else if path = "/api/Network/ibm-q/Groups/ornl/Projects/bes/devices?access_token=token" then
    .ok hubListText
  else if path = "/api/Network/ibm-q/devices/ibmqx4/calibration?access_token=token" then
    .ok hubCalibrationText
  else if path = "/api/Network/ibm-q/devices/ibmqx4/parameters?access_token=token" then
    .ok hubParametersText
  else .error "not found"

/-- A call with the options of the account. -/
def hubCall : Attempt where
  home := some "/root"
  options := hubOptions
  post := fun _ _ _ _ => loggedIn
  replies := [hubService, hubService, hubService]

/-- What the search and the login find. -/
def hubConnection : Connection where
  currentApiToken := "token"
  url := "https://q"
  hub := "ibm-q"
  group := "ornl"
  project := "bes"

theorem hubCall_logsIn : hubCall.LogsIn {} hubConnection := by
  refine ⟨"key", { hubConnection with currentApiToken := "" }, "\x7b\"id\": \"token\"\x7d",
    .obj [("id", .str "token")], ?_, rfl, ?_, ?_, rfl, rfl⟩
  · rfl
  · decide +kernel
  · rw [Json.parse_eq_some]
    decide +kernel

/-- The documents of the list. -/
def hubSimulator : Json :=
  .obj [("name", .str "ibmq_qasm_simulator"), ("status", .str "on"), ("simulator", .bool true)]

def hubDevice : Json :=
  .obj [("name", .str "ibmqx4"), ("status", .str "on"), ("nQubits", .num 2),
    ("simulator", .bool false), ("couplingMap", .arr [.arr [.num 1, .num 0]])]

theorem hubSimulator_lists : Backend.ListedBy { name := "ibmq_qasm_simulator" } hubSimulator where
  name := rfl
  description := .inr ⟨rfl, rfl⟩
  nQubits := rfl
  int := nofun
  status := ⟨"on", rfl, by decide +kernel⟩
  isSimulator := rfl
  simulator := fun _ => ⟨rfl, rfl, rfl⟩
  device := nofun

theorem hubDevice_lists : hubBackend.ListedBy hubDevice where
  name := rfl
  description := .inr ⟨rfl, rfl⟩
  nQubits := rfl
  int := by
    intro n hn
    cases hn
    exact ⟨by decide, by decide⟩
  status := ⟨"on", rfl, by decide +kernel⟩
  isSimulator := rfl
  simulator := nofun
  device := fun _ => ⟨_, rfl, .cons ⟨rfl, ⟨by decide, by decide⟩, ⟨by decide, by decide⟩⟩ .nil,
    .inr ⟨rfl, rfl, rfl⟩⟩

/-- `{"value": x}`. -/
def hubValue (x : ℚ) : Json := .obj [("value", .num x)]

theorem hubService_serves : Serves hubService hubConnection hubRegistry where
  list := by
    refine ⟨hubListText, [hubSimulator, hubDevice], rfl, ?_,
      .cons hubSimulator_lists (.cons hubDevice_lists .nil)⟩
    rw [Json.parse_eq_some]
    decide +kernel
  calibration := by
    intro b hb hasked
    rcases List.mem_cons.mp hb with rfl | hb
    · cases hasked
    · rw [List.mem_singleton.mp hb]
      refine ⟨hubCalibrationText, .obj [
        ("qubits", .arr [.obj [("readoutError", hubValue 2), ("gateError", hubValue 3)]]),
        ("multiQubitGates", .arr [.obj [("name", .str "CX1_0"), ("gateError", hubValue 4)]])],
        rfl, ?_, ?_⟩
      · rw [Json.parse_eq_some]
        decide +kernel
      · exact ⟨_, _, rfl, rfl, .cons ⟨_, rfl, rfl⟩ .nil, .cons ⟨_, rfl, rfl⟩ .nil,
          .cons rfl .nil, .cons ⟨_, rfl, rfl⟩ .nil⟩
  parameters := by
    intro b hb hasked
    rcases List.mem_cons.mp hb with rfl | hb
    · cases hasked
    · rw [List.mem_singleton.mp hb]
      refine ⟨hubParametersText, .obj [("qubits", .arr [.obj [("T1", hubValue 5),
        ("T2", hubValue 6), ("frequency", hubValue 7)]])], rfl, ?_, ?_⟩
      · rw [Json.parse_eq_some]
        decide +kernel
      · exact ⟨_, rfl, .cons ⟨_, rfl, rfl⟩ .nil, .cons ⟨_, rfl, rfl⟩ .nil,
          .cons ⟨_, rfl, rfl⟩ .nil⟩
  without := by
    intro b hb hasked
    rcases List.mem_cons.mp hb with rfl | hb
    · rfl
    · rw [List.mem_singleton.mp hb] at hasked
      cases hasked

/-- The theorem at a hub with a device: its data are read, and it is chosen. -/
theorem run_serves_hub :
    hubCall.Registers {} hubConnection hubRegistry [] ∧
      (hubCall.next {}).chosenBackend = hubBackend := by
  have h : hubCall.Registers {} hubConnection hubRegistry [] :=
    Attempt.run_serves rfl hubCall_logsIn hubService_serves rfl
  exact ⟨h, h.chosen "ibmqx4" hubBackend rfl rfl rfl⟩

end XaccIbm.IBMAccelerator
