import XaccIbm.IBMAccelerator.Device
import XaccIbm.Lib.Traverse

/-!
# IBMAccelerator — Reachable

What holds of the object after every history of calls, the ones that fail
part way among them. The entries of `availableBackends` are stored under
their own names and with data that fit together, and stay as they are; the
chosen backend is the default-constructed one or an entry that is on; and the
paths of the base class are those of the login once the flag is set.
-/

namespace XaccIbm

open IBMAccelerator

/-! ## Backends as they are read -/

/-- **The data of a backend fit together**: what is read in one loop has one
length, and a simulator has none of it. -/
structure IBMAccelerator.Backend.Consistent (b : Backend) : Prop where
  qubits : b.readoutErrors.length = b.gateErrors.length
  gates : b.multiQubitGates.length = b.multiQubitGateErrors.length
  times : b.T1s.length = b.T2s.length
  frequencies : b.T2s.length = b.frequencies.length
  simulator : b.isSimulator = true →
    b = { name := b.name, description := b.description, nQubits := b.nQubits,
          status := b.status }

namespace IBMAccelerator

theorem Backend.consistent_default : ({} : Backend).Consistent := by
  constructor <;> simp

/-- The list says nothing of the calibration. -/
structure Backend.Listed (b : Backend) : Prop where
  readoutErrors : b.readoutErrors = []
  gateErrors : b.gateErrors = []
  multiQubitGates : b.multiQubitGates = []
  multiQubitGateErrors : b.multiQubitGateErrors = []
  T1s : b.T1s = []
  T2s : b.T2s = []
  frequencies : b.frequencies = []
  simulator : b.isSimulator = true → b.couplers = [] ∧ b.gateSet = "" ∧ b.basisGates = ""

theorem Backend.Listed.consistent {b : Backend} (h : b.Listed) : b.Consistent := by
  obtain ⟨hread, hgate, hname, herror, ht1, ht2, hfreq, hsim⟩ := h
  constructor
  · rw [hread, hgate]
  · rw [hname, herror]
    rfl
  · rw [ht1, ht2]
  · rw [ht2, hfreq]
  · intro hissim
    obtain ⟨hcouplers, hset, hbasis⟩ := hsim hissim
    obtain ⟨base, name, description, nQubits, couplers⟩ := b
    cases base
    simp_all

theorem readCouplers_listed {d : Json} {b b' : Backend} (h : readCouplers d b = some b')
    (hb : b.Listed) (hdevice : b.isSimulator = false) : b'.Listed := by
  unfold readCouplers at h
  split at h
  · rename_i pairs _
    simp only [Option.bind_eq_bind, Option.bind_eq_some_iff] at h
    obtain ⟨couplers, _, gateSet, _, h⟩ := h
    cases gateSet with
    | none =>
        cases h
        exact ⟨hb.1, hb.2, hb.3, hb.4, hb.5, hb.6, hb.7, by simp [hdevice]⟩
    | some gateSet =>
        simp only [Option.bind_eq_some_iff, Option.some.injEq] at h
        obtain ⟨basisGates, _, rfl⟩ := h
        exact ⟨hb.1, hb.2, hb.3, hb.4, hb.5, hb.6, hb.7, by simp [hdevice]⟩
  · cases h
    exact hb

theorem readBackend_listed {d : Json} {b : Backend} (h : readBackend d = some b) :
    b.Listed := by
  unfold readBackend at h
  simp only [Option.bind_eq_bind, Option.bind_eq_some_iff] at h
  obtain ⟨nQubits, _, name, _, description, _, status, _, isSimulator, _, h⟩ := h
  cases isSimulator with
  | true =>
      cases h
      constructor <;> simp
  | false =>
      apply readCouplers_listed h
      · constructor <;> simp
      · rfl

/-- The calibration of a device is read in two loops. -/
theorem readCalibration_consistent {d : Json} {b b' : Backend}
    (h : readCalibration b d = some b') (hb : b.Consistent) (hdevice : b.isSimulator = false) :
    b'.Consistent ∧ b'.isSimulator = false ∧ b'.name = b.name := by
  unfold readCalibration at h
  simp only [Option.bind_eq_bind, Option.bind_eq_some_iff] at h
  obtain ⟨_, _, h⟩ := h
  split at h
  · simp only [Option.bind_eq_some_iff, Option.some.injEq] at h
    obtain ⟨qubits, _, mqGates, _, readoutErrors, hread, gateErrors, hgate, names, hnames,
      errors, herrors, rfl⟩ := h
    refine ⟨⟨?_, ?_, hb.times, hb.frequencies, by simp [hdevice]⟩, hdevice, rfl⟩
    · rw [← (Traverse.mapM_eq_some.mp hread).length_eq, (Traverse.mapM_eq_some.mp hgate).length_eq]
    · rw [← (Traverse.mapM_eq_some.mp hnames).length_eq, (Traverse.mapM_eq_some.mp herrors).length_eq]
  · cases h
    exact ⟨hb, hdevice, rfl⟩

/-- So are its parameters, in one. -/
theorem readParameters_consistent {d : Json} {b b' : Backend}
    (h : readParameters b d = some b') (hb : b.Consistent) (hdevice : b.isSimulator = false) :
    b'.Consistent ∧ b'.name = b.name := by
  unfold readParameters at h
  simp only [Option.bind_eq_bind, Option.bind_eq_some_iff] at h
  obtain ⟨_, _, h⟩ := h
  split at h
  · simp only [Option.bind_eq_some_iff, Option.some.injEq] at h
    obtain ⟨qubits, _, T1s, ht1, T2s, ht2, frequencies, hfreq, rfl⟩ := h
    refine ⟨⟨hb.qubits, hb.gates, ?_, ?_, by simp [hdevice]⟩, rfl⟩
    · rw [← (Traverse.mapM_eq_some.mp ht1).length_eq, (Traverse.mapM_eq_some.mp ht2).length_eq]
    · rw [← (Traverse.mapM_eq_some.mp ht2).length_eq, (Traverse.mapM_eq_some.mp hfreq).length_eq]
  · cases h
    exact ⟨hb, rfl⟩

/-- **A backend of the list**, with the data of its device. -/
theorem describe_consistent {account : Account} {d : Json} {replies replies' : Replies}
    {b : Backend} (h : describe account d replies = .ok b replies') : b.Consistent := by
  rw [describe] at h
  obtain ⟨listed, hlisted, h⟩ := Exec.demand_bind_ok.mp h
  have hconsistent := (readBackend_listed hlisted).consistent
  split at h
  · cases h
    exact hconsistent
  · rename_i hdevice
    have hdevice : listed.isSimulator = false := by
      cases hsim : listed.isSimulator with
      | true => exact absurd (.inl hsim) hdevice
      | false => rfl
    obtain ⟨_, _, _, h⟩ := Exec.bind_ok.mp h
    obtain ⟨calibrated, hcalibrated, h⟩ := Exec.demand_bind_ok.mp h
    obtain ⟨_, _, _, h⟩ := Exec.bind_ok.mp h
    obtain ⟨hparameters, _⟩ := Exec.demand_ok.mp h
    obtain ⟨_, _, hread⟩ := Option.bind_eq_some_iff.mp hcalibrated
    obtain ⟨_, _, hread'⟩ := Option.bind_eq_some_iff.mp hparameters
    obtain ⟨hcalibration, hdevice', _⟩ := readCalibration_consistent hread hconsistent hdevice
    exact (readParameters_consistent hread' hcalibration hdevice').1

/-! ## What the list adds -/

/-- The loop over the list, fail or not, inserts backends that fit together. -/
theorem loadBackends_after (bs : List Json) (s : Startup) :
    ∃ backends replies, (∀ b ∈ backends, b.Consistent) ∧
      Exec.after (loadBackends bs s) = ⟨s.acc.insertAll backends, replies⟩ := by
  induction bs generalizing s with
  | nil => exact ⟨[], s.replies, by simp, rfl⟩
  | cons d rest ih =>
      rw [loadBackends, Exec.get_bind]
      cases hd : describe s.acc.account d s.replies with
      | error e replies =>
          refine ⟨[], replies, by simp, ?_⟩
          rw [Exec.bind_apply, requesting_error hd]
          rfl
      | ok b replies =>
          rw [Exec.bind_of_ok (requesting_ok hd), Exec.modify_bind]
          obtain ⟨backends, replies', hall, hafter⟩ := ih ⟨s.acc.insertBackend b, replies⟩
          refine ⟨b :: backends, replies', ?_, hafter⟩
          intro x hx
          rcases List.mem_cons.mp hx with rfl | hx
          · exact describe_consistent hd
          · exact hall x hx

/-- A connection without what the search for the key and the login write. -/
def Connection.withoutLogin (c : Connection) : Connection :=
  { c with currentApiToken := "", url := "", hub := "", group := "", project := "" }

/-- What only the list, the flag and the checks write. -/
def loggedOut (s : Startup) : Connection := s.acc.withoutLogin

theorem searchKey_loggedOut (a : Attempt) (home : String) :
    Exec.Keeps loggedOut (searchKey a home) := by
  have hfile : ∀ contents, Exec.Keeps loggedOut (searchFile contents) := by
    intro contents s
    rw [searchFile, Exec.get_bind]
    cases findApiKeyInFile contents s.acc.credentials <;> rfl
  unfold searchKey
  split
  · exact hfile _
  · exact hfile _
  · unfold searchOptions
    cases a.options.find "ibm-api-key" with
    | none => exact .throw _
    | some key => exact .bind (.modify fun _ => rfl) fun _ => .pure _

theorem documents_loggedOut (a : Attempt) : Exec.Keeps loggedOut (documents a) := by
  have hsearch : Exec.Keeps loggedOut (searchAPIKey a) :=
    .bind (.demand _) fun home => .bind (searchKey_loggedOut a home) fun _ =>
      .ite (.throw _) (.pure _)
  have hlogin : ∀ apiKey, Exec.Keeps loggedOut (login a apiKey) := fun apiKey =>
    .bind .get fun _ => .bind (.reply _) fun _ => .ite (.throw _)
      (.bind (.demand _) fun _ => .modify fun _ => rfl)
  exact .bind hsearch fun _ => .bind (hlogin _) fun _ => .bind .get fun _ =>
    .bind ((requesting_keeps _).sub Connection.withoutLogin) fun _ => .demand _

/-- What the checks may choose: an entry that is on. -/
def Connection.OnEntry (c : Connection) (b : Backend) : Prop :=
  ∃ name, c.availableBackends.find name = some b ∧ b.status = true

/-- **The checks** choose an entry that is on, or nothing. -/
theorem checkBackend_after (options : Options) (s : Startup) :
    ∃ chosen, (chosen = s.acc.chosenBackend ∨ s.acc.OnEntry chosen) ∧
      (Exec.after (checkBackend options s)).acc = { s.acc with chosenBackend := chosen } := by
  rw [checkBackend]
  cases options.find "ibm-backend" with
  | none => exact ⟨_, .inl rfl, rfl⟩
  | some name =>
      simp only
      cases hfind : s.acc.availableBackends.find name with
      | none => exact ⟨_, .inl rfl, rfl⟩
      | some b =>
          cases hon : b.status with
          | true => exact ⟨b, .inr ⟨name, hfind, hon⟩, by simp [hon]⟩
          | false => exact ⟨_, .inl rfl, by simp [hon]⟩

/-- **What a call can do**: nothing, once the flag is set; else it inserts
backends of the list, all that it read before it failed, and when it did not
fail there it sets the flag, and may choose an entry that is on. -/
theorem Attempt.next_cases (a : Attempt) (c : Connection) :
    (c.initialized = true ∧ a.next c = c) ∨
    (c.initialized = false ∧ ∃ (c' : Connection) (backends : List Backend),
      c'.withoutLogin = c.withoutLogin ∧ (∀ b ∈ backends, b.Consistent) ∧
      (a.next c = c'.insertAll backends ∨
        ∃ chosen, (chosen = c.chosenBackend ∨ (c'.insertAll backends).OnEntry chosen) ∧
          a.next c = { (c'.insertAll backends).connected with chosenBackend := chosen })) := by
  cases hset : c.initialized with
  | true => exact .inl ⟨rfl, Attempt.next_of_ok (a.run_of_initialized hset)⟩
  | false =>
      refine .inr ⟨rfl, ?_⟩
      have hkept := documents_loggedOut a ⟨c, a.replies⟩
      rw [Attempt.next, a.run_eq hset, bind_assoc, Exec.bind_apply]
      cases hdocuments : documents a ⟨c, a.replies⟩ with
      | error e s =>
          rw [hdocuments] at hkept
          exact ⟨s.acc, [], hkept, by simp, .inl rfl⟩
      | ok bs s =>
          rw [hdocuments] at hkept
          obtain ⟨backends, replies, hall, hafter⟩ := loadBackends_after bs s
          refine ⟨s.acc, backends, hkept, hall, ?_⟩
          simp only [Exec.bind_apply, Exec.modify_apply]
          cases hload : loadBackends bs s with
          | error e s' =>
              rw [hload, Exec.after_error] at hafter
              subst hafter
              exact .inl rfl
          | ok u s' =>
              rw [hload, Exec.after_ok] at hafter
              subst hafter
              obtain ⟨chosen, hchosen, hnext⟩ := checkBackend_after a.options
                ⟨(s.acc.insertAll backends).connected, replies⟩
              refine .inr ⟨chosen, ?_, hnext⟩
              rcases hchosen with rfl | hentry
              · have hrest := congrArg Prod.fst (insertAll_rest s.acc backends)
                exact .inl (hrest.trans (congrArg (fun c => c.chosenBackend) hkept))
              · exact .inr hentry

/-! ## What a run adds to the names -/

variable {P : Type} [ToString P]

/-- The submission loop names the kernels up to the first it rejects. -/
theorem submitKernels_names (size : Nat) (functions : List (Kernel P)) (kernelCounter : Nat)
    (s : Session) :
    (Exec.after (submitKernels size kernelCounter functions s)).acc.kernelNames
      = s.acc.kernelNames ++
        (functions.takeWhile (Kernel.accepted size)).map Kernel.name := by
  induction functions generalizing kernelCounter s with
  | nil => simp [submitKernels]
  | cons kernel rest ih =>
      cases hacc : kernel.accepted size with
      | false =>
          rw [(submitKernels_cons_rejected hacc).2, onSupports_names,
            List.takeWhile_cons_of_neg (by simp [hacc])]
          simp
      | true =>
          obtain ⟨s1, _, hnames, _, hafter⟩ :=
            submitKernels_cons_accepted hacc kernelCounter rest s
          rw [hafter, ih, hnames, List.takeWhile_cons_of_pos hacc]
          simp

/-- The names that `processInput` adds, fail or not. -/
def writtenNames (acc : IBMAccelerator) (options : Options) (size : Nat)
    (functions : List (Kernel P)) : List String :=
  if admitted acc options functions then
    (functions.takeWhile (Kernel.accepted size)).map Kernel.name
  else []

theorem processInput_names (options : Options) (pulseLibrary : List (String × String))
    (functions : List (Kernel P)) (s : Session) :
    (Exec.after (processInput options pulseLibrary functions s)).acc.kernelNames
      = s.acc.kernelNames ++ writtenNames s.acc options s.buffer.size functions := by
  have hchoose := chooseBackend_after options s
  have hsucc := chooseBackend_succeeds options s
  rw [processInput, Exec.bind_apply, writtenNames, admitted, ← hsucc]
  cases hc : chooseBackend options s with
  | error e s1 =>
      rw [hc, Exec.after_error] at hchoose
      rw [hchoose]
      simp [choose]
  | ok name s1 =>
      rw [hc, Exec.after_ok] at hchoose
      simp only
      rw [Exec.bind_apply, checkAnalogs_eq]
      by_cases hmix : nAnalogs functions > 0 ∧ nAnalogs functions ≠ functions.length
      · rw [if_pos hmix]
        simp [hmix, hchoose, choose]
      · have hsub := submitKernels_names s1.buffer.size functions 0 s1
        have hsize : s1.buffer = s.buffer := by rw [hchoose]
        have hbefore : s1.acc.kernelNames = s.acc.kernelNames := by
          rw [hchoose]
          rfl
        rw [if_neg hmix, Exec.succeeds_ok, Bool.true_and, decide_eq_false hmix,
          Bool.not_false, if_pos rfl, ← hsize, ← hbefore, ← hsub]
        -- Nothing after the submission loop writes the accelerator.
        have htail := Exec.Keeps.after_bind
          (x := submitKernels s1.buffer.size 0 functions) (fun texts =>
            Exec.Keeps.bind (awaitDevice_keeps name) fun _ => Exec.Keeps.pure
            (if nAnalogs functions > 0 then
                analogJob name (shots options) pulseLibrary texts
              else qasmJob name (shots options) texts)) s1
        exact congrArg (fun p => p.1.kernelNames) htail

/-- What follows `processInput` in a run writes no names. -/
theorem storeJob_names (qasms : List Json) :
    Exec.Keeps (fun s : Session => s.acc.kernelNames) (storeJob qasms) :=
  .bind ((storeResultsOf_keeps qasms).sub fun v => v.1.kernelNames) fun _ =>
    .bind (.modify fun _ => rfl) fun _ => .pure _

theorem next_kernelNames (r : Run P) (acc : IBMAccelerator) :
    (r.next acc).kernelNames
      = acc.kernelNames ++ writtenNames acc r.options r.buffer.size r.functions := by
  have hrest : ∀ text, Exec.Keeps (fun s : Session => s.acc.kernelNames) (do
      let response ← Exec.reply (r.post text)
      processResponse response) := fun text =>
    .bind (.reply _) fun _ => .bind ((awaitJob_keeps _).sub fun p => p.1.kernelNames)
      fun qasms => storeJob_names qasms
  have hafter := Exec.Keeps.after_bind
    (x := processInput r.options r.pulseLibrary r.functions) hrest (r.start acc)
  exact hafter.trans (processInput_names _ _ _ _)

end IBMAccelerator

/-! ## The invariant -/

namespace Device

/-- **The invariant of the object.** -/
structure WellFormed (d : Device) : Prop where
  /-- Every entry is stored under its own name, and its data fit together. -/
  entries : ∀ name b, d.availableBackends.find name = some b → b.name = name ∧ b.Consistent
  chosen : d.chosenBackend = {} ∨
    d.availableBackends.find d.chosenBackend.name = some d.chosenBackend ∧
      d.chosenBackend.status = true
  remoteUrl : d.remoteUrl = if d.initialized then d.url else ""
  postPath : d.postPath = if d.initialized then d.postJobPath ++ d.currentApiToken else ""

theorem wellFormed_fresh : ({} : Device).WellFormed where
  entries := by
    intro name b h
    cases h
  chosen := .inl rfl
  remoteUrl := rfl
  postPath := rfl

/-- An entry that is on can be chosen. -/
theorem chosen_of_onEntry {c : Connection} {b : Backend}
    (hnamed : ∀ name b, c.availableBackends.find name = some b → b.name = name)
    (h : c.OnEntry b) : c.availableBackends.find b.name = some b ∧ b.status = true := by
  obtain ⟨name, hfind, hon⟩ := h
  rw [hnamed name b hfind]
  exact ⟨hfind, hon⟩

/-- The entries once backends of a list are inserted. -/
theorem entries_insertAll {c : Connection} {backends : List Backend}
    (hbackends : ∀ b ∈ backends, b.Consistent)
    (hentries : ∀ name b, c.availableBackends.find name = some b → b.name = name ∧ b.Consistent) :
    ∀ name b, (c.insertAll backends).availableBackends.find name = some b →
      b.name = name ∧ b.Consistent := by
  intro name b hfind
  rw [find_insertAll, Connection.entry, Option.or_eq_some_iff] at hfind
  rcases hfind with hfind | ⟨_, hfind⟩
  · exact hentries name b hfind
  · have hname := List.find?_some hfind
    exact ⟨by simpa using hname, hbackends b (List.mem_of_find?_eq_some hfind)⟩

/-- What the list leaves alone, with the paths of the base class. -/
theorem insertAll_eq (c : Connection) (backends : List Backend) :
    c.insertAll backends
      = { c with availableBackends := (c.insertAll backends).availableBackends } := by
  induction backends generalizing c with
  | nil => rfl
  | cons b rest ih =>
      rw [Connection.insertAll, List.foldl_cons, ← Connection.insertAll, ih]
      rfl

/-- **The step of the invariant**, at `initialize`. -/
theorem wellFormed_afterConnect {d : Device} (h : d.WellFormed) (a : Attempt) :
    (d.afterConnect a).WellFormed := by
  rcases a.next_cases d.toConnection with ⟨_, hnext⟩ | ⟨hset, c', backends, hkept, hall, hnext⟩
  · rw [afterConnect, hnext]
    exact h
  · have hknown : c'.availableBackends = d.availableBackends :=
      congrArg (fun c => c.availableBackends) hkept
    have hentries : ∀ name b, (c'.insertAll backends).availableBackends.find name = some b →
        b.name = name ∧ b.Consistent := by
      apply entries_insertAll hall
      rw [hknown]
      exact h.entries
    have hpersist : ∀ name b, d.availableBackends.find name = some b →
        (c'.insertAll backends).availableBackends.find name = some b := by
      intro name b hfind
      rw [find_insertAll, Connection.entry, hknown, hfind, Option.some_or]
    have hchosen : d.chosenBackend = {} ∨
        (c'.insertAll backends).availableBackends.find d.chosenBackend.name
          = some d.chosenBackend ∧ d.chosenBackend.status = true := by
      rcases h.chosen with hdefault | ⟨hfind, hon⟩
      · exact .inl hdefault
      · exact .inr ⟨hpersist _ _ hfind, hon⟩
    rcases hnext with hnext | ⟨chosen, hchoice, hnext⟩
    · -- it failed before the flag: the members are those of before, but for the login's
      have hrest : c'.insertAll backends = { c' with
          availableBackends := (c'.insertAll backends).availableBackends } := insertAll_eq _ _
      have hflag : c'.initialized = false :=
        (congrArg (fun c => c.initialized) hkept).trans hset
      have hremote : c'.remoteUrl = "" := by
        have := h.remoteUrl
        rw [hset] at this
        exact (congrArg (fun c => c.remoteUrl) hkept).trans this
      have hpost : c'.postPath = "" := by
        have := h.postPath
        rw [hset] at this
        exact (congrArg (fun c => c.postPath) hkept).trans this
      have hbefore : c'.chosenBackend = d.chosenBackend :=
        congrArg (fun c => c.chosenBackend) hkept
      rw [afterConnect, hnext]
      refine ⟨hentries, ?_, ?_, ?_⟩
      · rw [hrest]
        simp only [hbefore]
        exact hchosen
      · rw [hrest]
        simp only [hflag, hremote]
        rfl
      · rw [hrest]
        simp only [hflag, hpost]
        rfl
    · rw [afterConnect, hnext]
      refine ⟨hentries, ?_, rfl, rfl⟩
      rcases hchoice with rfl | hentry
      · exact hchosen
      · exact .inr (chosen_of_onEntry (fun name b hb => (hentries name b hb).1) hentry)

/-- What a run chooses. -/
theorem chosenFor_cases (d : Device) (options : Options) :
    d.chosenFor options = d.chosenBackend ∨ d.OnEntry (d.chosenFor options) := by
  rw [chosenFor]
  cases hb : ((options.find "ibm-backend").bind d.availableBackends.find).filter
      fun b => b.status with
  | none => exact .inl rfl
  | some b =>
      rw [Option.filter_eq_some_iff, Option.bind_eq_some_iff] at hb
      obtain ⟨⟨name, _, hfind⟩, hon⟩ := hb
      exact .inr ⟨name, hfind, hon⟩

variable {P : Type} [ToString P]

/-- **The step of the invariant**, at a run. -/
theorem wellFormed_afterRun {d : Device} (h : d.WellFormed) (r : Run P) :
    (d.afterRun r).WellFormed := by
  refine ⟨h.entries, ?_, h.remoteUrl, h.postPath⟩
  show d.chosenFor r.options = {} ∨
    d.availableBackends.find (d.chosenFor r.options).name = some (d.chosenFor r.options) ∧
      (d.chosenFor r.options).status = true
  rcases chosenFor_cases d r.options with hsame | hentry
  · rw [hsame]
    exact h.chosen
  · exact .inr (chosen_of_onEntry (fun name b hb => (h.entries name b hb).1) hentry)

/-- **Every history**: the invariant holds after any calls, in any order, that
return or fail. -/
theorem wellFormed_after (history : List (Call P)) : (after history).WellFormed := by
  apply Ledger.invariant_stateAfter Call.next
  · exact wellFormed_fresh
  · intro earlier c later _ h
    cases c with
    | connect a => exact wellFormed_afterConnect h a
    | run r => exact wellFormed_afterRun h r

/-! ## What no call changes -/

/-- One object after another: the entries that were there are there and as
they were, the names stand in front of those that have come, and a set flag
keeps every member of the connection but the choice. -/
structure Extends (d d' : Device) : Prop where
  entries : ∀ name b, d.availableBackends.find name = some b →
    d'.availableBackends.find name = some b
  names : d.kernelNames <+: d'.kernelNames
  connection : d.initialized = true →
    d'.toConnection = { d.toConnection with chosenBackend := d'.chosenBackend }

theorem Extends.refl (d : Device) : d.Extends d := ⟨fun _ _ h => h, List.prefix_rfl, fun _ => rfl⟩

theorem Extends.trans {d d' d'' : Device} (h : d.Extends d') (h' : d'.Extends d'') :
    d.Extends d'' := by
  refine ⟨fun name b hb => h'.entries name b (h.entries name b hb), h.names.trans h'.names, ?_⟩
  intro hset
  have hd := h.connection hset
  have hset' : d'.initialized = true := by
    rw [hd]
    exact hset
  rw [h'.connection hset', hd]

/-- **One call** changes no entry, and forgets no name. -/
theorem extends_next (d : Device) (c : Call P) : d.Extends (c.next d) := by
  cases c with
  | run r =>
      refine ⟨fun _ _ h => h, ?_, fun _ => rfl⟩
      show d.accelerator.kernelNames <+: (r.next d.accelerator).kernelNames
      rw [next_kernelNames]
      exact List.prefix_append _ _
  | connect a =>
      refine ⟨?_, List.prefix_rfl, ?_⟩
      · intro name b hfind
        show (a.next d.toConnection).availableBackends.find name = some b
        obtain ⟨_, hnext⟩ | ⟨_, c', backends, hkept, _, hnext⟩ := a.next_cases d.toConnection
        · rw [hnext]
          exact hfind
        · have hknown : c'.availableBackends = d.availableBackends :=
            congrArg (fun c => c.availableBackends) hkept
          have hinserted : (c'.insertAll backends).availableBackends.find name = some b := by
            rw [find_insertAll, Connection.entry, hknown, hfind, Option.some_or]
          obtain hnext | ⟨_, _, hnext⟩ := hnext
          · rw [hnext]
            exact hinserted
          · rw [hnext]
            exact hinserted
      · intro hset
        show a.next d.toConnection = { d.toConnection with
          chosenBackend := (a.next d.toConnection).chosenBackend }
        rw [Attempt.next_of_ok (a.run_of_initialized hset)]

/-- **Every continuation of a history** changes no entry and forgets no name;
once the flag is set, it changes nothing of the connection but the choice. -/
theorem extends_after (earlier later : List (Call P)) :
    (after earlier).Extends (after (earlier ++ later)) := by
  induction later using List.reverseRecOn with
  | nil =>
      rw [List.append_nil]
      exact Extends.refl _
  | append_singleton later c ih =>
      rw [← List.append_assoc, after_concat]
      exact ih.trans (extends_next _ c)

/-- **Every history of one object**, whatever its calls return: what was known
of the account and its backends stays true and is kept, all that is known fits
together, and the chosen backend is the default one or one that is on. -/
theorem history_keeps (earlier later : List (Call P)) :
    (after (earlier ++ later)).WellFormed ∧ (after earlier).Extends (after (earlier ++ later)) :=
  ⟨wellFormed_after (earlier ++ later), extends_after earlier later⟩

end Device

end XaccIbm
