import XaccIbm.IBMAccelerator.Effects

/-!
# IBMAccelerator — Results

What a run that completes has stored. One result goes to the caller's
buffer, several go to buffers of their own, and each of those is decoded for
what `measurementSupports` has under its number: what was there before the
run, and then what the run's own kernel measured.
-/

namespace XaccIbm

open Decode

namespace IBMAccelerator

open Session

def withoutSupports (acc : IBMAccelerator) : IBMAccelerator :=
  { acc with measurementSupports := ∅ }

/-- What the results are stored by; a read of `measurementSupports` may add
an empty entry, which no later read can tell. -/
def view (s : Session) : IBMAccelerator × AcceleratorBuffer × (Nat → List Nat) :=
  (withoutSupports s.acc, s.buffer, fun k => s.acc.measurementSupports.getD k [])

/-- The caller's buffer with what the chosen backend attaches. -/
def calibrated (backend : IBMBackend) (b : AcceleratorBuffer) :
    AcceleratorBuffer :=
  if backend.isSimulator then b
  else { b with info := b.info ++ backend.calibration }

theorem attachCalibration_eq (s : Session) :
    attachCalibration s
      = .ok () { s with buffer := calibrated s.acc.chosenBackend s.buffer } := by
  rw [attachCalibration, Exec.bind_apply, Exec.get_apply]
  cases hsim : s.acc.chosenBackend.isSimulator with
  | true => simp [calibrated, hsim]
  | false =>
      simp only [calibrated, hsim, onBuffer]
      simp [IBMBackend.calibration, AcceleratorBuffer.addExtraInfo]

theorem readSupports_eq (i : Nat) (s : Session) :
    readSupports i s = .ok (s.acc.measurementSupports.getD i [])
      { s with acc := { s.acc with
        measurementSupports := s.acc.measurementSupports.insert i [] } } := rfl

/-- A buffer that holds a result, for a name and measured qubits. -/
def Stores (isSimulator : Bool) (size : Nat) (name : String)
    (supports : List Nat) (qasm : Json) (b : AcceleratorBuffer) : Prop :=
  ∃ time counts decoded, resultTime qasm = some time ∧
    rawCounts qasm = some counts ∧
    decodeTable (decodeBatch isSimulator size supports) counts = some decoded ∧
    b = (({ name := name, size := size } : AcceleratorBuffer).addExtraInfo "time"
      (.num time)).appendAll decoded

theorem storeResult_keeps (i : Nat) (qasm : Json) :
    Exec.Keeps view (storeResult i qasm) := by
  have hread : Exec.Keeps view (readSupports i) := by
    intro s
    rw [readSupports_eq, Exec.after_ok]
    simp [view, withoutSupports]
  have hcreate : ∀ name size,
      Exec.Keeps view (createBuffer name size : Exec Session AcceleratorBuffer) :=
    fun name size => .ite (.pure _) (.throw _)
  exact .bind .get fun _ => .bind hread fun _ => .bind (.demand _) fun _ =>
    .bind (hcreate _ _) fun _ => .bind (.demand _) fun _ =>
      .bind (.demand _) fun _ => .bind (.demand _) fun _ => .pure _

theorem storeResults_keeps (i : Nat) (qasms : List Json) :
    Exec.Keeps view (storeResults i qasms) := by
  induction qasms generalizing i with
  | nil => exact .pure _
  | cons qasm rest ih =>
      exact .bind (storeResult_keeps i qasm) fun _ => .bind (ih (i + 1)) fun _ =>
        .pure _

theorem storeResult_ok {i : Nat} {qasm : Json} {s s' : Session}
    {b : AcceleratorBuffer} (h : storeResult i qasm s = .ok b s') :
    ∃ name, s.acc.kernelNames[i]? = some name ∧
      Stores s.acc.chosenBackend.isSimulator s.buffer.size name
        (s.acc.measurementSupports.getD i []) qasm b := by
  rw [storeResult, Exec.get_bind, Exec.bind_of_ok (readSupports_eq _ _)] at h
  obtain ⟨name, hname, h⟩ := Exec.demand_bind_ok.mp h
  obtain ⟨_, h⟩ := createBuffer_bind_ok.mp h
  obtain ⟨time, htime, h⟩ := Exec.demand_bind_ok.mp h
  obtain ⟨counts, hcounts, h⟩ := Exec.demand_bind_ok.mp h
  obtain ⟨decoded, hdecoded, h⟩ := Exec.demand_bind_ok.mp h
  cases h
  exact ⟨name, hname, time, counts, decoded, htime, hcounts, hdecoded, rfl⟩

/-- **Several results**: each under its own number. -/
theorem storeResults_ok {i : Nat} {qasms : List Json} {s s' : Session}
    {bs : List AcceleratorBuffer} (h : storeResults i qasms s = .ok bs s') :
    bs.length = qasms.length ∧
      ∀ (j : Nat) qasm b, qasms[j]? = some qasm → bs[j]? = some b →
        ∃ name, s.acc.kernelNames[i + j]? = some name ∧
          Stores s.acc.chosenBackend.isSimulator s.buffer.size name
            (s.acc.measurementSupports.getD (i + j) []) qasm b := by
  induction qasms generalizing i s bs with
  | nil =>
      cases h
      exact ⟨rfl, fun j qasm b h => by simp at h⟩
  | cons qasm rest ih =>
      rw [storeResults, Exec.bind_ok] at h
      obtain ⟨b, s1, hb, h⟩ := h
      rw [Exec.bind_ok] at h
      obtain ⟨bs', s2, hbs, h⟩ := h
      cases h
      have hview := (storeResult_keeps i qasm).of_ok hb
      have hnames : s1.acc.kernelNames = s.acc.kernelNames :=
        congrArg (fun v => v.1.kernelNames) hview
      have hchosen : s1.acc.chosenBackend = s.acc.chosenBackend :=
        congrArg (fun v => v.1.chosenBackend) hview
      have hbuf : s1.buffer = s.buffer := congrArg (fun v => v.2.1) hview
      have hsup : ∀ k, s1.acc.measurementSupports.getD k []
          = s.acc.measurementSupports.getD k [] :=
        congrFun (congrArg (fun v => v.2.2) hview)
      obtain ⟨hlen, hall⟩ := ih hbs
      refine ⟨by simp [hlen], fun j q b' hq hb' => ?_⟩
      cases j with
      | zero =>
          cases hq
          cases hb'
          exact storeResult_ok hb
      | succ j =>
          obtain ⟨name, hname, hst⟩ := hall j q b' (by simpa using hq)
            (by simpa using hb')
          rw [hnames, Nat.add_assoc, Nat.add_comm 1 j] at hname
          rw [hchosen, hbuf, hsup, Nat.add_assoc, Nat.add_comm 1 j] at hst
          exact ⟨name, hname, hst⟩

/-- **One result**: the caller's buffer gets the strings as they come, the
time and the first of the names. -/
theorem storeAlone_ok {qasm : Json} {s s' : Session}
    {bs : List AcceleratorBuffer} (h : storeAlone qasm s = .ok bs s') :
    bs = [] ∧ s'.acc = s.acc ∧ ∃ counts time kernel,
      rawCounts qasm = some counts ∧ resultTime qasm = some time ∧
      s.acc.kernelNames.head? = some kernel ∧
      s'.buffer = calibrated s.acc.chosenBackend
        { s.buffer with
          measurements := s.buffer.measurements ++ counts.map fun e =>
            (decodeAlone s.acc.chosenBackend.isSimulator e.1, e.2)
          info := s.buffer.info ++ [("time", .num time), ("kernel", .str kernel)] } := by
  rw [storeAlone, Exec.get_bind] at h
  obtain ⟨counts, hcounts, h⟩ := Exec.demand_bind_ok.mp h
  rw [onBuffer, Exec.modify_bind] at h
  obtain ⟨time, htime, h⟩ := Exec.demand_bind_ok.mp h
  rw [onBuffer, Exec.modify_bind] at h
  obtain ⟨kernel, hkernel, h⟩ := Exec.demand_bind_ok.mp h
  rw [onBuffer, Exec.modify_bind, Exec.bind_of_ok (attachCalibration_eq _)] at h
  cases h
  refine ⟨rfl, rfl, counts, time, kernel, hcounts, htime, hkernel, ?_⟩
  simp [AcceleratorBuffer.appendAll_eq, AcceleratorBuffer.addExtraInfo]

theorem storeSeveral_ok {qasms : List Json} {s s' : Session}
    {bs : List AcceleratorBuffer} (h : storeSeveral qasms s = .ok bs s') :
    withoutSupports s'.acc = withoutSupports s.acc ∧
      s'.buffer = calibrated s.acc.chosenBackend s.buffer ∧
      bs.length = qasms.length ∧
      ∀ (j : Nat) qasm b, qasms[j]? = some qasm → bs[j]? = some b →
        ∃ name, s.acc.kernelNames[j]? = some name ∧
          Stores s.acc.chosenBackend.isSimulator s.buffer.size name
            (s.acc.measurementSupports.getD j []) qasm b := by
  rw [storeSeveral, Exec.bind_ok] at h
  obtain ⟨_, s1, hcal, h⟩ := h
  rw [attachCalibration_eq] at hcal
  cases hcal
  have hview := (storeResults_keeps 0 qasms).of_ok h
  have hsize : (calibrated s.acc.chosenBackend s.buffer).size = s.buffer.size := by
    unfold calibrated
    split <;> rfl
  obtain ⟨hlen, hall⟩ := storeResults_ok h
  refine ⟨congrArg (fun v => v.1) hview, congrArg (fun v => v.2.1) hview, hlen, ?_⟩
  intro j qasm b hq hb
  obtain ⟨name, hname, hst⟩ := hall j qasm b hq hb
  rw [Nat.zero_add] at hname hst
  simp only [hsize] at hst
  exact ⟨name, hname, hst⟩

/-- **Storing the results of a job**: the accelerator is as it was, without
its `measurementSupports`; the results went one of the two ways. -/
theorem storeJob_ok {qasms : List Json} {s s' : Session}
    {bs : List AcceleratorBuffer} (h : storeJob qasms s = .ok bs s') :
    s'.acc = withoutSupports s.acc ∧
      ((∃ qasm s1, qasms = [qasm] ∧ storeAlone qasm s = .ok bs s1 ∧
          s'.buffer = s1.buffer) ∨
        (qasms.length ≠ 1 ∧ ∃ s1, storeSeveral qasms s = .ok bs s1 ∧
          s'.buffer = s1.buffer)) := by
  rw [storeJob, Exec.bind_ok] at h
  obtain ⟨bs', s1, hstore, h⟩ := h
  rw [Exec.bind_ok] at h
  obtain ⟨_, s2, hclear, h⟩ := h
  cases hclear
  cases h
  unfold storeResultsOf at hstore
  split at hstore
  · rename_i qasm
    have hacc := (storeAlone_ok hstore).2.1
    exact ⟨congrArg withoutSupports hacc, .inl ⟨qasm, s1, rfl, hstore, rfl⟩⟩
  · rename_i hne
    have hacc := (storeSeveral_ok hstore).1
    refine ⟨hacc, .inr ⟨?_, s1, hstore, rfl⟩⟩
    intro hlen
    obtain ⟨qasm, rfl⟩ := List.length_eq_one_iff.mp hlen
    exact hne qasm rfl

theorem onBuffer_keeps (f : AcceleratorBuffer → AcceleratorBuffer) :
    Exec.Keeps Session.acc (onBuffer f) :=
  .modify fun _ => rfl

theorem attachCalibration_keeps : Exec.Keeps Session.acc attachCalibration := by
  intro s
  rw [attachCalibration_eq]
  rfl

/-- What storing leaves alone until it clears `measurementSupports`. -/
def readable (s : Session) : IBMAccelerator × (Nat → List Nat) :=
  (withoutSupports s.acc, fun k => s.acc.measurementSupports.getD k [])

theorem readable_of_acc {α : Type} {x : Exec Session α}
    (h : Exec.Keeps Session.acc x) : Exec.Keeps readable x :=
  h.sub fun acc =>
    (withoutSupports acc, fun k => acc.measurementSupports.getD k [])

theorem storeResultsOf_keeps (qasms : List Json) :
    Exec.Keeps readable (storeResultsOf qasms) := by
  have hseveral : Exec.Keeps readable (storeSeveral qasms) :=
    .bind (readable_of_acc attachCalibration_keeps) fun _ =>
      (storeResults_keeps 0 qasms).sub fun v => (v.1, v.2.2)
  unfold storeResultsOf
  split
  · exact readable_of_acc (.bind .get fun _ => .bind (.demand _) fun _ =>
      .bind (onBuffer_keeps _) fun _ => .bind (.demand _) fun _ =>
        .bind (onBuffer_keeps _) fun _ => .bind (.demand _) fun _ =>
          .bind (onBuffer_keeps _) fun _ => .bind attachCalibration_keeps fun _ =>
            .pure _)
  · exact hseveral

/-- A job that is not stored leaves every entry of `measurementSupports`. -/
theorem storeJob_error {qasms : List Json} {s s' : Session} {e : Failure}
    (h : storeJob qasms s = .error e s') : readable s' = readable s := by
  rcases Exec.bind_error h with h | ⟨bs, s1, _, h⟩
  · have := storeResultsOf_keeps qasms s
    rwa [h] at this
  · cases h

theorem storeJob_frame (qasms : List Json) :
    Exec.Keeps (fun s : Session => withoutLoop s.acc) (storeJob qasms) :=
  .bind ((storeResultsOf_keeps qasms).sub fun v => withoutLoop v.1) fun _ =>
    .bind (.modify fun _ => rfl) fun _ => .pure _

end IBMAccelerator

/-! ## Whole runs -/

namespace Run

open IBMAccelerator

variable {P : Type}

/-- Everything after `processInput` until the results are stored. -/
theorem rest_keeps (r : Run P) (text : String) :
    Exec.Keeps kept (do
      let response ← Exec.reply (r.post text)
      awaitJob response) :=
  .bind (.reply _) fun _ => awaitJob_keeps _

variable [ToString P]

/-- The run returns, and these are the results it stored. -/
def Completes (r : Run P) (acc : IBMAccelerator) (qasms : List Json)
    (bs : List AcceleratorBuffer) (s' : Session) : Prop :=
  ∃ s, r.awaited (r.start acc) = .ok qasms s ∧ storeJob qasms s = .ok bs s'

theorem execute_apply (r : Run P) (s : Session) :
    r.execute s = (r.awaited >>= storeJob) s := by
  simp only [execute, awaited, processResponse, Exec.bind_apply]
  cases processInput r.options r.pulseLibrary r.functions s with
  | error e s1 => rfl
  | ok text s1 =>
      simp only
      cases (Exec.reply (r.post text) : Exec Session String) s1 <;> rfl

theorem execute_ok {r : Run P} {acc : IBMAccelerator}
    {bs : List AcceleratorBuffer} {s' : Session} :
    r.execute (r.start acc) = .ok bs s' ↔ ∃ qasms, r.Completes acc qasms bs s' := by
  rw [execute_apply, Exec.bind_ok]
  rfl

/-- **A run at its results**: what the caller and the options decided, the
names so far with the run's own behind them, and under each number what was
there with the measured qubits of the run's own kernel behind it. -/
theorem awaited_ok {r : Run P} {acc : IBMAccelerator} {qasms : List Json}
    {s : Session} (h : r.awaited (r.start acc) = .ok qasms s) :
    s.buffer = r.buffer ∧ withoutLoop s.acc = withoutLoop (choose r.options acc) ∧
      s.acc.kernelNames = acc.kernelNames ++ r.functions.map Kernel.name ∧
      ∀ k, s.acc.measurementSupports.getD k []
        = acc.measurementSupports.getD k [] ++
          (r.functions[k]?.map Kernel.measuredQubits).getD [] := by
  rw [awaited, Exec.bind_ok] at h
  obtain ⟨text, s1, hin, h⟩ := h
  have hkept := (rest_keeps r text).of_ok h
  have hacc : s.acc = s1.acc := congrArg Prod.fst hkept
  have hbuf : s.buffer = s1.buffer := congrArg Prod.snd hkept
  have hframe := processInput_frame r.options r.pulseLibrary r.functions
    (r.start acc)
  have hnames := (processInput_ok hin).2.2
  rw [hin, Exec.after_ok] at hframe
  refine ⟨?_, ?_, ?_, ?_⟩
  · rw [hbuf]
    exact congrArg Prod.snd hframe
  · rw [hacc]
    exact congrArg Prod.fst hframe
  · rw [hacc, hnames]
    rfl
  · intro k
    rw [hacc]
    exact processInput_entries hin k

theorem awaited_admitted {r : Run P} {acc : IBMAccelerator}
    {qasms : List Json} {s : Session}
    (h : r.awaited (r.start acc) = .ok qasms s) :
    admitted acc r.options r.functions = true := by
  rw [awaited, Exec.bind_ok] at h
  obtain ⟨text, s1, hin, _⟩ := h
  exact (processInput_ok hin).1

/-- The options decide the chosen backend, whichever way the run ends. -/
theorem execute_frame (r : Run P) (acc : IBMAccelerator) :
    withoutLoop (Exec.after (r.execute (r.start acc))).acc
      = withoutLoop (choose r.options acc) := by
  have hrest : ∀ text, Exec.Keeps (fun s : Session => withoutLoop s.acc) (do
      let response ← Exec.reply (r.post text)
      processResponse response) := fun text =>
    .bind (.reply _) fun _ => .bind ((awaitJob_keeps _).sub fun p =>
      withoutLoop p.1) fun qasms => storeJob_frame qasms
  have hafter := Exec.Keeps.after_bind
    (x := processInput r.options r.pulseLibrary r.functions) hrest (r.start acc)
  have hframe := processInput_frame r.options r.pulseLibrary r.functions
    (r.start acc)
  exact hafter.trans (congrArg Prod.fst hframe)

/-- The accelerator after a run, however it ends. -/
def next (r : Run P) (acc : IBMAccelerator) : IBMAccelerator :=
  (Exec.after (r.execute (r.start acc))).acc

/-- What a run leaves under a number: nothing when it returns, and else what
was there and what the run added before it stopped. -/
theorem execute_after (r : Run P) (acc : IBMAccelerator) (k : Nat) :
    (Exec.after (r.execute (r.start acc))).acc.measurementSupports.getD k []
      = if Exec.succeeds (r.execute (r.start acc)) then [] else
          acc.measurementSupports.getD k [] ++
            writtenQubits acc r.options r.buffer.size r.functions k := by
  have hafter := processInput_after r.options r.pulseLibrary r.functions
    (r.start acc) k
  cases hex : r.execute (r.start acc) with
  | ok bs s' =>
      obtain ⟨qasms, s, _, hstore⟩ := execute_ok.mp hex
      rw [Exec.after_ok, (storeJob_ok hstore).1]
      rfl
  | error e s' =>
      rw [Exec.after_error, Exec.succeeds_error]
      show _ = (r.start acc).acc.measurementSupports.getD k [] ++ _
      have hrest : s'.acc.measurementSupports.getD k []
          = (Exec.after (processInput r.options r.pulseLibrary r.functions
              (r.start acc))).acc.measurementSupports.getD k [] := by
        -- it fails before there are results, or in storing them; neither writes an entry
        rw [execute_apply] at hex
        rcases Exec.bind_error hex with hex | ⟨qasms, s, hex, hstore⟩
        · have hkeep := Exec.Keeps.after_bind
            (x := processInput r.options r.pulseLibrary r.functions)
            (rest_keeps r) (r.start acc)
          rw [← awaited, hex] at hkeep
          exact congrArg (fun p => p.1.measurementSupports.getD k []) hkeep
        · have hkeep := Exec.Keeps.after_bind
            (x := processInput r.options r.pulseLibrary r.functions)
            (rest_keeps r) (r.start acc)
          rw [← awaited, hex] at hkeep
          have hread := congrArg (fun v => v.2 k) (storeJob_error hstore)
          exact hread.trans
            (congrArg (fun p => p.1.measurementSupports.getD k []) hkeep)
      rw [hrest, hafter]
      rfl

/-- Whether a run returns, with results and an end of which `p` holds. -/
def ends (r : Run P) (acc : IBMAccelerator)
    (p : List Json → List AcceleratorBuffer → Session → Bool) : Bool :=
  match r.awaited (r.start acc) with
  | .error _ _ => false
  | .ok qasms s =>
      match storeJob qasms s with
      | .error _ _ => false
      | .ok bs s' => p qasms bs s'

theorem completes_of_ends {r : Run P} {acc : IBMAccelerator}
    {p : List Json → List AcceleratorBuffer → Session → Bool}
    (h : r.ends acc p = true) :
    ∃ qasms bs s', r.Completes acc qasms bs s' ∧ p qasms bs s' = true ∧
      s' = Exec.after (r.execute (r.start acc)) := by
  rw [ends] at h
  cases hawaited : r.awaited (r.start acc) with
  | error e s =>
      rw [hawaited] at h
      cases h
  | ok qasms s =>
      rw [hawaited] at h
      simp only at h
      cases hstore : storeJob qasms s with
      | error e s' =>
          rw [hstore] at h
          cases h
      | ok bs s' =>
          rw [hstore] at h
          have hr : r.Completes acc qasms bs s' := ⟨s, hawaited, hstore⟩
          refine ⟨qasms, bs, s', hr, h, ?_⟩
          rw [execute_ok.mpr ⟨qasms, hr⟩, Exec.after_ok]

/-! ## A service that answers at once -/

/-- One result, from the text of its counts. -/
def resultText (counts : String) : String :=
  "\x7b\"result\": \x7b\"data\": \x7b\"time\": 1, \"counts\": \x7b" ++ counts ++
    "\x7d\x7d\x7d\x7d"

/-- The document of a completed job. -/
def jobText (results : String) : String :=
  "\x7b\"status\": \"COMPLETED\", \"qasms\": [" ++ results ++ "]\x7d"

/-- A run on a fresh buffer of two qubits; `devices` are the replies about
the device, and the job is completed when it is first asked for. -/
def ask (options : Options) (functions : List (Kernel String))
    (devices : List String) (results : String) : Run String where
  options := options
  pulseLibrary := []
  buffer := { name := "q", size := 2 }
  functions := functions
  post := fun _ => .ok "\x7b\"id\": \"1\"\x7d"
  replies := (devices.map fun text _ _ => .ok text) ++
    [fun _ _ => .ok "", fun _ _ => .ok (jobText results)]

/-- A kernel that measures qubit 0. -/
def measureFirst (name : String) : Kernel String :=
  .gates ⟨name, true, [.leaf true (.measure 0 0)]⟩

end Run

end XaccIbm
