import XaccIbm.IBMAccelerator.JobText
import XaccIbm.IBMAccelerator.Results

/-!
# IBMAccelerator — Backends

Which backend a response is decoded for. The job is written for the backend
of the option, or for the default one; the response is decoded for the
chosen backend, which the option sets and its absence does not. The two
differ where a run without the option follows a physical choice.
-/

namespace XaccIbm

open IBMAccelerator

/-- How a response is decoded: as a simulator's, or as a physical device's
with this calibration data. -/
def IBMBackend.decoding (b : IBMBackend) : Option (List (String × ExtraInfo)) :=
  if b.isSimulator then none else some b.calibration

theorem IBMBackend.decoding_eq_none {b : IBMBackend} :
    b.decoding = none ↔ b.isSimulator = true := by
  unfold decoding
  split <;> simp [*]

namespace IBMAccelerator

variable {P : Type}

/-- A run that is admitted with the option set has chosen the backend of its
job. -/
theorem admitted_backend {acc : IBMAccelerator} {options : Options}
    {functions : List (Kernel P)} (h : admitted acc options functions = true) :
    options.find "ibm-backend" = none ∨
      acc.availableBackends.find (jobBackend options)
        = some (choose options acc).chosenBackend := by
  rw [admitted, Bool.and_eq_true, Bool.or_eq_true, Option.isNone_iff_eq_none] at h
  rcases h.1 with hnone | hsome
  · exact .inl hnone
  · obtain ⟨backend, hb⟩ := Option.isSome_iff_exists.mp hsome
    have hchosen : (choose options acc).chosenBackend = backend := by
      rw [choose]
      simp only [hb, Option.getD_some]
    rw [optionBackend, Option.filter_eq_some_iff, Option.bind_eq_some_iff] at hb
    obtain ⟨⟨name, hname, hfind⟩, _⟩ := hb
    refine .inr ?_
    rw [jobBackend, hname, Option.getD_some, hchosen, hfind]

variable [ToString P]

/-- The name at the end of a job's text. -/
theorem processInput_backend {options : Options}
    {pulseLibrary : List (String × String)} {functions : List (Kernel P)}
    {s s' : Session} {text : String}
    (h : processInput options pulseLibrary functions s = .ok text s') :
    ∃ front, text = front ++ backendText (jobBackend options) := by
  obtain ⟨texts, _, rfl⟩ := processInput_text h
  split
  · exact ⟨_, rfl⟩
  · exact ⟨_, rfl⟩

end IBMAccelerator

namespace Run

variable {P : Type} [ToString P]

/-- **A response is decoded for the backend of its job**: the job's text ends
with the name of a known backend, and the chosen backend decodes as it. -/
def DecodesForJob (r : Run P) (acc : IBMAccelerator) : Prop :=
  ∀ qasms s, r.awaited (r.start acc) = .ok qasms s →
    ∃ front s1 backend,
      processInput r.options r.pulseLibrary r.functions (r.start acc)
        = .ok (front ++ backendText (jobBackend r.options)) s1 ∧
      acc.availableBackends.find (jobBackend r.options) = some backend ∧
      s.acc.chosenBackend.decoding = backend.decoding

/-- The chosen backend after runs: the last one an option has set. -/
def lastChosen (backends : StdMap String IBMBackend) (initial : IBMBackend)
    (runs : List (Run P)) : IBMBackend :=
  runs.foldl (fun b r => (optionBackend backends r.options).getD b) initial

omit [ToString P] in
/-- The default backend is known, and it is a simulator. -/
def KnowsSimulator (acc : IBMAccelerator) : Prop :=
  ∃ backend, acc.availableBackends.find defaultBackend = some backend ∧
    backend.isSimulator = true

/-- **One run**: only without the option can it decode for another backend
than its job's. -/
theorem decodesForJob_iff {r : Run P} {acc : IBMAccelerator}
    (hsim : KnowsSimulator acc) :
    r.DecodesForJob acc ↔ ∀ qasms s, r.awaited (r.start acc) = .ok qasms s →
      r.options.find "ibm-backend" = none →
      acc.chosenBackend.isSimulator = true := by
  have hchosen : ∀ qasms s, r.awaited (r.start acc) = .ok qasms s →
      s.acc.chosenBackend = (choose r.options acc).chosenBackend :=
    fun qasms s h => (backends_of_withoutLoop (awaited_ok h).2.1).1
  have hunset : r.options.find "ibm-backend" = none →
      (choose r.options acc).chosenBackend = acc.chosenBackend ∧
        jobBackend r.options = defaultBackend := by
    intro hnone
    rw [choose, optionBackend, jobBackend, hnone]
    exact ⟨rfl, rfl⟩
  have htext : ∀ qasms s, r.awaited (r.start acc) = .ok qasms s →
      ∃ front s1, processInput r.options r.pulseLibrary r.functions (r.start acc)
        = .ok (front ++ backendText (jobBackend r.options)) s1 := by
    intro qasms s h
    rw [awaited, Exec.bind_ok] at h
    obtain ⟨text, s1, hin, _⟩ := h
    obtain ⟨front, rfl⟩ := processInput_backend hin
    exact ⟨front, s1, hin⟩
  -- without the option the job goes to the default backend, a simulator, and is decoded
  -- for the backend that was chosen before
  obtain ⟨simulator, hfind, hissim⟩ := hsim
  constructor
  · intro h qasms s hawaited hnone
    obtain ⟨_, _, backend, _, hb, hdecoding⟩ := h qasms s hawaited
    obtain ⟨hsame, hdefault⟩ := hunset hnone
    rw [hdefault, hfind] at hb
    cases hb
    rw [hchosen qasms s hawaited, hsame,
      IBMBackend.decoding_eq_none.mpr hissim] at hdecoding
    exact IBMBackend.decoding_eq_none.mp hdecoding
  · intro h qasms s hawaited
    obtain ⟨front, s1, hin⟩ := htext qasms s hawaited
    rw [hchosen qasms s hawaited]
    rcases admitted_backend (awaited_admitted hawaited) with hnone | hset
    · obtain ⟨hsame, hdefault⟩ := hunset hnone
      refine ⟨front, s1, simulator, hin, by rw [hdefault, hfind], ?_⟩
      rw [hsame, IBMBackend.decoding_eq_none.mpr hissim,
        IBMBackend.decoding_eq_none.mpr (h qasms s hawaited hnone)]
    · exact ⟨front, s1, _, hin, hset, rfl⟩

/-- What runs do to the backends: the known ones stay, and the options choose
one. -/
theorem stateAfter_backends (acc : IBMAccelerator) (runs : List (Run P)) :
    (Ledger.stateAfter next acc runs).availableBackends = acc.availableBackends ∧
      (Ledger.stateAfter next acc runs).chosenBackend
        = lastChosen acc.availableBackends acc.chosenBackend runs := by
  induction runs generalizing acc with
  | nil => exact ⟨rfl, rfl⟩
  | cons r rest ih =>
      have hframe := backends_of_withoutLoop (execute_frame r acc)
      have hknown : (next r acc).availableBackends = acc.availableBackends :=
        hframe.2
      have hchosen : (next r acc).chosenBackend
          = (choose r.options acc).chosenBackend := hframe.1
      obtain ⟨hrest, hlast⟩ := ih (next r acc)
      refine ⟨hrest.trans hknown, hlast.trans ?_⟩
      rw [hknown, hchosen]
      rfl

/-- **Backends over a history.** Every response of a history of runs, failed
runs among them, is decoded for the backend of its own job if and only if
every run without the option whose response is decoded comes when the last
backend an option has chosen (before any, the accelerator's first) is a
simulator. -/
theorem history_decodesForJob_iff {acc : IBMAccelerator}
    (hsim : KnowsSimulator acc) (history : List (Run P)) :
    (∀ (earlier : List (Run P)) r later, history = earlier ++ r :: later →
        r.DecodesForJob (Ledger.stateAfter next acc earlier)) ↔
      ∀ (earlier : List (Run P)) r later, history = earlier ++ r :: later →
        ∀ qasms s,
          r.awaited (r.start (Ledger.stateAfter next acc earlier)) = .ok qasms s →
          r.options.find "ibm-backend" = none →
          (lastChosen acc.availableBackends acc.chosenBackend
            earlier).isSimulator = true := by
  have hrun : ∀ (earlier : List (Run P)) (r : Run P),
      r.DecodesForJob (Ledger.stateAfter next acc earlier) ↔ ∀ qasms s,
        r.awaited (r.start (Ledger.stateAfter next acc earlier)) = .ok qasms s →
        r.options.find "ibm-backend" = none →
        (lastChosen acc.availableBackends acc.chosenBackend
          earlier).isSimulator = true := by
    intro earlier r
    obtain ⟨hknown, hlast⟩ := stateAfter_backends acc earlier
    have hsim' : KnowsSimulator (Ledger.stateAfter next acc earlier) := by
      rw [KnowsSimulator, hknown]
      exact hsim
    rw [decodesForJob_iff hsim', hlast]
  exact forall_congr' fun earlier => forall_congr' fun r => forall_congr' fun _ =>
    forall_congr' fun _ => hrun earlier r

/-! ## A device between two jobs for the simulator -/

/-- An accelerator that knows the simulator and one device. -/
def twoBackends : IBMAccelerator where
  availableBackends := ((∅ : StdMap String IBMBackend).set defaultBackend {}).set
    "ibmqx4" { isSimulator := false, gateSet := "SU2+CNOT" }

/-- A run for the device, which is on. -/
def onDevice : Run String :=
  ask ((∅ : Options).set "ibm-backend" "ibmqx4") [measureFirst "foo"]
    ["\x7b\"status\": \"on\"\x7d"] (resultText "\"00001\": 1024")

/-- A run that leaves the option out. -/
def onDefault : Run String :=
  ask ∅ [measureFirst "foo"] [] (resultText "\"1\": 1024")

theorem knowsSimulator_twoBackends : KnowsSimulator twoBackends :=
  ⟨{}, rfl, rfl⟩

/-- After the device, the simulator's response is decoded for the device. -/
theorem onDefault_not_decodesForJob :
    ¬ ∀ (acc : IBMAccelerator) (history : List (Run String)),
        KnowsSimulator acc → ∀ earlier r later,
        history = earlier ++ r :: later →
        r.DecodesForJob (Ledger.stateAfter next acc earlier) := by
  intro h
  have hends : onDefault.ends (Ledger.stateAfter next twoBackends [onDevice])
      (fun _ _ _ => true) = true := by
    decide +kernel
  obtain ⟨qasms, bs, s', ⟨s, hawaited, _⟩, _⟩ := completes_of_ends hends
  obtain ⟨hknown, hlast⟩ := stateAfter_backends twoBackends [onDevice]
  have hsim : KnowsSimulator (Ledger.stateAfter next twoBackends [onDevice]) := by
    rw [KnowsSimulator, hknown]
    exact knowsSimulator_twoBackends
  have hchosen := (decodesForJob_iff hsim).mp (h twoBackends
    [onDevice, onDefault] knowsSimulator_twoBackends [onDevice] onDefault [] rfl)
    qasms s hawaited rfl
  rw [hlast] at hchosen
  exact absurd hchosen (by decide)

/-- The theorem at a run for the simulator and one for the device. -/
theorem decodesForJob_onDevice :
    onDefault.DecodesForJob twoBackends ∧
      onDevice.DecodesForJob (next onDefault twoBackends) := by
  have hall := (history_decodesForJob_iff knowsSimulator_twoBackends
    [onDefault, onDevice]).mpr (by
      intro earlier r later hsplit qasms s _ hnone
      rcases earlier with _ | ⟨x, _ | ⟨y, rest⟩⟩
      · rfl
      · cases hsplit
        cases hnone
      · simp at hsplit)
  exact ⟨hall [] onDefault [onDevice] rfl, hall [onDefault] onDevice [] rfl⟩

end Run

end XaccIbm
