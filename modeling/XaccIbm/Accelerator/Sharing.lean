import XaccIbm.Accelerator.Counts
import XaccIbm.Accelerator.Failures
import XaccIbm.IBMAccelerator.Device
import XaccIbm.Lib.Journal

/-!
# Accelerator — Sharing

Callers who share an accelerator, each with a buffer of its own, in any order
and with calls that fail among those that return. A run writes the strings of
the one result of its job to the buffer it is handed, also when it fails
behind that; no other run writes any, so every buffer has what its own runs
received, each once, and nothing of the others. On the local accelerator the
call for one kernel adds the counts of the buffer it has made.
-/

namespace XaccIbm

open Decode Journal

/-! ## What a run writes -/

namespace IBMAccelerator

open Session

/-- What the results of a job are for the caller's buffer: the table of the one
result there is. -/
def tableOf : List Json → List (String × Int)
  | [qasm] => (rawCounts qasm).getD []
  | _ => []

/-- The entries of a table, as a result alone is decoded. -/
def decodedAlone (isSimulator : Bool) (table : List (String × Int)) : List (String × Int) :=
  table.map fun e => (decodeAlone isSimulator e.1, e.2)

def measurements (s : Session) : List (String × Int) := s.buffer.measurements

theorem calibrated_measurements (backend : IBMBackend) (b : AcceleratorBuffer) :
    (calibrated backend b).measurements = b.measurements := by
  unfold calibrated
  split <;> rfl

theorem attachCalibration_measurements : Exec.Keeps measurements attachCalibration := by
  intro s
  rw [attachCalibration_eq]
  exact calibrated_measurements _ _

theorem addExtraInfo_measurements (key : String) (i : ExtraInfo) :
    Exec.Keeps measurements (onBuffer fun b => b.addExtraInfo key i) :=
  .modify fun _ => rfl

/-- One result: its strings are there, whether or not the rest can be read. -/
theorem storeAlone_measurements (qasm : Json) (s : Session) :
    measurements (Exec.after (storeAlone qasm s))
      = measurements s ++ decodedAlone s.acc.chosenBackend.isSimulator (tableOf [qasm]) := by
  rw [storeAlone, Exec.get_bind]
  cases hcounts : rawCounts qasm with
  | none => simp [Exec.bind_apply, tableOf, hcounts, decodedAlone]
  | some counts =>
      rw [Exec.bind_of_ok (Exec.demand_some counts s), onBuffer, Exec.modify_bind]
      -- behind the strings only the information of the buffer is written
      have hrest : Exec.Keeps measurements _ :=
        .bind (.demand (resultTime qasm)) fun time =>
          .bind (addExtraInfo_measurements "time" (.num time)) fun _ =>
            .bind (.demand s.acc.kernelNames.head?) fun kernel =>
              .bind (addExtraInfo_measurements "kernel" (.str kernel)) fun _ =>
                .bind attachCalibration_measurements fun _ => .pure ([] : List AcceleratorBuffer)
      refine (hrest _).trans ?_
      rw [measurements, AcceleratorBuffer.appendAll_eq, tableOf, hcounts]
      rfl

theorem storeSeveral_measurements (qasms : List Json) :
    Exec.Keeps measurements (storeSeveral qasms) :=
  .bind attachCalibration_measurements fun _ =>
    (storeResults_keeps 0 qasms).sub fun v => v.2.1.measurements

/-- **Storing the results of a job** writes the strings of a result alone. -/
theorem storeJob_measurements (qasms : List Json) (s : Session) :
    measurements (Exec.after (storeJob qasms s))
      = measurements s ++ decodedAlone s.acc.chosenBackend.isSimulator (tableOf qasms) := by
  have hclear : ∀ bs : List AcceleratorBuffer, Exec.Keeps measurements (do
      clearSupports
      pure bs) := fun bs => .bind (.modify fun _ => rfl) fun _ => .pure bs
  have hnone : decodedAlone s.acc.chosenBackend.isSimulator [] = [] := rfl
  refine (Exec.Keeps.after_bind hclear s).trans ?_
  match qasms with
  | [] =>
      rw [tableOf, hnone, List.append_nil]
      · exact storeSeveral_measurements [] s
      · simp
  | [qasm] => exact storeAlone_measurements qasm s
  | qasm :: qasm' :: rest =>
      rw [tableOf, hnone, List.append_nil]
      · exact storeSeveral_measurements (qasm :: qasm' :: rest) s
      · simp

/-- What tells a buffer from others. -/
def labels (s : Session) : String × Nat := (s.buffer.name, s.buffer.size)

theorem onBuffer_labels {f : AcceleratorBuffer → AcceleratorBuffer}
    (h : ∀ b, ((f b).name, (f b).size) = (b.name, b.size)) : Exec.Keeps labels (onBuffer f) :=
  .modify fun s => h s.buffer

theorem attachCalibration_labels : Exec.Keeps labels attachCalibration := by
  intro s
  rw [attachCalibration_eq, Exec.after_ok, labels, calibrated]
  split <;> rfl

theorem storeJob_labels (qasms : List Json) : Exec.Keeps labels (storeJob qasms) := by
  have hof : Exec.Keeps labels (storeResultsOf qasms) := by
    unfold storeResultsOf
    split
    · exact .bind .get fun _ => .bind (.demand _) fun _ =>
        .bind (onBuffer_labels fun b => by rw [AcceleratorBuffer.appendAll_eq]) fun _ =>
          .bind (.demand _) fun _ => .bind (onBuffer_labels fun _ => rfl) fun _ =>
            .bind (.demand _) fun _ => .bind (onBuffer_labels fun _ => rfl) fun _ =>
              .bind attachCalibration_labels fun _ => .pure _
    · exact .bind attachCalibration_labels fun _ =>
        (storeResults_keeps 0 qasms).sub fun v => (v.2.1.name, v.2.1.size)
  exact .bind hof fun _ => .bind (.modify fun _ => rfl) fun _ => .pure _

end IBMAccelerator

namespace Run

open IBMAccelerator

variable {P : Type} [ToString P]

/-- The table that the caller's buffer receives of a run. -/
def received (r : Run P) (acc : IBMAccelerator) : List (String × Int) :=
  match r.awaited (r.start acc) with
  | .ok qasms _ => tableOf qasms
  | .error _ _ => []

/-- The strings it is written with. -/
def appended (r : Run P) (acc : IBMAccelerator) : List (String × Int) :=
  decodedAlone (choose r.options acc).chosenBackend.isSimulator (r.received acc)

theorem awaited_buffer (r : Run P) (acc : IBMAccelerator) :
    (Exec.after (r.awaited (r.start acc))).buffer = r.buffer := by
  have hrest : ∀ text, Exec.Keeps Session.buffer (do
      let response ← Exec.reply (r.post text)
      awaitJob response) := fun text => (r.rest_keeps text).sub Prod.snd
  refine (Exec.Keeps.after_bind hrest (r.start acc)).trans ?_
  exact congrArg Prod.snd
    (processInput_frame r.options r.pulseLibrary r.functions (r.start acc))

/-- **One run**, however it ends, writes what it has received, once. -/
theorem execute_measurements (r : Run P) (acc : IBMAccelerator) :
    (Exec.after (r.execute (r.start acc))).buffer.measurements
      = r.buffer.measurements ++ r.appended acc := by
  have hbuffer := r.awaited_buffer acc
  rw [execute_apply, Exec.bind_apply, appended, received]
  cases h : r.awaited (r.start acc) with
  | error e s =>
      rw [h, Exec.after_error] at hbuffer
      rw [Exec.after_error, hbuffer]
      exact (List.append_nil _).symm
  | ok qasms s =>
      rw [h, Exec.after_ok] at hbuffer
      have hchosen := congrArg (fun a => a.chosenBackend) (awaited_ok h).2.1
      simp only [withoutLoop] at hchosen
      rw [← hchosen, ← hbuffer]
      exact storeJob_measurements qasms s

theorem execute_labels (r : Run P) (acc : IBMAccelerator) :
    labels (Exec.after (r.execute (r.start acc))) = (r.buffer.name, r.buffer.size) := by
  have hrest : ∀ qasms, Exec.Keeps labels (storeJob qasms) := storeJob_labels
  rw [execute_apply]
  refine (Exec.Keeps.after_bind hrest (r.start acc)).trans ?_
  rw [labels, r.awaited_buffer acc]

end Run

/-! ## Callers of one object -/

namespace Call

open IBMAccelerator

variable {P : Type} [ToString P]

/-- A call by a caller with a buffer: a run is handed the buffer. -/
def step (c : Call P) (d : Device) (b : AcceleratorBuffer) : Device × AcceleratorBuffer :=
  match c with
  | connect a => (d.afterConnect a, b)
  | run r =>
      let r := { r with buffer := b }
      (d.afterRun r, (Exec.after (r.execute (r.start d.accelerator))).buffer)

/-- The table that the buffer receives. -/
def received (c : Call P) (d : Device) (b : AcceleratorBuffer) : List (String × Int) :=
  match c with
  | connect _ => []
  | run r => Run.received { r with buffer := b } d.accelerator

/-- The strings it is written with. -/
def appended (c : Call P) (d : Device) (b : AcceleratorBuffer) : List (String × Int) :=
  match c with
  | connect _ => []
  | run r => Run.appended { r with buffer := b } d.accelerator

theorem step_measurements (c : Call P) (d : Device) (b : AcceleratorBuffer) :
    (c.step d b).2.measurements = b.measurements ++ c.appended d b := by
  cases c with
  | connect a => exact (List.append_nil _).symm
  | run r => exact Run.execute_measurements { r with buffer := b } d.accelerator

theorem step_labels (c : Call P) (d : Device) (b : AcceleratorBuffer) :
    ((c.step d b).2.name, (c.step d b).2.size) = (b.name, b.size) := by
  cases c with
  | connect a => rfl
  | run r => exact Run.execute_labels { r with buffer := b } d.accelerator

/-- No count is lost or made up by decoding. -/
theorem total_appended (c : Call P) (d : Device) (b : AcceleratorBuffer) :
    Tally.total (c.appended d b) = Tally.total (c.received d b) := by
  cases c with
  | connect a => rfl
  | run r => exact Tally.mass_map _ _ _

end Call

namespace Device

variable {P ι : Type} [ToString P] [DecidableEq ι]

/-- **Buffers of callers who share the object.** Whatever calls they make, in
any order, logins and calls that fail among them: a buffer keeps its name and
its size, and has the strings its own runs received, in order and each once. So
its total is what it was and what its own runs received. -/
theorem buffers_shared (d : Device) (buffers : ι → AcceleratorBuffer)
    (uses : List (ι × Call P)) (i : ι) :
    ((Journal.after Call.step ⟨d, buffers⟩ uses).record i).name = (buffers i).name ∧
      ((Journal.after Call.step ⟨d, buffers⟩ uses).record i).size = (buffers i).size ∧
      ((Journal.after Call.step ⟨d, buffers⟩ uses).record i).measurements
        = (buffers i).measurements ++
          (along Call.step Call.appended i ⟨d, buffers⟩ uses).flatten ∧
      ((Journal.after Call.step ⟨d, buffers⟩ uses).record i).total
        = (buffers i).total + (along Call.step (fun c d b => Tally.total (c.received d b)) i
            ⟨d, buffers⟩ uses).sum := by
  have hlabels := Journal.part_after Call.step (fun b => (b.name, b.size))
    Call.step_labels ⟨d, buffers⟩ uses i
  have hentries := Journal.entries_after Call.step Call.step_measurements ⟨d, buffers⟩ uses i
  refine ⟨congrArg Prod.fst hlabels, congrArg Prod.snd hlabels, hentries, ?_⟩
  rw [AcceleratorBuffer.total, Tally.total, hentries, Tally.mass_append, Tally.mass_flatten,
    Journal.map_along]
  have htotal : (fun (c : Call P) d b => Tally.mass (fun _ => True) (c.appended d b))
      = fun c d b => Tally.total (c.received d b) :=
    funext fun c => funext fun d => funext fun b => c.total_appended d b
  rw [htotal]
  rfl

end Device

/-! ## Callers of the local accelerator -/

namespace LocalIBMAccelerator

variable {P : Type} [ToString P]

/-- What the framework's `getMeasurementCounts` makes of the measurements that
were appended: as many of each string, and no negative number of any. -/
structure Recounts (getMeasurementCounts : List (String × Int) → List (String × Int)) :
    Prop where
  count : ∀ calls t, Tally.mass (· = t) (getMeasurementCounts calls) = Tally.mass (· = t) calls
  nonneg : ∀ calls, (∀ e ∈ calls, 0 ≤ e.2) → ∀ e ∈ getMeasurementCounts calls, 0 ≤ e.2

theorem Recounts.collect : Recounts (Tally.collect (κ := String)) where
  count := Tally.count_collect
  nonneg := by
    intro calls hcalls e he
    obtain ⟨k, _, rfl⟩ := List.mem_map.mp he
    exact Tally.mass_nonneg (· = k) hcalls

/-- The two forms of `execute`; the buffer is that of the caller. -/
inductive Use (P : Type) where
  | several (simulator : Json → Except String String) (options : Options)
      (functions : List (Function (Gate P)))
  | one (simulator : Json → Except String String) (options : Options)
      (kernel : Function (Gate P))

namespace Use

variable (getMeasurementCounts : List (String × Int) → List (String × Int))

/-- A call by a caller with a buffer. -/
def step (u : Use P) (s : LocalIBMAccelerator) (b : AcceleratorBuffer) :
    LocalIBMAccelerator × AcceleratorBuffer :=
  match u with
  | several simulator options functions =>
      (Exec.after (LocalIBMAccelerator.execute simulator options b.size functions s), b)
  | one simulator options kernel =>
      match executeOne getMeasurementCounts simulator options b kernel s with
      | .ok b' s' => (s', b')
      | .error _ s' => (s', b)

/-- The measurements of the buffer that a call for one kernel makes. -/
def made (u : Use P) (s : LocalIBMAccelerator) (b : AcceleratorBuffer) : List (String × Int) :=
  match u with
  | several _ _ _ => []
  | one simulator options kernel =>
      match LocalIBMAccelerator.execute simulator options b.size [kernel] s with
      | .ok (b' :: _) _ => b'.measurements
      | _ => []

/-- The strings that the caller's buffer is written with. -/
def appended (u : Use P) (s : LocalIBMAccelerator) (b : AcceleratorBuffer) :
    List (String × Int) :=
  match u with
  | several _ _ _ => []
  | one simulator options kernel =>
      match LocalIBMAccelerator.execute simulator options b.size [kernel] s with
      | .ok (b' :: _) _ => (getMeasurementCounts b'.measurements).flatMap fun e =>
          List.replicate e.2.toNat (e.1, 1)
      | _ => []

theorem step_one (simulator : Json → Except String String) (options : Options)
    (kernel : Function (Gate P)) (s : LocalIBMAccelerator) (b : AcceleratorBuffer) :
    (step getMeasurementCounts (one simulator options kernel) s b).2
      = { b with measurements := b.measurements
            ++ appended getMeasurementCounts (one simulator options kernel) s b } := by
  rw [step, appended, executeOne, Exec.bind_apply]
  cases LocalIBMAccelerator.execute simulator options b.size [kernel] s with
  | error e s' => simp
  | ok bs s' =>
      cases bs with
      | nil => simp [Exec.bind_apply]
      | cons b' bs =>
          simp only [List.head?_cons, Exec.bind_apply, Exec.demand_some, Exec.pure_apply]
          rw [AcceleratorBuffer.appendEach, AcceleratorBuffer.appendAll_eq]

theorem step_measurements (u : Use P) (s : LocalIBMAccelerator) (b : AcceleratorBuffer) :
    (u.step getMeasurementCounts s b).2.measurements
      = b.measurements ++ u.appended getMeasurementCounts s b := by
  cases u with
  | several simulator options functions => exact (List.append_nil _).symm
  | one simulator options kernel => rw [step_one]

theorem step_labels (u : Use P) (s : LocalIBMAccelerator) (b : AcceleratorBuffer) :
    ((u.step getMeasurementCounts s b).2.name, (u.step getMeasurementCounts s b).2.size)
      = (b.name, b.size) := by
  cases u with
  | several simulator options functions => rfl
  | one simulator options kernel => rw [step_one]

/-- A buffer that `execute` makes has its measurements one at a time. -/
theorem made_nonneg (u : Use P) (s : LocalIBMAccelerator) (b : AcceleratorBuffer) :
    ∀ e ∈ u.made s b, 0 ≤ e.2 := by
  intro e he
  cases u with
  | several simulator options functions => simp [made] at he
  | one simulator options kernel =>
      rw [made] at he
      cases h : LocalIBMAccelerator.execute simulator options b.size [kernel] s with
      | error e s' => simp [h] at he
      | ok bs s' =>
          cases bs with
          | nil => simp [h] at he
          | cons b' bs =>
              simp only [h] at he
              rw [LocalIBMAccelerator.execute, Exec.bind_ok] at h
              obtain ⟨circuits, s1, _, h⟩ := h
              obtain ⟨_, _, _, results, _, _, _, _, hstore⟩ := simulate_ok.mp ⟨s', h⟩
              obtain ⟨hlen, hall⟩ := storeResults_ok.mp hstore
              have hresult := List.getElem?_eq_getElem (show 0 < (range results).length by
                rw [← hlen]
                exact Nat.succ_pos _)
              obtain ⟨_, _, _, counts, _, rfl⟩ := hall 0 _ b' hresult rfl
              rw [AcceleratorBuffer.appendEach_measurements, List.nil_append,
                List.mem_flatMap] at he
              obtain ⟨x, _, he⟩ := he
              rw [(List.mem_replicate.mp he).2]
              exact Int.one_nonneg

/-- What is appended is what was made, counted anew. -/
theorem mass_appended {getMeasurementCounts : List (String × Int) → List (String × Int)}
    (hcounts : Recounts getMeasurementCounts) (p : String → Prop) [DecidablePred p]
    (u : Use P) (s : LocalIBMAccelerator) (b : AcceleratorBuffer) :
    Tally.mass p (u.appended getMeasurementCounts s b) = Tally.mass p (u.made s b) := by
  have hmade := u.made_nonneg s b
  cases u with
  | several simulator options functions => rfl
  | one simulator options kernel =>
      rw [made] at hmade
      rw [appended, made]
      cases h : LocalIBMAccelerator.execute simulator options b.size [kernel] s with
      | error e s' => rfl
      | ok bs s' =>
          cases bs with
          | nil => rfl
          | cons b' bs =>
              simp only [h] at hmade ⊢
              rw [Tally.mass_ones p (hcounts.nonneg _ hmade)]
              exact Tally.mass_eq_of_count_eq p (hcounts.count _)

end Use

variable {ι : Type} [DecidableEq ι]

/-- **Buffers of callers who share the local accelerator.** Whatever calls they
make, in any order and with calls that fail among them: a buffer keeps its name
and its size, and of every string it has as many as before and as the buffers
that its own calls for one kernel made. -/
theorem counts_shared {getMeasurementCounts : List (String × Int) → List (String × Int)}
    (hcounts : Recounts getMeasurementCounts) (s : LocalIBMAccelerator)
    (buffers : ι → AcceleratorBuffer) (uses : List (ι × Use P)) (i : ι) :
    ((Journal.after (Use.step getMeasurementCounts) ⟨s, buffers⟩ uses).record i).name
        = (buffers i).name ∧
      ((Journal.after (Use.step getMeasurementCounts) ⟨s, buffers⟩ uses).record i).size
        = (buffers i).size ∧
      ∀ (p : String → Prop) [DecidablePred p],
        Tally.mass p ((Journal.after (Use.step getMeasurementCounts) ⟨s, buffers⟩
            uses).record i).measurements
          = Tally.mass p (buffers i).measurements
            + (along (Use.step getMeasurementCounts) (fun u s b => Tally.mass p (u.made s b)) i
                ⟨s, buffers⟩ uses).sum := by
  have hlabels := Journal.part_after (Use.step getMeasurementCounts)
    (fun b => (b.name, b.size)) (Use.step_labels getMeasurementCounts) ⟨s, buffers⟩ uses i
  have hentries := Journal.entries_after (Use.step getMeasurementCounts)
    (Use.step_measurements getMeasurementCounts) ⟨s, buffers⟩ uses i
  refine ⟨congrArg Prod.fst hlabels, congrArg Prod.snd hlabels, fun p _ => ?_⟩
  rw [hentries, Tally.mass_append, Tally.mass_flatten, Journal.map_along]
  have hmade : (fun (u : Use P) s b => Tally.mass p (u.appended getMeasurementCounts s b))
      = fun u s b => Tally.mass p (u.made s b) :=
    funext fun u => funext fun s => funext fun b => u.mass_appended hcounts p s b
  rw [hmade]

/-- Two callers: the first runs a kernel, the second one that fails and then a
list, and the first its kernel again. -/
def sharing : List (Bool × Use String) :=
  [(true, .one zeroSimulator ∅ foo), (false, .one zeroSimulator ∅ stopped),
    (false, .several zeroSimulator ∅ [foo, bar]), (true, .one zeroSimulator ∅ foo)]

/-- The theorem at these calls: the first caller has the shots of both runs. -/
theorem counts_shared_twice :
    Tally.mass (· = "0") ((Journal.after (Use.step Tally.collect)
        ⟨{}, fun _ => { name := "q", size := 1 }⟩ sharing).record true).measurements = 2048 := by
  obtain ⟨_, _, hmass⟩ := counts_shared Recounts.collect {}
    (fun _ => { name := "q", size := 1 }) sharing true
  refine (hmass (· = "0")).trans ?_
  decide +kernel

end LocalIBMAccelerator

end XaccIbm
