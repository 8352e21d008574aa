import XaccIbm.IBMAccelerator.Results

/-!
# IBMAccelerator — Names

Whose names the results of a run carry. `kernelNames` grows with every run
and is read from its front, so a run finds its own names there only while
they are the first names the accelerator was ever given.
-/

namespace XaccIbm

open IBMAccelerator

variable {P : Type}

/-- A run that returned: what it was given, the buffers it returned, and the
caller's buffer afterwards. -/
structure Stored (P : Type) where
  run : Run P
  buffers : List AcceleratorBuffer
  buffer : AcceleratorBuffer

namespace Stored

def names (x : Stored P) : List String := x.run.functions.map Kernel.name

/-- The `kernel` information the run put on the caller's buffer. -/
def kernelInfo (x : Stored P) : Option ExtraInfo :=
  (x.buffer.info.drop x.run.buffer.info.length).lookup "kernel"

/-- **The results carry the names of the run's own functions.** -/
def CarriesNames (x : Stored P) : Prop :=
  match x.run.functions with
  | [f] => x.kernelInfo = some (.str f.name)
  | functions => x.buffers.map AcceleratorBuffer.name = functions.map Kernel.name

theorem carriesNames_one {x : Stored P} {f : Kernel P}
    (h : x.run.functions = [f]) :
    x.CarriesNames ↔ x.kernelInfo = some (.str f.name) := by
  rw [CarriesNames, h]

theorem carriesNames_several {x : Stored P} (h : x.run.functions.length ≠ 1) :
    x.CarriesNames ↔ x.buffers.map AcceleratorBuffer.name = x.names := by
  unfold CarriesNames names
  split
  · rename_i f hf
    rw [hf] at h
    exact absurd rfl h
  · rfl

end Stored

/-- Runs on one accelerator that all return, each with one result for each
of its functions. -/
inductive Runs [ToString P] : IBMAccelerator → List (Stored P) →
    IBMAccelerator → Prop
  | nil (acc : IBMAccelerator) : Runs acc [] acc
  | cons {acc acc' : IBMAccelerator} {r : Run P} {qasms : List Json}
      {bs : List AcceleratorBuffer} {s' : Session} {rest : List (Stored P)}
      (h : r.Completes acc qasms bs s') (hlen : qasms.length = r.functions.length)
      (hrest : Runs s'.acc rest acc') :
      Runs acc (⟨r, bs, s'.buffer⟩ :: rest) acc'

/-- What the chosen backend attaches comes last. -/
theorem IBMAccelerator.calibrated_info (backend : IBMBackend)
    (b : AcceleratorBuffer) :
    ∃ attached, (calibrated backend b).info = b.info ++ attached := by
  unfold calibrated
  split
  · exact ⟨[], by simp⟩
  · exact ⟨backend.calibration, rfl⟩

theorem IBMAccelerator.Stores.name_eq {isSimulator : Bool} {size : Nat}
    {name : String} {supports : List Nat} {qasm : Json} {b : AcceleratorBuffer}
    (h : Stores isSimulator size name supports qasm b) : b.name = name := by
  obtain ⟨time, counts, decoded, _, _, _, rfl⟩ := h
  rw [AcceleratorBuffer.appendAll_eq]
  rfl

variable [ToString P]

/-- A run that returns puts its names behind the names so far. -/
theorem Run.Completes.kernelNames {r : Run P} {acc : IBMAccelerator}
    {qasms : List Json} {bs : List AcceleratorBuffer} {s' : Session}
    (h : r.Completes acc qasms bs s') :
    s'.acc.kernelNames = acc.kernelNames ++ r.functions.map Kernel.name := by
  obtain ⟨s, hawaited, hstore⟩ := h
  rw [(storeJob_ok hstore).1]
  exact (Run.awaited_ok hawaited).2.2.1

/-- One result: the first name of all is put on the caller's buffer. -/
theorem IBMAccelerator.storeAlone_kernelInfo {qasm : Json} {s s' : Session}
    {bs : List AcceleratorBuffer} (h : storeAlone qasm s = .ok bs s') :
    ∃ kernel, s.acc.kernelNames.head? = some kernel ∧
      (s'.buffer.info.drop s.buffer.info.length).lookup "kernel" = some (.str kernel) := by
  obtain ⟨_, _, counts, time, kernel, _, _, hkernel, hbuffer⟩ := storeAlone_ok h
  refine ⟨kernel, hkernel, ?_⟩
  obtain ⟨attached, hattached⟩ := calibrated_info s.acc.chosenBackend
    { s.buffer with
      measurements := s.buffer.measurements ++ counts.map fun e =>
        (Decode.decodeAlone s.acc.chosenBackend.isSimulator e.1, e.2)
      info := s.buffer.info ++ [("time", .num time), ("kernel", .str kernel)] }
  rw [hbuffer, hattached, List.append_assoc, List.drop_left]
  rfl

/-- Several results: buffer `j` gets name `j` of all. -/
theorem IBMAccelerator.storeSeveral_names {qasms : List Json} {s s' : Session}
    {bs : List AcceleratorBuffer} (h : storeSeveral qasms s = .ok bs s') :
    bs.map AcceleratorBuffer.name = s.acc.kernelNames.take qasms.length := by
  obtain ⟨_, _, hlen, hall⟩ := storeSeveral_ok h
  apply List.ext_getElem?
  intro j
  rw [List.getElem?_map, List.getElem?_take]
  by_cases hj : j < qasms.length
  · have hjb : j < bs.length := by omega
    obtain ⟨name, hname, hst⟩ := hall j qasms[j] bs[j] (List.getElem?_eq_getElem hj)
      (List.getElem?_eq_getElem hjb)
    rw [List.getElem?_eq_getElem hjb, if_pos hj, hname, Option.map_some, hst.name_eq]
  · rw [List.getElem?_eq_none (by omega), if_neg hj]
    rfl

/-- **One run**: its results carry its own names when these are the first
names of all. -/
theorem Run.Completes.carriesNames_iff {r : Run P} {acc : IBMAccelerator}
    {qasms : List Json} {bs : List AcceleratorBuffer} {s' : Session}
    (h : r.Completes acc qasms bs s')
    (hlen : qasms.length = r.functions.length) :
    (Stored.mk r bs s'.buffer).CarriesNames ↔
      r.functions.map Kernel.name <+:
        acc.kernelNames ++ r.functions.map Kernel.name := by
  obtain ⟨s, hawaited, hstore⟩ := h
  obtain ⟨hbuf, _, hnames, _⟩ := Run.awaited_ok hawaited
  obtain ⟨_, hways⟩ := storeJob_ok hstore
  rcases hways with ⟨qasm, s1, rfl, halone, hb⟩ | ⟨hne, s1, hseveral, hb⟩
  · obtain ⟨f, hf⟩ := List.length_eq_one_iff.mp hlen.symm
    obtain ⟨kernel, hkernel, hinfo⟩ := storeAlone_kernelInfo halone
    rw [← hb, hbuf] at hinfo
    rw [Stored.carriesNames_one hf, Stored.kernelInfo, hinfo, hf]
    rw [hnames, hf] at hkernel
    simp only [List.map_cons, List.map_nil] at hkernel ⊢
    have hfirst : [f.name] <+: acc.kernelNames ++ [f.name] ↔
        (acc.kernelNames ++ [f.name]).head? = some f.name := by
      cases acc.kernelNames with
      | nil => simp
      | cons n ns => simp [List.cons_prefix_cons, eq_comm]
    rw [hfirst, hkernel]
    simp
  · rw [hlen] at hne
    rw [Stored.carriesNames_several hne]
    show bs.map AcceleratorBuffer.name = r.functions.map Kernel.name ↔ _
    rw [storeSeveral_names hseveral, hnames, hlen, List.prefix_iff_eq_take, List.length_map,
      eq_comm]

/-- Run by run: the names before a run are those of the accelerator and of
the earlier runs. -/
theorem Runs.carriesNames {acc acc' : IBMAccelerator} {history : List (Stored P)}
    (h : Runs acc history acc') :
    (∀ x ∈ history, x.CarriesNames) ↔
      ∀ earlier x later, history = earlier ++ x :: later →
        x.names <+: acc.kernelNames ++ earlier.flatMap Stored.names ++ x.names := by
  induction h with
  | nil acc => simp
  | @cons acc acc' r qasms bs s' rest hr hlen hrest ih =>
      rw [List.forall_mem_cons, hr.carriesNames_iff hlen, ih, hr.kernelNames]
      constructor
      · rintro ⟨hfirst, hlater⟩ earlier x later hsplit
        cases earlier with
        | nil =>
            cases hsplit
            simpa [Stored.names] using hfirst
        | cons y earlier =>
            cases hsplit
            have := hlater earlier x later rfl
            simpa [Stored.names] using this
      · intro hsplits
        refine ⟨?_, fun earlier x later hsplit => ?_⟩
        · simpa [Stored.names] using hsplits [] _ rest rfl
        · have := hsplits (⟨r, bs, s'.buffer⟩ :: earlier) x later (by
            rw [hsplit]
            rfl)
          simpa [Stored.names] using this

/-- **Names over a history.** On an accelerator that was given no names yet,
the results of every run carry the names of its own functions if and only
if, at every run, the names of its functions are the first of all the names
up to and including the run. -/
theorem history_carriesNames_iff {acc acc' : IBMAccelerator} {history : List (Stored P)}
    (hfresh : acc.kernelNames = []) (h : Runs acc history acc') :
    (∀ x ∈ history, x.CarriesNames) ↔
      ∀ earlier x later, history = earlier ++ x :: later →
        x.names <+: earlier.flatMap Stored.names ++ x.names := by
  have hall := h.carriesNames
  rw [hfresh] at hall
  simpa only [List.nil_append] using hall

/-! ## Two runs of one function each -/

/-- A run of one function. -/
def namedRun (name : String) : Run String :=
  Run.ask ∅ [Run.measureFirst name] [] (Run.resultText "\"1\": 1024")

/-- A history of two runs that both return. -/
theorem runs_two (r r' : Run String)
    (h : r.ends {} (fun qasms _ _ => qasms.length == r.functions.length) = true)
    (h' : r'.ends (Exec.after (r.execute (r.start {}))).acc
      (fun qasms _ _ => qasms.length == r'.functions.length) = true) :
    ∃ bs b bs' b' acc', Runs {} [⟨r, bs, b⟩, ⟨r', bs', b'⟩] acc' := by
  obtain ⟨qasms, bs, s, hr, hlen, hs⟩ := Run.completes_of_ends h
  rw [← hs] at h'
  obtain ⟨qasms', bs', s', hr', hlen', _⟩ := Run.completes_of_ends h'
  exact ⟨bs, s.buffer, bs', s'.buffer, s'.acc,
    .cons hr (by simpa using hlen) (.cons hr' (by simpa using hlen') (.nil _))⟩

/-- The second run puts the name of the first on the caller's buffer. -/
theorem second_not_carriesNames :
    ¬ ∀ (acc acc' : IBMAccelerator) (history : List (Stored String)),
        acc.kernelNames = [] → Runs acc history acc' →
        ∀ x ∈ history, x.CarriesNames := by
  intro h
  obtain ⟨bs, b, bs', b', acc', hruns⟩ := runs_two (namedRun "foo")
    (namedRun "bar") (by decide +kernel) (by decide +kernel)
  have hall : ["bar"] <+: ["foo", "bar"] := hruns.carriesNames.mp
    (h {} acc' _ rfl hruns) [⟨namedRun "foo", bs, b⟩] ⟨namedRun "bar", bs', b'⟩ [] rfl
  exact absurd hall (by decide)

/-- The theorem at two runs of the same function. -/
theorem carriesNames_repeated :
    ∃ bs b bs' b' acc', Runs {} [⟨namedRun "foo", bs, b⟩,
        ⟨namedRun "foo", bs', b'⟩] acc' ∧
      (Stored.mk (namedRun "foo") bs b).CarriesNames ∧
      (Stored.mk (namedRun "foo") bs' b').CarriesNames := by
  obtain ⟨bs, b, bs', b', acc', hruns⟩ := runs_two (namedRun "foo")
    (namedRun "foo") (by decide +kernel) (by decide +kernel)
  have hnames : ∀ earlier x later,
      [Stored.mk (namedRun "foo") bs b, ⟨namedRun "foo", bs', b'⟩]
        = earlier ++ x :: later →
      x.names <+: earlier.flatMap Stored.names ++ x.names := by
    intro earlier x later hsplit
    rcases earlier with _ | ⟨y, _ | ⟨z, rest⟩⟩
    · simp
    · cases hsplit
      exact ⟨["foo"], rfl⟩
    · simp at hsplit
  have hall := (history_carriesNames_iff rfl hruns).mpr hnames
  exact ⟨bs, b, bs', b', acc', hruns, hall _ (by simp), hall _ (by simp)⟩

end XaccIbm
