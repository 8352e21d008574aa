import XaccIbm.LocalIBMAccelerator.Effects
import XaccIbm.Lib.Traverse

/-!
# LocalIBMAccelerator — Batch

A batch of kernels is its kernels. Between calls that succeed
`measurementSupports` is empty, so the number of a kernel finds its own
measured qubits and nothing else; names, measured qubits and results then
meet position by position, and what a kernel contributes does not depend on
the others.
-/

namespace XaccIbm.LocalIBMAccelerator

open Decode Submission

variable {P : Type}

/-! ## The submission loop -/

variable [ToString P]

/-- The circuit of a kernel. -/
def Compiles (size : Nat) (kernel : Function (Gate P)) (c : Json) : Prop :=
  ∃ v operations,
    passAll OpenQasmVisitor.accept kernel.walk (OpenQasmVisitor.new size false)
      = .ok () v ∧
    Json.parse v.getOperationsJsonString = some operations ∧
    c = circuit kernel.name size (measuredQubits kernel).length
      v.getOpenQasmString operations

theorem jsonParse_bind_ok {σ β : Type} {t : String} {f : Json → Exec σ β} {s s' : σ} {b : β} :
    (jsonParse t >>= f) s = .ok b s' ↔ ∃ j, Json.parse t = some j ∧ f j s = .ok b s' := by
  rw [jsonParse]
  cases Json.parse t with
  | none => simp [Exec.bind_apply]
  | some j => simp [Exec.bind_apply]

/-- One iteration, under a number that has no entry yet. -/
theorem submitCircuit_ok {size kernelCounter : Nat} {kernel : Function (Gate P)}
    {ms : Supports} {c : Json} (hnew : ms.getD kernelCounter [] = []) :
    (∃ ms', submitCircuit size kernelCounter kernel ms = .ok c ms') ↔
      Compiles size kernel c := by
  have hentry : (kernel.walk.foldl (remember kernelCounter)
      (ms.insert kernelCounter [])).getD kernelCounter []
        = measuredQubits kernel := by
    rw [rememberAll_getD, StdMap.getD_insert, hnew, if_pos rfl]
    rfl
  constructor
  · rintro ⟨ms', h⟩
    obtain ⟨v, ms1, hv, h⟩ := Exec.bind_ok.mp h
    obtain ⟨hpass, rfl⟩ := (submitKernel_ok _).mp hv
    rw [Exec.get_bind, hentry] at h
    obtain ⟨operations, hops, h⟩ := jsonParse_bind_ok.mp h
    cases h
    exact ⟨v, operations, hpass, hops, rfl⟩
  · rintro ⟨v, operations, hpass, hops, rfl⟩
    refine ⟨kernel.walk.foldl (remember kernelCounter) (ms.insert kernelCounter []), ?_⟩
    rw [submitCircuit, Exec.bind_of_ok ((submitKernel_ok _).mpr ⟨hpass, rfl⟩), Exec.get_bind,
      hentry]
    exact jsonParse_bind_ok.mpr ⟨operations, hops, rfl⟩

/-- The submission loop, when no number from the counter on has an entry. -/
theorem submitCircuits_ok {size : Nat} {functions : List (Function (Gate P))}
    {kernelCounter : Nat} {ms : Supports} {cs : List Json}
    (hnew : ∀ k, kernelCounter ≤ k → ms.getD k [] = []) :
    (∃ ms', submitCircuits size kernelCounter functions ms = .ok cs ms') ↔
      List.Forall₂ (Compiles size) functions cs := by
  induction functions generalizing kernelCounter ms cs with
  | nil =>
      simp only [submitCircuits, Exec.pure_apply, EStateM.Result.ok.injEq,
        List.forall₂_nil_left_iff, exists_and_left, exists_eq', and_true]
      exact eq_comm
  | cons kernel rest ih =>
      have hrest : ∀ c ms1, submitCircuit size kernelCounter kernel ms = .ok c ms1 →
          ∀ k, kernelCounter + 1 ≤ k → ms1.getD k [] = [] := by
        intro c ms1 hc k hk
        have hafter := submitCircuit_after size kernelCounter kernel ms k
        rw [hc, Exec.after_ok, hnew k (by omega), if_neg (by omega)] at hafter
        exact hafter
      simp only [submitCircuits, Exec.bind_ok]
      constructor
      · rintro ⟨ms', c, ms1, hc, cs', ms2, hcs, h⟩
        cases h
        exact .cons ((submitCircuit_ok (hnew kernelCounter le_rfl)).mp ⟨ms1, hc⟩)
          ((ih (hrest c ms1 hc)).mp ⟨_, hcs⟩)
      · intro hall
        cases hall with
        | cons hcomp hall =>
            obtain ⟨ms1, hc⟩ :=
              (submitCircuit_ok (hnew kernelCounter le_rfl)).mpr hcomp
            obtain ⟨ms2, hcs⟩ := (ih (hrest _ ms1 hc)).mpr hall
            exact ⟨ms2, _, ms1, hc, _, ms2, hcs, rfl⟩

/-! ## The result loop -/

/-- The buffer of a result, for a name and measured qubits. -/
def Stores (size : Nat) (name : String) (supports : List Nat) (result : Json)
    (b : AcceleratorBuffer) : Prop :=
  isValidBufferSize size = true ∧
    ∃ counts, decodeResult size supports result = some counts ∧
      b = ({ name := name, size := size } : AcceleratorBuffer).appendEach counts

/-- One iteration of the result loop; its read of `measurementSupports` is
all that the next one finds changed. -/
theorem storeResults_cons_ok {size : Nat} {names : List String}
    {kernelCounter : Nat} {result : Json} {rest : List Json}
    {s : LocalIBMAccelerator} {bs : List AcceleratorBuffer} :
    (∃ s', storeResults size names kernelCounter (result :: rest) s = .ok bs s') ↔
      ∃ name b bs', bs = b :: bs' ∧ names[kernelCounter]? = some name ∧
        Stores size name (s.entries kernelCounter) result b ∧
        ∃ s', storeResults size names (kernelCounter + 1) rest
          (Exec.after (readSupports kernelCounter s)) = .ok bs' s' := by
  rw [readSupports_eq, Exec.after_ok]
  constructor
  · rintro ⟨s', h⟩
    obtain ⟨name, hname, h⟩ := Exec.demand_bind_ok.mp h
    obtain ⟨hvalid, h⟩ := createBuffer_bind_ok.mp h
    rw [Exec.bind_of_ok (readSupports_eq _ _)] at h
    obtain ⟨counts, hcounts, h⟩ := Exec.demand_bind_ok.mp h
    obtain ⟨bs', s1, hbs, h⟩ := Exec.bind_ok.mp h
    cases h
    exact ⟨name, _, bs', rfl, hname, ⟨hvalid, counts, hcounts, rfl⟩, s', hbs⟩
  · rintro ⟨name, _, bs', rfl, hname, ⟨hvalid, counts, hcounts, rfl⟩, s', hbs⟩
    refine ⟨s', Exec.demand_bind_ok.mpr ⟨name, hname, createBuffer_bind_ok.mpr ⟨hvalid, ?_⟩⟩⟩
    rw [Exec.bind_of_ok (readSupports_eq _ _)]
    refine Exec.demand_bind_ok.mpr ⟨counts, hcounts, ?_⟩
    exact Exec.bind_ok.mpr ⟨bs', s', hbs, rfl⟩

/-- **The result loop**: each result meets the name and the measured qubits
of its own number. -/
theorem storeResults_ok {size : Nat} {names : List String} {kernelCounter : Nat}
    {results : List Json} {s : LocalIBMAccelerator}
    {bs : List AcceleratorBuffer} :
    (∃ s', storeResults size names kernelCounter results s = .ok bs s') ↔
      bs.length = results.length ∧
        ∀ j result b, results[j]? = some result → bs[j]? = some b →
          ∃ name, names[kernelCounter + j]? = some name ∧
            Stores size name
              (s.entries (kernelCounter + j)) result b := by
  induction results generalizing kernelCounter s bs with
  | nil =>
      constructor
      · rintro ⟨s', h⟩
        cases h
        exact ⟨rfl, fun j result b h => by simp at h⟩
      · rintro ⟨h, _⟩
        rw [List.length_nil, List.length_eq_zero_iff] at h
        subst h
        exact ⟨s, rfl⟩
  | cons result rest ih =>
      have hkeep := readSupports_keeps kernelCounter s
      have hnext : ∀ j, kernelCounter + 1 + j = kernelCounter + (j + 1) := by
        intro j
        omega
      rw [storeResults_cons_ok]
      simp only [ih, hkeep, hnext]
      constructor
      · rintro ⟨name, b, bs', rfl, hname, hst, hlen, hall⟩
        refine ⟨by simp [hlen], fun j r b hr hb => ?_⟩
        cases j with
        | zero =>
            cases hr
            cases hb
            exact ⟨name, hname, hst⟩
        | succ j => exact hall j r b (by simpa using hr) (by simpa using hb)
      · rintro ⟨hlen, hall⟩
        cases bs with
        | nil => simp at hlen
        | cons b bs =>
            obtain ⟨name, hname, hst⟩ := hall 0 result b rfl rfl
            refine ⟨name, b, bs, rfl, hname, hst, by simpa using hlen, ?_⟩
            intro j r b' hr hb
            exact hall (j + 1) r b' (by simpa using hr) (by simpa using hb)

/-! ## A whole call -/

/-- The simulator's contract: one result for each circuit, in order, and
each from its circuit and the configuration alone. -/
def PerCircuit (simulator : Json → Except String String)
    (run : Json → Json → Option Json) : Prop :=
  ∀ config2 circuits, circuits ≠ [] →
    match circuits.mapM (run config2) with
    | some results => ∃ text document,
        simulator (qobj circuits config2) = .ok text ∧
        Json.parse text = some document ∧
        document.get? "result" = some (.arr results)
    | none => ∃ what, simulator (qobj circuits config2) = .error what

theorem subscript_of_get? {j elem : Json} {key : String}
    (h : j.get? key = some elem) : subscript j key = some elem := by
  cases j with
  | obj members =>
      rw [Json.get?] at h
      rw [subscript, h]
      rfl
  | _ => cases h

/-- What a kernel alone comes to. -/
def Executes (size : Nat) (config2 : Json) (run : Json → Json → Option Json)
    (kernel : Function (Gate P)) (b : AcceleratorBuffer) : Prop :=
  ∃ c result, Compiles size kernel c ∧ run config2 c = some result ∧
    Stores size kernel.name (measuredQubits kernel) result b

/-- Everything after the submission loop, once a document comes back. -/
theorem simulate_ok {simulator : Json → Except String String}
    {options : Options} {size : Nat} {names : List String}
    {circuits : List Json} {s : LocalIBMAccelerator}
    {bs : List AcceleratorBuffer} :
    (∃ s', simulate simulator options size names circuits s = .ok bs s') ↔
      ∃ config2 text document results,
        config options = .ok config2 ∧
        simulator (qobj circuits config2) = .ok text ∧
        Json.parse text = some document ∧
        subscript document "result" = some results ∧
        ∃ s', storeResults size names 0 (range results) s = .ok bs s' := by
  have hsim : ∀ {config2 : Json} {text : String} {what : String → String},
      (simulator (qobj circuits config2)).mapError what = .ok text ↔
        simulator (qobj circuits config2) = .ok text := by
    intro config2 text what
    cases simulator (qobj circuits config2) <;> simp [Except.mapError]
  constructor
  · rintro ⟨s', h⟩
    obtain ⟨config2, hconfig, h⟩ := Exec.reply_bind_ok.mp h
    obtain ⟨text, hresponse, h⟩ := Exec.reply_bind_ok.mp h
    obtain ⟨document, hparse, h⟩ := jsonParse_bind_ok.mp h
    obtain ⟨results, hresults, h⟩ := Exec.demand_bind_ok.mp h
    obtain ⟨bs', s1, hbs, h⟩ := Exec.bind_ok.mp h
    cases h
    exact ⟨config2, text, document, results, hconfig, hsim.mp hresponse, hparse, hresults, s1, hbs⟩
  · rintro ⟨config2, text, document, results, hconfig, hresponse, hparse, hresults, s', hbs⟩
    refine ⟨{ s' with measurementSupports := ∅ }, ?_⟩
    refine Exec.reply_bind_ok.mpr ⟨config2, hconfig, ?_⟩
    refine Exec.reply_bind_ok.mpr ⟨text, hsim.mpr hresponse, ?_⟩
    refine jsonParse_bind_ok.mpr ⟨document, hparse, ?_⟩
    refine Exec.demand_bind_ok.mpr ⟨results, hresults, ?_⟩
    exact Exec.bind_ok.mpr ⟨bs, s', hbs, rfl⟩

/-- With a simulator that keeps its contract, the results are those of the
circuits. -/
theorem simulate_perCircuit {simulator : Json → Except String String}
    {run : Json → Json → Option Json} (hsim : PerCircuit simulator run)
    {options : Options} {size : Nat} {names : List String}
    {circuits : List Json} (hne : circuits ≠ []) {s : LocalIBMAccelerator}
    {bs : List AcceleratorBuffer} :
    (∃ s', simulate simulator options size names circuits s = .ok bs s') ↔
      ∃ config2 results, config options = .ok config2 ∧
        circuits.mapM (run config2) = some results ∧
        ∃ s', storeResults size names 0 results s = .ok bs s' := by
  rw [simulate_ok]
  constructor
  · rintro ⟨config2, text, document, results, hconfig, htext, hparse, hget, hstore⟩
    have hper := hsim config2 circuits hne
    cases hruns : circuits.mapM (run config2) with
    | none =>
        rw [hruns] at hper
        obtain ⟨what, hwhat⟩ := hper
        rw [hwhat] at htext
        cases htext
    | some rs =>
        rw [hruns] at hper
        obtain ⟨text', document', htext', hparse', hget'⟩ := hper
        rw [htext'] at htext
        cases htext
        rw [hparse'] at hparse
        cases hparse
        rw [subscript_of_get? hget'] at hget
        cases hget
        exact ⟨config2, rs, hconfig, hruns, hstore⟩
  · rintro ⟨config2, results, hconfig, hruns, hstore⟩
    have hper := hsim config2 circuits hne
    rw [hruns] at hper
    obtain ⟨text, document, htext, hparse, hget⟩ := hper
    exact ⟨config2, text, document, .arr results, hconfig, htext, hparse,
      subscript_of_get? hget, hstore⟩

/-- What the kernels alone come to, as a list of circuits and a list of
results. -/
theorem forall₂_executes_iff {size : Nat} {config2 : Json}
    {run : Json → Json → Option Json} {functions : List (Function (Gate P))}
    {bs : List AcceleratorBuffer} :
    List.Forall₂ (Executes size config2 run) functions bs ↔
      ∃ cs rs, List.Forall₂ (Compiles size) functions cs ∧
        List.Forall₂ (fun c r => run config2 c = some r) cs rs ∧
        bs.length = rs.length ∧
        ∀ (j : Nat) r b, rs[j]? = some r → bs[j]? = some b →
          ∃ f, functions[j]? = some f ∧
            Stores size f.name (measuredQubits f) r b := by
  constructor
  · intro hall
    induction hall with
    | nil => exact ⟨[], [], .nil, .nil, rfl, fun j r b h => by simp at h⟩
    | @cons f b fs bs hf _ ih =>
        obtain ⟨cs, rs, hcs, hrs, hlen, hst⟩ := ih
        obtain ⟨c, result, hc, hr, hstore⟩ := hf
        refine ⟨c :: cs, result :: rs, .cons hc hcs, .cons hr hrs,
          by simp [hlen], fun j r b' hj hb => ?_⟩
        cases j with
        | zero =>
            cases hj
            cases hb
            exact ⟨f, rfl, hstore⟩
        | succ j => exact hst j r b' (by simpa using hj) (by simpa using hb)
  · rintro ⟨cs, rs, hcs, hrs, hlen, hst⟩
    have h1 := hcs.length_eq
    have h2 := hrs.length_eq
    refine List.forall₂_iff_get.mpr ⟨by omega, fun j hj hb => ?_⟩
    obtain ⟨f, hf, hstore⟩ := hst j rs[j] bs[j]
      (List.getElem?_eq_getElem (by omega)) (List.getElem?_eq_getElem hb)
    obtain ⟨_, rfl⟩ := List.getElem?_eq_some_iff.mp hf
    exact ⟨cs[j], rs[j], (List.forall₂_iff_get.mp hcs).2 j hj (by omega),
      (List.forall₂_iff_get.mp hrs).2 j (by omega) (by omega), hstore⟩

/-- **A batch is its kernels**: from an accelerator that remembers nothing,
a batch succeeds with these buffers exactly when each kernel alone comes to
its own. -/
theorem execute_ok_iff {simulator : Json → Except String String}
    {run : Json → Json → Option Json} (hsim : PerCircuit simulator run)
    {options : Options} {size : Nat} {functions : List (Function (Gate P))}
    (hne : functions ≠ []) {s : LocalIBMAccelerator}
    (hs : ∀ k, s.entries k = []) {bs : List AcceleratorBuffer} :
    (∃ s', execute simulator options size functions s = .ok bs s') ↔
      ∃ config2, config options = .ok config2 ∧
        List.Forall₂ (Executes size config2 run) functions bs := by
  have hnew : ∀ k, 0 ≤ k → s.measurementSupports.getD k [] = [] := fun k _ => hs k
  have hcircuits : ∀ {cs}, List.Forall₂ (Compiles size) functions cs → cs ≠ [] := by
    rintro cs hcs rfl
    exact hne (List.forall₂_nil_right_iff.mp hcs)
  -- The result loop finds each kernel's own name and measured qubits.
  have hstore : ∀ {cs ms}, submitCircuits size 0 functions s.measurementSupports
      = .ok cs ms → ∀ (j : Nat) r b,
        (∃ name, (functions.map Function.name)[0 + j]? = some name ∧ Stores size name
          (({ s with measurementSupports := ms } : LocalIBMAccelerator).entries
            (0 + j)) r b) ↔
        ∃ f, functions[j]? = some f ∧
          Stores size f.name (measuredQubits f) r b := by
    intro cs ms hsub j r b
    have hread := submitCircuits_entries hsub j
    rw [hnew _ (Nat.zero_le _), List.nil_append] at hread
    rw [Nat.zero_add, entries, hread, List.getElem?_map]
    cases functions[j]? with
    | none => simp
    | some f => simp
  simp only [forall₂_executes_iff]
  constructor
  · rintro ⟨s', h⟩
    rw [execute, Exec.bind_ok] at h
    obtain ⟨cs, s1, hon, h⟩ := h
    obtain ⟨ms, hsub, rfl⟩ := onSupports_ok.mp hon
    have hcs := (submitCircuits_ok hnew).mp ⟨ms, hsub⟩
    obtain ⟨config2, rs, hconfig, hrs, hbs⟩ :=
      (simulate_perCircuit hsim (hcircuits hcs)).mp ⟨s', h⟩
    obtain ⟨hlen, hall⟩ := storeResults_ok.mp hbs
    exact ⟨config2, hconfig, cs, rs, hcs, Traverse.mapM_eq_some.mp hrs, hlen,
      fun j r b hr hb => (hstore hsub j r b).mp (hall j r b hr hb)⟩
  · rintro ⟨config2, hconfig, cs, rs, hcs, hrs, hlen, hall⟩
    obtain ⟨ms, hsub⟩ := (submitCircuits_ok hnew).mpr hcs
    have hsimulate : ∃ s', simulate simulator options size
        (functions.map Function.name) cs { s with measurementSupports := ms }
          = .ok bs s' := by
      refine (simulate_perCircuit hsim (hcircuits hcs)).mpr
        ⟨config2, rs, hconfig, Traverse.mapM_eq_some.mpr hrs, storeResults_ok.mpr ⟨hlen, ?_⟩⟩
      intro j r b hr hb
      exact (hstore hsub j r b).mpr (hall j r b hr hb)
    obtain ⟨s', hs'⟩ := hsimulate
    refine ⟨s', ?_⟩
    rw [execute, Exec.bind_ok]
    exact ⟨cs, _, onSupports_ok.mpr ⟨ms, hsub, rfl⟩, hs'⟩

/-! ## Histories of successful calls -/

variable (P) in
/-- The states that calls which succeed lead to, with any simulator and any
options at each. -/
inductive Reached : LocalIBMAccelerator → Prop
  | init : Reached {}
  | execute {simulator : Json → Except String String} {options : Options}
      {size : Nat} {functions : List (Function (Gate P))}
      {s s' : LocalIBMAccelerator} {bs : List AcceleratorBuffer} (hs : Reached s)
      (h : execute simulator options size functions s = .ok bs s') : Reached s'
  | executeOne {getMeasurementCounts : List (String × Int) → List (String × Int)}
      {simulator : Json → Except String String} {options : Options}
      {buffer b : AcceleratorBuffer} {kernel : Function (Gate P)}
      {s s' : LocalIBMAccelerator} (hs : Reached s)
      (h : executeOne getMeasurementCounts simulator options buffer kernel s
        = .ok b s') : Reached s'

/-- The call for one kernel is the call for a list of one. -/
theorem executeOne_ok
    {getMeasurementCounts : List (String × Int) → List (String × Int)}
    {simulator : Json → Except String String} {options : Options}
    {buffer b : AcceleratorBuffer} {kernel : Function (Gate P)}
    {s s' : LocalIBMAccelerator} :
    executeOne getMeasurementCounts simulator options buffer kernel s = .ok b s' ↔
      ∃ bs b', execute simulator options buffer.size [kernel] s = .ok bs s' ∧
        bs.head? = some b' ∧
        b = buffer.appendEach (getMeasurementCounts b'.measurements) := by
  rw [executeOne, Exec.bind_ok]
  constructor
  · rintro ⟨bs, s1, hbs, h⟩
    obtain ⟨b', hhead, h⟩ := Exec.demand_bind_ok.mp h
    cases h
    exact ⟨bs, b', hbs, hhead, rfl⟩
  · rintro ⟨bs, b', hbs, hhead, rfl⟩
    exact ⟨bs, s', hbs, Exec.demand_bind_ok.mpr ⟨b', hhead, rfl⟩⟩

/-- Nothing is remembered at a call boundary. -/
theorem Reached.clear {s : LocalIBMAccelerator} (h : Reached P s) (k : Nat) :
    s.entries k = [] := by
  have hcall : ∀ {simulator : Json → Except String String} {options : Options}
      {size : Nat} {functions : List (Function (Gate P))}
      {s s' : LocalIBMAccelerator} {bs : List AcceleratorBuffer},
      LocalIBMAccelerator.execute simulator options size functions s = .ok bs s' →
      s'.entries k = [] := by
    intro simulator options size functions s s' bs h
    have hentries := execute_entries simulator options size functions s k
    rwa [h, Exec.after_ok, Exec.succeeds_ok, if_pos rfl] at hentries
  cases h with
  | init => rfl
  | execute _ h => exact hcall h
  | executeOne _ h =>
      obtain ⟨_, _, h, _⟩ := executeOne_ok.mp h
      exact hcall h

/-- **A batch, kernel by kernel.** After any successful calls, the buffers of
a batch are, position by position, those of its kernels alone: every kernel
has one buffer, the same one in this batch, in a call of its own and in a
batch of the same kernels in any other order, from whatever state earlier
successful calls reached. -/
theorem execute_eq_alone {simulator : Json → Except String String}
    {run : Json → Json → Option Json} (hsim : PerCircuit simulator run)
    {options : Options} {size : Nat} {functions : List (Function (Gate P))}
    (hne : functions ≠ []) {s s' : LocalIBMAccelerator} (hs : Reached P s)
    {bs : List AcceleratorBuffer}
    (h : execute simulator options size functions s = .ok bs s') :
    ∃ alone : Function (Gate P) → AcceleratorBuffer,
      bs = functions.map alone ∧
      (∀ kernel ∈ functions, ∀ t, Reached P t → ∃ t',
        execute simulator options size [kernel] t = .ok [alone kernel] t') ∧
      (∀ kernel ∈ functions, ∀ getMeasurementCounts buffer,
        buffer.size = size → ∀ t, Reached P t → ∃ t',
          executeOne getMeasurementCounts simulator options buffer kernel t
            = .ok (buffer.appendEach
                (getMeasurementCounts (alone kernel).measurements)) t') ∧
      ∀ functions' : List (Function (Gate P)), functions'.Perm functions →
        ∀ t, Reached P t → ∃ t',
          execute simulator options size functions' t
            = .ok (functions'.map alone) t' := by
  obtain ⟨config2, hconfig, hall⟩ :=
    (execute_ok_iff hsim hne hs.clear).mp ⟨s', h⟩
  -- What a kernel alone comes to is one buffer, so it is a function.
  have hexec : ∀ kernel, ∃ b, kernel ∈ functions → Executes size config2 run kernel b := by
    intro kernel
    by_cases hk : kernel ∈ functions
    · obtain ⟨j, hj, rfl⟩ := List.getElem_of_mem hk
      obtain ⟨hlen, hget⟩ := List.forall₂_iff_get.mp hall
      exact ⟨_, fun _ => hget j hj (by omega)⟩
    · exact ⟨{ name := kernel.name, size := size }, fun hmem => absurd hmem hk⟩
  choose alone halone using hexec
  have hbatch : ∀ functions' : List (Function (Gate P)), functions' ≠ [] →
      (∀ kernel ∈ functions', kernel ∈ functions) → ∀ t, Reached P t → ∃ t',
        execute simulator options size functions' t
          = .ok (functions'.map alone) t' := by
    intro functions' hne' hsub t ht
    refine (execute_ok_iff hsim hne' ht.clear).mpr ⟨config2, hconfig, ?_⟩
    rw [List.forall₂_map_right_iff, List.forall₂_same]
    exact fun kernel hk => halone kernel (hsub kernel hk)
  have hone : ∀ kernel ∈ functions, ∀ t, Reached P t → ∃ t',
      execute simulator options size [kernel] t = .ok [alone kernel] t' := by
    intro kernel hk
    exact hbatch [kernel] (by simp) fun f hf => by
      rwa [List.mem_singleton.mp hf]
  refine ⟨alone, ?_, hone, ?_, ?_⟩
  · obtain ⟨t', ht'⟩ := hbatch functions hne (fun _ hk => hk) s hs
    rw [h] at ht'
    cases ht'
    rfl
  · intro kernel hk getMeasurementCounts buffer hsize t ht
    obtain ⟨t', ht'⟩ := hone kernel hk t ht
    refine ⟨t', executeOne_ok.mpr ⟨[alone kernel], alone kernel, ?_, rfl, rfl⟩⟩
    rw [hsize]
    exact ht'
  · intro functions' hperm t ht
    refine hbatch functions' ?_ (fun kernel hk => hperm.mem_iff.mp hk) t ht
    rintro rfl
    exact hne hperm.symm.eq_nil

def zeroResult : Json :=
  .obj [("data", .obj [("counts", .obj [("0", .num 1024)])])]

def zeroText : List Char :=
  "\x7b\"data\":\x7b\"counts\":\x7b\"0\":1024\x7d\x7d\x7d".toList

def zeroDocument (circuits : List Json) : List Char :=
  "\x7b\"result\":".toList ++
    (('[' :: ((circuits.map fun _ => zeroText).flatMap (· ++ [','])).dropLast ++
      [']']) ++ ['\x7d'])

/-- A simulator for circuits that measure one qubit as zero. -/
def zeroSimulator (j : Json) : Except String String :=
  match (j.get? "circuits").bind Json.elems? with
  | some circuits => .ok (String.ofList (zeroDocument circuits))
  | none => .error "no circuits"

theorem reads_zeroText : Json.Reads zeroText zeroResult := by
  have hnum : Json.readNumber "1024".toList = some 1024 :=
    Json.readNumber_toString 1024
  have hopen : Json.LexesTo "\x7b\"data\":\x7b\"counts\":\x7b\"0\":".toList
      [.lbrace, .str "data", .colon, .lbrace, .str "counts", .colon, .lbrace,
        .str "0", .colon] := rfl
  have hclose : Json.LexesTo "\x7d\x7d\x7d".toList [.rbrace, .rbrace, .rbrace] :=
    rfl
  exact Json.Reads.of_lexesTo (hopen.append
    (Json.LexesTo.number hnum rfl (by decide) hclose)) rfl fun st => rfl

theorem reads_zeroDocument {circuits : List Json} (hne : circuits ≠ []) :
    Json.Reads (zeroDocument circuits)
      (.obj [("result", .arr (circuits.map fun _ => zeroResult))]) := by
  have htexts : List.Forall₂ Json.Reads (circuits.map fun _ => zeroText)
      (circuits.map fun _ => zeroResult) := by
    rw [List.forall₂_map_left_iff, List.forall₂_map_right_iff, List.forall₂_same]
    exact fun _ _ => reads_zeroText
  obtain ⟨ts, hlex, hrun⟩ := Json.Reads.array htexts (by simpa using hne)
  have hopen : Json.LexesTo "\x7b\"result\":".toList
      [.lbrace, .str "result", .colon] := rfl
  have hclose : Json.LexesTo ['\x7d'] [.rbrace] := rfl
  refine ⟨_, hopen.append (hlex.append hclose), fun st => ?_⟩
  rw [Json.parseRun_append]
  show Json.parseRun (.value (.member [] "result" :: st)) _ = _
  rw [Json.parseRun_append, hrun]
  rfl

theorem zeroSimulator_perCircuit :
    PerCircuit zeroSimulator fun _ _ => some zeroResult := by
  intro config2 circuits hne
  have hmap : circuits.mapM (fun _ => some zeroResult)
      = some (circuits.map fun _ => zeroResult) := by
    rw [Traverse.mapM_eq_some, List.forall₂_map_right_iff, List.forall₂_same]
    exact fun _ _ => rfl
  rw [hmap]
  refine ⟨String.ofList (zeroDocument circuits),
    .obj [("result", .arr (circuits.map fun _ => zeroResult))], ?_, ?_, rfl⟩
  · rw [zeroSimulator, qobj, if_neg hne]
    rfl
  · apply Json.Reads.parse
    rw [String.toList_ofList]
    exact reads_zeroDocument hne

theorem executes_zeroResult {kernel : Function (Gate String)} {v : OpenQasmVisitor}
    (hpass : passAll OpenQasmVisitor.accept kernel.walk
      (OpenQasmVisitor.new 1 false) = .ok () v)
    (hops : (Json.parse v.getOperationsJsonString).isSome = true)
    (hqs : measuredQubits kernel = [0]) (config2 : Json) :
    ∃ b, Executes 1 config2 (fun _ _ => some zeroResult) kernel b := by
  obtain ⟨operations, hoperations⟩ := Option.isSome_iff_exists.mp hops
  obtain ⟨counts, hcounts⟩ : ∃ counts,
      decodeResult 1 (measuredQubits kernel) zeroResult = some counts := by
    rw [hqs]
    exact ⟨_, rfl⟩
  exact ⟨_, _, _, ⟨v, operations, hpass, hoperations, rfl⟩, rfl, rfl, counts,
    hcounts, rfl⟩

def foo : Function (Gate String) := ⟨"foo", true, [.leaf true (.measure 0 0)]⟩

def bar : Function (Gate String) :=
  ⟨"bar", true, [.leaf true (.identity 0), .leaf true (.measure 0 0)]⟩

/-- The theorem at two kernels that measure a fresh qubit. -/
theorem execute_eq_alone_zero :
    ∃ alone : Function (Gate String) → AcceleratorBuffer,
      (∃ s', execute zeroSimulator ∅ 1 [foo, bar] {}
        = .ok [alone foo, alone bar] s') ∧
      (∃ s', execute zeroSimulator ∅ 1 [bar, foo] {}
        = .ok [alone bar, alone foo] s') ∧
      ∃ s', execute zeroSimulator ∅ 1 [bar] {} = .ok [alone bar] s' := by
  obtain ⟨config2, hconfig⟩ : ∃ config2, config ∅ = .ok config2 := ⟨_, rfl⟩
  obtain ⟨b, hb⟩ : ∃ b, Executes 1 config2 (fun _ _ => some zeroResult) foo b :=
    executes_zeroResult rfl (by decide) rfl config2
  obtain ⟨b', hb'⟩ : ∃ b, Executes 1 config2 (fun _ _ => some zeroResult) bar b :=
    executes_zeroResult rfl (by decide) rfl config2
  obtain ⟨s', h⟩ := (execute_ok_iff zeroSimulator_perCircuit (by simp)
    (Reached.init (P := String)).clear).mpr
    ⟨config2, hconfig, .cons hb (.cons hb' .nil)⟩
  obtain ⟨alone, hbs, hone, _, hperm⟩ :=
    execute_eq_alone zeroSimulator_perCircuit (by simp) .init h
  rw [hbs] at h
  exact ⟨alone, ⟨s', h⟩, hperm [bar, foo] (.swap _ _ _) _ .init,
    hone bar (by simp) _ .init⟩

end XaccIbm.LocalIBMAccelerator
