import XaccIbm.IBMAccelerator.Results
import XaccIbm.LocalIBMAccelerator.Batch

/-!
# Accelerator — Failures

Calls that fail among calls that return, on either accelerator.
`measurementSupports` is a ledger: its slots are the numbers of the kernels,
a failed call leaves there what its submission loop remembered before it
stopped, and a call that returns decodes for everything it finds and clears
it. So a call decodes for its own measured qubits when no call that failed
since the last that returned has remembered a qubit under a number it reads.
-/

namespace XaccIbm

open Decode Submission

variable {P : Type}

namespace LocalIBMAccelerator

/-- One call of `execute` on a list of functions. -/
structure Call (P : Type) where
  simulator : Json → Except String String
  options : Options
  size : Nat
  functions : List (Function (Gate P))

namespace Call

variable [ToString P]

def execute (c : Call P) : Exec LocalIBMAccelerator (List AcceleratorBuffer) :=
  LocalIBMAccelerator.execute c.simulator c.options c.size c.functions

/-- The accelerator after a call, however it ends. -/
def next (c : Call P) (s : LocalIBMAccelerator) : LocalIBMAccelerator :=
  Exec.after (c.execute s)

/-- A call in the ledger. -/
def entry (c : Call P) (s : LocalIBMAccelerator) : Ledger.Call Nat where
  written := Ledger.written (accepted c.size) (rememberedQubits c.size) c.functions
  succeeds := Exec.succeeds (c.execute s)

theorem entries_next (c : Call P) (s : LocalIBMAccelerator) :
    (c.next s).entries = (c.entry s).after s.entries := by
  funext k
  rw [next, execute, execute_entries]
  exact (Ledger.Call.after_apply (c.entry s) s.entries k).symm

/-- The accelerator when the results of a call are decoded. -/
def submitted (c : Call P) (s : LocalIBMAccelerator) : LocalIBMAccelerator :=
  Exec.after (onSupports (submitCircuits c.size 0 c.functions) s)

/-- What the simulator answers to the document of a call. -/
def Answers (c : Call P) (s : LocalIBMAccelerator) (results : List Json) : Prop :=
  ∃ circuits s1 config2 text document result,
    onSupports (submitCircuits c.size 0 c.functions) s = .ok circuits s1 ∧
    config c.options = .ok config2 ∧
    c.simulator (qobj circuits config2) = .ok text ∧
    Json.parse text = some document ∧
    subscript document "result" = some result ∧ results = range result

/-- **A call that returns decodes for its own kernels**: each buffer is the
answer for its kernel, decoded for the qubits that kernel measures. -/
def DecodesOwn (c : Call P) (s : LocalIBMAccelerator) : Prop :=
  ∀ bs s', c.execute s = .ok bs s' → ∃ results, c.Answers s results ∧
    ∀ (i : Nat) kernel result b, c.functions[i]? = some kernel →
      results[i]? = some result → bs[i]? = some b →
      (c.submitted s).entries i = measuredQubits kernel ∧
        Stores c.size kernel.name ((c.submitted s).entries i) result b

/-- A call returns and decodes the result of its `i`-th kernel. -/
def Reads (c : Call P) (s : LocalIBMAccelerator) (i : Nat) : Prop :=
  (∃ bs s', c.execute s = .ok bs s') ∧ i < c.functions.length ∧
    ∃ results, c.Answers s results ∧ i < results.length

theorem Answers.unique {c : Call P} {s : LocalIBMAccelerator}
    {results results' : List Json} (h : c.Answers s results)
    (h' : c.Answers s results') : results = results' := by
  obtain ⟨circuits, s1, config2, text, document, result, hsub, hconfig, htext,
    hparse, hget, rfl⟩ := h
  obtain ⟨circuits', s1', config2', text', document', result', hsub', hconfig',
    htext', hparse', hget', rfl⟩ := h'
  rw [hsub] at hsub'
  cases hsub'
  rw [hconfig] at hconfig'
  cases hconfig'
  rw [htext] at htext'
  cases htext'
  rw [hparse] at hparse'
  cases hparse'
  rw [hget] at hget'
  cases hget'
  rfl

/-- What a call that returns decodes for. -/
theorem stores_of_execute {c : Call P} {s s' : LocalIBMAccelerator}
    {bs : List AcceleratorBuffer} (h : c.execute s = .ok bs s') :
    ∃ results, c.Answers s results ∧ bs.length = results.length ∧
      ∀ (i : Nat) kernel result b, c.functions[i]? = some kernel →
        results[i]? = some result → bs[i]? = some b →
        (c.submitted s).entries i = s.entries i ++ measuredQubits kernel ∧
          Stores c.size kernel.name ((c.submitted s).entries i) result b := by
  rw [execute, LocalIBMAccelerator.execute, Exec.bind_ok] at h
  obtain ⟨circuits, s1, hsub, h⟩ := h
  obtain ⟨config2, text, document, result, hconfig, htext, hparse, hget, s2,
    hstore⟩ := simulate_ok.mp ⟨s', h⟩
  obtain ⟨hlen, hall⟩ := storeResults_ok.mp ⟨s2, hstore⟩
  have hsubmitted : c.submitted s = s1 := by
    rw [submitted, hsub, Exec.after_ok]
  refine ⟨range result, ⟨circuits, s1, config2, text, document, result, hsub,
    hconfig, htext, hparse, hget, rfl⟩, hlen, ?_⟩
  intro i kernel r b hk hr hb
  obtain ⟨name, hname, hst⟩ := hall i r b hr hb
  rw [Nat.zero_add] at hname hst
  rw [List.getElem?_map, hk] at hname
  cases hname
  rw [hsubmitted]
  refine ⟨?_, hst⟩
  obtain ⟨ms, hms, rfl⟩ := onSupports_ok.mp hsub
  have hentries := submitCircuits_entries hms i
  rw [hk] at hentries
  exact hentries

/-- **One call**: nothing must be there under the numbers it reads. -/
theorem decodesOwn_iff (c : Call P) (s : LocalIBMAccelerator) :
    c.DecodesOwn s ↔ ∀ i, c.Reads s i → s.entries i = [] := by
  constructor
  · rintro hown i ⟨⟨bs, s', h⟩, hi, results', hanswers', hr⟩
    obtain ⟨results, hanswers, hlen, hall⟩ := stores_of_execute h
    obtain ⟨results'', hanswers'', hown⟩ := hown bs s' h
    obtain rfl := hanswers.unique hanswers'
    obtain rfl := hanswers.unique hanswers''
    have hk := List.getElem?_eq_getElem hi
    have hri := List.getElem?_eq_getElem hr
    have hbi := List.getElem?_eq_getElem (show i < bs.length by omega)
    have hread := (hown i _ _ _ hk hri hbi).1
    rw [(hall i _ _ _ hk hri hbi).1] at hread
    exact List.append_left_eq_self.mp hread
  · intro hclean bs s' h
    obtain ⟨results, hanswers, hlen, hall⟩ := stores_of_execute h
    refine ⟨results, hanswers, fun i kernel result b hk hr hb => ?_⟩
    obtain ⟨hread, hst⟩ := hall i kernel result b hk hr hb
    have hempty := hclean i ⟨⟨bs, s', h⟩, (List.getElem?_eq_some_iff.mp hk).1,
      results, hanswers, (List.getElem?_eq_some_iff.mp hr).1⟩
    rw [hempty, List.nil_append] at hread
    exact ⟨hread, hst⟩

end Call

end LocalIBMAccelerator

namespace Run

open IBMAccelerator

variable [ToString P]

/-- A run in the ledger. -/
def entry (r : Run P) (acc : IBMAccelerator) : Ledger.Call Nat where
  written := writtenQubits acc r.options r.buffer.size r.functions
  succeeds := Exec.succeeds (r.execute (r.start acc))

theorem entries_next (r : Run P) (acc : IBMAccelerator) :
    (fun k => (r.next acc).measurementSupports.getD k [])
      = (r.entry acc).after fun k => acc.measurementSupports.getD k [] := by
  funext k
  rw [next, execute_after]
  exact (Ledger.Call.after_apply (r.entry acc)
    (fun k => acc.measurementSupports.getD k []) k).symm

/-- **A run that returns decodes for its own kernels.** -/
def DecodesOwn (r : Run P) (acc : IBMAccelerator) : Prop :=
  ∀ bs s', r.execute (r.start acc) = .ok bs s' →
    ∃ qasms s, r.awaited (r.start acc) = .ok qasms s ∧
      ∀ (i : Nat) kernel qasm b, r.functions[i]? = some kernel →
        qasms[i]? = some qasm → bs[i]? = some b →
        s.acc.measurementSupports.getD i [] = kernel.measuredQubits ∧
          ∃ name, Stores s.acc.chosenBackend.isSimulator r.buffer.size name
            (s.acc.measurementSupports.getD i []) qasm b

/-- A run returns and decodes the result of its `i`-th kernel for what is
under `i`; one result alone is decoded for no qubits at all. -/
def Reads (r : Run P) (acc : IBMAccelerator) (i : Nat) : Prop :=
  (∃ bs s', r.execute (r.start acc) = .ok bs s') ∧ i < r.functions.length ∧
    ∃ qasms s, r.awaited (r.start acc) = .ok qasms s ∧ qasms.length ≠ 1 ∧
      i < qasms.length

/-- **One run**: nothing must be there under the numbers it reads. -/
theorem decodesOwn_iff (r : Run P) (acc : IBMAccelerator) :
    r.DecodesOwn acc ↔
      ∀ i, r.Reads acc i → acc.measurementSupports.getD i [] = [] := by
  constructor
  · rintro hown i ⟨⟨bs, s', h⟩, hi, qasms, s, hawaited, hne, hq⟩
    obtain ⟨qasms', t, hawaited', hown⟩ := hown bs s' h
    rw [hawaited] at hawaited'
    cases hawaited'
    obtain ⟨qasms', t, hawaited', hstore⟩ := execute_ok.mp h
    rw [hawaited] at hawaited'
    cases hawaited'
    obtain ⟨_, _, _, hread⟩ := awaited_ok hawaited
    rcases (storeJob_ok hstore).2 with ⟨qasm, _, rfl, _, _⟩ | ⟨_, s1, hseveral, _⟩
    · exact absurd rfl hne
    · have hlen := (storeSeveral_ok hseveral).2.2.1
      have hk := List.getElem?_eq_getElem hi
      have hown' := (hown i _ _ _ hk (List.getElem?_eq_getElem hq)
        (List.getElem?_eq_getElem (show i < bs.length by omega))).1
      rw [hread, hk] at hown'
      exact List.append_left_eq_self.mp hown'
  · intro hclean bs s' h
    obtain ⟨qasms, s, hawaited, hstore⟩ := execute_ok.mp h
    obtain ⟨hbuf, _, _, hread⟩ := awaited_ok hawaited
    refine ⟨qasms, s, hawaited, fun i kernel qasm b hk hq hb => ?_⟩
    rcases (storeJob_ok hstore).2 with ⟨_, s1, _, halone, _⟩ | ⟨hne, s1, hseveral, _⟩
    · rw [(storeAlone_ok halone).1] at hb
      simp at hb
    · have hempty := hclean i ⟨⟨bs, s', h⟩, (List.getElem?_eq_some_iff.mp hk).1,
        qasms, s, hawaited, hne, (List.getElem?_eq_some_iff.mp hq).1⟩
      obtain ⟨name, _, hst⟩ := (storeSeveral_ok hseveral).2.2.2 i qasm b hq hb
      rw [hbuf] at hst
      refine ⟨?_, name, hst⟩
      rw [hread, hk, hempty]
      rfl

end Run

variable [ToString P]

/-- **Failures over a history.** On either accelerator, every call that
returns decodes for its own kernels if and only if no call that failed since
the last that returned has remembered a qubit under a number it reads. -/
theorem failures_decodesOwn_iff (acc : IBMAccelerator)
    (calls : List (LocalIBMAccelerator.Call P)) (runs : List (Run P)) :
    ((∀ earlier c later, calls = earlier ++ c :: later →
        c.DecodesOwn (Ledger.stateAfter LocalIBMAccelerator.Call.next {} earlier)) ↔
      ∀ earlier c later, calls = earlier ++ c :: later →
        ∀ i, c.Reads (Ledger.stateAfter LocalIBMAccelerator.Call.next {} earlier) i →
          Ledger.Clean (Ledger.calls LocalIBMAccelerator.Call.next
            LocalIBMAccelerator.Call.entry {} earlier) i) ∧
    ((∀ earlier r later, runs = earlier ++ r :: later →
        r.DecodesOwn (Ledger.stateAfter Run.next (IBMAccelerator.withoutSupports acc)
          earlier)) ↔
      ∀ earlier r later, runs = earlier ++ r :: later →
        ∀ i, r.Reads (Ledger.stateAfter Run.next
            (IBMAccelerator.withoutSupports acc) earlier) i →
          Ledger.Clean (Ledger.calls Run.next Run.entry
            (IBMAccelerator.withoutSupports acc) earlier) i) := by
  constructor
  · exact Ledger.history_iff _ _ LocalIBMAccelerator.Call.entries_next
      (funext fun k => StdMap.getD_empty k []) LocalIBMAccelerator.Call.decodesOwn_iff calls
  · exact Ledger.history_iff _ _ Run.entries_next
      (funext fun k => StdMap.getD_empty k []) Run.decodesOwn_iff runs

/-- A kernel the visitor stops in, once it has measured qubit 1. -/
def stopped : Function (Gate String) :=
  ⟨"stopped", true, [.leaf true (.measure 1 0), .leaf true (.cz 0 1)]⟩

/-- A call on one kernel for two qubits. -/
def callOn (kernel : Function (Gate String)) : LocalIBMAccelerator.Call String :=
  ⟨LocalIBMAccelerator.zeroSimulator, ∅, 2, [kernel]⟩

/-- Qubit 1 is still remembered when the next call measures qubit 0. -/
theorem stopped_not_decodesOwn :
    ¬ ((∀ (calls : List (LocalIBMAccelerator.Call String)) earlier c later,
          calls = earlier ++ c :: later →
          c.DecodesOwn (Ledger.stateAfter LocalIBMAccelerator.Call.next {}
            earlier)) ∧
        ∀ acc (runs : List (Run String)) earlier r later,
          runs = earlier ++ r :: later →
          r.DecodesOwn (Ledger.stateAfter Run.next
            (IBMAccelerator.withoutSupports acc) earlier)) := by
  rintro ⟨hlocal, _⟩
  have hown := hlocal _ [callOn stopped] (callOn LocalIBMAccelerator.foo) [] rfl
  -- the first call fails after it has remembered a qubit for kernel 0
  have hremembered : (Ledger.stateAfter LocalIBMAccelerator.Call.next {}
      [callOn stopped]).entries 0 = [1] := by
    decide +kernel
  generalize hs : Ledger.stateAfter LocalIBMAccelerator.Call.next {}
    [callOn stopped] = s at hown hremembered
  have hreturns : (match (callOn LocalIBMAccelerator.foo).execute s with
      | .ok bs _ => bs.length == 1
      | .error _ _ => false) = true := by
    rw [← hs]
    decide +kernel
  cases h : (callOn LocalIBMAccelerator.foo).execute s with
  | error e s' =>
      rw [h] at hreturns
      cases hreturns
  | ok bs s' =>
      rw [h] at hreturns
      have hone : bs.length = 1 := by simpa using hreturns
      obtain ⟨results, hanswers, hlen, _⟩ :=
        LocalIBMAccelerator.Call.stores_of_execute h
      have hempty := (LocalIBMAccelerator.Call.decodesOwn_iff _ _).mp hown 0
        ⟨⟨bs, s', h⟩, Nat.zero_lt_one, results, hanswers, by omega⟩
      rw [hremembered] at hempty
      cases hempty

end XaccIbm
