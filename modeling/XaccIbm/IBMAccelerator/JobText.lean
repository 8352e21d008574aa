import XaccIbm.IBMAccelerator.Effects
import XaccIbm.Lib.JsonText

/-!
# IBMAccelerator — JobText

The text of a job as the loops put it together: one text for each kernel,
which depends on the kernel alone, between an opening and an end that depend
on the options and the pulse library.
-/

namespace XaccIbm

open Json StdString Submission

variable {P : Type} [ToString P]

/-- What the iteration of a kernel adds to the text. -/
def Kernel.Adds (size : Nat) (text : String) : Kernel P → Prop
  | .gates f => ∃ v, passAll OpenQasmVisitor.accept f.walk (OpenQasmVisitor.new size false)
        = .ok () v ∧
      text = "\x7b\"qasm\": \"" ++ escapeNewlines v.getOpenQasmString ++ "\"\x7d,"
  | .analog f => ∃ v, passAll OpenPulseVisitor.accept f.walk (OpenPulseVisitor.new f.name)
        = .ok () v ∧
      text = v.getOpenPulseInstructionsJson ++ ","

namespace IBMAccelerator

open Session

/-- The backend whose name a job has. -/
def jobBackend (options : Options) : String :=
  (options.find "ibm-backend").getD defaultBackend

theorem chooseBackend_name {options : Options} {s s' : Session} {name : String}
    (h : chooseBackend options s = .ok name s') : name = jobBackend options := by
  rcases chooseBackend_ok h with ⟨hopt, rfl⟩ | ⟨hopt, _⟩
  · rw [jobBackend, hopt]
    rfl
  · rw [jobBackend, hopt]
    rfl

theorem visitKernel_adds {size kernelCounter : Nat} {kernel : Kernel P} {text : String}
    {ms ms' : Supports} (h : visitKernel size kernelCounter kernel ms = .ok text ms') :
    kernel.Adds size text := by
  cases kernel with
  | gates f =>
      rw [visitKernel, Exec.bind_ok] at h
      obtain ⟨v, _, hsubmit, h⟩ := h
      cases h
      exact ⟨v, ((submitKernel_ok _).mp hsubmit).1, rfl⟩
  | analog f =>
      rw [visitKernel, Exec.bind_ok] at h
      obtain ⟨v, _, hsubmit, h⟩ := h
      cases h
      exact ⟨v, ((submitKernel_ok _).mp hsubmit).1, rfl⟩

/-- The loop adds the texts of its kernels one behind the other. -/
theorem submitKernels_adds {size : Nat} {functions : List (Kernel P)} {kernelCounter : Nat}
    {s s' : Session} {text : String}
    (h : submitKernels size kernelCounter functions s = .ok text s') :
    ∃ texts, List.Forall₂ (fun kernel t => kernel.Adds size t) functions texts ∧
      text = String.join texts := by
  induction functions generalizing kernelCounter s text with
  | nil =>
      cases h
      exact ⟨[], .nil, rfl⟩
  | cons kernel rest ih =>
      rw [submitKernels, Exec.bind_ok] at h
      obtain ⟨t, s1, hvisit, h⟩ := h
      rw [Exec.bind_ok] at h
      obtain ⟨_, s2, _, h⟩ := h
      rw [Exec.bind_ok] at h
      obtain ⟨tail, s3, hrest, h⟩ := h
      cases h
      obtain ⟨texts, hall, rfl⟩ := ih hrest
      refine ⟨t :: texts, .cons ?_ hall, by simp⟩
      unfold onSupports Exec.onPart at hvisit
      split at hvisit
      · rename_i hk
        cases hvisit
        exact visitKernel_adds hk
      · cases hvisit

/-- **The text of a job**, when `processInput` returns it. -/
theorem processInput_text {options : Options} {pulseLibrary : List (String × String)}
    {functions : List (Kernel P)} {s s' : Session} {text : String}
    (h : processInput options pulseLibrary functions s = .ok text s') :
    ∃ texts, List.Forall₂ (fun kernel t => kernel.Adds s.buffer.size t) functions texts ∧
      text = if nAnalogs functions > 0 then
          analogJob (jobBackend options) (shots options) pulseLibrary (String.join texts)
        else qasmJob (jobBackend options) (shots options) (String.join texts) := by
  rw [processInput, Exec.bind_ok] at h
  obtain ⟨name, s1, hchoose, h⟩ := h
  have hafter := chooseBackend_after options s
  rw [hchoose, Exec.after_ok] at hafter
  rw [chooseBackend_name hchoose] at h
  rw [Exec.bind_ok] at h
  obtain ⟨_, s2, hcheck, h⟩ := h
  rw [checkAnalogs_eq] at hcheck
  split at hcheck
  · cases hcheck
  · cases hcheck
    rw [Exec.bind_ok] at h
    obtain ⟨_, _, hget, h⟩ := h
    cases hget
    rw [Exec.bind_ok] at h
    obtain ⟨tail, s3, hsubmit, h⟩ := h
    rw [Exec.bind_ok] at h
    obtain ⟨_, s4, _, h⟩ := h
    cases h
    obtain ⟨texts, hall, rfl⟩ := submitKernels_adds hsubmit
    rw [hafter] at hall
    exact ⟨texts, hall, rfl⟩

/-- The end of a job is read as its last member. -/
theorem lexesTo_backendText {backendName : String} (h : Plain backendName) :
    LexesTo (backendText backendName).toList
      [.str "backend", .colon, .lbrace, .str "name", .colon, .str backendName, .rbrace,
        .rbrace] := by
  have hopen : lexRun .idle "\"backend\": \x7b\"name\": \"".toList
      = some (.str [], [.str "backend", .colon, .lbrace, .str "name", .colon]) := rfl
  have hclose : LexesTo "\x7d\x7d".toList [.rbrace, .rbrace] := rfl
  have hquote : "\"\x7d\x7d".toList = '"' :: "\x7d\x7d".toList := rfl
  unfold backendText
  rw [String.toList_append, String.toList_append, hquote, List.append_assoc]
  exact LexesTo.plain hopen h hclose

end IBMAccelerator

end XaccIbm
