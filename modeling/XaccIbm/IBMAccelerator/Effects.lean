import XaccIbm.IBMAccelerator.ProcessResponse
import XaccIbm.Lib.Ledger

/-!
# IBMAccelerator — Effects

What each part of a run writes. The requests write nothing but the replies;
the choice of the backend writes `chosenBackend`; the submission loop writes
`measurementSupports` and `kernelNames`, up to the kernel it fails at; and
storing the results writes buffers and clears `measurementSupports`.
-/

namespace XaccIbm

open Decode Submission

namespace Kernel

variable {P : Type} [ToString P]

/-- The qubits a submission of the kernel remembers, fail or not. -/
def rememberedQubits (size : Nat) : Kernel P → List Nat
  | gates f => Submission.rememberedQubits OpenQasmVisitor.accept
      (OpenQasmVisitor.new size false) f
  | analog f => Submission.rememberedQubits OpenPulseVisitor.accept
      (OpenPulseVisitor.new f.name) f

/-- Whether the visitor accepts the kernel. -/
def accepted (size : Nat) : Kernel P → Bool
  | gates f => Exec.succeeds (passAll OpenQasmVisitor.accept f.walk
      (OpenQasmVisitor.new size false))
  | analog f => Exec.succeeds (passAll OpenPulseVisitor.accept f.walk
      (OpenPulseVisitor.new f.name))

/-- An accepted kernel is remembered whole. -/
theorem rememberedQubits_of_accepted {size : Nat} {kernel : Kernel P}
    (h : kernel.accepted size = true) :
    kernel.rememberedQubits size = kernel.measuredQubits := by
  cases kernel with
  | gates f =>
      obtain ⟨_, v, hv⟩ := Exec.succeeds_iff.mp h
      exact Submission.rememberedQubits_of_ok _ hv
  | analog f =>
      obtain ⟨_, v, hv⟩ := Exec.succeeds_iff.mp h
      exact Submission.rememberedQubits_of_ok _ hv

end Kernel

namespace IBMAccelerator

open Session

/-! ## Requests -/

/-- The accelerator and the caller's buffer. -/
def kept (s : Session) : IBMAccelerator × AcceleratorBuffer := (s.acc, s.buffer)

theorem restGet_keeps (url path : String) : Exec.Keeps kept (restGet url path) := by
  intro s
  unfold restGet
  cases s.replies with
  | nil => rfl
  | cons reply rest =>
      dsimp only
      cases reply url path <;> rfl

theorem pollDevice_keeps (checkBackend : String) (fuel : Nat) :
    Exec.Keeps kept (pollDevice checkBackend fuel) := by
  induction fuel with
  | zero => exact .throw _
  | succ fuel ih =>
      exact .bind .get fun s => .bind (restGet_keeps _ _) fun _ =>
        .bind (.demand _) fun status => .ite (.pure _) ih

theorem awaitDevice_keeps (backendName : String) :
    Exec.Keeps kept (awaitDevice backendName) :=
  .ite (.pure _) (.bind .get fun _ => pollDevice_keeps _ _)

theorem pollJob_keeps (getPath : String) (fuel : Nat) :
    Exec.Keeps kept (pollJob getPath fuel) := by
  induction fuel with
  | zero => exact .throw _
  | succ fuel ih =>
      exact .bind .get fun s => .bind (restGet_keeps _ _) fun _ =>
        .ite (.throw _) (.bind (.demand _) fun _ => .bind (.demand _) fun _ =>
          .ite (.pure _) ih)

theorem awaitJob_keeps (response : String) :
    Exec.Keeps kept (awaitJob response) :=
  .ite (.throw _) (.bind .get fun _ => .bind (.demand _) fun _ =>
    .bind (restGet_keeps _ _) fun _ => .bind (pollJob_keeps _ _) fun _ =>
      .demand _)

/-! ## The choice of the backend -/

/-- The backend of the option, when it is set, known and on. -/
def optionBackend (backends : StdMap String IBMBackend) (options : Options) :
    Option IBMBackend :=
  ((options.find "ibm-backend").bind backends.find).filter IBMBackend.status

/-- The accelerator once the options had their say. -/
def choose (options : Options) (acc : IBMAccelerator) : IBMAccelerator :=
  { acc with
    chosenBackend :=
      (optionBackend acc.availableBackends options).getD acc.chosenBackend }

theorem chooseBackend_after (options : Options) (s : Session) :
    Exec.after (chooseBackend options s)
      = { s with acc := choose options s.acc } := by
  unfold chooseBackend choose optionBackend
  cases options.find "ibm-backend" with
  | none => rfl
  | some b =>
      simp only [useBackend, Option.bind_some]
      cases s.acc.availableBackends.find b with
      | none => rfl
      | some backend =>
          cases hst : backend.status <;> simp [hst, Option.filter]

/-- The name that is chosen: the default one, or that of the chosen
backend. -/
theorem chooseBackend_ok {options : Options} {s s' : Session} {name : String}
    (h : chooseBackend options s = .ok name s') :
    (options.find "ibm-backend" = none ∧ name = defaultBackend) ∨
      options.find "ibm-backend" = some name ∧
        s.acc.availableBackends.find name = some s'.acc.chosenBackend := by
  unfold chooseBackend at h
  cases hopt : options.find "ibm-backend" with
  | none =>
      rw [hopt] at h
      cases h
      exact .inl ⟨rfl, rfl⟩
  | some b =>
      simp only [hopt, useBackend] at h
      cases hb : s.acc.availableBackends.find b with
      | none =>
          rw [hb] at h
          cases h
      | some backend =>
          simp only [hb] at h
          split at h
          · cases h
            exact .inr ⟨rfl, hb⟩
          · cases h

/-! ## The submission loop -/

variable {P : Type}

/-- An accelerator without the two members the submission loop writes. -/
def withoutLoop (acc : IBMAccelerator) : IBMAccelerator :=
  { acc with measurementSupports := ∅, kernelNames := [] }

theorem backends_of_withoutLoop {acc acc' : IBMAccelerator}
    (h : withoutLoop acc = withoutLoop acc') :
    acc.chosenBackend = acc'.chosenBackend ∧
      acc.availableBackends = acc'.availableBackends :=
  ⟨congrArg (fun a => a.chosenBackend) h, congrArg (fun a => a.availableBackends) h⟩

/-- What neither the submission loop nor a request writes. -/
def frame (s : Session) : IBMAccelerator × AcceleratorBuffer :=
  (withoutLoop s.acc, s.buffer)

theorem frame_of_kept {α : Type} {x : Exec Session α} (h : Exec.Keeps kept x) :
    Exec.Keeps frame x :=
  h.sub fun p => (withoutLoop p.1, p.2)

theorem onSupports_frame {α : Type} (x : Exec Supports α) :
    Exec.Keeps frame (onSupports x) := by
  intro s
  unfold onSupports Exec.onPart
  cases x s.acc.measurementSupports <;> rfl

theorem onSupports_after {α : Type} (x : Exec Supports α) (s : Session) :
    (Exec.after (onSupports x s)).acc.measurementSupports
      = Exec.after (x s.acc.measurementSupports) := by
  unfold onSupports Exec.onPart
  cases x s.acc.measurementSupports <;> rfl

theorem onSupports_names {α : Type} (x : Exec Supports α) (s : Session) :
    (Exec.after (onSupports x s)).acc.kernelNames = s.acc.kernelNames := by
  unfold onSupports Exec.onPart
  cases x s.acc.measurementSupports <;> rfl

theorem onSupports_succeeds {α : Type} (x : Exec Supports α) (s : Session) :
    Exec.succeeds (onSupports x s) = Exec.succeeds (x s.acc.measurementSupports) := by
  unfold onSupports Exec.onPart
  cases x s.acc.measurementSupports <;> rfl

section

variable [ToString P]

theorem visitKernel_after (size kernelCounter : Nat) (kernel : Kernel P)
    (ms : Supports) (k : Nat) :
    (Exec.after (visitKernel size kernelCounter kernel ms)).getD k []
      = ms.getD k [] ++
        if k = kernelCounter then kernel.rememberedQubits size else [] := by
  cases kernel with
  | gates f =>
      rw [visitKernel, Exec.after_bind_pure]
      exact submitKernel_after _ _ _ _ _ _
  | analog f =>
      rw [visitKernel, Exec.after_bind_pure]
      exact submitKernel_after _ _ _ _ _ _

theorem visitKernel_succeeds (size kernelCounter : Nat) (kernel : Kernel P)
    (ms : Supports) :
    Exec.succeeds (visitKernel size kernelCounter kernel ms)
      = kernel.accepted size := by
  cases kernel with
  | gates f =>
      rw [visitKernel, Exec.succeeds_bind_pure, submitKernel_succeeds]
      rfl
  | analog f =>
      rw [visitKernel, Exec.succeeds_bind_pure, submitKernel_succeeds]
      rfl

theorem submitKernels_frame (size : Nat) (functions : List (Kernel P))
    (kernelCounter : Nat) :
    Exec.Keeps frame (submitKernels size kernelCounter functions) := by
  induction functions generalizing kernelCounter with
  | nil => exact .pure _
  | cons kernel rest ih =>
      exact .bind (onSupports_frame _) fun _ => .bind (.modify fun _ => rfl)
        fun _ => .bind (ih _) fun _ => .pure _

/-- A kernel the visitor rejects ends the loop. -/
theorem submitKernels_cons_rejected {size kernelCounter : Nat}
    {kernel : Kernel P} {rest : List (Kernel P)} {s : Session}
    (h : kernel.accepted size = false) :
    Exec.succeeds (submitKernels size kernelCounter (kernel :: rest) s) = false ∧
      Exec.after (submitKernels size kernelCounter (kernel :: rest) s)
        = Exec.after (onSupports (visitKernel size kernelCounter kernel) s) := by
  have hs := onSupports_succeeds (visitKernel size kernelCounter kernel) s
  rw [visitKernel_succeeds, h] at hs
  rw [submitKernels, Exec.bind_apply]
  cases hx : onSupports (visitKernel size kernelCounter kernel) s with
  | ok text s' =>
      rw [hx] at hs
      cases hs
  | error e s' => exact ⟨rfl, rfl⟩

/-- After a kernel it accepts, the loop goes on. -/
theorem submitKernels_cons_accepted {size : Nat} {kernel : Kernel P}
    (h : kernel.accepted size = true) (kernelCounter : Nat)
    (rest : List (Kernel P)) (s : Session) :
    ∃ s1, (∀ k, s1.acc.measurementSupports.getD k []
        = s.acc.measurementSupports.getD k [] ++
          if k = kernelCounter then kernel.rememberedQubits size else []) ∧
      s1.acc.kernelNames = s.acc.kernelNames ++ [kernel.name] ∧
      Exec.succeeds (submitKernels size kernelCounter (kernel :: rest) s)
        = Exec.succeeds (submitKernels size (kernelCounter + 1) rest s1) ∧
      Exec.after (submitKernels size kernelCounter (kernel :: rest) s)
        = Exec.after (submitKernels size (kernelCounter + 1) rest s1) := by
  have hs := onSupports_succeeds (visitKernel size kernelCounter kernel) s
  have hafter := onSupports_after (visitKernel size kernelCounter kernel) s
  have hnames := onSupports_names (visitKernel size kernelCounter kernel) s
  rw [visitKernel_succeeds, h] at hs
  rw [submitKernels, Exec.bind_apply]
  cases hx : onSupports (visitKernel size kernelCounter kernel) s with
  | error e s' =>
      rw [hx] at hs
      cases hs
  | ok text s' =>
      rw [hx, Exec.after_ok] at hafter hnames
      refine ⟨{ s' with acc := { s'.acc with
        kernelNames := s'.acc.kernelNames ++ [kernel.name] } }, ?_, ?_, ?_, ?_⟩
      · intro k
        rw [hafter, visitKernel_after]
      · rw [hnames]
      · exact Exec.succeeds_bind_pure _ _ _
      · exact Exec.after_bind_pure _ _ _

/-- **What the submission loop remembers**, fail or not: each kernel under
its own number, up to the kernel that is rejected. -/
theorem submitKernels_after (size : Nat) (functions : List (Kernel P))
    (kernelCounter : Nat) (s : Session) (k : Nat) :
    (Exec.after (submitKernels size kernelCounter functions s)).acc.measurementSupports.getD
        k []
      = s.acc.measurementSupports.getD k [] ++
        if k < kernelCounter then [] else
          Ledger.written (Kernel.accepted size) (Kernel.rememberedQubits size)
            functions (k - kernelCounter) := by
  refine Ledger.slots_loop (Kernel.accepted size) (Kernel.rememberedQubits size)
    (fun s k => s.acc.measurementSupports.getD k [])
    (fun n items s => Exec.after (submitKernels size n items s))
    (fun _ _ => rfl) ?_ functions kernelCounter s k
  intro n kernel rest s
  cases hacc : kernel.accepted size with
  | false =>
      refine ⟨Exec.after (onSupports (visitKernel size n kernel) s), ?_, ?_⟩
      · intro k
        rw [onSupports_after, visitKernel_after]
      · rw [(submitKernels_cons_rejected hacc).2]
        rfl
  | true =>
      obtain ⟨s1, hs1, _, _, hafter⟩ := submitKernels_cons_accepted hacc n rest s
      exact ⟨s1, hs1, by rw [hafter]; rfl⟩

/-- A submission loop that succeeds has accepted and named every kernel. -/
theorem submitKernels_ok {size : Nat} {functions : List (Kernel P)}
    {kernelCounter : Nat} {s : Session}
    (h : Exec.succeeds (submitKernels size kernelCounter functions s) = true) :
    (∀ kernel ∈ functions, kernel.accepted size = true) ∧
      (Exec.after (submitKernels size kernelCounter functions s)).acc.kernelNames
        = s.acc.kernelNames ++ functions.map Kernel.name := by
  induction functions generalizing kernelCounter s with
  | nil => exact ⟨by simp, by simp [submitKernels]⟩
  | cons kernel rest ih =>
      cases hacc : kernel.accepted size with
      | false =>
          rw [(submitKernels_cons_rejected hacc).1] at h
          cases h
      | true =>
          obtain ⟨s1, _, hnames, hsucc, hafter⟩ :=
            submitKernels_cons_accepted hacc kernelCounter rest s
          rw [hsucc] at h
          obtain ⟨hall, hrest⟩ := ih h
          refine ⟨?_, ?_⟩
          · intro f hf
            rcases List.mem_cons.mp hf with rfl | hf
            · exact hacc
            · exact hall f hf
          · rw [hafter, hrest, hnames, List.append_assoc]
            rfl

end

/-! ## The whole of `processInput` -/

/-- Whether the checks let a run pass to its submission loop. -/
def admitted (acc : IBMAccelerator) (options : Options)
    (functions : List (Kernel P)) : Bool :=
  ((options.find "ibm-backend").isNone ||
      (optionBackend acc.availableBackends options).isSome) &&
    !(decide (nAnalogs functions > 0 ∧ nAnalogs functions ≠ functions.length))

theorem chooseBackend_succeeds (options : Options) (s : Session) :
    Exec.succeeds (chooseBackend options s)
      = ((options.find "ibm-backend").isNone ||
          (optionBackend s.acc.availableBackends options).isSome) := by
  unfold chooseBackend optionBackend
  cases options.find "ibm-backend" with
  | none => rfl
  | some b =>
      simp only [useBackend, Option.bind_some]
      cases s.acc.availableBackends.find b with
      | none => rfl
      | some backend =>
          cases hst : backend.status <;> simp [hst, Option.filter]

theorem checkAnalogs_eq (functions : List (Kernel P)) (s : Session) :
    checkAnalogs functions s =
      if nAnalogs functions > 0 ∧ nAnalogs functions ≠ functions.length then
        .error (.error ("Cannot mix OpenQasm and OpenPulse executions. You have " ++
          toString functions.length ++ " functions but " ++
          toString (nAnalogs functions) ++ " analog functions.")) s
      else .ok () s := by
  unfold checkAnalogs
  split <;> rfl

variable [ToString P]

/-- The qubits a run adds to the entry of a number before it stops. -/
def writtenQubits (acc : IBMAccelerator) (options : Options) (size : Nat)
    (functions : List (Kernel P)) (k : Nat) : List Nat :=
  if admitted acc options functions then
    Ledger.written (Kernel.accepted size) (Kernel.rememberedQubits size) functions k
  else []

theorem processInput_frame (options : Options)
    (pulseLibrary : List (String × String)) (functions : List (Kernel P))
    (s : Session) :
    frame (Exec.after (processInput options pulseLibrary functions s))
      = (withoutLoop (choose options s.acc), s.buffer) := by
  have hchoose := chooseBackend_after options s
  rw [processInput, Exec.bind_apply]
  cases hc : chooseBackend options s with
  | error e s1 =>
      rw [hc, Exec.after_error] at hchoose
      rw [hchoose]
      rfl
  | ok name s1 =>
      rw [hc, Exec.after_ok] at hchoose
      have hrest : Exec.Keeps frame (do
          checkAnalogs functions
          let s ← get
          let texts ← submitKernels s.buffer.size 0 functions
          awaitDevice name
          pure (if nAnalogs functions > 0 then
              analogJob name (shots options) pulseLibrary texts
            else qasmJob name (shots options) texts)) :=
        .bind (.ite (.throw _) (.pure _)) fun _ => .bind .get fun _ =>
          .bind (submitKernels_frame _ _ _) fun _ =>
            .bind (frame_of_kept (awaitDevice_keeps _)) fun _ => .pure _
      rw [hrest s1, hchoose]
      rfl

/-- **What `processInput` remembers**, fail or not. -/
theorem processInput_after (options : Options)
    (pulseLibrary : List (String × String)) (functions : List (Kernel P))
    (s : Session) (k : Nat) :
    (Exec.after (processInput options pulseLibrary functions
        s)).acc.measurementSupports.getD k []
      = s.acc.measurementSupports.getD k [] ++
        writtenQubits s.acc options s.buffer.size functions k := by
  have hchoose := chooseBackend_after options s
  have hsucc := chooseBackend_succeeds options s
  rw [processInput, Exec.bind_apply, writtenQubits, admitted, ← hsucc]
  cases hc : chooseBackend options s with
  | error e s1 =>
      rw [hc, Exec.after_error] at hchoose
      rw [hchoose]
      simp [choose]
  | ok name s1 =>
      rw [hc, Exec.after_ok] at hchoose
      simp only
      rw [Exec.bind_apply, checkAnalogs_eq]
      by_cases hmix : nAnalogs functions > 0 ∧ nAnalogs functions ≠ functions.length
      · rw [if_pos hmix]
        simp [hmix, hchoose, choose]
      · have hsub := submitKernels_after s1.buffer.size functions 0 s1 k
        have hsize : s1.buffer = s.buffer := by rw [hchoose]
        have hms : s1.acc.measurementSupports = s.acc.measurementSupports := by
          rw [hchoose]
          rfl
        rw [hms, if_neg (Nat.not_lt_zero k), Nat.sub_zero] at hsub
        rw [if_neg hmix, Exec.succeeds_ok, Bool.true_and, decide_eq_false hmix,
          Bool.not_false, if_pos rfl, ← hsize, ← hsub]
        -- Nothing after the submission loop writes the accelerator.
        have htail := Exec.Keeps.after_bind
          (x := submitKernels s1.buffer.size 0 functions) (fun texts =>
            Exec.Keeps.bind (awaitDevice_keeps name) fun _ => Exec.Keeps.pure
            (if nAnalogs functions > 0 then
                analogJob name (shots options) pulseLibrary texts
              else qasmJob name (shots options) texts)) s1
        exact congrArg (fun p => p.1.measurementSupports.getD k []) htail

/-- What is known when `processInput` returns. -/
theorem processInput_ok {options : Options}
    {pulseLibrary : List (String × String)} {functions : List (Kernel P)}
    {s s' : Session} {text : String}
    (h : processInput options pulseLibrary functions s = .ok text s') :
    admitted s.acc options functions = true ∧
      (∀ kernel ∈ functions, kernel.accepted s.buffer.size = true) ∧
      s'.acc.kernelNames = s.acc.kernelNames ++ functions.map Kernel.name := by
  have hchoose := chooseBackend_after options s
  have hsucc := chooseBackend_succeeds options s
  rw [processInput, Exec.bind_ok] at h
  obtain ⟨name, s1, hc, h⟩ := h
  rw [hc] at hchoose hsucc
  rw [Exec.after_ok] at hchoose
  rw [Exec.bind_ok] at h
  obtain ⟨_, s2, hcheck, h⟩ := h
  rw [checkAnalogs_eq] at hcheck
  split at hcheck
  · cases hcheck
  · rename_i hmix
    cases hcheck
    rw [Exec.bind_ok] at h
    obtain ⟨_, _, hget, h⟩ := h
    cases hget
    rw [Exec.bind_ok] at h
    obtain ⟨texts, s3, hsub, h⟩ := h
    rw [Exec.bind_ok] at h
    obtain ⟨_, s4, hdev, h⟩ := h
    cases h
    -- the requests that follow leave what the kernels wrote
    have hkept := (awaitDevice_keeps name).of_ok hdev
    have hsubmitted : Exec.succeeds
        (submitKernels s1.buffer.size 0 functions s1) = true := by
      rw [hsub]
      rfl
    have hsubmitted := submitKernels_ok hsubmitted
    rw [hsub, Exec.after_ok] at hsubmitted
    refine ⟨?_, ?_, ?_⟩
    · rw [admitted, ← hsucc, decide_eq_false hmix]
      rfl
    · intro kernel hk
      have := hsubmitted.1 kernel hk
      rwa [hchoose] at this
    · have hnames := congrArg (fun p => p.1.kernelNames) hkept
      rw [show s'.acc.kernelNames = s3.acc.kernelNames from hnames,
        hsubmitted.2, hchoose]
      rfl

/-- After a `processInput` that returns, each kernel has its own measured
qubits behind whatever its number had before. -/
theorem processInput_entries {options : Options}
    {pulseLibrary : List (String × String)} {functions : List (Kernel P)}
    {s s' : Session} {text : String}
    (h : processInput options pulseLibrary functions s = .ok text s') (k : Nat) :
    s'.acc.measurementSupports.getD k []
      = s.acc.measurementSupports.getD k [] ++
        (functions[k]?.map Kernel.measuredQubits).getD [] := by
  obtain ⟨hadmitted, haccepted, _⟩ := processInput_ok h
  have hafter := processInput_after options pulseLibrary functions s k
  rw [h, Exec.after_ok, writtenQubits, if_pos hadmitted,
    Ledger.written_of_accepted _ _ haccepted] at hafter
  rw [hafter]
  congr 1
  cases hk : functions[k]? with
  | none => rfl
  | some kernel =>
      exact Kernel.rememberedQubits_of_accepted
        (haccepted kernel (List.mem_of_getElem? hk))

end IBMAccelerator

end XaccIbm
