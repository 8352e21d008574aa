import XaccIbm.Lib.Ledger
import XaccIbm.LocalIBMAccelerator.Execute

/-!
# LocalIBMAccelerator — Effects

What a call leaves in `measurementSupports`. The submission loop adds the
measured qubits of each kernel under its number, up to the kernel it fails
at; a call that returns clears everything, and a call that fails clears
nothing.
-/

namespace XaccIbm.LocalIBMAccelerator

open Decode Submission

variable {P : Type}

/-! ## The result loop -/

/-- What a number has in `measurementSupports`. -/
def entries (s : LocalIBMAccelerator) (k : Nat) : List Nat :=
  s.measurementSupports.getD k []

theorem readSupports_eq (kernelCounter : Nat) (s : LocalIBMAccelerator) :
    readSupports kernelCounter s = .ok (s.entries kernelCounter)
      { s with
        measurementSupports := s.measurementSupports.insert kernelCounter [] } :=
  rfl

theorem readSupports_keeps (kernelCounter : Nat) :
    Exec.Keeps entries (readSupports kernelCounter) := by
  intro s
  funext k
  rw [readSupports_eq, Exec.after_ok]
  exact StdMap.getD_insert _ _ _ _

theorem storeResults_keeps (size : Nat) (names : List String)
    (results : List Json) (kernelCounter : Nat) :
    Exec.Keeps entries (storeResults size names kernelCounter results) := by
  induction results generalizing kernelCounter with
  | nil => exact .pure _
  | cons result rest ih =>
      have hcreate : ∀ name, Exec.Keeps entries
          (createBuffer name size : Exec LocalIBMAccelerator AcceleratorBuffer) :=
        fun _ => .ite (.pure _) (.throw _)
      exact .bind (.demand _) fun _ => .bind (hcreate _) fun _ =>
        .bind (readSupports_keeps _) fun _ => .bind (.demand _) fun _ =>
          .bind (ih _) fun _ => .pure _

theorem jsonParse_keeps {σ τ : Type} (part : σ → τ) (t : String) :
    Exec.Keeps part (jsonParse t : Exec σ Json) := by
  unfold jsonParse
  cases Json.parse t with
  | none => exact .throw _
  | some j => exact .pure _

/-- What follows the submission loop clears `measurementSupports` when it
returns, and leaves every entry when it fails. -/
theorem simulate_entries (simulator : Json → Except String String)
    (options : Options) (size : Nat) (names : List String)
    (circuits : List Json) (s : LocalIBMAccelerator) (k : Nat) :
    (Exec.after (simulate simulator options size names circuits s)).entries k
      = if Exec.succeeds (simulate simulator options size names circuits s) then []
        else s.entries k := by
  cases hx : simulate simulator options size names circuits s with
  | ok bs s' =>
      rw [simulate, Exec.bind_ok] at hx
      obtain ⟨_, _, _, hx⟩ := hx
      rw [Exec.bind_ok] at hx
      obtain ⟨_, _, _, hx⟩ := hx
      rw [Exec.bind_ok] at hx
      obtain ⟨_, _, _, hx⟩ := hx
      rw [Exec.bind_ok] at hx
      obtain ⟨_, _, _, hx⟩ := hx
      rw [Exec.bind_ok] at hx
      obtain ⟨_, _, _, hx⟩ := hx
      cases hx
      rfl
  | error e s' =>
      refine congrFun (?_ : s'.entries = s.entries) k
      exact (Exec.Keeps.reply _).of_error (fun _ _ _ _ hx =>
        (Exec.Keeps.reply _).of_error (fun _ _ _ _ hx =>
          (jsonParse_keeps entries _).of_error (fun _ _ _ _ hx =>
            (Exec.Keeps.demand _).of_error (fun _ _ _ _ hx =>
              (storeResults_keeps _ _ _ _).of_error (fun _ _ _ _ hx => by
                cases hx) hx) hx) hx) hx) hx

/-! ## The submission loop -/

variable [ToString P]

/-- The qubits a submission of the kernel remembers, fail or not. -/
def rememberedQubits (size : Nat) (kernel : Function (Gate P)) : List Nat :=
  Submission.rememberedQubits OpenQasmVisitor.accept
    (OpenQasmVisitor.new size false) kernel

/-- Whether the visitor accepts the kernel, and `json::parse` its
operations. -/
def accepted (size : Nat) (kernel : Function (Gate P)) : Bool :=
  match passAll OpenQasmVisitor.accept kernel.walk
      (OpenQasmVisitor.new size false) with
  | .ok _ v => (Json.parse v.getOperationsJsonString).isSome
  | .error _ _ => false

/-- An accepted kernel is remembered whole. -/
theorem rememberedQubits_of_accepted {size : Nat} {kernel : Function (Gate P)}
    (h : accepted size kernel = true) :
    rememberedQubits size kernel = measuredQubits kernel := by
  unfold accepted at h
  cases hpass : passAll OpenQasmVisitor.accept kernel.walk
      (OpenQasmVisitor.new size false) with
  | ok u v => exact Submission.rememberedQubits_of_ok _ hpass
  | error e v =>
      rw [hpass] at h
      cases h

theorem submitCircuit_after (size kernelCounter : Nat)
    (kernel : Function (Gate P)) (ms : Supports) (k : Nat) :
    (Exec.after (submitCircuit size kernelCounter kernel ms)).getD k []
      = ms.getD k [] ++
        if k = kernelCounter then rememberedQubits size kernel else [] := by
  have hrest := Exec.Keeps.after_bind (p := fun ms : Supports => ms.getD k [])
    (x := submitKernel OpenQasmVisitor.accept (OpenQasmVisitor.new size false)
      kernelCounter kernel) (fun visitor => .bind .get fun ms' =>
        .bind (jsonParse_keeps _ visitor.getOperationsJsonString) fun operations =>
          .pure (circuit kernel.name size (ms'.getD kernelCounter []).length
            visitor.getOpenQasmString operations)) ms
  exact hrest.trans (submitKernel_after _ _ _ _ _ _)

theorem submitCircuit_succeeds (size kernelCounter : Nat)
    (kernel : Function (Gate P)) (ms : Supports) :
    Exec.succeeds (submitCircuit size kernelCounter kernel ms)
      = accepted size kernel := by
  have hsucc := submitKernel_succeeds OpenQasmVisitor.accept
    (OpenQasmVisitor.new size false) kernelCounter kernel ms
  rw [submitCircuit, Exec.bind_apply, accepted]
  cases hpass : passAll OpenQasmVisitor.accept kernel.walk
      (OpenQasmVisitor.new size false) with
  | error e w =>
      rw [hpass] at hsucc
      cases hx : submitKernel OpenQasmVisitor.accept (OpenQasmVisitor.new size false)
          kernelCounter kernel ms with
      | error e' ms' => rfl
      | ok v ms' =>
          rw [hx] at hsucc
          cases hsucc
  | ok u v =>
      rw [(submitKernel_ok _).mpr ⟨hpass, rfl⟩]
      simp only [Exec.bind_apply, Exec.get_apply, jsonParse]
      cases Json.parse v.getOperationsJsonString <;> rfl

/-- **What the submission loop remembers**, fail or not. -/
theorem submitCircuits_after (size : Nat) (functions : List (Function (Gate P)))
    (kernelCounter : Nat) (ms : Supports) (k : Nat) :
    (Exec.after (submitCircuits size kernelCounter functions ms)).getD k []
      = ms.getD k [] ++ if k < kernelCounter then [] else
          Ledger.written (accepted size) (rememberedQubits size) functions
            (k - kernelCounter) := by
  refine Ledger.slots_loop (accepted size) (rememberedQubits size)
    (fun ms k => StdMap.getD ms k [])
    (fun n items ms => Exec.after (submitCircuits size n items ms))
    (fun _ _ => rfl) ?_ functions kernelCounter ms k
  intro n kernel rest ms
  refine ⟨Exec.after (submitCircuit size n kernel ms), fun k =>
    submitCircuit_after size n kernel ms k, ?_⟩
  have hsucc := submitCircuit_succeeds size n kernel ms
  rw [← hsucc, submitCircuits, Exec.bind_apply]
  cases submitCircuit size n kernel ms with
  | error e ms' => rfl
  | ok c ms' =>
      rw [Exec.succeeds_ok, if_pos rfl]
      exact congrArg (fun ms k => StdMap.getD ms k [])
        (Exec.after_bind_pure _ _ _)

/-- A loop that returns has accepted every kernel. -/
theorem accepted_of_submitCircuits {size : Nat}
    {functions : List (Function (Gate P))} {kernelCounter : Nat}
    {ms ms' : Supports} {cs : List Json}
    (h : submitCircuits size kernelCounter functions ms = .ok cs ms') :
    ∀ kernel ∈ functions, accepted size kernel = true := by
  induction functions generalizing kernelCounter ms cs with
  | nil => simp
  | cons kernel rest ih =>
      rw [submitCircuits, Exec.bind_ok] at h
      obtain ⟨c, ms1, hc, h⟩ := h
      rw [Exec.bind_ok] at h
      obtain ⟨cs', ms2, hcs, h⟩ := h
      cases h
      intro f hf
      rcases List.mem_cons.mp hf with rfl | hf
      · rw [← submitCircuit_succeeds size kernelCounter f ms, hc]
        rfl
      · exact ih hcs f hf

/-- After a loop that returns, each kernel has its own measured qubits behind
whatever its number had before. -/
theorem submitCircuits_entries {size : Nat} {functions : List (Function (Gate P))}
    {ms ms' : Supports} {cs : List Json}
    (h : submitCircuits size 0 functions ms = .ok cs ms') (k : Nat) :
    ms'.getD k [] = ms.getD k [] ++ (functions[k]?.map measuredQubits).getD [] := by
  have hafter := submitCircuits_after size functions 0 ms k
  have haccepted := accepted_of_submitCircuits h
  rw [h, Exec.after_ok, if_neg (Nat.not_lt_zero k), Nat.sub_zero,
    Ledger.written_of_accepted _ _ haccepted] at hafter
  rw [hafter]
  congr 1
  cases hk : functions[k]? with
  | none => rfl
  | some kernel =>
      exact rememberedQubits_of_accepted
        (haccepted kernel (List.mem_of_getElem? hk))

omit [ToString P] in
theorem onSupports_ok {α : Type} {x : Exec Supports α} {a : α}
    {s s' : LocalIBMAccelerator} :
    onSupports x s = .ok a s' ↔ ∃ ms, x s.measurementSupports = .ok a ms ∧
      s' = { s with measurementSupports := ms } := by
  unfold onSupports Exec.onPart
  cases x s.measurementSupports with
  | error e ms => simp
  | ok b ms =>
      constructor
      · intro h
        cases h
        exact ⟨ms, rfl, rfl⟩
      · rintro ⟨ms', h, rfl⟩
        cases h
        rfl

omit [ToString P] in
theorem onSupports_after {α : Type} (x : Exec Supports α)
    (s : LocalIBMAccelerator) :
    (Exec.after (onSupports x s)).measurementSupports
      = Exec.after (x s.measurementSupports) := by
  unfold onSupports Exec.onPart
  cases x s.measurementSupports <;> rfl

/-- **What a call leaves**: nothing when it returns, and else what was there
with what its submission loop remembered before it stopped. -/
theorem execute_entries (simulator : Json → Except String String)
    (options : Options) (size : Nat) (functions : List (Function (Gate P)))
    (s : LocalIBMAccelerator) (k : Nat) :
    (Exec.after (execute simulator options size functions s)).entries k
      = if Exec.succeeds (execute simulator options size functions s) then []
        else s.entries k ++
          Ledger.written (accepted size) (rememberedQubits size) functions k := by
  have hloop := submitCircuits_after size functions 0 s.measurementSupports k
  rw [if_neg (Nat.not_lt_zero k), Nat.sub_zero, ← onSupports_after] at hloop
  rw [execute, Exec.bind_apply]
  cases hsub : onSupports (submitCircuits size 0 functions) s with
  | error e s1 =>
      rw [hsub] at hloop
      exact hloop
  | ok cs s1 =>
      rw [hsub] at hloop
      have hentries : s1.entries k = s.entries k ++ Ledger.written (accepted size)
          (rememberedQubits size) functions k := hloop
      rw [← hentries]
      exact simulate_entries _ _ _ _ _ _ _

end XaccIbm.LocalIBMAccelerator
