import XaccIbm.IR
import XaccIbm.Lib.Exec
import XaccIbm.Lib.StdMap

/-!
# Accelerator — Submission

The loop both accelerators run over the instructions of a kernel: visit
what is enabled, and remember the qubit of every `Measure` in
`measurementSupports` under the kernel's number. Written for any visitor
and any primitive instructions.
-/

namespace XaccIbm

/-- `measurementSupports`: the measured qubits of each kernel. -/
abbrev Supports := StdMap Nat (List Nat)

/-- `measurementSupports[kernelCounter].push_back(qbitIdx)`. -/
def Supports.push (ms : Supports) (kernelCounter qbitIdx : Nat) : Supports :=
  ms.set kernelCounter (ms.getD kernelCounter [] ++ [qbitIdx])

/-- The qubit an instruction makes the loop remember. -/
def Instruction.measuredQubit {G : Type} [Leaf G] (inst : Instruction G) :
    Option Nat :=
  if inst.isEnabled ∧ inst.name = "Measure" then inst.bits.head? else none

namespace Submission

variable {G V : Type} [Leaf G] (accept : Instruction G → Exec V Unit)

/-- The body of the loop. -/
def visit (kernelCounter : Nat) (inst : Instruction G) :
    Exec (V × Supports) Unit :=
  if inst.isEnabled then do
    Exec.onPart Prod.fst (fun v s => (v, s.2)) (accept inst)
    if inst.name = "Measure" then
      let qbitIdx ← Exec.demand inst.bits.head?
      modify fun s => (s.1, s.2.push kernelCounter qbitIdx)
    else pure ()
  else pure ()

/-- The loop. -/
def visitAll (kernelCounter : Nat) : List (Instruction G) →
    Exec (V × Supports) Unit
  | [] => pure ()
  | inst :: rest => do
      visit accept kernelCounter inst
      visitAll kernelCounter rest

/-- One kernel: its entry of `measurementSupports` is made, and the loop
runs over everything the iterator yields. The visitor is returned. -/
def submitKernel (visitor : V) (kernelCounter : Nat) (kernel : Function G) :
    Exec Supports V := fun ms =>
  match visitAll accept kernelCounter kernel.walk
      (visitor, ms.insert kernelCounter []) with
  | .ok _ s => .ok s.1 s.2
  | .error e s => .error e s.2

/-! ## The loop without `measurementSupports` -/

/-- What the body of the loop does to the visitor, and whether it fails. -/
def pass (inst : Instruction G) : Exec V Unit :=
  if inst.isEnabled then do
    accept inst
    if inst.name = "Measure" then
      let _ ← Exec.demand inst.bits.head?
      pure ()
    else pure ()
  else pure ()

def passAll : List (Instruction G) → Exec V Unit
  | [] => pure ()
  | inst :: rest => do
      pass accept inst
      passAll rest

/-- An instruction that is passed is accepted, unless it is disabled. -/
theorem pass_ok {inst : Instruction G} {v w : V} {u : Unit}
    (h : pass accept inst v = .ok u w) :
    (inst.isEnabled = true ∧ accept inst v = .ok () w) ∨ (inst.isEnabled = false ∧ w = v) := by
  by_cases he : inst.isEnabled = true
  · rw [pass, if_pos he, Exec.bind_ok] at h
    obtain ⟨_, x, hacc, h⟩ := h
    have hx : w = x := by
      split at h
      · rw [Exec.bind_ok] at h
        obtain ⟨_, y, hy, h⟩ := h
        cases h
        exact (Exec.demand_ok.mp hy).2
      · cases h
        rfl
    exact .inl ⟨he, hx ▸ hacc⟩
  · rw [pass, if_neg he] at h
    cases h
    exact .inr ⟨by simpa using he, rfl⟩

/-- The instructions that are passed before the first failure. -/
def passed (v : V) : List (Instruction G) → List (Instruction G)
  | [] => []
  | inst :: rest =>
      match pass accept inst v with
      | .ok _ w => inst :: passed w rest
      | .error _ _ => []

/-- What the loop remembers of instructions it passed. -/
def remember (kernelCounter : Nat) (ms : Supports) (inst : Instruction G) :
    Supports :=
  match inst.measuredQubit with
  | some q => ms.push kernelCounter q
  | none => ms

theorem visit_eq (kernelCounter : Nat) (inst : Instruction G) (v : V)
    (ms : Supports) :
    visit accept kernelCounter inst (v, ms) = match pass accept inst v with
      | .ok _ w => .ok () (w, remember kernelCounter ms inst)
      | .error e w => .error e (w, ms) := by
  by_cases he : inst.isEnabled = true
  · simp only [visit, pass, he, if_true, Exec.bind_apply, Exec.onPart]
    cases accept inst v with
    | error e w => rfl
    | ok u w =>
        by_cases hn : inst.name = "Measure"
        · cases hb : inst.bits.head? with
          | none => simp [hn, Exec.bind_apply]
          | some q =>
              simp [hn, Exec.bind_apply, remember, Instruction.measuredQubit, he,
                hb]
        · simp [hn, remember, Instruction.measuredQubit]
  · simp [visit, pass, he, remember, Instruction.measuredQubit]

/-- **The loop, split**: the visitor's part decides how it ends, and
`measurementSupports` holds what the instructions passed so far measure. -/
theorem visitAll_eq (kernelCounter : Nat) (insts : List (Instruction G)) (v : V)
    (ms : Supports) :
    visitAll accept kernelCounter insts (v, ms) =
      match passAll accept insts v with
      | .ok _ w => .ok () (w, insts.foldl (remember kernelCounter) ms)
      | .error e w => .error e
          (w, (passed accept v insts).foldl (remember kernelCounter) ms) := by
  induction insts generalizing v ms with
  | nil => rfl
  | cons inst rest ih =>
      rw [visitAll, passAll, Exec.bind_apply, Exec.bind_apply, visit_eq, passed]
      cases pass accept inst v with
      | error e w => rfl
      | ok u w =>
          simp only [ih]
          cases passAll accept rest w <;> rfl

theorem passed_of_ok {insts : List (Instruction G)} {v w : V} {u : Unit}
    (h : passAll accept insts v = .ok u w) : passed accept v insts = insts := by
  induction insts generalizing v with
  | nil => rfl
  | cons inst rest ih =>
      rw [passAll, Exec.bind_ok] at h
      obtain ⟨_, x, hp, hrest⟩ := h
      rw [passed, hp]
      exact congrArg _ (ih hrest)

/-! ## What is remembered -/

theorem remember_getD (kernelCounter : Nat) (ms : Supports)
    (inst : Instruction G) (k : Nat) :
    (remember kernelCounter ms inst).getD k []
      = ms.getD k [] ++
          (if k = kernelCounter then inst.measuredQubit.toList else []) := by
  unfold remember
  cases inst.measuredQubit with
  | none => simp
  | some q =>
      by_cases h : k = kernelCounter
      · subst h
        simp [Supports.push]
      · simp [Supports.push, StdMap.getD_set_ne _ _ _ h, h]

theorem rememberAll_getD (kernelCounter : Nat) (insts : List (Instruction G))
    (ms : Supports) (k : Nat) :
    (insts.foldl (remember kernelCounter) ms).getD k []
      = ms.getD k [] ++ (if k = kernelCounter then
          insts.filterMap Instruction.measuredQubit else []) := by
  induction insts generalizing ms with
  | nil => simp
  | cons inst rest ih =>
      rw [List.foldl_cons, ih, remember_getD, List.append_assoc]
      by_cases h : k = kernelCounter
      · rw [if_pos h, if_pos h, if_pos h, List.filterMap_cons]
        cases inst.measuredQubit <;> rfl
      · rw [if_neg h, if_neg h, if_neg h]
        rfl

/-- The measured qubits of a kernel, in the order of the walk. -/
def measuredQubits (kernel : Function G) : List Nat :=
  kernel.walk.filterMap Instruction.measuredQubit

/-- The measured qubits a submission remembers, whether or not it fails. -/
def rememberedQubits (visitor : V) (kernel : Function G) : List Nat :=
  (passed accept visitor kernel.walk).filterMap Instruction.measuredQubit

/-- **One kernel submitted.** How it ends depends on the visitor alone. -/
theorem submitKernel_ok {visitor v : V} {kernelCounter : Nat}
    {kernel : Function G} {ms ms' : Supports} :
    submitKernel accept visitor kernelCounter kernel ms = .ok v ms' ↔
      passAll accept kernel.walk visitor = .ok () v ∧
        ms' = kernel.walk.foldl (remember kernelCounter)
          (ms.insert kernelCounter []) := by
  rw [submitKernel, visitAll_eq]
  cases passAll accept kernel.walk visitor with
  | error e w => simp
  | ok u w =>
      simp only [EStateM.Result.ok.injEq, true_and]
      exact and_congr_right fun _ => eq_comm

theorem submitKernel_succeeds (visitor : V) (kernelCounter : Nat)
    (kernel : Function G) (ms : Supports) :
    Exec.succeeds (submitKernel accept visitor kernelCounter kernel ms)
      = Exec.succeeds (passAll accept kernel.walk visitor) := by
  rw [submitKernel, visitAll_eq]
  cases passAll accept kernel.walk visitor <;> rfl

/-- Whatever way it ends, a submission adds the qubits it passed to its own
entry and leaves the others alone. -/
theorem submitKernel_after (visitor : V) (kernelCounter : Nat)
    (kernel : Function G) (ms : Supports) (k : Nat) :
    (Exec.after (submitKernel accept visitor kernelCounter kernel ms)).getD k []
      = ms.getD k [] ++ (if k = kernelCounter then
          rememberedQubits accept visitor kernel else []) := by
  rw [submitKernel, visitAll_eq, rememberedQubits]
  cases hp : passAll accept kernel.walk visitor with
  | ok u w =>
      simp only [Exec.after_ok, rememberAll_getD, StdMap.getD_insert,
        passed_of_ok accept hp]
  | error e w =>
      simp only [Exec.after_error, rememberAll_getD, StdMap.getD_insert]

theorem rememberedQubits_of_ok {visitor v : V} {kernel : Function G}
    (h : passAll accept kernel.walk visitor = .ok () v) :
    rememberedQubits accept visitor kernel = measuredQubits kernel := by
  rw [rememberedQubits, passed_of_ok accept h, measuredQubits]

end Submission

end XaccIbm
