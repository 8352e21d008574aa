import XaccIbm.IR
import XaccIbm.Lib.Exec

/-!
# IBMIRTransformation — Transform

`IBMIRTransformation::transform` turns around the `CNOT`s of a kernel that
lie on no coupler. The instructions of a kernel are objects with an address,
because the pass disables the object it replaces, makes new ones, and puts
one object in two places. Which objects are enabled is said by the heap.

The iterator has listed the kernel before the pass edits it: a kernel is
walked as it was, and edited through a running index. An edit outside the
kernel's list has no defined result.
-/

namespace XaccIbm.IBMIRTransformation

/-! ## Objects -/

/-- An instruction of a kernel: an object, or something composite. -/
inductive Node (P : Type) where
  | object (address : Nat) (gate : Gate P)
  | composite (name : String) (body : List (Node P))

variable {P : Type}

mutual

/-- The order of `InstructionIterator`. -/
def Node.preorder (n : Node P) : List (Node P) :=
  match n with
  | .object address gate => [.object address gate]
  | .composite name body => .composite name body :: Node.preorderList body

def Node.preorderList (ns : List (Node P)) : List (Node P) :=
  match ns with
  | [] => []
  | n :: ns => n.preorder ++ Node.preorderList ns

end

/-- A kernel and its own list of instructions. -/
structure GateFunction (P : Type) where
  name : String
  instructions : List (Node P)

/-- Everything `InstructionIterator it(kernel)` yields. -/
def GateFunction.walk (kernel : GateFunction P) : List (Node P) :=
  (Node.composite kernel.name kernel.instructions).preorder

/-- Which objects are enabled, and the address of the next new one. -/
structure Heap where
  enabled : Nat → Bool
  next : Nat

namespace Heap

def disable (h : Heap) (address : Nat) : Heap :=
  { h with enabled := fun a => if a = address then false else h.enabled a }

/-- A new object, which is enabled. -/
def alloc (h : Heap) : Heap where
  enabled a := if a = h.next then true else h.enabled a
  next := h.next + 1

end Heap

/-! ## The pass over a kernel -/

/-- The kernel that is edited, and the members of the pass. -/
structure Pass (P : Type) where
  kernel : List (Node P)
  currentKernelInstructionIdx : Nat
  newInstructions : List (Node P)
  heap : Heap

variable (couplers : List (Int × Int))

def isCouplingAvailable (src tgt : Nat) : Bool :=
  couplers.any fun c => c.1 == src && c.2 == tgt

/-- `cnot.disable()`. -/
def disable (address : Nat) : Exec (Pass P) Unit :=
  modify fun s => { s with heap := s.heap.disable address }

/-- `gateRegistry->createInstruction(…)`. -/
def createInstruction (gate : Gate P) : Exec (Pass P) (Node P) := fun s =>
  .ok (.object s.heap.next gate) { s with heap := s.heap.alloc }

/-- `newInstructions.push_back(…)`, one after the other. -/
def pushBack (insts : List (Node P)) : Exec (Pass P) Unit :=
  modify fun s => { s with newInstructions := s.newInstructions ++ insts }

/-- `visit(CNOT&)`. -/
def visit (address source target : Nat) : Exec (Pass P) Unit :=
  if isCouplingAvailable couplers source target then pure ()
  else do
    disable address
    let h0 ← createInstruction (.hadamard source)
    let h1 ← createInstruction (.hadamard target)
    let revCnot ← createInstruction (.cnot target source)
    pushBack [h0, h1, revCnot, h0, h1]

/-- `nextInst->accept(this)`: the pass has a `visit` for `CNOT` only. -/
def accept (address : Nat) : Gate P → Exec (Pass P) Unit
  | .cnot source target => visit couplers address source target
  | _ => pure ()

/-- `kernel->removeInstruction(idx)`. -/
def removeInstruction (idx : Nat) : Exec (Pass P) Unit := fun s =>
  if idx < s.kernel.length then .ok () { s with kernel := s.kernel.eraseIdx idx }
  else .error .undefined s

/-- `kernel->insertInstruction(idx, inst)`. -/
def insertInstruction (idx : Nat) (inst : Node P) : Exec (Pass P) Unit := fun s =>
  if idx ≤ s.kernel.length then
    .ok () { s with kernel := s.kernel.insertIdx idx inst }
  else .error .undefined s

/-- The loop over `newInstructions`, with its count. -/
def insertAll (count : Nat) : List (Node P) → Exec (Pass P) Nat
  | [] => pure count
  | inst :: insts => do
      let s ← get
      insertInstruction (s.currentKernelInstructionIdx + count) inst
      insertAll (count + 1) insts

/-- What is done when a `CNOT` was disabled by its visit. -/
def replace : Exec (Pass P) Unit := do
  let s ← get
  removeInstruction s.currentKernelInstructionIdx
  let count ← insertAll 0 s.newInstructions
  modify fun s => { s with
    currentKernelInstructionIdx := s.currentKernelInstructionIdx + count - 1 }

/-- The body of the loop over the iterator. -/
def step : Node P → Exec (Pass P) Unit
  | .composite _ _ => pure ()
  | .object address gate => do
      let s ← get
      if s.heap.enabled address then
        accept couplers address gate
        let s ← get
        if !s.heap.enabled address && gate.name == "CNOT" then replace else pure ()
        modify fun s => { s with
          newInstructions := []
          currentKernelInstructionIdx := s.currentKernelInstructionIdx + 1 }
      else pure ()

def steps : List (Node P) → Exec (Pass P) Unit
  | [] => pure ()
  | n :: ns => do
      step couplers n
      steps ns

/-- The pass at the beginning of a kernel. -/
def GateFunction.start (kernel : GateFunction P) (heap : Heap) : Pass P where
  kernel := kernel.instructions
  currentKernelInstructionIdx := 0
  newInstructions := []
  heap := heap

/-- The pass over one kernel. -/
def transformKernel (kernel : GateFunction P) : Exec Heap (GateFunction P) := fun heap =>
  match steps couplers kernel.walk (kernel.start heap) with
  | .ok _ s => .ok { kernel with instructions := s.kernel } s.heap
  | .error e s => .error e s.heap

/-- `transform`, on the kernels of an IR. -/
def transform : List (GateFunction P) → Exec Heap (List (GateFunction P))
  | [] => pure []
  | kernel :: kernels => do
      let kernel ← transformKernel couplers kernel
      let kernels ← transform kernels
      pure (kernel :: kernels)

/-! ## One step -/

/-- A pair in this order is on a coupler. -/
def Available (p : Nat × Nat) : Prop := ((p.1 : Int), (p.2 : Int)) ∈ couplers

instance (p : Nat × Nat) : Decidable (Available couplers p) := by
  unfold Available
  infer_instance

/-- **The test of the pass**: it finds the pair among the couplers. -/
theorem isCouplingAvailable_iff {couplers : List (Int × Int)} {src tgt : Nat} :
    isCouplingAvailable couplers src tgt = true ↔ Available couplers (src, tgt) := by
  rw [isCouplingAvailable, List.any_eq_true, Available]
  constructor
  · rintro ⟨⟨a, b⟩, hmem, hab⟩
    obtain ⟨rfl, rfl⟩ : a = src ∧ b = tgt := by simpa using hab
    exact hmem
  · intro hmem
    exact ⟨_, hmem, by simp⟩

/-- A `CNOT` on no coupler. -/
def Uncoupled : Node P → Prop
  | .object _ (.cnot source target) => ¬ Available couplers (source, target)
  | _ => False

instance (n : Node P) : Decidable (Uncoupled couplers n) := by
  unfold Uncoupled
  split <;> infer_instance

/-- The instructions a `CNOT` is replaced by: two Hadamards, the reversed
`CNOT`, and the same two objects again. -/
def reversal (next source target : Nat) : List (Node P) :=
  [.object next (.hadamard source), .object (next + 1) (.hadamard target),
    .object (next + 2) (.cnot target source), .object next (.hadamard source),
    .object (next + 1) (.hadamard target)]

/-- The heap after a replacement. -/
def Heap.reversed (h : Heap) (address : Nat) : Heap :=
  (h.disable address).alloc.alloc.alloc

@[simp] theorem Heap.next_reversed (h : Heap) (address : Nat) :
    (h.reversed address).next = h.next + 3 := rfl

/-- Of the objects there are, a replacement disables its own. -/
theorem Heap.enabled_reversed {h : Heap} {address a : Nat} (ha : a < h.next) :
    (h.reversed address).enabled a = if a = address then false else h.enabled a := by
  have h0 : a ≠ h.next := by omega
  have h1 : a ≠ h.next + 1 := by omega
  have h2 : a ≠ h.next + 1 + 1 := by omega
  show (if a = h.next + 1 + 1 then true else if a = h.next + 1 then true
    else if a = h.next then true else if a = address then false else h.enabled a) = _
  rw [if_neg h2, if_neg h1, if_neg h0]

/-- The new objects are enabled. -/
theorem Heap.enabled_reversed_new {h : Heap} {address a : Nat} (hle : h.next ≤ a)
    (hlt : a < h.next + 3) : (h.reversed address).enabled a = true := by
  show (if a = h.next + 1 + 1 then true else if a = h.next + 1 then true
    else if a = h.next then true else if a = address then false else h.enabled a) = true
  by_cases h2 : a = h.next + 1 + 1
  · rw [if_pos h2]
  · rw [if_neg h2]
    by_cases h1 : a = h.next + 1
    · rw [if_pos h1]
    · rw [if_neg h1, if_pos (by omega)]

section

variable {couplers} {s : Pass P}

theorem insertIdx_length_append {α : Type} (before after : List α) (a : α) :
    (before ++ after).insertIdx before.length a = before ++ a :: after := by
  induction before with
  | nil => exact List.insertIdx_zero
  | cons b before ih =>
      rw [List.cons_append, List.length_cons, List.insertIdx_succ_cons, ih,
      List.cons_append]

/-- Insertions one after the other put the whole list at the index. -/
theorem insertAll_ok {before after : List (Node P)} {count : Nat} (insts : List (Node P))
    (hkernel : s.kernel = before ++ after)
    (hidx : s.currentKernelInstructionIdx + count = before.length) :
    insertAll count insts s =
      .ok (count + insts.length) { s with kernel := before ++ insts ++ after } := by
  induction insts generalizing s before count with
  | nil =>
      rw [List.append_nil, ← hkernel]
      rfl
  | cons inst insts ih =>
      rw [insertAll, Exec.get_bind, Exec.bind_apply, insertInstruction, hidx, hkernel,
        if_pos (by simp)]
      have hinsert : (before ++ after).insertIdx before.length inst
          = (before ++ [inst]) ++ after := by
        rw [insertIdx_length_append, List.append_cons]
      have hnext : s.currentKernelInstructionIdx + (count + 1) = (before ++ [inst]).length := by
        rw [List.length_append, List.length_singleton]
        omega
      -- the next instruction goes behind the one just inserted
      have htail : insertAll (count + 1) insts { s with kernel := (before ++ [inst]) ++ after }
          = .ok (count + 1 + insts.length)
            { s with kernel := (before ++ [inst]) ++ insts ++ after } := ih rfl hnext
      simp only [hinsert, htail, List.length_cons]
      rw [List.append_cons before inst insts, Nat.add_right_comm, Nat.add_assoc]

/-- What stands at the index gives way to the new instructions. -/
theorem replace_ok {before after : List (Node P)} {n : Node P}
    (hkernel : s.kernel = before ++ n :: after)
    (hidx : s.currentKernelInstructionIdx = before.length) :
    replace s = .ok () { s with
      kernel := before ++ s.newInstructions ++ after
      currentKernelInstructionIdx := before.length + s.newInstructions.length - 1 } := by
  have hremove : removeInstruction s.currentKernelInstructionIdx s
      = .ok () { s with kernel := before ++ after } := by
    have herase : (before ++ n :: after).eraseIdx before.length = before ++ after := by
      rw [List.eraseIdx_append_of_length_le (Nat.le_refl _)]
      simp
    rw [removeInstruction, hkernel, hidx, if_pos (by simp), herase]
  have hinsert : insertAll 0 s.newInstructions { s with kernel := before ++ after }
      = .ok (0 + s.newInstructions.length)
        { s with kernel := before ++ s.newInstructions ++ after } :=
    insertAll_ok s.newInstructions rfl hidx
  rw [replace, Exec.get_bind, Exec.bind_of_ok hremove, Exec.bind_of_ok hinsert]
  simp only [Exec.modify_apply, hidx, Nat.zero_add]

theorem step_disabled {address : Nat} {gate : Gate P}
    (h : s.heap.enabled address = false) :
    step couplers (.object address gate) s = .ok () s := by
  rw [step, Exec.get_bind, h]
  rfl

/-- An instruction that is kept moves the index. -/
theorem step_kept {address : Nat} {gate : Gate P} (h : s.heap.enabled address = true)
    (hc : ¬ Uncoupled couplers (.object address gate)) :
    step couplers (.object address gate) s = .ok () { s with
      newInstructions := []
      currentKernelInstructionIdx := s.currentKernelInstructionIdx + 1 } := by
  have haccept : accept couplers address gate s = .ok () s := by
    cases gate with
    | cnot source target =>
        have havailable : isCouplingAvailable couplers source target = true := by
          simpa [Uncoupled, isCouplingAvailable_iff] using hc
        rw [accept, visit, if_pos havailable]
        rfl
    | _ => rfl
  rw [step, Exec.get_bind, if_pos h, Exec.bind_of_ok haccept, Exec.get_bind, h]
  rfl

/-- **A replacement**, where the index is in the list: what stands there is
removed, whatever it is. -/
theorem step_reversed {address source target : Nat} {before after : List (Node P)}
    {n : Node P} (h : s.heap.enabled address = true) (haddress : address < s.heap.next)
    (hc : Uncoupled couplers (.object address (.cnot source target) : Node P))
    (hnew : s.newInstructions = []) (hkernel : s.kernel = before ++ n :: after)
    (hidx : s.currentKernelInstructionIdx = before.length) :
    step couplers (.object address (.cnot source target)) s = .ok ()
      { kernel := before ++ reversal s.heap.next source target ++ after
        currentKernelInstructionIdx := before.length + 5
        newInstructions := []
        heap := s.heap.reversed address } := by
  -- the visit disables the object, which is how the loop knows it has to be replaced
  have hflag : (s.heap.reversed address).enabled address = false := by
    rw [Heap.enabled_reversed haddress, if_pos rfl]
  have haccept : accept couplers address (.cnot source target) s = .ok () { s with
      newInstructions := reversal s.heap.next source target
      heap := s.heap.reversed address } := by
    have havailable : ¬ isCouplingAvailable couplers source target = true := by
      simpa [Uncoupled, isCouplingAvailable_iff] using hc
    rw [accept, visit, if_neg havailable]
    show EStateM.Result.ok () { s with
      newInstructions := s.newInstructions ++ reversal s.heap.next source target
      heap := s.heap.reversed address } = _
    rw [hnew, List.nil_append]
  have hreplace := replace_ok (s := { s with
      newInstructions := reversal s.heap.next source target
      heap := s.heap.reversed address }) hkernel hidx
  rw [step, Exec.get_bind, if_pos h, Exec.bind_of_ok haccept, Exec.get_bind, hflag]
  simp only [Bool.not_false, Bool.true_and, Gate.name, BEq.rfl, if_true]
  rw [Exec.bind_of_ok hreplace]
  rfl

end

end XaccIbm.IBMIRTransformation
