import XaccIbm.IBMAccelerator.Backends
import XaccIbm.IBMAccelerator.Initialized

/-!
# IBMAccelerator — Device

The object with all of its members, and the calls on it: `initialize` and
whole runs, in any order, and each may fail part way. The other methods only
read: the couplings and the error rates of a backend, whether it is physical,
and the transformations it asks for. `Device.accelerator` is the part of the
object that a run works on, and a run on the object is a run on that part.
-/

namespace XaccIbm

open StdString IBMAccelerator

/-- The members of `IBMAccelerator`. -/
structure Device extends Connection where
  measurementSupports : Supports := ∅
  kernelNames : List String := []

/-- A call that writes to the object. -/
inductive Call (P : Type) where
  /-- `initialize`. -/
  | connect (a : Attempt)
  /-- `processInput`, the POST of the base class, and `processResponse`. -/
  | run (r : Run P)

namespace Device

/-- What a run works on. -/
def accelerator (d : Device) : IBMAccelerator :=
  { d.toConnection.accelerator with
    measurementSupports := d.measurementSupports
    kernelNames := d.kernelNames }

/-- The entry of the backend that a job names. -/
def entryOf (d : Device) (options : Options) : Option Backend :=
  d.availableBackends.find (jobBackend options)

/-- `chosenBackend` once `processInput` has looked at the option. -/
def chosenFor (d : Device) (options : Options) : Backend :=
  (((options.find "ibm-backend").bind d.availableBackends.find).filter
    fun b => b.status).getD d.chosenBackend

/-- The object after `initialize`, however it ends. -/
def afterConnect (d : Device) (a : Attempt) : Device :=
  { d with toConnection := a.next d.toConnection }

variable {P : Type} [ToString P]

/-- The object after a run, however it ends. -/
def afterRun (d : Device) (r : Run P) : Device :=
  let acc := r.next d.accelerator
  { d with
    chosenBackend := d.chosenFor r.options
    measurementSupports := acc.measurementSupports
    kernelNames := acc.kernelNames }

end Device

variable {P : Type} [ToString P]

/-- The object after a call. -/
def Call.next (c : Call P) (d : Device) : Device :=
  match c with
  | connect a => d.afterConnect a
  | run r => d.afterRun r

namespace Device

/-- A fresh object after a history of calls. -/
def after (history : List (Call P)) : Device := Ledger.stateAfter Call.next {} history

theorem after_concat (history : List (Call P)) (c : Call P) :
    after (history ++ [c]) = c.next (after history) :=
  Ledger.stateAfter_concat _ _ _ _

/-! ## The methods that only read -/

/-- `getIRTransformations`: the list is cleared before it is returned. -/
def getIRTransformations (d : Device) (options : Options) :
    Except Failure (List (List (Int × Int))) :=
  match d.entryOf options with
  | none => .error (.error (jobBackend options ++ " is not available."))
  | some backend =>
      let testCouplers := ((d.availableBackends.find "ibmqx5").map Backend.couplers).getD []
      let transformations := if backend.couplers = [] then [] else [testCouplers]
      -- `transformations.clear()`
      .ok (transformations.take 0)

/-- The pairs `i < j` below a number, row by row. -/
def allPairs (nQubits : Nat) : List (Int × Int) :=
  (List.range nQubits).flatMap fun (i : Nat) =>
    (List.range nQubits).flatMap fun (j : Nat) =>
      if i < j then [((i : Int), (j : Int))] else []

/-- The couplings of a backend. Without couplers all pairs are coupled; a
number of qubits that no document has set has no defined value. -/
def connectivityOf (backend : Backend) : Except Failure (List (Int × Int)) :=
  if backend.couplers = [] then
    match backend.nQubits with
    | none => .error .undefined
    | some n => .ok (allPairs n.toNat)
  else .ok backend.couplers

/-- `getAcceleratorConnectivity`. -/
def getAcceleratorConnectivity (d : Device) (options : Options) :
    Except Failure (List (Int × Int)) :=
  match d.entryOf options with
  | none => .error (.error (jobBackend options ++ " is not available."))
  | some backend => connectivityOf backend

/-- `isPhysical`. Without the option no backend is looked at. -/
def isPhysical (d : Device) (options : Options) : Except Failure Bool :=
  match options.find "ibm-backend" with
  | none => .ok false
  | some newBackend =>
      match d.availableBackends.find newBackend with
      | none => .error (.error "Invalid IBM Backend string")
      | some backend => .ok !backend.isSimulator

/-- `getOneBitErrorRates`. -/
def getOneBitErrorRates (d : Device) : List ℚ := d.chosenBackend.gateErrors

/-- `std::regex_replace(s, std::regex("CX"), "")`. -/
def removeCX : List Char → List Char
  | 'C' :: 'X' :: cs => removeCX cs
  | c :: cs => c :: removeCX cs
  | [] => []

/-- `split[i]` as an index: the piece must be there, and `std::stoi` throws
on a text that is no `int`. -/
def qubitOf (pieces : List String) (i : Nat) : Except Failure Int :=
  match pieces[i]? with
  | none => .error .undefined
  | some piece =>
      match stoi piece with
      | none => .error (.error "stoi")
      | some n => .ok n

/-- The qubits of a gate such as `CX1_0`. -/
def gateQubits (mqg : String) : Except Failure (Int × Int) := do
  let pieces := split (String.ofList (removeCX mqg.toList)) '_'
  let source ← qubitOf pieces 0
  let target ← qubitOf pieces 1
  pure (source, target)

/-- The loop over `multiQubitGates`; the error is read at the same index. -/
def twoBitErrorRates (errors : List ℚ) :
    Nat → List String → Except Failure (List ((Int × Int) × ℚ))
  | _, [] => .ok []
  | i, mqg :: rest => do
      let qubits ← gateQubits mqg
      match errors[i]? with
      | none => .error .undefined
      | some error => do
          let twobiter ← twoBitErrorRates errors (i + 1) rest
          pure ((qubits, error) :: twobiter)

/-- `getTwoBitErrorRates`. -/
def getTwoBitErrorRates (d : Device) : Except Failure (List ((Int × Int) × ℚ)) :=
  twoBitErrorRates d.chosenBackend.multiQubitGateErrors 0 d.chosenBackend.multiQubitGates

/-! ## A run on the object is a run on its part -/

theorem optionBackend_accelerator (d : Device) (options : Options) :
    optionBackend d.accelerator.availableBackends options
      = (((options.find "ibm-backend").bind d.availableBackends.find).filter
          fun b => b.status).map Backend.toIBMBackend := by
  show optionBackend (d.availableBackends.map Backend.toIBMBackend) options = _
  rw [optionBackend]
  cases options.find "ibm-backend" with
  | none => rfl
  | some name =>
      simp only [Option.bind_some, StdMap.find_map]
      cases d.availableBackends.find name with
      | none => rfl
      | some b => cases hst : b.status <;> simp [hst, Option.filter]

theorem chosenFor_toIBMBackend (d : Device) (options : Options) :
    (d.chosenFor options).toIBMBackend = (choose options d.accelerator).chosenBackend := by
  rw [choose, optionBackend_accelerator, chosenFor]
  cases (((options.find "ibm-backend").bind d.availableBackends.find).filter
    fun b => b.status) <;> rfl

theorem eq_of_withoutLoop {acc acc' : IBMAccelerator} (h : withoutLoop acc = withoutLoop acc')
    (hsupports : acc.measurementSupports = acc'.measurementSupports)
    (hnames : acc.kernelNames = acc'.kernelNames) : acc = acc' := by
  cases acc
  cases acc'
  simp only [withoutLoop, IBMAccelerator.mk.injEq] at h hsupports hnames ⊢
  simp [h, hsupports, hnames]

/-- **A run on the object is the run on the part of it**: the rest of the
members is not written. -/
theorem accelerator_afterRun (d : Device) (r : Run P) :
    (d.afterRun r).accelerator = r.next d.accelerator := by
  apply eq_of_withoutLoop
  · rw [Run.next, r.execute_frame d.accelerator]
    show withoutLoop { d.accelerator with
      chosenBackend := (d.chosenFor r.options).toIBMBackend } = _
    rw [chosenFor_toIBMBackend]
    rfl
  · rfl
  · rfl

end Device

end XaccIbm
