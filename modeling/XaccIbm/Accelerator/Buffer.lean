import Mathlib.Algebra.Order.Field.Rat
import XaccIbm.Lib.Exec
import XaccIbm.Lib.StdMap

/-!
# Accelerator — Buffer

What the plugin shares with the framework: the options, and the
`AcceleratorBuffer` as far as the plugin writes it, which is a name, a
number of qubits, the measurements that were appended and the extra
information. Both are kept as the calls that made them, in the order they
were made; what `getMeasurementCounts` makes of the calls is the
framework's.
-/

namespace XaccIbm

/-- The options of the framework, by name. -/
abbrev Options := StdMap String String

inductive ExtraInfo where
  | num (x : ℚ)
  | str (s : String)
  | nums (xs : List ℚ)
  | strs (ss : List String)

/-- `measurements` has the arguments of every `appendMeasurement`; a call
without a count is a call for one. -/
structure AcceleratorBuffer where
  name : String
  size : Nat
  measurements : List (String × Int) := []
  info : List (String × ExtraInfo) := []

/-- `getMeasurementCounts` on the calls that were made. -/
abbrev MeasurementCounts := List (String × Int) → StdMap String Nat

/-- Exactly the strings that were appended have an entry. -/
def MeasurementCounts.Entered (counts : MeasurementCounts) : Prop :=
  ∀ calls s, (counts calls).contains s = true ↔ ∃ n, (s, n) ∈ calls

namespace AcceleratorBuffer

def appendMeasurement (b : AcceleratorBuffer) (s : String) (n : Int) :
    AcceleratorBuffer :=
  { b with measurements := b.measurements ++ [(s, n)] }

def addExtraInfo (b : AcceleratorBuffer) (key : String) (i : ExtraInfo) :
    AcceleratorBuffer :=
  { b with info := b.info ++ [(key, i)] }

/-- Append every entry of a table of counts. -/
def appendAll (b : AcceleratorBuffer) (entries : List (String × Int)) :
    AcceleratorBuffer :=
  entries.foldl (fun b e => b.appendMeasurement e.1 e.2) b

/-- Append every entry of a table one measurement at a time. -/
def appendEach (b : AcceleratorBuffer) (entries : List (String × Int)) :
    AcceleratorBuffer :=
  b.appendAll (entries.flatMap fun e => List.replicate e.2.toNat (e.1, 1))

theorem appendAll_eq (b : AcceleratorBuffer) (entries : List (String × Int)) :
    b.appendAll entries = { b with measurements := b.measurements ++ entries } := by
  induction entries generalizing b with
  | nil => simp [appendAll]
  | cons e entries ih =>
      rw [appendAll, List.foldl_cons, ← appendAll, ih]
      simp [appendMeasurement]

theorem appendEach_measurements (b : AcceleratorBuffer) (entries : List (String × Int)) :
    (b.appendEach entries).measurements
      = b.measurements ++ entries.flatMap fun e => List.replicate e.2.toNat (e.1, 1) := by
  rw [appendEach, appendAll_eq]

end AcceleratorBuffer

/-- `isValidBufferSize`, the same in both accelerators. -/
def isValidBufferSize (n : Nat) : Bool := 0 < n && n < 31

/-- `createBuffer(varId, size)`. -/
def createBuffer {σ : Type} (varId : String) (size : Nat) :
    Exec σ AcceleratorBuffer :=
  if isValidBufferSize size then pure { name := varId, size := size }
  else throw (.error "Invalid buffer size.")

theorem createBuffer_bind_ok {σ β : Type} {varId : String} {size : Nat}
    {f : AcceleratorBuffer → Exec σ β} {s s' : σ} {b : β} :
    (createBuffer varId size >>= f) s = .ok b s' ↔
      isValidBufferSize size = true ∧ f { name := varId, size := size } s = .ok b s' := by
  rw [createBuffer]
  by_cases h : isValidBufferSize size = true
  · rw [if_pos h, and_iff_right h]
    rfl
  · rw [if_neg h]
    simp [Exec.bind_apply, h]

end XaccIbm
