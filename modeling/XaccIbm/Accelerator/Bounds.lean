import XaccIbm.Accelerator.Outcomes
import XaccIbm.IBMAccelerator.Effects
import XaccIbm.Lib.Traverse
import XaccIbm.LocalIBMAccelerator.Effects
import XaccIbm.OpenQasmVisitor.Operations

/-!
# Accelerator — Bounds

The reads and the writes of the remapping loop. It reads the sorted
`measurementSupports` of a kernel once for each character of a key, and it
writes to the place that a qubit has in a string as long as the buffer.
Neither accelerator asks whether a measured qubit is one of the buffer: the
loop stays inside its containers when enough of the qubits that are
remembered for the kernel are.
-/

namespace XaccIbm

open Decode StdString Submission

namespace Decode

/-- The index `n - 1 - q` of a write. The index of a string has no sign, so
one below zero turns into one far behind the end. -/
def writeIndex (n q : Nat) : Int := (n : Int) - 1 - q

/-- **Every access of the loop is within bounds**: a key that is not shorter
than the buffer is not spread; for any other each turn reads an entry of the
sorted qubits and writes to one of the `n` characters. -/
def InBounds (n : Nat) (supports : List Nat) (key : String) : Prop :=
  key.toList.length < n → ∀ counter < key.toList.length, ∃ q,
    (sortSupports supports)[counter]? = some q ∧ 0 ≤ writeIndex n q ∧ writeIndex n q < n

theorem writeIndex_bounds {n q : Nat} :
    0 ≤ writeIndex n q ∧ writeIndex n q < n ↔ q < n := by
  unfold writeIndex
  omega

theorem placeBits_isSome {n : Nat} {qs : List Nat} {cs s : List Char} :
    (placeBits n qs cs s).isSome = true ↔
      ∀ counter < cs.length, ∃ q, qs[counter]? = some q ∧ q < n := by
  induction cs generalizing qs s with
  | nil => simp [placeBits]
  | cons c cs ih =>
      cases qs with
      | nil =>
          refine iff_of_false (by simp [placeBits]) fun h => ?_
          obtain ⟨q, hq, _⟩ := h 0 (by simp)
          cases hq
      | cons p qs =>
          rw [placeBits]
          split
          · rename_i hp
            rw [ih]
            refine ⟨fun h counter hc => ?_, fun h counter hc => ?_⟩
            · cases counter with
              | zero => exact ⟨p, rfl, hp⟩
              | succ counter => exact h counter (by simpa using hc)
            · exact h (counter + 1) (by simpa using hc)
          · rename_i hp
            refine iff_of_false (by simp) fun h => ?_
            obtain ⟨q, hq, hqn⟩ := h 0 (by simp)
            cases hq
            exact hp hqn

/-- The decoded string is there when the loop stays within bounds. -/
theorem remap_isSome {n : Nat} {supports : List Nat} {key : String} :
    (remap n supports key).isSome = true ↔ InBounds n supports key := by
  rw [remap, InBounds]
  split
  · rename_i hshort
    rw [Option.isSome_map, placeBits_isSome, List.length_reverse]
    simp only [writeIndex_bounds, hshort, forall_const]
  · rename_i hlong
    exact iff_of_true rfl fun hshort => absurd hshort hlong

/-- A table is decoded when the loop stays within bounds for every key, as
`read` makes it of the key in the table. -/
theorem decodeTable_isSome {n : Nat} {supports : List Nat} {read : String → String}
    {table : List (String × Int)} :
    (decodeTable (fun key => remap n supports (read key)) table).isSome = true ↔
      ∀ e ∈ table, InBounds n supports (read e.1) := by
  rw [decodeTable]
  induction table with
  | nil => simp
  | cons e table ih =>
      rw [List.forall_mem_cons, ← ih, ← remap_isSome, List.mapM_cons]
      cases remap n supports (read e.1) with
      | none => simp
      | some s =>
          cases table.mapM fun e =>
            (remap n supports (read e.1)).map fun s => (s, e.2) <;> simp

/-- Enough of the remembered qubits are qubits of the buffer for a kernel
with `m` measurements: as many as it has, unless its keys are not spread. -/
def EnoughBelow (n m : Nat) (supports : List Nat) : Prop :=
  n ≤ m ∨ m ≤ supports.countP (· < n)

instance (n m : Nat) (supports : List Nat) : Decidable (EnoughBelow n m supports) :=
  inferInstanceAs (Decidable (n ≤ m ∨ m ≤ supports.countP (· < n)))

/-- A key has as many characters as the kernel has measurements. -/
theorem inBounds_iff {n : Nat} {supports : List Nat} {key : String} :
    InBounds n supports key ↔ EnoughBelow n key.toList.length supports := by
  rw [InBounds, EnoughBelow, ← (sortSupports_perm supports).countP_eq,
    ← forall_lt_of_sorted_iff (sortSupports_sorted supports)]
  simp only [writeIndex_bounds]
  rw [← not_lt, Decidable.imp_iff_not_or]

/-- Qubits left by other kernels do not bring a kernel of the buffer's own
qubits out of bounds. -/
theorem enoughBelow_append {n : Nat} {own left : List Nat}
    (h : ∀ q ∈ own, q < n) : EnoughBelow n own.length (left ++ own) := by
  refine .inr ?_
  have hall : own.countP (· < n) = own.length :=
    List.countP_eq_length.mpr fun q hq => by simpa using h q hq
  rw [List.countP_append, hall]
  exact Nat.le_add_left _ _

end Decode

variable {P : Type}

/-! ## After the submission -/

/-- The loop on every key that a simulator can give for the kernels of a
list: one character for each `Measure`. -/
def LocalIBMAccelerator.DecodesInBounds (s : LocalIBMAccelerator) (n : Nat)
    (functions : List (Function (Gate P))) : Prop :=
  ∀ (i : Nat) kernel, functions[i]? = some kernel → ∀ key : String,
    key.toList.length = (measuredQubits kernel).length → InBounds n (s.entries i) key

/-- The same loop on keys that may have spaces in them. A job of one kernel has
one result, which is not spread. -/
def IBMAccelerator.DecodesInBounds (s : Session) (functions : List (Kernel P)) : Prop :=
  functions.length ≠ 1 → ∀ (i : Nat) kernel, functions[i]? = some kernel → ∀ key : String,
    (eraseSpaces key).toList.length = kernel.measuredQubits.length →
      InBounds s.buffer.size (s.acc.measurementSupports.getD i []) (eraseSpaces key)

/-- Every table of such keys is decoded. -/
def LocalIBMAccelerator.Decodes (s : LocalIBMAccelerator) (n : Nat)
    (functions : List (Function (Gate P))) : Prop :=
  ∀ (i : Nat) kernel, functions[i]? = some kernel → ∀ table : List (String × Int),
    (∀ e ∈ table, e.1.toList.length = (measuredQubits kernel).length) →
      (decodeTable (remap n (s.entries i)) table).isSome = true

def IBMAccelerator.Decodes (s : Session) (functions : List (Kernel P)) : Prop :=
  functions.length ≠ 1 → ∀ (i : Nat) kernel, functions[i]? = some kernel →
    ∀ table : List (String × Int),
      (∀ e ∈ table, (eraseSpaces e.1).toList.length = kernel.measuredQubits.length) →
        (decodeTable (decodeBatch true s.buffer.size (s.acc.measurementSupports.getD i []))
          table).isSome = true

/-- All tables are decoded when the loop stays within bounds for all keys. -/
theorem Decode.forall_decodes_iff {n m : Nat} {supports : List Nat} {read : String → String} :
    (∀ table : List (String × Int), (∀ e ∈ table, (read e.1).toList.length = m) →
        (decodeTable (fun key => remap n supports (read key)) table).isSome = true) ↔
      ∀ key, (read key).toList.length = m → InBounds n supports (read key) := by
  simp only [decodeTable_isSome]
  constructor
  · intro h key hkey
    exact h [(key, 1)] (by simpa using hkey) (key, 1) (by simp)
  · intro h table htable e he
    exact h e.1 (htable e he)

theorem LocalIBMAccelerator.decodes_iff {s : LocalIBMAccelerator} {n : Nat}
    {functions : List (Function (Gate P))} :
    s.Decodes n functions ↔ s.DecodesInBounds n functions :=
  forall_congr' fun _ => forall_congr' fun _ => imp_congr_right fun _ =>
    @forall_decodes_iff _ _ _ id

theorem IBMAccelerator.decodes_iff {s : Session} {functions : List (Kernel P)} :
    Decodes s functions ↔ DecodesInBounds s functions :=
  imp_congr_right fun _ => forall_congr' fun _ => forall_congr' fun _ => imp_congr_right fun _ =>
    @forall_decodes_iff _ _ _ eraseSpaces

/-- What holds of every key of one length says how many qubits are there, if
there is such a key. -/
theorem Decode.forall_inBounds_iff {n m : Nat} {supports : List Nat} {read : String → String}
    (hread : ∃ key, (read key).toList.length = m) :
    (∀ key, (read key).toList.length = m → InBounds n supports (read key)) ↔
      EnoughBelow n m supports := by
  constructor
  · intro h
    obtain ⟨key, hkey⟩ := hread
    rw [← hkey, ← inBounds_iff]
    exact h key hkey
  · intro h key hkey
    rwa [inBounds_iff, hkey]

/-- The key of registers that are all zero. -/
private theorem exists_key (m : Nat) :
    ∃ key : String, eraseSpaces key = key ∧ key.toList.length = m :=
  ⟨simulatorKey (List.replicate m false), eraseSpaces_simulatorKey _, by simp [simulatorKey]⟩

theorem LocalIBMAccelerator.decodesInBounds_iff {s : LocalIBMAccelerator} {n : Nat}
    {functions : List (Function (Gate P))} :
    s.DecodesInBounds n functions ↔ ∀ (i : Nat) kernel, functions[i]? = some kernel →
      EnoughBelow n (measuredQubits kernel).length (s.entries i) := by
  refine forall_congr' fun i => forall_congr' fun kernel => imp_congr_right fun _ => ?_
  apply forall_inBounds_iff
  obtain ⟨key, _, hkey⟩ := exists_key (measuredQubits kernel).length
  exact ⟨key, hkey⟩

theorem IBMAccelerator.decodesInBounds_iff {s : Session} {functions : List (Kernel P)} :
    DecodesInBounds s functions ↔ (functions.length ≠ 1 →
      ∀ (i : Nat) kernel, functions[i]? = some kernel →
        EnoughBelow s.buffer.size kernel.measuredQubits.length
          (s.acc.measurementSupports.getD i [])) := by
  refine imp_congr_right fun _ => forall_congr' fun i => forall_congr' fun kernel =>
    imp_congr_right fun _ => ?_
  apply forall_inBounds_iff
  obtain ⟨key, hspaces, hkey⟩ := exists_key kernel.measuredQubits.length
  exact ⟨key, by rw [hspaces, hkey]⟩

variable [ToString P]

theorem LocalIBMAccelerator.decodesInBounds_submitted {n : Nat}
    {functions : List (Function (Gate P))} {circuits : List Json}
    {s s' : LocalIBMAccelerator}
    (h : onSupports (submitCircuits n 0 functions) s = .ok circuits s') :
    s'.DecodesInBounds n functions ↔ ∀ (i : Nat) kernel, functions[i]? = some kernel →
      EnoughBelow n (measuredQubits kernel).length
        (s.entries i ++ measuredQubits kernel) := by
  obtain ⟨ms, hms, rfl⟩ := onSupports_ok.mp h
  rw [decodesInBounds_iff]
  refine forall_congr' fun i => forall_congr' fun kernel => imp_congr_right fun hk => ?_
  have hentries := submitCircuits_entries hms i
  rw [hk] at hentries
  rw [entries, hentries]
  rfl

theorem IBMAccelerator.decodesInBounds_submitted {options : Options}
    {pulseLibrary : List (String × String)} {functions : List (Kernel P)}
    {text : String} {s s' : Session}
    (h : processInput options pulseLibrary functions s = .ok text s') :
    DecodesInBounds s' functions ↔ (functions.length ≠ 1 →
      ∀ (i : Nat) kernel, functions[i]? = some kernel →
        EnoughBelow s.buffer.size kernel.measuredQubits.length
          (s.acc.measurementSupports.getD i [] ++ kernel.measuredQubits)) := by
  have hbuffer : s'.buffer = s.buffer := by
    have hframe := processInput_frame options pulseLibrary functions s
    rw [h] at hframe
    exact congrArg Prod.snd hframe
  rw [decodesInBounds_iff, hbuffer]
  refine imp_congr_right fun _ => forall_congr' fun i => forall_congr' fun kernel =>
    imp_congr_right fun hk => ?_
  rw [processInput_entries h i, hk]
  rfl

/-- **The decoding loops stay within bounds**, on either accelerator and for
every key of the kernels that were submitted, if and only if every kernel has
as many measurements as the buffer has qubits, or no more than there are
qubits of the buffer among those under its number: what was there before, and
the qubits the kernel measures. The only kernel of a remote job is not decoded
so. Then, and not otherwise, all tables of such keys are decoded. -/
theorem submitted_inBounds_iff :
    (∀ (n : Nat) (functions : List (Function (Gate P))) circuits
        (s s' : LocalIBMAccelerator),
      LocalIBMAccelerator.onSupports
          (LocalIBMAccelerator.submitCircuits n 0 functions) s = .ok circuits s' →
        (s'.DecodesInBounds n functions ↔
          ∀ (i : Nat) kernel, functions[i]? = some kernel →
            EnoughBelow n (measuredQubits kernel).length
              (s.entries i ++ measuredQubits kernel)) ∧
        (s'.Decodes n functions ↔ s'.DecodesInBounds n functions)) ∧
    ∀ options pulseLibrary (functions : List (Kernel P)) text (s s' : Session),
      IBMAccelerator.processInput options pulseLibrary functions s = .ok text s' →
        (IBMAccelerator.DecodesInBounds s' functions ↔ (functions.length ≠ 1 →
          ∀ (i : Nat) kernel, functions[i]? = some kernel →
            EnoughBelow s.buffer.size kernel.measuredQubits.length
              (s.acc.measurementSupports.getD i [] ++ kernel.measuredQubits))) ∧
        (IBMAccelerator.Decodes s' functions ↔ IBMAccelerator.DecodesInBounds s' functions) := by
  constructor
  · intro n functions circuits s s' h
    exact ⟨LocalIBMAccelerator.decodesInBounds_submitted h, LocalIBMAccelerator.decodes_iff⟩
  · intro options pulseLibrary functions text s s' h
    exact ⟨IBMAccelerator.decodesInBounds_submitted h, IBMAccelerator.decodes_iff⟩

/-- Kernels that measure qubits of the buffer only are decoded within bounds,
whatever calls that failed have left under their numbers. -/
theorem decodesInBounds_of_below :
    (∀ (n : Nat) (functions : List (Function (Gate P))) circuits
        (s s' : LocalIBMAccelerator),
      LocalIBMAccelerator.onSupports
          (LocalIBMAccelerator.submitCircuits n 0 functions) s = .ok circuits s' →
        (∀ kernel ∈ functions, ∀ q ∈ measuredQubits kernel, q < n) →
          s'.DecodesInBounds n functions) ∧
    ∀ options pulseLibrary (functions : List (Kernel P)) text (s s' : Session),
      IBMAccelerator.processInput options pulseLibrary functions s = .ok text s' →
        (∀ kernel ∈ functions, ∀ q ∈ kernel.measuredQubits, q < s.buffer.size) →
          IBMAccelerator.DecodesInBounds s' functions := by
  constructor
  · intro n functions circuits s s' h hbelow
    rw [LocalIBMAccelerator.decodesInBounds_submitted h]
    intro i kernel hk
    exact enoughBelow_append (hbelow kernel (List.mem_of_getElem? hk))
  · intro options pulseLibrary functions text s s' h hbelow
    rw [IBMAccelerator.decodesInBounds_submitted h]
    intro _ i kernel hk
    exact enoughBelow_append (hbelow kernel (List.mem_of_getElem? hk))

/-! ## No qubit is rejected -/

/-- A kernel that measures one qubit. -/
def measureOnly (q : Nat) : Function (Gate String) :=
  ⟨"foo", true, [.leaf true (.measure q 0)]⟩

theorem accepted_measureOnly (n q : Nat) :
    LocalIBMAccelerator.accepted n (measureOnly q) = true := by
  obtain ⟨v, hpass⟩ : ∃ v, passAll OpenQasmVisitor.accept (measureOnly q).walk
      (OpenQasmVisitor.new n false) = .ok () v := ⟨_, rfl⟩
  rw [LocalIBMAccelerator.accepted, hpass]
  obtain ⟨_, rfl⟩ := OpenQasmVisitor.acceptAll_ok (visited_of_passAll hpass)
  have hparse : Json.parse (cutLast ("[" ++ jsonText [(.measure q 0 : QOp String)]) ++ "]")
      = some (.arr [QOp.element (.measure q 0 : QOp String)]) :=
    parse_operationsJson (by simp) (by simp [QOp.Numeric, QOp.params])
  show (Json.parse _).isSome = true
  rw [OpenQasmVisitor.getOperationsJsonString, OpenQasmVisitor.operationsJsonStr_withRegisters,
    OpenQasmVisitor.operationsJsonStr_emit]
  exact Option.isSome_iff_exists.mpr ⟨_, hparse⟩

/-- The local accelerator submits a measurement of any qubit. -/
theorem submitCircuits_measureOnly (n q : Nat) :
    ∃ circuits s', LocalIBMAccelerator.onSupports
        (LocalIBMAccelerator.submitCircuits n 0 [measureOnly q]) {} = .ok circuits s' ∧
      s'.entries 0 = [q] := by
  have hsucc := LocalIBMAccelerator.submitCircuit_succeeds n 0 (measureOnly q) ∅
  rw [accepted_measureOnly] at hsucc
  obtain ⟨c, ms, hc⟩ := Exec.succeeds_iff.mp hsucc
  have hms : LocalIBMAccelerator.submitCircuits n 0 [measureOnly q] ∅ = .ok [c] ms := by
    rw [LocalIBMAccelerator.submitCircuits, Exec.bind_of_ok hc]
    rfl
  refine ⟨[c], ⟨ms⟩, LocalIBMAccelerator.onSupports_ok.mpr ⟨ms, hms, rfl⟩, ?_⟩
  exact LocalIBMAccelerator.submitCircuits_entries hms 0

/-- A kernel that measures qubits in this order. -/
def measuring (qs : List Nat) : Function (Gate String) :=
  ⟨"foo", true, qs.zipIdx.map fun m => .leaf true (.measure m.1 m.2)⟩

/-- A qubit that a call which failed has left under the number of a kernel. -/
def leftUnder (k q : Nat) : Supports := (∅ : Supports).insert k [q]

/-- A session of a fresh accelerator. -/
def freshSession (n : Nat) : Session where
  acc := {}
  buffer := { name := "q", size := n }
  replies := []

/-- So does the remote one. -/
theorem processInput_measureOnly (n q : Nat) :
    ∃ text s', IBMAccelerator.processInput ∅ [] [.gates (measureOnly q), .gates (measureOnly 0)]
        (freshSession n) = .ok text s' ∧
      s'.acc.measurementSupports.getD 0 [] = [q] := ⟨_, _, rfl, rfl⟩

/-- Qubit 5 of a buffer of two: the index that is written to is below zero. -/
theorem outside_not_inBounds :
    (¬ ∀ (n : Nat) (functions : List (Function (Gate String))) circuits
        (s' : LocalIBMAccelerator), isValidBufferSize n = true →
      LocalIBMAccelerator.onSupports
          (LocalIBMAccelerator.submitCircuits n 0 functions) {} = .ok circuits s' →
        s'.DecodesInBounds n functions) ∧
    ¬ ∀ (n : Nat) options (functions : List (Kernel String)) text (s' : Session),
      isValidBufferSize n = true →
      IBMAccelerator.processInput options [] functions (freshSession n) = .ok text s' →
        IBMAccelerator.DecodesInBounds s' functions := by
  constructor
  · intro h
    obtain ⟨circuits, s', hrun, hentries⟩ := submitCircuits_measureOnly 2 5
    have hbounds := h 2 _ circuits s' rfl hrun 0 (measureOnly 5) rfl "1" rfl
    obtain ⟨q, hq, hlow, _⟩ := hbounds (by decide) 0 (by decide)
    rw [hentries] at hq
    cases hq
    exact absurd hlow (by decide)
  · intro h
    obtain ⟨text, s', hrun, hentries⟩ := processInput_measureOnly 2 5
    have hbounds := h 2 _ _ text s' rfl hrun (by decide) 0 (.gates (measureOnly 5)) rfl "1" rfl
    have hbuffer : s'.buffer.size = 2 := by
      have hframe := IBMAccelerator.processInput_frame ∅ []
        [.gates (measureOnly 5), .gates (measureOnly 0)] (freshSession 2)
      rw [hrun] at hframe
      exact congrArg (fun f => f.2.size) hframe
    rw [hbuffer, hentries] at hbounds
    obtain ⟨q, hq, hlow, _⟩ := hbounds (by decide) 0 (by decide)
    cases hq
    exact absurd hlow (by decide)

/-- The theorem at two kernels on either accelerator. The second measures qubit 4
of three, and an earlier call that failed has left qubit 0 under its number. -/
theorem submitted_inBounds_two :
    (∃ circuits s', LocalIBMAccelerator.onSupports
        (LocalIBMAccelerator.submitCircuits 3 0 [measuring [2, 0], measuring [4, 1]])
        { measurementSupports := leftUnder 1 0 } = .ok circuits s' ∧
      s'.DecodesInBounds 3 [measuring [2, 0], measuring [4, 1]]) ∧
    ∃ text s', IBMAccelerator.processInput ∅ []
        [.gates (measuring [2, 0]), .gates (measuring [4, 1])]
        { freshSession 3 with acc := { measurementSupports := leftUnder 1 0 } } = .ok text s' ∧
      IBMAccelerator.Decodes s' [.gates (measuring [2, 0]), .gates (measuring [4, 1])] := by
  have hfirst : EnoughBelow 3 2 [2, 0] := by decide
  have hsecond : EnoughBelow 3 2 [0, 4, 1] := by decide
  constructor
  · have hsucceeds : Exec.succeeds (LocalIBMAccelerator.onSupports
        (LocalIBMAccelerator.submitCircuits 3 0 [measuring [2, 0], measuring [4, 1]])
        { measurementSupports := leftUnder 1 0 }) = true := by
      decide +kernel
    obtain ⟨circuits, s', h⟩ := Exec.succeeds_iff.mp hsucceeds
    exact ⟨circuits, s', h, (submitted_inBounds_iff.1 3 _ circuits _ s' h).1.mpr
      (Traverse.forall_pair.mpr ⟨hfirst, hsecond⟩)⟩
  · have hsucceeds : Exec.succeeds (IBMAccelerator.processInput ∅ []
        [.gates (measuring [2, 0]), .gates (measuring [4, 1])]
        { freshSession 3 with acc := { measurementSupports := leftUnder 1 0 } }) = true := by
      decide +kernel
    obtain ⟨text, s', h⟩ := Exec.succeeds_iff.mp hsucceeds
    obtain ⟨hbounds, hdecodes⟩ := submitted_inBounds_iff.2 ∅ [] _ text _ s' h
    exact ⟨text, s', h, hdecodes.mpr (hbounds.mpr fun _ =>
      Traverse.forall_pair.mpr ⟨hfirst, hsecond⟩)⟩

end XaccIbm
