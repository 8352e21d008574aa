import XaccIbm.OQASMCompiler.Walk

/-!
# OQASMCompiler — Registry

What the listener relies on in the gate registry: a created instruction has
the name, the bits and the parameters it was asked for, and setting a
parameter replaces that parameter only. From this follows what the
instruction of every callback is made of. `plainServices` is a registry of
the XACC instructions with numbers kept as their decimal text.
-/

namespace XaccIbm.OQASMCompiler

open OpenQasm Traverse

variable {N : Type}

namespace GateInstruction

def setParam (i : GateInstruction N) (k : Nat) (p : InstructionParameter N) :
    GateInstruction N :=
  { i with params := i.params.set k p }

end GateInstruction

/-- **The registry keeps what it is given.** Parameters that were not given
are numbers. -/
structure Services.Lawful (S : Services N) : Prop where
  name_eq : ∀ {name bits ps i}, S.createInstruction name bits ps = .ok i → i.name = name
  bits_eq : ∀ {name bits ps i}, S.createInstruction name bits ps = .ok i → i.bits = bits
  params_eq : ∀ {name bits ps i}, S.createInstruction name bits ps = .ok i →
    ∃ xs : List N, i.params = ps ++ xs.map .num
  set_eq : ∀ {i k p i'}, S.setParameter i k p = .ok i' →
    k < i.params.length ∧ i' = i.setParam k p

/-! ## A registry -/

/-- The number of parameters of the instruction of a name. -/
def arity (name : String) : Option Nat :=
  if name ∈ ["I", "H", "X", "Y", "Z", "CNOT", "CZ", "Swap"] then some 0
  else if name ∈ ["Rx", "Ry", "Rz", "Measure"] then some 1
  else if name = "U" then some 3
  else none

/-- The decimals, with a sign or without. -/
def isDecimal (s : String) : Bool :=
  match s.toList with
  | '-' :: cs => isINT cs || isREAL cs
  | cs => isINT cs || isREAL cs

/-- A registry of these instructions; parameters that were not given are
`unset`. -/
def registry (evalMathExpression : String → Option N) (unset zero halfPi : N) : Services N where
  createInstruction name bits ps :=
    match arity name with
    | some n =>
        .ok ⟨name, bits, ps ++ List.replicate (n - ps.length) (.num unset)⟩
    | none => .error "Invalid instruction name."
  setParameter i k p :=
    if k < i.params.length then .ok (i.setParam k p)
    else .error "Invalid Parameter requested."
  evalMathExpression := evalMathExpression
  zero := zero
  halfPi := halfPi

theorem registry_lawful (eval : String → Option N) (unset zero halfPi : N) :
    (registry eval unset zero halfPi).Lawful where
  name_eq := by
    intro name bits ps i h
    simp only [registry] at h
    split at h
    · cases h
      rfl
    · cases h
  bits_eq := by
    intro name bits ps i h
    simp only [registry] at h
    split at h
    · cases h
      rfl
    · cases h
  params_eq := by
    intro name bits ps i h
    simp only [registry] at h
    split at h
    · rename_i n _
      cases h
      exact ⟨List.replicate (n - ps.length) unset, by simp⟩
    · cases h
  set_eq := by
    intro i k p i' h
    simp only [registry] at h
    split at h
    · rename_i hk
      cases h
      exact ⟨hk, rfl⟩
    · cases h

def plainServices : Services String :=
  registry (fun s => if isDecimal s then some s else none) "0" "0.0" "1.5707963"

theorem plainServices_lawful : plainServices.Lawful := registry_lawful _ _ _ _

/-! ## Words for small sources -/

namespace Sample

def q : ID := ⟨"q", by decide⟩
def c : ID := ⟨"c", by decide⟩
def a : ID := ⟨"a", by decide⟩
def b : ID := ⟨"b", by decide⟩
def h : ID := ⟨"h", by decide⟩
def x : ID := ⟨"x", by decide⟩
def y : ID := ⟨"y", by decide⟩
def rx : ID := ⟨"rx", by decide⟩
def f : ID := ⟨"f", by decide⟩
def g : ID := ⟨"g", by decide⟩
def zero : INT := ⟨"0", by decide⟩
def one : INT := ⟨"1", by decide⟩
def two : INT := ⟨"2", by decide⟩

/-- A kernel of some parameters and statements. -/
def kernel (name : ID) (params : List ID) (statements : List Statement) :
    Xacckernel where
  kernelname := name
  acceleratorbuffer := b
  typedparams := params.map (TypeName.double, ·)
  mainprog := ⟨[], true, ⟨"2.0", by decide⟩, statements.map .statement⟩

/-- A gate without parameters on one operand. -/
def apply (gate : ID) (operand : GateArg) : Uop :=
  .UserDefGate (.plain gate) none ⟨operand, []⟩

end Sample

/-! ## What the instructions are made of -/

/-- Consecutive parameters replaced, from the `k`-th on. -/
def setFrom {α : Type} (k : Nat) : List α → List α → List α
  | [], xs => xs
  | p :: ps, xs => setFrom (k + 1) ps (xs.set k p)

variable {S : Services N}

theorem service_ok {α : Type} {x : Except String α} {a : α} :
    service x = .ok a ↔ x = .ok a := by
  cases x <;> simp [service]

theorem setParameters_ok (hS : S.Lawful) {ps : List (InstructionParameter N)}
    {k : Nat} {inst i : GateInstruction N}
    (h : setParameters S k ps inst = .ok i) :
    i = { inst with params := setFrom k ps inst.params } := by
  induction ps generalizing k inst with
  | nil =>
      cases h
      rfl
  | cons p ps ih =>
      obtain ⟨inst', hset, hrest⟩ := bind_ok.mp h
      obtain ⟨_, rfl⟩ := hS.set_eq (service_ok.mp hset)
      exact ih hrest

/-- Parameters set one after the other are consecutive slots. -/
theorem setParameters_params (hS : S.Lawful) {ps : List (InstructionParameter N)}
    {k : Nat} {inst i : GateInstruction N}
    (h : setParameters S k ps inst = .ok i) :
    i.params = inst.params.take k ++ ps ++ inst.params.drop (k + ps.length) := by
  induction ps generalizing k inst with
  | nil =>
      cases h
      simp
  | cons p ps ih =>
      obtain ⟨inst', hset, hrest⟩ := bind_ok.mp h
      obtain ⟨hk, rfl⟩ := hS.set_eq (service_ok.mp hset)
      rw [ih hrest]
      have htake : (inst.params.set k p).take (k + 1) = inst.params.take k ++ [p] := by
        rw [List.take_add_one, List.take_set_of_le (Nat.le_refl k)]
        simp [hk]
      have hdrop : (inst.params.set k p).drop (k + 1 + ps.length)
          = inst.params.drop (k + (p :: ps).length) := by
        rw [List.drop_set_of_lt (by omega), List.length_cons]
        congr 1
        omega
      rw [GateInstruction.setParam, htake, hdrop]
      simp

theorem setParameters_append (k : Nat) (ps qs : List (InstructionParameter N))
    (inst : GateInstruction N) :
    setParameters S k (ps ++ qs) inst
      = setParameters S k ps inst >>= setParameters S (k + ps.length) qs := by
  induction ps generalizing k inst with
  | nil => rfl
  | cons p ps ih =>
      rw [List.cons_append, setParameters, setParameters, bind_assoc]
      refine bind_congr fun inst' => ?_
      rw [ih, List.length_cons, Nat.add_assoc, Nat.add_comm 1]

/-- The name an application is created under. -/
def instructionName : Uop → String
  | .U _ _ => "U"
  | .CX _ _ => "CNOT"
  | .UserDefGate g _ _ =>
      let gateName := capitalize g.id.text
      if gateName = "Cx" then "CNOT"
      else if gateName = "U1" ∨ gateName = "U2" ∨ gateName = "U3" then "U"
      else gateName

/-- The constants in the slots before the expressions of an application. -/
def constants (S : Services N) (gateName : String) :
    List (InstructionParameter N) :=
  if gateName = "U2" then [.num S.halfPi]
  else if gateName = "U1" then [.num S.zero, .num S.zero]
  else []

/-- The parameters an application sets, from the first slot on. -/
def slots (S : Services N) : Uop → List (InstructionParameter N)
  | .U es _ => ((expressions es).take 3).map fun e => strToParam S e.text
  | .CX _ _ => []
  | .UserDefGate g es _ =>
      let gateName := capitalize g.id.text
      if gateName = "Cx" then []
      else constants S gateName
        ++ (expressions es).map fun e => strToParam S e.text

/-- The start of an application is its constants. -/
theorem start_eq (gateName : String) (qubits : List Nat) :
    start S gateName qubits = (do
      let inst ← service (S.createInstruction
        (if gateName = "U1" ∨ gateName = "U2" ∨ gateName = "U3" then "U"
          else gateName) qubits [])
      let inst ← setParameters S 0 (constants S gateName) inst
      return (inst, (constants S gateName).length)) := by
  rw [start]
  by_cases h2 : gateName = "U2"
  · subst h2
    simp only [constants, if_true, setParameters, bind_assoc, or_true, true_or]
    rfl
  by_cases h1 : gateName = "U1"
  · subst h1
    simp only [constants, h2, if_true, if_false, setParameters, bind_assoc, true_or]
    rfl
  by_cases h3 : gateName = "U3"
  · subst h3
    simp only [constants, h1, h2, if_true, if_false, setParameters, or_true]
    rfl
  · simp only [constants, h1, h2, h3, if_false, setParameters, or_self]
    rfl

/-- The three expressions that a `U` reads. -/
def readExpressions : Uop → Walk Unit
  | .U es _ => if 3 ≤ (expressions es).length then .ok () else .error .nullContext
  | .CX _ _ => .ok ()
  | .UserDefGate _ _ _ => .ok ()

/-- **An application is created and its slots are set**, once its indices and its
expressions are read. -/
theorem instructionUop_bind (u : Uop) :
    instructionUop S u = (do
      let qs ← u.args.mapM qubit
      readExpressions u
      let inst ← service (S.createInstruction (instructionName u) qs [])
      setParameters S 0 (slots S u) inst) := by
  cases u with
  | U explist arg =>
      simp only [instructionUop, instructionU, Uop.args, List.mapM_cons, List.mapM_nil, bind_assoc,
        pure_bind]
      refine bind_congr fun q => ?_
      cases explist with
      | none => rfl
      | some es =>
          -- the expressions are read one by one
          rcases hes : es.toList with _ | ⟨a, _ | ⟨b, _ | ⟨c, l⟩⟩⟩
          · simp [child, readExpressions, expressions, hes, bind, Except.bind]
          · simp [child, readExpressions, expressions, hes, bind, Except.bind]
          · simp [child, readExpressions, expressions, hes, bind, Except.bind]
          · simp [child, readExpressions, expressions, slots, instructionName, hes, bind,
              Except.bind]
  | CX a b =>
      simp only [instructionUop, instructionCX, Uop.args, List.mapM_cons, List.mapM_nil, bind_assoc,
        pure_bind]
      refine bind_congr fun q => bind_congr fun r => ?_
      exact (bind_pure (service (S.createInstruction "CNOT" [q, r] []))).symm
  | UserDefGate g es as =>
      rw [instructionUop, instructionUserDefGate, Uop.args, slots, instructionName]
      refine bind_congr fun qs => ?_
      simp only
      by_cases hcx : capitalize g.id.text = "Cx"
      · rw [if_pos hcx, if_pos hcx, if_pos hcx]
        exact (bind_pure (service (S.createInstruction "CNOT" qs []))).symm
      · rw [if_neg hcx, if_neg hcx, if_neg hcx, start_eq]
        simp only [bind_assoc, pure_bind]
        refine bind_congr fun inst => ?_
        rw [setParameters_append, Nat.zero_add]

theorem instructionUop_ok {u : Uop} {i : GateInstruction N}
    (h : instructionUop S u = .ok i) :
    ∃ qs inst, u.args.mapM qubit = .ok qs ∧
      S.createInstruction (instructionName u) qs [] = .ok inst ∧
      setParameters S 0 (slots S u) inst = .ok i := by
  rw [instructionUop_bind] at h
  obtain ⟨qs, hqs, h⟩ := bind_ok.mp h
  obtain ⟨_, _, h⟩ := bind_ok.mp h
  obtain ⟨inst, hinst, h⟩ := bind_ok.mp h
  exact ⟨qs, inst, hqs, service_ok.mp hinst, h⟩

/-- **A measurement is created** with its qubit and its classical bit. -/
theorem instructionMeasure_ok {m : Measure} {i : GateInstruction N}
    (h : instructionMeasure S m = .ok i) :
    ∃ a q k, gatearg m.qbit = some a ∧ qubit a = .ok q ∧
      S.createInstruction "Measure" [q] [.int k] = .ok i := by
  obtain ⟨a, ha, h⟩ := bind_ok.mp h
  obtain ⟨q, hq, h⟩ := bind_ok.mp h
  obtain ⟨b, _, h⟩ := bind_ok.mp h
  obtain ⟨k, _, h⟩ := bind_ok.mp h
  exact ⟨a, q, k, child_ok.mp ha, hq, service_ok.mp h⟩

/-! ## Laws of the instructions -/

/-- The operands of a callback, in the order of the bits. -/
def operands : Callback → List GateArg
  | .exitKernelcall _ => []
  | .exitUop u => u.args
  | .exitMeasure m => (gatearg m.qbit).toList

/-- **The bits of an instruction are the indices of its operands.** -/
theorem nodeOf_bits (hS : S.Lawful) {functions : StdMap String Nat}
    {c : Callback} {i : GateInstruction N}
    (h : nodeOf S functions c = .ok (.inst i)) :
    (operands c).mapM qubit = .ok i.bits := by
  rcases nodeOf_inst.mp h with ⟨u, rfl, hi⟩ | ⟨m, rfl, hi⟩
  · obtain ⟨qs, inst, hqs, hinst, hset⟩ := instructionUop_ok hi
    rw [setParameters_ok hS hset, operands, hqs, ← hS.bits_eq hinst]
  · obtain ⟨a, q, k, ha, hq, hi⟩ := instructionMeasure_ok hi
    rw [hS.bits_eq hi, operands, ha]
    exact mapM_cons_ok.mpr ⟨q, [], hq, rfl, rfl⟩

end XaccIbm.OQASMCompiler
