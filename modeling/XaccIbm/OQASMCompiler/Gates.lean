import XaccIbm.IR
import XaccIbm.OQASMCompiler.Registry

/-!
# OQASMCompiler — Gates

The instructions of a registry that knows exactly the instructions of XACC,
as gates of the IR. With such a registry the instruction of an application
is its name, the indices of its operands and its slots, when there are as
many slots as the instruction has parameters.
-/

namespace XaccIbm

/-- The angles of a gate. -/
def Gate.angles {P : Type} : Gate P → List P
  | cphase theta _ _ | rx theta _ | ry theta _ | rz theta _ => [theta]
  | u theta phi lambda _ => [theta, phi, lambda]
  | _ => []

end XaccIbm

namespace XaccIbm.OQASMCompiler

open OpenQasm Traverse

variable {N : Type}

/-- **The registry knows exactly the instructions of `arity`**, each with its
number of parameters. -/
structure Services.KnowsExactly (S : Services N) : Prop extends S.Lawful where
  creates : ∀ {name n bits ps}, arity name = some n → ps.length ≤ n →
    ∃ i, S.createInstruction name bits ps = .ok i ∧ i.params.length = n
  known : ∀ {name bits ps i}, S.createInstruction name bits ps = .ok i →
    (arity name).isSome = true
  sets : ∀ {i k p}, k < i.params.length → ∃ i', S.setParameter i k p = .ok i'

theorem registry_knowsExactly (eval : String → Option N) (unset zero halfPi : N) :
    (registry eval unset zero halfPi).KnowsExactly where
  toLawful := registry_lawful eval unset zero halfPi
  creates := by
    intro name n bits ps hn hle
    refine ⟨⟨name, bits, ps ++ List.replicate (n - ps.length) (.num unset)⟩, ?_, ?_⟩
    · simp only [registry, hn]
    · simp only [List.length_append, List.length_replicate]
      omega
  known := by
    intro name bits ps i h
    simp only [registry] at h
    split at h
    · rename_i n hn
      rw [hn]
      rfl
    · cases h
  sets := by
    intro i k p hk
    exact ⟨i.setParam k p, if_pos hk⟩

variable {S : Services N}

/-! ## The instructions of the callbacks -/

theorem setParameters_total (hS : S.KnowsExactly) {ps : List (InstructionParameter N)}
    {k : Nat} {inst : GateInstruction N} (h : k + ps.length ≤ inst.params.length) :
    ∃ i, setParameters S k ps inst = .ok i := by
  induction ps generalizing k inst with
  | nil => exact ⟨inst, rfl⟩
  | cons p ps ih =>
      rw [List.length_cons] at h
      obtain ⟨inst', hset⟩ := hS.sets (p := p) (show k < inst.params.length by omega)
      obtain ⟨_, rfl⟩ := hS.set_eq hset
      have hrest : k + 1 + ps.length ≤ (inst.setParam k p).params.length := by
        rw [GateInstruction.setParam, List.length_set]
        omega
      obtain ⟨i, hi⟩ := ih hrest
      exact ⟨i, bind_ok.mpr ⟨_, service_ok.mpr hset, hi⟩⟩

/-- An application of which every part returns. -/
theorem instructionUop_of {u : Uop} {qs : List Nat} {inst i : GateInstruction N}
    (hqs : u.args.mapM qubit = .ok qs)
    (hinst : S.createInstruction (instructionName u) qs [] = .ok inst)
    (hset : setParameters S 0 (slots S u) inst = .ok i)
    (hU : ∀ es a, u = .U es a → (slots S u).length = 3) : instructionUop S u = .ok i := by
  have hread : readExpressions u = .ok () := by
    cases u with
    | U es a =>
        have hlen := hU es a rfl
        rw [slots, List.length_map, List.length_take] at hlen
        rw [readExpressions, if_pos (by omega)]
    | CX a b => rfl
    | UserDefGate g es as => rfl
  rw [instructionUop_bind]
  exact bind_ok.mpr ⟨qs, hqs, bind_ok.mpr ⟨(), hread,
    bind_ok.mpr ⟨inst, service_ok.mpr hinst, hset⟩⟩⟩

/-- **An application is the instruction of its name, its indices and its
slots**, when these are as many as the instruction has parameters. -/
theorem instructionUop_eq (hS : S.KnowsExactly) {u : Uop} {qs : List Nat}
    (hqs : u.args.mapM qubit = .ok qs)
    (harity : arity (instructionName u) = some (slots S u).length) :
    instructionUop S u = .ok ⟨instructionName u, qs, slots S u⟩ := by
  obtain ⟨inst, hinst, hlen⟩ : ∃ inst, S.createInstruction (instructionName u) qs [] = .ok inst ∧
      inst.params.length = (slots S u).length := hS.creates harity (Nat.zero_le _)
  have hroom : 0 + (slots S u).length ≤ inst.params.length := by omega
  obtain ⟨i, hi⟩ := setParameters_total hS hroom
  have hparams := setParameters_params hS.toLawful hi
  have heq := setParameters_ok hS.toLawful hi
  rw [instructionUop_of hqs hinst hi]
  · rw [Nat.zero_add, List.take_zero, List.nil_append, ← hlen, List.drop_length,
      List.append_nil, heq] at hparams
    have hparams : setFrom 0 (slots S u) inst.params = slots S u := hparams
    rw [heq, hparams, hS.name_eq hinst, hS.bits_eq hinst]
  · intro es a hu
    subst hu
    exact (Option.some.inj harity).symm

theorem instructionMeasure_eq (hS : S.KnowsExactly) {a b : GateArg} {q c : Nat}
    (hq : qubit a = .ok q) (hc : qubit b = .ok c) :
    instructionMeasure S ⟨.gatearg a, .gatearg b⟩ = .ok ⟨"Measure", [q], [.int c]⟩ := by
  obtain ⟨i, hi, hlen⟩ : ∃ i, S.createInstruction "Measure" [q] [.int c] = .ok i ∧
      i.params.length = 1 := hS.creates rfl (Nat.le_refl 1)
  obtain ⟨xs, hxs⟩ := hS.params_eq hi
  have hnil : xs = [] := by
    rw [hxs] at hlen
    simpa using hlen
  have hmeasure : i = ⟨"Measure", [q], [.int c]⟩ := by
    obtain ⟨name, bits, params⟩ := i
    have hname : name = "Measure" := hS.name_eq hi
    have hbits : bits = [q] := hS.bits_eq hi
    have hparams : params = [.int c] := by
      rw [hnil] at hxs
      exact hxs
    rw [hname, hbits, hparams]
  rw [← hmeasure]
  exact bind_ok.mpr ⟨a, rfl, bind_ok.mpr ⟨q, hq, bind_ok.mpr ⟨b, rfl, bind_ok.mpr ⟨c, hc,
    service_ok.mpr hi⟩⟩⟩⟩

/-- Every other name is refused. -/
theorem instructionUop_refused (hS : S.KnowsExactly) {u : Uop}
    (h : arity (instructionName u) = none) {i : GateInstruction N} :
    instructionUop S u ≠ .ok i := by
  intro hi
  obtain ⟨qs, inst, _, hinst, _⟩ := instructionUop_ok hi
  have hknown := hS.known hinst
  rw [h] at hknown
  cases hknown

/-! ## Gates -/

/-- The gate an instruction is. -/
def GateInstruction.gate? (i : GateInstruction N) : Option (Gate (InstructionParameter N)) :=
  match i.name, i.bits, i.params with
  | "I", [q], [] => some (.identity q)
  | "H", [q], [] => some (.hadamard q)
  | "X", [q], [] => some (.x q)
  | "Y", [q], [] => some (.y q)
  | "Z", [q], [] => some (.z q)
  | "CNOT", [a, b], [] => some (.cnot a b)
  | "CZ", [a, b], [] => some (.cz a b)
  | "Swap", [a, b], [] => some (.swap a b)
  | "Rx", [q], [theta] => some (.rx theta q)
  | "Ry", [q], [theta] => some (.ry theta q)
  | "Rz", [q], [theta] => some (.rz theta q)
  | "U", [q], [theta, phi, lambda] => some (.u theta phi lambda q)
  | "Measure", [q], [.int c] => some (.measure q c)
  | _, _, _ => none

/-- A gate has the name, the bits and the angles of its instruction. -/
theorem gate?_eq_some {i : GateInstruction N} {g : Gate (InstructionParameter N)}
    (h : i.gate? = some g) :
    g.name = i.name ∧ g.bits = i.bits ∧ ∀ p ∈ g.angles, p ∈ i.params := by
  rw [GateInstruction.gate?] at h
  split at h <;> cases h <;> simp [Gate.name, Gate.bits, Gate.angles, *]

def Node.gate? : Node N → Option (Gate (InstructionParameter N))
  | .inst i => i.gate?
  | .call _ => none

/-- A compiled function as a function of the IR, where it lists gates only. -/
def KernelFunction.function? (f : KernelFunction N) :
    Option (Function (Gate (InstructionParameter N))) :=
  (f.instructions.mapM Node.gate?).map fun gs => { name := f.name, body := gs.map (.leaf true) }

/-- **The function a kernel is compiled to.** -/
def Compiles (S : Services N) (k : Xacckernel)
    (f : Function (Gate (InstructionParameter N))) : Prop :=
  ∃ ir g, compile S [k] = .ok ir ∧ ir.kernel 0 = some g ∧ g.function? = some f

/-- The gate of a callback. -/
def gateOf (S : Services N) (functions : StdMap String Nat) (c : Callback) :
    Option (Gate (InstructionParameter N)) :=
  match nodeOf S functions c with
  | .ok n => n.gate?
  | .error _ => none

theorem gateOf_eq_some {functions : StdMap String Nat} {c : Callback}
    {g : Gate (InstructionParameter N)} :
    gateOf S functions c = some g ↔ ∃ n, nodeOf S functions c = .ok n ∧ n.gate? = some g := by
  rw [gateOf]
  cases nodeOf S functions c with
  | error e => simp
  | ok n => simp

/-- The only kernel of a source. -/
theorem compiled_alone {k : Xacckernel} {ir : IR N} (h : compile S [k] = .ok ir) :
    ∃ ns, kernelNodes S [] k = .ok ns ∧
      ir.kernel 0 = some ⟨k.kernelname.text, formals k, ns⟩ := by
  have hsplit : compile S ([] ++ k :: []) = .ok ir := h
  exact compiled_kernel hsplit

/-- A kernel is compiled to the gates of its callbacks. -/
theorem compiles_iff {k : Xacckernel} {f : Function (Gate (InstructionParameter N))} :
    Compiles S k f ↔ ∃ gs, (kernelCallbacks k).mapM (gateOf S (visible [k])) = some gs ∧
      f = { name := k.kernelname.text, body := gs.map (.leaf true) } := by
  have hgates : ∀ gs, (kernelCallbacks k).mapM (gateOf S (visible [k])) = some gs ↔
      ∃ ns, kernelNodes S [] k = .ok ns ∧ ns.mapM Node.gate? = some gs := by
    intro gs
    simp only [kernelNodes, mapM_ok, mapM_eq_some, gateOf_eq_some]
    exact forall₂_comp
  constructor
  · rintro ⟨ir, g, hir, hg, hf⟩
    obtain ⟨ns, hns, hk⟩ := compiled_alone hir
    rw [hk] at hg
    cases hg
    obtain ⟨gs, hgs, rfl⟩ := Option.map_eq_some_iff.mp hf
    exact ⟨gs, (hgates gs).mpr ⟨ns, hns, hgs⟩, rfl⟩
  · rintro ⟨gs, hgs, rfl⟩
    obtain ⟨ns, hns, hgs⟩ := (hgates gs).mp hgs
    obtain ⟨ir, hir⟩ : ∃ ir, compile S ([] ++ k :: []) = .ok ir :=
      ⟨_, compile_split.mpr ⟨[], ns, [], rfl, hns, rfl, rfl⟩⟩
    obtain ⟨ns', hns', hk⟩ := compiled_alone hir
    rw [hns] at hns'
    cases hns'
    exact ⟨_, _, hir, hk, Option.map_eq_some_iff.mpr ⟨gs, hgs, rfl⟩⟩

end XaccIbm.OQASMCompiler
