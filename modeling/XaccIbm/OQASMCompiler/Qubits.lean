import XaccIbm.OQASMCompiler.Registry

/-!
# OQASMCompiler — Qubits

From declared qubits to the integers on the instructions. A register
declaration has no callback and an operand is read as its index alone, so
two registers share their qubits as far as their indices meet.
-/

namespace XaccIbm.OQASMCompiler

open OpenQasm Traverse

variable {N : Type}

/-- The gate or measurement a statement makes; the body of a gate
declaration is about formal operands. -/
def operation : Statement → Option Callback
  | .qop q => (qopCallbacks q).head?
  | .conditional c => (qopCallbacks c.action).head?
  | _ => none

theorem callbacks_of_operation {s : Statement} {c : Callback}
    (h : operation s = some c) : callbacks s = [c] := by
  have hqop : ∀ q : Qop, (qopCallbacks q).head? = some c → qopCallbacks q = [c] := by
    intro q hq
    cases q with
    | uop u =>
        cases hq
        rfl
    | measure m =>
        cases hq
        rfl
    | reeset o => cases hq
    | barrier as => cases hq
  cases s with
  | qop q => exact hqop q h
  | conditional d => exact hqop d.action h
  | regdecl d => cases h
  | gatedecl d => cases h
  | opaqueDecl o => cases h
  | kernelcall k => cases h

/-- The qubit `n` of the quantum register `reg`. -/
structure DeclaredQubit (k : Xacckernel) where
  reg : ID
  n : Nat
  declared : ∃ size, .regdecl (.qreg (.sized reg size)) ∈ k.statements ∧ n < size.value

/-- The operand names the qubit. -/
def Names {k : Xacckernel} (a : GateArg) (d : DeclaredQubit k) : Prop :=
  ∃ i, a = .indexed d.reg i ∧ i.value = d.n

/-- The operand stands in a gate or measurement of the kernel. -/
def Used (k : Xacckernel) (a : GateArg) : Prop :=
  ∃ s ∈ k.statements, ∃ c, operation s = some c ∧ a ∈ operands c

/-- The operand of a gate or measurement of the kernel, and the bit it has on
the instruction built there. -/
def Becomes (k : Xacckernel) (f : KernelFunction N) (a : GateArg) (q : Nat) :
    Prop :=
  ∃ pre s post c i, ∃ j : Nat, k.statements = pre ++ s :: post ∧ operation s = some c ∧
    f.instructions[(pre.flatMap callbacks).length]? = some (.inst i) ∧
    (operands c)[j]? = some a ∧ i.bits[j]? = some q

/-- **Different declared qubits stay different.** -/
def QubitsDistinct (k : Xacckernel) (f : KernelFunction N) : Prop :=
  ∀ a a' q (d d' : DeclaredQubit k), Becomes k f a q → Becomes k f a' q →
    Names a d → Names a' d' → d.reg = d'.reg ∧ d.n = d'.n

variable {S : Services N}

theorem inst_of_operation {functions : StdMap String Nat} {s : Statement}
    {c : Callback} {n : Node N} (hc : operation s = some c)
    (h : nodeOf S functions c = .ok n) : ∃ i, n = .inst i := by
  cases c with
  | exitUop u =>
      obtain ⟨i, _, rfl⟩ := map_ok.mp h
      exact ⟨i, rfl⟩
  | exitMeasure m =>
      obtain ⟨i, _, rfl⟩ := map_ok.mp h
      exact ⟨i, rfl⟩
  | exitKernelcall ctx =>
      have hqop : ∀ q : Qop, (qopCallbacks q).head? ≠ some (.exitKernelcall ctx) := by
        intro q hq
        cases q <;> cases hq
      cases s with
      | qop q => exact absurd hc (hqop q)
      | conditional d => exact absurd hc (hqop d.action)
      | regdecl d => cases hc
      | gatedecl d => cases hc
      | opaqueDecl o => cases hc
      | kernelcall k => cases hc

/-- At a statement with an operation stands one instruction, made of its
operands. -/
theorem instruction_at (hS : S.Lawful) {before : Xaccsrc} {k : Xacckernel}
    {ns : List (Node N)} (h : kernelNodes S before k = .ok ns)
    {pre post : List Statement} {s : Statement} {c : Callback}
    (hk : k.statements = pre ++ s :: post) (hc : operation s = some c) :
    ∃ i, ns[(pre.flatMap callbacks).length]? = some (.inst i) ∧
      (operands c).mapM qubit = .ok i.bits := by
  obtain ⟨ns₁, ns₂, ns₃, rfl, hlen, hns₂⟩ := kernelNodes_split h hk
  rw [callbacks_of_operation hc] at hns₂
  obtain ⟨n, cs, hn, hcs, rfl⟩ := mapM_cons_ok.mp hns₂
  obtain ⟨i, rfl⟩ := inst_of_operation hc hn
  exact ⟨i, by rw [← hlen]; simp, nodeOf_bits hS hn⟩

/-- An operand becomes its index. -/
theorem Becomes.index (hS : S.Lawful) {before : Xaccsrc} {k : Xacckernel}
    {f : KernelFunction N} (h : kernelNodes S before k = .ok f.instructions)
    {a : GateArg} {q : Nat} (hb : Becomes k f a q) :
    Used k a ∧ qubit a = .ok q := by
  obtain ⟨pre, s, post, c, i, j, hk, hc, hi, hj, hq⟩ := hb
  obtain ⟨i', hi', hbits⟩ := instruction_at hS h hk hc
  rw [hi] at hi'
  cases hi'
  obtain ⟨q', hq', ha⟩ := mapM_ok_get hbits hj
  rw [hq] at hq'
  cases hq'
  exact ⟨⟨s, by simp [hk], c, hc, List.mem_of_getElem? hj⟩, ha⟩

/-- Every used operand becomes a bit. -/
theorem Used.becomes (hS : S.Lawful) {before : Xaccsrc} {k : Xacckernel}
    {f : KernelFunction N} (h : kernelNodes S before k = .ok f.instructions)
    {a : GateArg} (hu : Used k a) : ∃ q, Becomes k f a q := by
  obtain ⟨s, hs, c, hc, ha⟩ := hu
  obtain ⟨pre, post, hk⟩ := List.append_of_mem hs
  obtain ⟨i, hi, hbits⟩ := instruction_at hS h hk hc
  obtain ⟨j, hj⟩ := List.mem_iff_getElem?.mp ha
  obtain ⟨q, hq, _⟩ := mapM_ok_get hbits hj
  exact ⟨q, pre, s, post, c, i, j, hk, hc, hi, hj, hq⟩

/-- **Which kernels keep their qubits apart.** In a kernel that is compiled,
different declared qubits become different bits if and only if no two used
operands that name declared qubits have one index in two registers. -/
theorem qubitsDistinct_iff (hS : S.Lawful) {before after : Xaccsrc}
    {k : Xacckernel} {ir : IR N} {f : KernelFunction N}
    (h : compile S (before ++ k :: after) = .ok ir)
    (hf : ir.kernel before.length = some f) :
    QubitsDistinct k f ↔
      ∀ a a' (d d' : DeclaredQubit k), Used k a → Used k a' →
        Names a d → Names a' d' → d.n = d'.n → d.reg = d'.reg := by
  obtain ⟨ns, hns, hkernel⟩ := compiled_kernel h
  have hnodes : kernelNodes S before k = .ok f.instructions := by
    rw [hf] at hkernel
    cases hkernel
    exact hns
  have hindex : ∀ {a q} {d : DeclaredQubit k}, Becomes k f a q → Names a d →
      d.n = q := by
    rintro a q d hb ⟨i, rfl, hi⟩
    obtain ⟨j, hj, _, rfl⟩ := qubit_ok.mp (hb.index hS hnodes).2
    cases hj
    exact hi.symm
  constructor
  · intro hdist a a' d d' hu hu' hn hn' heq
    obtain ⟨q, hb⟩ := hu.becomes hS hnodes
    obtain ⟨q', hb'⟩ := hu'.becomes hS hnodes
    have hq : q' = q := by
      rw [← hindex hb hn, ← hindex hb' hn', heq]
    subst hq
    exact (hdist a a' q' d d' hb hb' hn hn').1
  · intro hcond a a' q d d' hb hb' hn hn'
    have heq : d.n = d'.n := (hindex hb hn).trans (hindex hb' hn').symm
    exact ⟨hcond a a' d d' (hb.index hS hnodes).1 (hb'.index hS hnodes).1 hn hn' heq,
      heq⟩

/-- A Bell pair on the qubits `a[0]` and `b[1]` of two registers. -/
def bellKernel : Xacckernel :=
  Sample.kernel Sample.f []
    [.regdecl (.qreg (.sized Sample.a Sample.one)),
      .regdecl (.qreg (.sized Sample.b Sample.two)),
      .qop (.uop (Sample.apply Sample.h (.indexed Sample.a Sample.zero))),
      .qop (.uop (.CX (.indexed Sample.a Sample.zero)
        (.indexed Sample.b Sample.one)))]

theorem used_bellKernel {o : GateArg} (h : Used bellKernel o) :
    o = .indexed Sample.a Sample.zero ∨ o = .indexed Sample.b Sample.one := by
  obtain ⟨s, hs, c, hc, ho⟩ := h
  have hstatements : bellKernel.statements =
      [.regdecl (.qreg (.sized Sample.a Sample.one)),
        .regdecl (.qreg (.sized Sample.b Sample.two)),
        .qop (.uop (Sample.apply Sample.h (.indexed Sample.a Sample.zero))),
        .qop (.uop (.CX (.indexed Sample.a Sample.zero)
          (.indexed Sample.b Sample.one)))] := rfl
  simp only [hstatements, List.mem_cons, List.not_mem_nil, or_false] at hs
  rcases hs with rfl | rfl | rfl | rfl
  · cases hc
  · cases hc
  · cases hc
    exact .inl (List.mem_singleton.mp ho)
  · cases hc
    exact List.mem_pair.mp ho

/-- The theorem at the Bell pair: a qubit is told from the other by its index. -/
theorem qubitsDistinct_bell :
    QubitsDistinct bellKernel (N := String)
      ⟨"f", [], [.inst ⟨"H", [0], []⟩, .inst ⟨"CNOT", [0, 1], []⟩]⟩ := by
  refine (@qubitsDistinct_iff String plainServices plainServices_lawful [] []
    bellKernel _ _ rfl rfl).mpr ?_
  rintro _ _ d d' ho ho' ⟨i, rfl, hi⟩ ⟨i', rfl, hi'⟩ hn
  have hindex : i.value = i'.value := by
    rw [hi, hi', hn]
  rcases used_bellKernel ho with h | h <;> rcases used_bellKernel ho' with h' | h' <;>
    obtain ⟨hreg, rfl⟩ := GateArg.indexed.inj h <;>
    obtain ⟨hreg', rfl⟩ := GateArg.indexed.inj h'
  · exact hreg.trans hreg'.symm
  · exact absurd hindex (by decide)
  · exact absurd hindex (by decide)
  · exact hreg.trans hreg'.symm

/-- Two registers of one qubit, and an `x` on each. -/
def twoRegisters : Xacckernel :=
  Sample.kernel Sample.f []
    [.regdecl (.qreg (.sized Sample.a Sample.one)),
      .regdecl (.qreg (.sized Sample.b Sample.one)),
      .qop (.uop (Sample.apply Sample.x (.indexed Sample.a Sample.zero))),
      .qop (.uop (Sample.apply Sample.x (.indexed Sample.b Sample.zero)))]

/-- Both become qubit 0. -/
theorem twoRegisters_not_distinct :
    ¬ ∀ (N : Type) (S : Services N) (src : Xaccsrc) (ir : IR N) (i : Nat)
        (k : Xacckernel) (f : KernelFunction N), S.Lawful →
        compile S src = .ok ir → src[i]? = some k → ir.kernel i = some f →
        QubitsDistinct k f := by
  intro h
  have hd := h String plainServices [twoRegisters] _ 0 twoRegisters _
    plainServices_lawful rfl rfl rfl
  have h0 := hd (.indexed Sample.a Sample.zero) (.indexed Sample.b Sample.zero) 0
    ⟨Sample.a, 0, Sample.one, .head _, by decide⟩
    ⟨Sample.b, 0, Sample.one, .tail _ (.head _), by decide⟩
    ⟨[_, _], _, [_], _, ⟨"X", [0], []⟩, 0, rfl, rfl, rfl, rfl, rfl⟩
    ⟨[_, _, _], _, [], _, ⟨"X", [0], []⟩, 0, rfl, rfl, rfl, rfl, rfl⟩
    ⟨Sample.zero, rfl, rfl⟩ ⟨Sample.zero, rfl, rfl⟩
  exact absurd h0.1 (by decide)

end XaccIbm.OQASMCompiler
