import XaccIbm.OQASMCompiler.RoundTrip

/-!
# OQASMCompiler — Qelib

Programs of the gates of `qelib1.inc`, compiled and translated. The listener
knows one rotation, `U`, and fills the slots a gate leaves open with its own
constants, so the text that comes out is the program down to `U` and `cx`; and
as the listener reads both as what they are, it comes out again unchanged.
-/

namespace XaccIbm

open Rotations

/-! ## Down to `U` and `cx` -/

variable {P : Type}

namespace QOp

/-- An operation with its angles as numbers. -/
noncomputable def valued (value : P → ℝ) : QOp P → QOp ℝ
  | id q => id q
  | u1 a q => u1 (.param (a.real value)) q
  | u2 a b q => u2 (.param (a.real value)) (.param (b.real value)) q
  | u3 a b c q => u3 (.param (a.real value)) (.param (b.real value)) (.param (c.real value)) q
  | U a b c q => U (.param (a.real value)) (.param (b.real value)) (.param (c.real value)) q
  | cx a b => cx a b
  | measure q c => measure q c

/-- What `qelib1.inc` declares a gate to be. -/
noncomputable def qelib1 : QOp ℝ → QOp ℝ
  | id q => U (.param 0) (.param 0) (.param 0) q
  | u1 lambda q => U (.param 0) (.param 0) lambda q
  | u2 phi lambda q => U (.param quarterTurn) phi lambda q
  | u3 theta phi lambda q => U theta phi lambda q
  | U theta phi lambda q => U theta phi lambda q
  | cx a b => cx a b
  | measure q c => measure q c

end QOp

theorem unitary_valued (value : P → ℝ) (n : Nat) (o : QOp P) :
    (o.valued value).unitary id n = o.unitary value n := by
  cases o <;> rfl

theorem unitary_qelib1 (n : Nat) (o : QOp ℝ) : o.qelib1.unitary id n = o.unitary id n := by
  cases o <;> rfl

/-- Gates that are written as one operation each. -/
theorem recordedList_map {α : Type} {gate : α → Gate P} {op : α → QOp P}
    (h : ∀ a c, (gate a).ops c = [op a]) (as : List α) (r : Registers) :
    recordedList r (leaves (as.map gate)) = as.map op := by
  induction as generalizing r with
  | nil => rfl
  | cons a as ih =>
      rw [List.map_cons, leaves, List.map_cons, recordedList_cons, recorded, h, ← leaves, ih]
      rfl

end XaccIbm

namespace XaccIbm.OQASMCompiler

open OpenQasm OpenQasmVisitor Rotations Traverse Wires

/-! ## Programs -/

/-- An application of a gate, its operands indices of one register. -/
inductive Application where
  | U (theta phi lambda : Exp) (q : INT)
  | CX (a b : INT)
  | u1 (lambda : Exp) (q : INT)
  | u2 (phi lambda : Exp) (q : INT)
  | u3 (theta phi lambda : Exp) (q : INT)
  | cx (a b : INT)

namespace Application

def exps : Application → List Exp
  | u1 lambda _ => [lambda]
  | u2 phi lambda _ => [phi, lambda]
  | u3 theta phi lambda _ | U theta phi lambda _ => [theta, phi, lambda]
  | CX _ _ | cx _ _ => []

def indices : Application → List INT
  | u1 _ q | u2 _ _ q | u3 _ _ _ q | U _ _ _ q => [q]
  | CX a b | cx a b => [a, b]

/-- The tree of an application. -/
def uop (reg : ID) : Application → Uop
  | U theta phi lambda q => .U (some ⟨theta, [phi, lambda]⟩) (.indexed reg q)
  | CX a b => .CX (.indexed reg a) (.indexed reg b)
  | u1 lambda q =>
      .UserDefGate (.plain Written.u1) (some ⟨lambda, []⟩) ⟨.indexed reg q, []⟩
  | u2 phi lambda q =>
      .UserDefGate (.plain Written.u2) (some ⟨phi, [lambda]⟩) ⟨.indexed reg q, []⟩
  | u3 theta phi lambda q =>
      .UserDefGate (.plain Written.u3) (some ⟨theta, [phi, lambda]⟩) ⟨.indexed reg q, []⟩
  | cx a b =>
      .UserDefGate (.plain Written.cx) none ⟨.indexed reg a, [.indexed reg b]⟩

/-- The operation an application is, its expressions read as numbers. -/
def op (denotes : Exp → ℝ) : Application → QOp ℝ
  | U theta phi lambda q =>
      .U (.param (denotes theta)) (.param (denotes phi)) (.param (denotes lambda)) q.value
  | u1 lambda q => .u1 (.param (denotes lambda)) q.value
  | u2 phi lambda q => .u2 (.param (denotes phi)) (.param (denotes lambda)) q.value
  | u3 theta phi lambda q =>
      .u3 (.param (denotes theta)) (.param (denotes phi)) (.param (denotes lambda)) q.value
  | CX a b | cx a b => .cx a.value b.value

variable {N : Type} (S : Services N)

/-- The gate an application is compiled to: the slots a gate leaves open hold
the constants of the listener. -/
def gate : Application → Gate (InstructionParameter N)
  | U theta phi lambda q | u3 theta phi lambda q =>
      .u (strToParam S theta.text) (strToParam S phi.text) (strToParam S lambda.text) q.value
  | u1 lambda q => .u (.num S.zero) (.num S.zero) (strToParam S lambda.text) q.value
  | u2 phi lambda q =>
      .u (.num S.halfPi) (strToParam S phi.text) (strToParam S lambda.text) q.value
  | CX a b | cx a b => .cnot a.value b.value

/-- What is written of it. -/
def written : Application → QOp (InstructionParameter N)
  | U theta phi lambda q | u3 theta phi lambda q =>
      .U (.param (strToParam S theta.text)) (.param (strToParam S phi.text))
        (.param (strToParam S lambda.text)) q.value
  | u1 lambda q =>
      .U (.param (.num S.zero)) (.param (.num S.zero)) (.param (strToParam S lambda.text)) q.value
  | u2 phi lambda q =>
      .U (.param (.num S.halfPi)) (.param (strToParam S phi.text))
        (.param (strToParam S lambda.text)) q.value
  | CX a b | cx a b => .cx a.value b.value

end Application

/-- **A straight-line program on one register**, its indices below the size. -/
structure StraightLine where
  reg : ID
  size : INT
  applications : List Application
  below : ∀ a ∈ applications, ∀ i ∈ a.indices, i.value < size.value

/-- The declaration of the register, then the applications. -/
def StraightLine.statements (p : StraightLine) : List Statement :=
  .regdecl (.qreg (.sized p.reg p.size)) :: p.applications.map fun a => .qop (.uop (a.uop p.reg))

/-! ## What a program comes down to -/

variable {N : Type} {S : Services N} {value : InstructionParameter N → ℝ} {denotes : Exp → ℝ}

/-- Every index is one `std::stoi` accepts. -/
def Application.Small (a : Application) : Prop := ∀ i ∈ a.indices, i.value < 2 ^ 31

instance (a : Application) : Decidable a.Small :=
  inferInstanceAs (Decidable (∀ i ∈ a.indices, i.value < 2 ^ 31))

theorem gateOf_application (hS : S.KnowsExactly) (functions : StdMap String Nat) (reg : ID)
    {a : Application} (ha : a.Small) :
    gateOf S functions (.exitUop (a.uop reg)) = some (a.gate S) := by
  have hqubit : ∀ i ∈ a.indices, qubit (.indexed reg i) = .ok i.value :=
    fun i hi => qubit_ok.mpr ⟨i, rfl, ha i hi, rfl⟩
  cases a with
  | CX a b =>
      exact gateOf_two hS functions rfl rfl (hqubit a List.mem_cons_self)
        (hqubit b (List.mem_cons_of_mem _ List.mem_cons_self)) rfl
  | cx a b =>
      exact gateOf_two hS functions rfl rfl (hqubit a List.mem_cons_self)
        (hqubit b (List.mem_cons_of_mem _ List.mem_cons_self)) rfl
  | _ => exact gateOf_one hS functions rfl rfl (hqubit _ List.mem_cons_self) rfl

/-- A larger index is not compiled. -/
theorem small_of_gateOf {functions : StdMap String Nat} {reg : ID} {a : Application}
    {g : Gate (InstructionParameter N)}
    (h : gateOf S functions (.exitUop (a.uop reg)) = some g) : a.Small := by
  obtain ⟨n, hn, _⟩ := gateOf_eq_some.mp h
  obtain ⟨inst, hinst, _⟩ := map_ok.mp hn
  obtain ⟨qs, _, hqs, _⟩ := instructionUop_ok hinst
  intro i hi
  have harg : .indexed reg i ∈ (a.uop reg).args := by
    cases a <;> simp_all [Application.indices, Application.uop, Uop.args, CommaList.toList]
  obtain ⟨q, _, hq⟩ := forall₂_mem (mapM_ok.mp hqs) harg
  obtain ⟨j, hj, hlt, _⟩ := qubit_ok.mp hq
  cases hj
  exact hlt

theorem ops_gate (a : Application) (c : Nat) : (a.gate S).ops c = [a.written S] := by
  cases a <;> rfl

theorem refusal_gate (a : Application) : (a.gate S).refusal = none := by
  cases a <;> rfl

theorem valued_written (hzero : value (.num S.zero) = 0)
    (hquarter : value (.num S.halfPi) = quarterTurn) {a : Application}
    (ha : ∀ e ∈ a.exps, value (strToParam S e.text) = denotes e) :
    (a.written S).valued value = (a.op denotes).qelib1 := by
  cases a <;> simp_all [Application.written, Application.op, Application.exps, QOp.valued,
    QOp.qelib1, Angle.real]

/-- The callbacks of a program are those of its applications. -/
theorem callbacks_of_statements {p : StraightLine} {k : Xacckernel}
    (hk : k.statements = p.statements) :
    kernelCallbacks k = p.applications.map fun a => .exitUop (a.uop p.reg) := by
  rw [kernelCallbacks, hk, StraightLine.statements, List.flatMap_cons, List.flatMap_map]
  show [] ++ p.applications.flatMap (fun a => [Callback.exitUop (a.uop p.reg)]) = _
  rw [List.nil_append, ← List.map_eq_flatMap]

theorem small_of_compiles {p : StraightLine} {k : Xacckernel} (hk : k.statements = p.statements)
    {f : Function (Gate (InstructionParameter N))} (h : Compiles S k f) :
    ∀ a ∈ p.applications, a.Small := by
  obtain ⟨gs, hgs, _⟩ := compiles_iff.mp h
  rw [callbacks_of_statements hk, mapM_eq_some] at hgs
  intro a ha
  obtain ⟨g, _, hg⟩ := forall₂_mem hgs (List.mem_map_of_mem ha)
  exact small_of_gateOf hg

theorem compiles_of_small (hS : S.KnowsExactly) {p : StraightLine} {k : Xacckernel}
    (hk : k.statements = p.statements) (h : ∀ a ∈ p.applications, a.Small) :
    Compiles S k
      { name := k.kernelname.text, body := leaves (p.applications.map (Application.gate S)) } := by
  refine compiles_iff.mpr ⟨_, ?_, rfl⟩
  rw [callbacks_of_statements hk, mapM_eq_some, List.forall₂_map_left_iff,
    List.forall₂_map_right_iff, List.forall₂_same]
  exact fun a ha => gateOf_application hS _ p.reg (h a ha)

/-! ## Reading it again -/

theorem built_written {a : Application} {p : InstructionParameter N}
    (h : .param p ∈ (a.written S).params) : Built S p := by
  cases a <;> simp only [Application.written, QOp.params, List.mem_cons, Angle.param.injEq,
    List.not_mem_nil, or_false] at h
  · rcases h with rfl | rfl | rfl <;> exact built_strToParam _
  · rcases h with rfl | rfl | rfl
    · exact trivial
    · exact trivial
    · exact built_strToParam _
  · rcases h with rfl | rfl | rfl
    · exact trivial
    · exact built_strToParam _
    · exact built_strToParam _
  · rcases h with rfl | rfl | rfl <;> exact built_strToParam _

theorem qubits_written (a : Application) : (a.written S).qubits = a.indices.map INT.value := by
  cases a <;> rfl

/-- A written application is read as the gate it was compiled to. -/
theorem reread_written {param : Angle (InstructionParameter N) → InstructionParameter N}
    {a : Application} (h : ∀ p, .param p ∈ (a.written S).params → param (.param p) = p) :
    reread S param (a.written S) = some (a.gate S) := by
  cases a <;> simp_all [Application.written, Application.gate, QOp.params, reread]

theorem pieces_written (as : List Application) :
    (as.map (Application.written S)).flatMap QOp.pieces
      = (as.map (Application.written S)).map .op := by
  rw [List.flatMap_map, List.map_map, List.map_eq_flatMap]
  refine List.flatMap_congr fun a _ => ?_
  cases a <;> rfl

variable [ToString (InstructionParameter N)]

theorem spelled_written {spell : InstructionParameter N → Exp}
    (hspell : ∀ p, Built S p → (spell p).text = toString p ∧ strToParam S (spell p).text = p)
    {as : List Application} (h : ∀ a ∈ as, a.Small) :
    Spelled S spell (as.map (Application.written S)) where
  text := by
    intro o ho x hx
    obtain ⟨a, _, rfl⟩ := List.mem_map.mp ho
    refine exp_text fun p hp => (hspell p (built_written (a := a) ?_)).1
    rw [← hp]
    exact hx
  param := by
    intro o ho p hp
    obtain ⟨a, _, rfl⟩ := List.mem_map.mp ho
    exact (hspell p (built_written hp)).2
  small := by
    intro o ho q hq
    obtain ⟨a, ha, rfl⟩ := List.mem_map.mp ho
    rw [qubits_written, List.mem_map] at hq
    obtain ⟨i, hi, rfl⟩ := hq
    exact h a ha i hi

theorem translate_gates (name : String) (as : List Application) :
    translate { name := name, body := leaves (as.map (Application.gate S)) }
      = .ok ((new (nQubits
          { name := "", body := leaves (as.map (Application.gate S)) }) false).native
        ++ Piece.render ((as.map (Application.written S)).map .op)) := by
  rw [translate_leaves rfl, recordedList_map ops_gate, pieces_written]
  · rfl
  · intro g hg
    obtain ⟨a, _, rfl⟩ := List.mem_map.mp hg
    exact refusal_gate a

/-! ## Programs, compiled and translated -/

variable (S value denotes)

/-- The statements `rest` come out as they went in: there is a kernel of them,
and each is compiled and translated to `text`. -/
def ComesOutAs (rest text : String) : Prop :=
  (∃ k, Reads rest k) ∧ ∀ k, Reads rest k → ∃ f, Compiles S k f ∧ translate f = .ok text

/-- **A program is written down to `U` and `cx`**: what its kernel is translated
to are the declarations of its gates, one by one, with the same unitary, and
these statements come out as they went in. -/
def StraightLine.Expanded (p : StraightLine) (k : Xacckernel) : Prop :=
  ∃ f text, ∃ os : List (QOp (InstructionParameter N)),
    Compiles S k f ∧ translate f = .ok text ∧
    text = (new (nQubits f) false).native ++ Piece.render (os.map .op) ∧
    (∀ o ∈ os, o.name = "U" ∨ o.name = "cx") ∧
    os.map (QOp.valued value) = p.applications.map (fun a => (a.op denotes).qelib1) ∧
    circuit (os.map fun o => o.unitary value p.size.value)
      = circuit (p.applications.map fun a => (a.op denotes).unitary id p.size.value) ∧
    ComesOutAs S (Piece.render (os.map .op)) text

variable {S value denotes}

theorem comesOutAs_written (hS : S.KnowsExactly) (hprint : S.PrintsExactly)
    {as : List Application} (h : ∀ a ∈ as, a.Small) {name text : String}
    (htext : translate { name := name, body := leaves (as.map (Application.gate S)) } = .ok text) :
    ComesOutAs S (Piece.render ((as.map (Application.written S)).map .op)) text := by
  obtain ⟨spell, hspell⟩ := exists_spell hprint
  have hspelled := spelled_written hspell h
  rw [← pieces_written]
  refine ⟨exists_reads hspelled.text, fun k hk => ?_⟩
  have hreread : (as.map (Application.written S)).mapM
      (reread S fun x => strToParam S (x.exp spell).text) = some (as.map (Application.gate S)) := by
    rw [mapM_eq_some, List.forall₂_map_left_iff, List.forall₂_map_right_iff, List.forall₂_same]
    exact fun a _ => reread_written fun p hp => (hspell p (built_written hp)).2
  have hgates := hk.gates hS hspelled.text hspelled.small (visible [k])
  refine ⟨_, compiles_iff.mpr ⟨_, hgates.trans hreread, rfl⟩, ?_⟩
  rw [← htext]
  exact (translate_gates _ as).trans (translate_gates name as).symm

/-- **Programs of applications are written down to `U` and `cx`**, when the
indices are those `std::stoi` accepts. -/
theorem StraightLine.expanded (hS : S.KnowsExactly) (hprint : S.PrintsExactly)
    (hzero : value (.num S.zero) = 0) (hquarter : value (.num S.halfPi) = quarterTurn)
    {p : StraightLine} {k : Xacckernel} (hk : k.statements = p.statements)
    (hdenotes : ∀ a ∈ p.applications, ∀ e ∈ a.exps, value (strToParam S e.text) = denotes e)
    (hsmall : ∀ a ∈ p.applications, a.Small) : p.Expanded S value denotes k := by
  have htranslate := translate_gates (S := S) k.kernelname.text p.applications
  have hvalued : (p.applications.map (Application.written S)).map (QOp.valued value)
      = p.applications.map fun a => (a.op denotes).qelib1 := by
    rw [List.map_map]
    exact List.map_congr_left fun a ha => valued_written hzero hquarter (hdenotes a ha)
  refine ⟨_, _, p.applications.map (Application.written S), compiles_of_small hS hk hsmall,
    htranslate, rfl, ?_, hvalued, ?_, comesOutAs_written hS hprint hsmall htranslate⟩
  · intro o ho
    obtain ⟨a, _, rfl⟩ := List.mem_map.mp ho
    cases a <;> simp [Application.written, QOp.name]
  · have hunitary := congrArg (List.map fun o => o.unitary id p.size.value) hvalued
    simp only [List.map_map, Function.comp_def, unitary_valued, unitary_qelib1] at hunitary
    rw [List.map_map]
    exact congrArg circuit hunitary

/-! ## A program, and an index that is too large -/

/-- The decimals among the expressions, as `turns` reads them. -/
noncomputable def denoted : Exp → ℝ
  | .real r =>
      if r.text = "3.14159" then Real.pi
      else if r.text = "1.5708" then quarterTurn
      else 0
  | _ => 0

/-- `u2(0, 3.14159) q[0]; CX q[0], q[1]; u1(1.5708) q[1]; cx q[1], q[0];` -/
def phasedPair : StraightLine where
  reg := Written.q
  size := ⟨"2", Eq.refl true⟩
  applications :=
    [.u2 (.INT Written.zero) (.real Written.pi) Written.zero, .CX Written.zero Written.one,
      .u1 (.real Written.halfPi) Written.one, .cx Written.one Written.zero]
  below := by decide

theorem phasedPair_expanded :
    phasedPair.Expanded decimalServices turns denoted
      (Sample.kernel Sample.f [] phasedPair.statements) := by
  refine StraightLine.expanded (registry_knowsExactly ..) decimalServices_printsExactly
    turns_readsConstants.zero turns_readsConstants.quarter rfl ?_ (by decide)
  intro a ha e he
  simp only [phasedPair, List.mem_cons, List.not_mem_nil, or_false] at ha
  rcases ha with rfl | rfl | rfl | rfl
  · rcases List.mem_pair.mp he with rfl | rfl
    · exact turns_readsConstants.text_zero
    · exact turns_readsConstants.text_pi
  · cases he
  · cases List.mem_singleton.mp he
    exact turns_readsConstants.text_halfPi
  · cases he

/-- `u1(0) q[2147483648];` on a register of 2147483649 qubits. -/
def wideProgram : StraightLine where
  reg := Written.q
  size := ⟨"2147483649", Eq.refl true⟩
  applications := [.u1 (.INT Written.zero) ⟨"2147483648", Eq.refl true⟩]
  below := by decide

/-- An index below the size that no `int` holds is not compiled. -/
theorem wideProgram_not_expanded :
    ¬ ∀ (N : Type) (_ : ToString (InstructionParameter N)) (S : Services N)
        (value : InstructionParameter N → ℝ) (denotes : Exp → ℝ) (p : StraightLine)
        (k : Xacckernel), S.KnowsExactly → S.PrintsExactly → value (.num S.zero) = 0 →
        value (.num S.halfPi) = quarterTurn → k.statements = p.statements →
        (∀ a ∈ p.applications, ∀ e ∈ a.exps, value (strToParam S e.text) = denotes e) →
        p.Expanded S value denotes k := by
  intro h
  have hk : (Sample.kernel Sample.f [] wideProgram.statements).statements
      = wideProgram.statements := rfl
  have hdenotes : ∀ a ∈ wideProgram.applications, ∀ e ∈ a.exps,
      turns (strToParam decimalServices e.text) = denoted e := by
    intro a ha e he
    cases List.mem_singleton.mp ha
    cases List.mem_singleton.mp he
    exact turns_readsConstants.text_zero
  have hS : decimalServices.KnowsExactly := registry_knowsExactly ..
  obtain ⟨f, _, _, hf, _⟩ := h Decimal _ decimalServices turns denoted wideProgram _ hS
    decimalServices_printsExactly turns_readsConstants.zero turns_readsConstants.quarter hk hdenotes
  have hsmall := small_of_compiles hk hf _ List.mem_cons_self _ List.mem_cons_self
  exact absurd hsmall (by decide)

end XaccIbm.OQASMCompiler
