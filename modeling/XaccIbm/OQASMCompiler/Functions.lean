import XaccIbm.OQASMCompiler.ReadBack
import XaccIbm.OQASMCompiler.Translate
import XaccIbm.OpenQasmVisitor.Translation

/-!
# OQASMCompiler — Functions

Functions of enabled gates, from both sides: what `translate` writes of one,
and which parameters the gates have when it was compiled. Where numbers are
printed exactly, each such parameter is the text of an expression that the
listener reads as the parameter again.
-/

namespace XaccIbm

/-! ## Gates of a function -/

variable {P : Type}

/-- The enabled gates of a function. -/
def Function.gates (f : Function (Gate P)) : List (Gate P) :=
  f.body.filterMap fun
    | .leaf true g => some g
    | _ => none

theorem gates_leaves {f : Function (Gate P)} {gs : List (Gate P)} (hf : f.body = leaves gs) :
    f.gates = gs := by
  rw [Function.gates, hf, leaves, List.filterMap_map]
  exact List.filterMap_some

theorem angles_of_measure {g : Gate P} (h : g.name = "Measure") : g.angles = [] := by
  cases g with
  | measure q c => rfl
  | _ => simp [Gate.name] at h

/-- The operations of gates without conditionals between them. -/
theorem piecesList_leaves (r : Registers) (gs : List (Gate P)) :
    piecesList r (leaves gs) = (recordedList r (leaves gs)).flatMap QOp.pieces := by
  induction gs generalizing r with
  | nil => simp [leaves]
  | cons g gs ih =>
      rw [leaves, List.map_cons, piecesList_cons, recordedList_cons, List.flatMap_append,
        ← leaves, ih, pieces, recorded]
      rfl

theorem textUnitary_pieces (value : P → ℝ) (n : Nat) (os : List (QOp P)) :
    textUnitary value n (os.flatMap QOp.pieces)
      = Wires.circuit (os.map fun o => o.unitary value n) := by
  have hops := operationsFrom_pieces os []
  rw [List.append_nil, operationsFrom, List.append_nil] at hops
  rw [textUnitary, operations, hops, List.map_map]
  rfl

end XaccIbm

namespace XaccIbm.OQASMCompiler

open OpenQasm OpenQasmVisitor Traverse

variable {P : Type}

/-! ## What is written of gates -/

section

variable {f : Function (Gate P)} {gs : List (Gate P)} (hf : f.body = leaves gs)

include hf

/-- What is enabled in a function of enabled gates. -/
theorem enabled_leaves :
    enabled f = (if f.enabled then [f.toInstruction] else []) ++ leaves gs := by
  have hflat : f.Flat := by
    intro i hi
    rw [hf] at hi
    obtain ⟨g, _, rfl⟩ := List.mem_map.mp hi
    exact ⟨true, g, rfl⟩
  have hleaves : (leaves gs).filter Instruction.isEnabled = leaves gs := by
    refine List.filter_eq_self.mpr fun i hi => ?_
    obtain ⟨g, _, rfl⟩ := List.mem_map.mp hi
    rfl
  rw [enabled, hflat.walk, List.filter_cons, hf, hleaves]
  show (if f.enabled then _ else _) = _
  split <;> rfl

theorem written_leaves : written f = (recordedList {} (leaves gs)).flatMap QOp.pieces := by
  rw [written, enabled_leaves hf, ← piecesList_leaves, piecesList_append]
  split <;> simp [Function.toInstruction, pieces, Registers.step]

theorem translate_leaves [ToString P] (h : ∀ g ∈ gs, g.refusal = none) :
    translate f = .ok ((new (nQubits f) false).native
      ++ Piece.render ((recordedList {} (leaves gs)).flatMap QOp.pieces)) := by
  rw [← written_leaves hf]
  refine translate_ok.mpr ⟨?_, rfl⟩
  have hleaves := rejections_leaves.mpr h
  rw [rejections_eq_none] at hleaves
  rw [enabled_leaves hf, rejections_eq_none]
  intro i hi
  rcases List.mem_append.mp hi with hi | hi
  · split at hi
    · cases List.mem_singleton.mp hi
      rw [Function.toInstruction, rejection]
    · cases hi
  · exact hleaves i hi

theorem le_maxBit_leaves {g : Gate P} (hg : g ∈ gs) {q : Nat} (hq : q ∈ g.bits) :
    q ≤ maxBit f := by
  refine le_maxBit.mpr (.inr ⟨.leaf true g, ?_, q, hq, Nat.le_refl q⟩)
  rw [enabled_leaves hf]
  exact List.mem_append_right _ (List.mem_map_of_mem hg)

end

/-! ## The parameters of compiled gates -/

variable {N : Type}

/-- The parameters the listener sets: numbers, and expressions that have none. -/
def Built (S : Services N) : InstructionParameter N → Prop
  | .num _ => True
  | .str s => ∃ e : Exp, s = e.text ∧ S.evalMathExpression s = none
  | .int _ => False

variable {S : Services N}

theorem built_strToParam (e : Exp) : Built S (strToParam S e.text) := by
  rw [strToParam]
  cases heval : S.evalMathExpression e.text with
  | some x => exact trivial
  | none => exact ⟨e, rfl, heval⟩

/-- The listener sets constants and expressions only. -/
theorem built_of_mem_slots {u : Uop} {p : InstructionParameter N} (h : p ∈ slots S u) :
    Built S p := by
  cases u with
  | U es a =>
      obtain ⟨e, _, rfl⟩ := List.mem_map.mp h
      exact built_strToParam e
  | CX a b => cases h
  | UserDefGate g es as =>
      rw [slots] at h
      split at h
      · cases h
      rcases List.mem_append.mp h with h | h
      · rw [constants] at h
        split at h
        · cases List.mem_singleton.mp h
          exact trivial
        split at h
        · rcases List.mem_pair.mp h with rfl | rfl <;> exact trivial
        · cases h
      · obtain ⟨e, _, rfl⟩ := List.mem_map.mp h
        exact built_strToParam e

/-- The parameters of an instruction are its slots, and those the registry
gave it. -/
theorem built_of_instructionUop (hS : S.Lawful) {u : Uop} {i : GateInstruction N}
    (hi : instructionUop S u = .ok i) {p : InstructionParameter N} (hp : p ∈ i.params) :
    Built S p := by
  obtain ⟨qs, inst, _, hinst, hset⟩ := instructionUop_ok hi
  obtain ⟨xs, hxs⟩ := hS.params_eq hinst
  rw [setParameters_params hS hset, hxs, List.take_zero, List.nil_append, List.nil_append,
    ← List.map_drop] at hp
  rcases List.mem_append.mp hp with hp | hp
  · exact built_of_mem_slots hp
  · obtain ⟨x, _, rfl⟩ := List.mem_map.mp hp
    exact trivial

/-- **What a kernel is compiled to is such as the compiler builds**, whatever
its gates. -/
theorem built_of_compiles (hS : S.Lawful) {k : Xacckernel}
    {f : Function (Gate (InstructionParameter N))} (h : Compiles S k f)
    {g : Gate (InstructionParameter N)} (hg : g ∈ f.gates) :
    (∀ q ∈ g.bits, q < 2 ^ 31) ∧ ∀ p ∈ g.angles, Built S p := by
  obtain ⟨gs, hgs, rfl⟩ := compiles_iff.mp h
  rw [gates_leaves rfl] at hg
  obtain ⟨c, _, hc⟩ := forall₂_mem (mapM_eq_some.mp hgs).flip hg
  obtain ⟨n, hn, hgate⟩ := gateOf_eq_some.mp hc
  cases n with
  | call j => cases hgate
  | inst i =>
      obtain ⟨hname, hbits, hangles⟩ := gate?_eq_some hgate
      constructor
      · intro q hq
        rw [hbits] at hq
        obtain ⟨a, _, ha⟩ := mapM_ok_of_mem (nodeOf_bits hS hn) hq
        obtain ⟨i, _, hlt, rfl⟩ := qubit_ok.mp ha
        exact hlt
      · intro p hp
        rcases nodeOf_inst.mp hn with ⟨u, rfl, hi⟩ | ⟨m, rfl, hi⟩
        · exact built_of_instructionUop hS hi (hangles p hp)
        · -- the classical bit of a measurement is a parameter, but no angle
          obtain ⟨_, _, _, _, _, hi⟩ := instructionMeasure_ok hi
          rw [hS.name_eq hi] at hname
          rw [angles_of_measure hname] at hp
          cases hp

/-! ## Parameters as expressions -/

instance [ToString N] : ToString (InstructionParameter N) where
  toString
    | .int i => toString i
    | .num x => toString x
    | .str s => s

theorem exp_text [ToString P] {spell : P → Exp} {a : Angle P}
    (h : ∀ p, a = .param p → (spell p).text = toString p) :
    (a.exp spell).text = a.text := by
  cases a with
  | param p => exact h p rfl
  | zero => rfl
  | pi => rfl
  | halfPi => rfl
  | negHalfPi => rfl

/-- **Numbers are printed exactly**: as an expression with their value. -/
structure Services.PrintsExactly (S : Services N) [ToString (InstructionParameter N)] : Prop where
  num : ∀ x : N, ∃ e : Exp, toString (InstructionParameter.num x) = e.text ∧
    S.evalMathExpression e.text = some x
  str : ∀ s : String, toString (InstructionParameter.str s : InstructionParameter N) = s

variable [ToString (InstructionParameter N)]

/-- The expression every parameter is printed as. -/
theorem exists_spell (hprint : S.PrintsExactly) :
    ∃ spell : InstructionParameter N → Exp, ∀ p, Built S p →
      (spell p).text = toString p ∧ strToParam S (spell p).text = p := by
  have hone : ∀ p : InstructionParameter N, ∃ e : Exp, Built S p →
      e.text = toString p ∧ strToParam S e.text = p := by
    intro p
    cases p with
    | int i => exact ⟨.pi, False.elim⟩
    | num x =>
        obtain ⟨e, htext, heval⟩ := hprint.num x
        refine ⟨e, fun _ => ⟨htext.symm, ?_⟩⟩
        rw [strToParam, heval]
    | str s =>
        by_cases hs : Built S (.str s)
        · obtain ⟨e, rfl, heval⟩ := hs
          refine ⟨e, fun _ => ⟨(hprint.str _).symm, ?_⟩⟩
          rw [strToParam, heval]
        · exact ⟨.pi, fun h => absurd h hs⟩
  exact ⟨fun p => (hone p).choose, fun p => (hone p).choose_spec⟩

/-- Operations whose parameters are printed as the expressions they are read
back from, on qubits `std::stoi` accepts. -/
structure Spelled (S : Services N) (spell : InstructionParameter N → Exp)
    (os : List (QOp (InstructionParameter N))) : Prop where
  text : ∀ o ∈ os, ∀ a ∈ o.params, (a.exp spell).text = a.text
  param : ∀ o ∈ os, ∀ p, .param p ∈ o.params → strToParam S (spell p).text = p
  small : ∀ o ∈ os, ∀ q ∈ o.qubits, q < 2 ^ 31

/-! ## Decimals -/

theorem exp_of_decimal {s : String} (h : isDecimal s = true) : ∃ e : Exp, s = e.text := by
  have hnumber : ∀ cs : List Char, (isINT cs || isREAL cs) = true →
      ∃ e : Exp, Lexing.textOf lexer e.tokens = cs := by
    intro cs hcs
    rcases Bool.or_eq_true _ _ ▸ hcs with hint | hreal
    · refine ⟨.INT ⟨String.ofList cs, by rwa [String.toList_ofList]⟩, ?_⟩
      rw [Exp.tokens, textOf_single]
      exact String.toList_ofList
    · refine ⟨.real ⟨String.ofList cs, by rwa [String.toList_ofList]⟩, ?_⟩
      rw [Exp.tokens, textOf_single]
      exact String.toList_ofList
  rw [isDecimal] at h
  split at h
  · rename_i cs hs
    obtain ⟨e, he⟩ := hnumber cs h
    refine ⟨.neg e, ?_⟩
    rw [← String.toList_inj, hs, Exp.toList_text, Exp.tokens, Lexing.textOf_cons, he]
    rfl
  · obtain ⟨e, he⟩ := hnumber _ h
    refine ⟨e, ?_⟩
    rw [← String.toList_inj, Exp.toList_text, he]

/-- Numbers that are their decimal text. -/
abbrev Decimal := { s : String // isDecimal s = true }

def decimalServices : Services Decimal :=
  registry (fun s => if h : isDecimal s = true then some ⟨s, h⟩ else none)
    ⟨"0", by decide⟩ ⟨"0.0", by decide⟩ ⟨"1.5707963", by decide⟩

theorem decimalServices_printsExactly : decimalServices.PrintsExactly where
  num := by
    intro x
    obtain ⟨e, he⟩ := exp_of_decimal x.2
    refine ⟨e, he, ?_⟩
    rw [← he]
    exact dif_pos x.2
  str := fun _ => rfl

theorem strToParam_decimal {s : String} (h : isDecimal s = true) :
    strToParam decimalServices s = .num ⟨s, h⟩ := by
  have heval : decimalServices.evalMathExpression s = some ⟨s, h⟩ := dif_pos h
  rw [strToParam, heval]

end XaccIbm.OQASMCompiler
