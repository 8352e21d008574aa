import XaccIbm.OQASMCompiler.Gates
import XaccIbm.OpenQasm.Parsing
import XaccIbm.OpenQasm.Statements

/-!
# OQASMCompiler — ReadBack

The written operations, read by the listener. Each becomes the gate `reread`
says, or none: `id` is capitalised to a name that is no instruction, and a
measurement keeps the index of its classical register, which is always zero.
The text may have several trees, but they are compiled to one function.
-/

namespace XaccIbm.OQASMCompiler

open OpenQasm Traverse Lexing

variable {N P : Type} {S : Services N}

/-! ## One application -/

theorem gateOf_uop {functions : StdMap String Nat} {u : Uop} {i : GateInstruction N}
    (h : instructionUop S u = .ok i) : gateOf S functions (.exitUop u) = i.gate? := by
  rw [gateOf, nodeOf, h]
  rfl

section

variable (hS : S.KnowsExactly) (functions : StdMap String Nat) {a b : GateArg} {q r : Nat}

include hS

theorem gateOf_one {u : Uop} (hargs : u.args = [a]) (hname : instructionName u = "U")
    (hq : qubit a = .ok q) {theta phi lambda : InstructionParameter N}
    (hslots : slots S u = [theta, phi, lambda]) :
    gateOf S functions (.exitUop u) = some (.u theta phi lambda q) := by
  have hqs : u.args.mapM qubit = .ok [q] := by
    rw [hargs]
    exact mapM_cons_ok.mpr ⟨q, [], hq, rfl, rfl⟩
  have hi := instructionUop_eq hS hqs (by rw [hname, hslots]; rfl)
  rw [gateOf_uop hi, hname, hslots]
  rfl

theorem gateOf_two {u : Uop} (hargs : u.args = [a, b]) (hname : instructionName u = "CNOT")
    (hq : qubit a = .ok q) (hr : qubit b = .ok r) (hslots : slots S u = []) :
    gateOf S functions (.exitUop u) = some (.cnot q r) := by
  have hqs : u.args.mapM qubit = .ok [q, r] := by
    rw [hargs]
    exact mapM_cons_ok.mpr ⟨q, [r], hq, mapM_cons_ok.mpr ⟨r, [], hr, rfl, rfl⟩, rfl⟩
  have hi := instructionUop_eq hS hqs (by rw [hname, hslots]; rfl)
  rw [gateOf_uop hi, hname, hslots]
  rfl

theorem gateOf_refused {u : Uop} (h : arity (instructionName u) = none) :
    gateOf S functions (.exitUop u) = none := by
  rw [gateOf, nodeOf]
  cases hi : instructionUop S u with
  | error e => rfl
  | ok i => exact absurd hi (instructionUop_refused hS h)

theorem gateOf_measure (hq : qubit a = .ok q) (hr : qubit b = .ok r) :
    gateOf S functions (.exitMeasure ⟨.gatearg a, .gatearg b⟩) = some (.measure q r) := by
  rw [gateOf, nodeOf, instructionMeasure_eq hS hq hr]
  rfl

end

/-! ## Written operations -/

/-- The gate a written operation is read back as, `param` being the reading of
an angle. -/
def reread (S : Services N) (param : Angle P → InstructionParameter N) :
    QOp P → Option (Gate (InstructionParameter N))
  | .id _ => none
  | .u1 a q => some (.u (.num S.zero) (.num S.zero) (param a) q)
  | .u2 a b q => some (.u (.num S.halfPi) (param a) (param b) q)
  | .u3 a b c q | .U a b c q => some (.u (param a) (param b) (param c) q)
  | .cx a b => some (.cnot a b)
  | .measure q _ => some (.measure q 0)

theorem qubit_operand {n : Nat} (h : n < 2 ^ 31) : qubit (operand n) = .ok n := by
  refine qubit_ok.mpr ⟨numeral n, rfl, ?_, (numeral_value n).symm⟩
  rw [numeral_value]
  exact h

theorem callbacks_statements (spell : P → Exp) (o : QOp P) :
    (o.statements spell).flatMap callbacks = qopCallbacks (o.qop spell) := by
  cases o <;> rfl

theorem gates_qop (hS : S.KnowsExactly) (functions : StdMap String Nat) (spell : P → Exp)
    {o : QOp P} (ho : ∀ q ∈ o.qubits, q < 2 ^ 31) :
    (qopCallbacks (o.qop spell)).mapM (gateOf S functions)
      = (reread S (fun a => strToParam S (a.exp spell).text) o).map fun g => [g] := by
  have hone : ∀ c : Callback, [c].mapM (gateOf S functions)
      = (gateOf S functions c).map fun g => [g] := by
    intro c
    cases h : gateOf S functions c <;> simp [h]
  cases o with
  | id q =>
      refine (hone _).trans (congrArg (Option.map _) ?_)
      exact gateOf_refused hS functions rfl
  | u1 a q =>
      refine (hone _).trans (congrArg (Option.map _) ?_)
      exact gateOf_one hS functions rfl rfl (qubit_operand (ho q List.mem_cons_self)) rfl
  | u2 a b q =>
      refine (hone _).trans (congrArg (Option.map _) ?_)
      exact gateOf_one hS functions rfl rfl (qubit_operand (ho q List.mem_cons_self)) rfl
  | u3 a b c q =>
      refine (hone _).trans (congrArg (Option.map _) ?_)
      exact gateOf_one hS functions rfl rfl (qubit_operand (ho q List.mem_cons_self)) rfl
  | U a b c q =>
      refine (hone _).trans (congrArg (Option.map _) ?_)
      exact gateOf_one hS functions rfl rfl (qubit_operand (ho q List.mem_cons_self)) rfl
  | cx a b =>
      refine (hone _).trans (congrArg (Option.map _) ?_)
      exact gateOf_two hS functions rfl rfl (qubit_operand (ho a List.mem_cons_self))
        (qubit_operand (ho b (by simp [QOp.qubits]))) rfl
  | measure q c =>
      refine (hone _).trans (congrArg (Option.map _) ?_)
      refine gateOf_measure hS functions (qubit_operand (ho q List.mem_cons_self)) ?_
      exact qubit_ok.mpr ⟨Written.zero, rfl, by decide, rfl⟩

/-! ## Trees of one text -/

theorem child_some_bind {α γ : Type} (a : α) (f : α → Walk γ) :
    (child (some a) >>= f) = f a := rfl

/-- Expressions of the same tokens are the same to the listener. -/
theorem child_bind_congr {γ : Type} {o o' : Option Exp}
    (h : o.map Exp.tokens = o'.map Exp.tokens) {f f' : Exp → Walk γ}
    (hf : ∀ e e', e.text = e'.text → f e = f' e') : child o >>= f = child o' >>= f' := by
  cases o with
  | none =>
      cases o' with
      | none => rfl
      | some e' => cases h
  | some e =>
      cases o' with
      | none => cases h
      | some e' => exact hf e e' (congrArg getText (Option.some.inj h))

theorem instructionU_congr {es es' : Explist}
    (h : es.toList.map Exp.tokens = es'.toList.map Exp.tokens) (a : GateArg) :
    instructionU S (some es) a = instructionU S (some es') a := by
  have hget : ∀ k : Nat, es.toList[k]?.map Exp.tokens = es'.toList[k]?.map Exp.tokens := by
    intro k
    rw [← List.getElem?_map, ← List.getElem?_map, h]
  refine bind_congr fun q => ?_
  rw [child_some_bind, child_some_bind]
  refine child_bind_congr (hget 0) fun theta theta' htheta => ?_
  refine child_bind_congr (hget 1) fun phi phi' hphi => ?_
  refine child_bind_congr (hget 2) fun lambda lambda' hlambda => ?_
  rw [htheta, hphi, hlambda]

theorem instructionUserDefGate_congr {g g' : GateName} {es es' : Option Explist}
    {as as' : GateArgList} (hid : g.id = g'.id)
    (hexps : (es.map fun es => es.toList.map Exp.tokens)
      = es'.map fun es => es.toList.map Exp.tokens) (hargs : as.toList = as'.toList) :
    instructionUserDefGate S g es as = instructionUserDefGate S g' es' as' := by
  have htexts : (expressions es).map (fun e => strToParam S e.text)
      = (expressions es').map (fun e => strToParam S e.text) := by
    cases es with
    | none =>
        cases es' with
        | none => rfl
        | some es' => cases hexps
    | some es =>
        cases es' with
        | none => cases hexps
        | some es' =>
            have h := congrArg (List.map fun ts => strToParam S (getText ts))
              (Option.some.inj hexps)
            rw [List.map_map, List.map_map] at h
            exact h
  rw [instructionUserDefGate, instructionUserDefGate, hid, hargs, htexts]

/-- **Trees of the same tokens are compiled to the same instruction.** -/
theorem instructionUop_congr {u u' : Uop} (h : u.Alike u') :
    instructionUop S u = instructionUop S u' := by
  obtain ⟨hopen, hexps, hargs⟩ := h
  cases u with
  | U es a =>
      cases u' with
      | U es' a' =>
          cases hargs
          cases es with
          | none =>
              cases es' with
              | none => rfl
              | some es' => cases hexps
          | some es =>
              cases es' with
              | none => cases hexps
              | some es' => exact instructionU_congr (Option.some.inj hexps) a
      | CX a' b' => exact absurd (lit_inj.mp hopen) (by decide)
      | UserDefGate g' es' as' => exact absurd hopen lit_ne_ID
  | CX a b =>
      cases u' with
      | U es' a' => exact absurd (lit_inj.mp hopen) (by decide)
      | CX a' b' =>
          cases hargs
          rfl
      | UserDefGate g' es' as' => exact absurd hopen lit_ne_ID
  | UserDefGate g es as =>
      cases u' with
      | U es' a' => exact absurd hopen ID_ne_lit
      | CX a' b' => exact absurd hopen ID_ne_lit
      | UserDefGate g' es' as' =>
          exact instructionUserDefGate_congr (Token.ID.inj hopen) hexps hargs

theorem gates_congr {s s' : Statement} (h : s.Alike s') (functions : StdMap String Nat) :
    (callbacks s).mapM (gateOf S functions) = (callbacks s').mapM (gateOf S functions) := by
  cases h with
  | same s => rfl
  | @uop u u' hu =>
      have hgate : gateOf S functions (.exitUop u) = gateOf S functions (.exitUop u') := by
        rw [gateOf, gateOf, nodeOf, nodeOf, instructionUop_congr hu]
      show [Callback.exitUop u].mapM _ = [Callback.exitUop u'].mapM _
      rw [List.mapM_cons, List.mapM_cons, hgate]

/-! ## A text and its kernel -/

/-- **A kernel without parameters whose program is the text.** -/
structure Reads (text : String) (k : Xacckernel) : Prop where
  params : k.typedparams = []
  lexed : Lexes lexer text.toList (programTokens k.mainprog.program)
  preferred : ∀ l ∈ k.mainprog.program, l.Preferred

theorem statements_plain (spell : P → Exp) (o : QOp P) : ∀ s ∈ o.statements spell, s.Plain := by
  cases o with
  | measure q c =>
      refine List.forall_mem_cons.mpr ⟨.creg _, List.forall_mem_singleton.mpr ?_⟩
      exact .measure _ _
  | U a b c q => exact List.forall_mem_singleton.mpr (.U _ _)
  | _ => exact List.forall_mem_singleton.mpr (.apply _ _ _)

variable [ToString P] {spell : P → Exp} {os : List (QOp P)}

theorem lexes_written (h : ∀ o ∈ os, ∀ a ∈ o.params, (a.exp spell).text = a.text) :
    Lexes lexer (Piece.render (os.flatMap QOp.pieces)).toList
      ((os.flatMap (QOp.statements spell)).flatMap Statement.tokens) := by
  induction os with
  | nil => exact .nil
  | cons o os ih =>
      have hrest := ih fun x hx => h x (List.mem_cons_of_mem _ hx)
      have htext : (Piece.render ((o :: os).flatMap QOp.pieces)).toList
          = (Piece.render o.pieces).toList
            ++ (Piece.render (os.flatMap QOp.pieces)).toList := by
        simp [Piece.render]
      rw [htext, List.flatMap_cons, List.flatMap_append]
      exact QOp.spells (h o List.mem_cons_self) _ _ hrest

theorem mapM_flatMap {α β γ : Type} {f : α → Option β} {g : γ → List α} {φ : γ → Option β}
    {cs : List γ} (h : ∀ c ∈ cs, (g c).mapM f = (φ c).map fun b => [b]) :
    (cs.flatMap g).mapM f = cs.mapM φ := by
  induction cs with
  | nil => rfl
  | cons c cs ih =>
      rw [List.flatMap_cons, List.mapM_append, List.mapM_cons, h c List.mem_cons_self,
        ih fun x hx => h x (List.mem_cons_of_mem _ hx)]
      cases φ c <;> rfl

theorem mapM_callbacks_congr {ss ss' : List Statement}
    (h : List.Forall₂ Statement.Alike ss ss') (functions : StdMap String Nat) :
    (ss.flatMap callbacks).mapM (gateOf S functions)
      = (ss'.flatMap callbacks).mapM (gateOf S functions) := by
  induction h with
  | nil => rfl
  | cons hs _ ih =>
      rw [List.flatMap_cons, List.flatMap_cons, List.mapM_append, List.mapM_append,
        gates_congr hs, ih]

/-- **The gates of a text that is read back** are those of its operations. -/
theorem Reads.gates (hS : S.KnowsExactly)
    (h : ∀ o ∈ os, ∀ a ∈ o.params, (a.exp spell).text = a.text)
    (hsmall : ∀ o ∈ os, ∀ q ∈ o.qubits, q < 2 ^ 31) {k : Xacckernel}
    (hk : Reads (Piece.render (os.flatMap QOp.pieces)) k) (functions : StdMap String Nat) :
    (kernelCallbacks k).mapM (gateOf S functions)
      = os.mapM (reread S fun a => strToParam S (a.exp spell).text) := by
  have htokens := Lexes.unique text_injective hk.lexed (lexes_written h)
  have hplain : ∀ s ∈ os.flatMap (QOp.statements spell), s.Plain := by
    intro s hs
    obtain ⟨o, _, hs⟩ := List.mem_flatMap.mp hs
    exact statements_plain spell o s hs
  have halike := program_unique hplain hk.preferred htokens
  rw [kernelCallbacks, Xacckernel.statements, mapM_callbacks_congr halike, List.flatMap_assoc]
  refine mapM_flatMap fun o ho => ?_
  rw [callbacks_statements]
  exact gates_qop hS functions spell (hsmall o ho)

/-- There is such a kernel. -/
theorem exists_reads (h : ∀ o ∈ os, ∀ a ∈ o.params, (a.exp spell).text = a.text) :
    ∃ k, Reads (Piece.render (os.flatMap QOp.pieces)) k := by
  refine ⟨Sample.kernel Sample.f [] (os.flatMap (QOp.statements spell)), rfl, ?_, ?_⟩
  · have htokens : programTokens ((os.flatMap (QOp.statements spell)).map .statement)
        = (os.flatMap (QOp.statements spell)).flatMap Statement.tokens :=
      List.flatMap_map ..
    show Lexes lexer _ (programTokens ((os.flatMap (QOp.statements spell)).map .statement))
    rw [htokens]
    exact lexes_written h
  · intro l hl
    obtain ⟨s, hs, rfl⟩ := List.mem_map.mp hl
    obtain ⟨o, _, hs⟩ := List.mem_flatMap.mp hs
    have hplain := statements_plain spell o s hs
    cases hplain with
    | creg r => exact trivial
    | measure a b => exact ⟨trivial, trivial⟩
    | U es a => exact trivial
    | apply x es as => cases es <;> exact trivial

end XaccIbm.OQASMCompiler
