import XaccIbm.OpenQasmVisitor.Emission

/-!
# OpenQasmVisitor — Guards

Conditional functions, first half: what the guard reaches. The guard is a
prefix in the text, so which statements it reaches depends on how many the
nested visitor wrote for the body, and, when it wrote none, on whatever
comes next.
-/

namespace XaccIbm

open OpenQasmVisitor

variable {P : Type}

/-! ## How many statements an instruction becomes -/

/-- The number of statements a gate is written as. -/
def Gate.statements : Gate P → Nat
  | .swap _ _ => 3
  | .measure _ _ => 2
  | .cphase _ _ _ => 0
  | .cz _ _ => 0
  | _ => 1

mutual

/-- The number of statements an instruction is written as; a conditional is
written as its body, behind a guard. -/
def statements (i : Instruction (Gate P)) : Nat :=
  match i with
  | .leaf _ g => g.statements
  | .function _ _ _ => 0
  | .conditional _ _ body => statementsList body

def statementsList (is : List (Instruction (Gate P))) : Nat :=
  match is with
  | [] => 0
  | i :: is => statements i + statementsList is

end

@[simp] theorem statementsList_nil :
    statementsList ([] : List (Instruction (Gate P))) = 0 := by
  rw [statementsList]

@[simp] theorem statementsList_cons (i : Instruction (Gate P))
    (is : List (Instruction (Gate P))) :
    statementsList (i :: is) = statements i + statementsList is := by
  rw [statementsList]

/-! ## The reach of a guard -/

/-- **A guard written before `body ++ later` reaches `body` exactly**: every
statement of the body is the operation it applies to, and no later
statement is. -/
def GuardExact (body later : List (Piece P)) : Prop :=
  ∀ j p, (body ++ later)[j]? = some p → p.isStatement = true →
    (guardTarget (body ++ later) = some j ↔ j < body.length)

/-- A register declaration never stands without an operation. -/
def HasOp (ps : List (Piece P)) : Prop :=
  (∃ p ∈ ps, p.isStatement = true) → ∃ p ∈ ps, p.isOp = true

theorem HasOp.append {ps qs : List (Piece P)} (hp : HasOp ps) (hq : HasOp qs) :
    HasOp (ps ++ qs) := by
  rintro ⟨p, hmem, hs⟩
  rcases List.mem_append.mp hmem with h | h
  · obtain ⟨o, ho, hop⟩ := hp ⟨p, h, hs⟩
    exact ⟨o, List.mem_append.mpr (.inl ho), hop⟩
  · obtain ⟨o, ho, hop⟩ := hq ⟨p, h, hs⟩
    exact ⟨o, List.mem_append.mpr (.inr ho), hop⟩

theorem HasOp.guard {ps : List (Piece P)} (h : HasOp ps) (c : Nat) :
    HasOp (.guard c :: ps) := by
  rintro ⟨p, hmem, hs⟩
  rcases List.mem_cons.mp hmem with rfl | hp
  · cases hs
  · obtain ⟨o, ho, hop⟩ := h ⟨p, hp, hs⟩
    exact ⟨o, by simp [ho], hop⟩

theorem hasOp_gate (c : Nat) (g : Gate P) : HasOp (g.pieces c) := by
  cases g <;> simp [HasOp, Gate.pieces, Gate.ops, QOp.pieces, Piece.isOp]

mutual

theorem hasOp_pieces (r : Registers) (i : Instruction (Gate P)) :
    HasOp (pieces r i) :=
  match i with
  | .leaf _ g => by
      rw [pieces]
      exact hasOp_gate r.counter g
  | .function _ _ _ => by
      rw [pieces]
      rintro ⟨p, hp, _⟩
      cases hp
  | .conditional _ _ body => by
      rw [pieces]
      exact (hasOp_piecesList {} body).guard _

theorem hasOp_piecesList (r : Registers) (is : List (Instruction (Gate P))) :
    HasOp (piecesList r is) :=
  match is with
  | [] => by
      rw [piecesList_nil]
      rintro ⟨p, hp, _⟩
      cases hp
  | i :: is => by
      rw [piecesList_cons]
      exact (hasOp_pieces r i).append (hasOp_piecesList (r.step i) is)

end

theorem guardTarget_isSome {ps : List (Piece P)}
    (h : ∃ p ∈ ps, p.isOp = true) : ∃ j, guardTarget ps = some j := by
  obtain ⟨p, hp, hop⟩ := h
  cases ht : guardTarget ps with
  | some j => exact ⟨j, rfl⟩
  | none =>
      rw [guardTarget, List.findIdx?_eq_none_iff] at ht
      rw [ht p hp] at hop
      cases hop

/-- What a guard applies to is a statement of the list. -/
theorem guardTarget_statement {ps : List (Piece P)} {j : Nat}
    (h : guardTarget ps = some j) :
    ∃ p, ps[j]? = some p ∧ p.isStatement = true := by
  rw [guardTarget, List.findIdx?_eq_some_iff_getElem] at h
  obtain ⟨hlt, hop, _⟩ := h
  refine ⟨ps[j], List.getElem?_eq_getElem hlt, ?_⟩
  cases hp : ps[j] with
  | guard c => simp [hp, Piece.isOp] at hop
  | creg c => rfl
  | op o => rfl

/-- An empty body is guarded exactly when nothing follows it. -/
theorem guardExact_nil {later : List (Piece P)} (h : HasOp later) :
    GuardExact [] later ↔ ∀ p ∈ later, p.isStatement = false := by
  constructor
  · intro hex p hp
    by_contra hs
    obtain ⟨j, hj⟩ := guardTarget_isSome (h ⟨p, hp, by simpa using hs⟩)
    obtain ⟨q, hq, hqs⟩ := guardTarget_statement hj
    have := (hex j q hq hqs).mp hj
    simp at this
  · intro hno j p hp hs
    have hmem : p ∈ later := List.mem_of_getElem? (by simpa using hp)
    rw [hno p hmem] at hs
    cases hs

/-- A guard in front of a body changes nothing: both guards reach the same
operation. -/
theorem guardExact_guard (c : Nat) (body later : List (Piece P)) :
    GuardExact (.guard c :: body) later ↔ GuardExact body later := by
  have ht : guardTarget (.guard c :: (body ++ later))
      = (guardTarget (body ++ later)).map (· + 1) := by
    simp [guardTarget, List.findIdx?_cons, Piece.isOp]
  constructor
  · intro hex j p hp hs
    have := hex (j + 1) p (by simpa using hp) hs
    rw [List.cons_append, ht] at this
    simpa using this
  · intro hex j p hp hs
    rw [List.cons_append, ht]
    cases j with
    | zero =>
        simp only [List.cons_append, List.getElem?_cons_zero,
          Option.some.injEq] at hp
        subst hp
        cases hs
    | succ j =>
        have := hex j p (by simpa using hp) hs
        simpa using this

/-- A body that is one operation is guarded. -/
theorem guardExact_op (o : QOp P) (later : List (Piece P)) :
    GuardExact [.op o] later := by
  intro j p _ _
  have ht : guardTarget ([.op o] ++ later) = some 0 := by
    simp [guardTarget, List.findIdx?_cons, Piece.isOp]
  rw [ht]
  simp [eq_comm]

/-- A body of two statements or more is not: the guard reaches one. -/
theorem not_guardExact_two {a b : Piece P} {body later : List (Piece P)}
    (ha : a.isStatement = true) (hb : b.isStatement = true) :
    ¬ GuardExact (a :: b :: body) later := by
  intro hex
  have h0 := (hex 0 a (by simp) ha).mpr (by simp)
  have h1 := (hex 1 b (by simp) hb).mpr (by simp)
  rw [h0] at h1
  cases h1

/-! ### The body by its kind -/

/-- The condition of an exact guard, on the instructions alone. -/
def GuardsOne (body : Nat) (later : List (Instruction (Gate P))) : Prop :=
  body = 1 ∨ (body = 0 ∧ ∀ i ∈ later, statements i = 0)

theorem gate_noStatement_iff (c : Nat) (g : Gate P) :
    (∀ p ∈ g.pieces c, p.isStatement = false) ↔ g.statements = 0 := by
  cases g <;>
    simp [Gate.pieces, Gate.ops, QOp.pieces, Gate.statements, Piece.isStatement]

mutual

theorem noStatement_iff (r : Registers) (i : Instruction (Gate P)) :
    (∀ p ∈ pieces r i, p.isStatement = false) ↔ statements i = 0 :=
  match i with
  | .leaf _ g => by
      rw [pieces, statements]
      exact gate_noStatement_iff r.counter g
  | .function _ _ _ => by simp [pieces, statements]
  | .conditional _ _ body => by
      rw [pieces, statements, ← noStatementList_iff {} body]
      simp [Piece.isStatement]

theorem noStatementList_iff (r : Registers)
    (is : List (Instruction (Gate P))) :
    (∀ p ∈ piecesList r is, p.isStatement = false) ↔ statementsList is = 0 :=
  match is with
  | [] => by simp
  | i :: is => by
      rw [piecesList_cons, statementsList_cons, Nat.add_eq_zero_iff,
        ← noStatement_iff r i, ← noStatementList_iff (r.step i) is]
      simp only [List.mem_append, or_imp, forall_and]

end

theorem statementsList_eq_zero {is : List (Instruction (Gate P))} :
    statementsList is = 0 ↔ ∀ i ∈ is, statements i = 0 := by
  induction is with
  | nil => simp
  | cons i is ih => simp [ih]

theorem guardExact_nil_iff (r : Registers)
    (later : List (Instruction (Gate P))) :
    GuardExact [] (piecesList r later) ↔ GuardsOne 0 later := by
  rw [guardExact_nil (hasOp_piecesList r later), noStatementList_iff,
    statementsList_eq_zero]
  simp [GuardsOne]

theorem guardExact_gate (c : Nat) (g : Gate P) (r : Registers)
    (later : List (Instruction (Gate P))) :
    GuardExact (g.pieces c) (piecesList r later)
      ↔ GuardsOne g.statements later := by
  cases g with
  | swap a b =>
      refine iff_of_false (not_guardExact_two rfl rfl) ?_
      simp [GuardsOne, Gate.statements]
  | measure q k =>
      refine iff_of_false (not_guardExact_two rfl rfl) ?_
      simp [GuardsOne, Gate.statements]
  | cphase theta a b => exact guardExact_nil_iff r later
  | cz a b => exact guardExact_nil_iff r later
  | _ => exact iff_of_true (guardExact_op _ _) (.inl rfl)

mutual

/-- The body of an accepted conditional, by its kind: a nested conditional
passes its own guard on. -/
theorem guardExact_pieces (s : Registers) (i : Instruction (Gate P))
    (hi : rejection i = none) (r : Registers)
    (later : List (Instruction (Gate P))) :
    GuardExact (pieces s i) (piecesList r later)
      ↔ GuardsOne (statements i) later :=
  match i with
  | .leaf _ g => by
      rw [pieces, statements]
      exact guardExact_gate s.counter g r later
  | .function _ _ _ => by
      rw [pieces, statements]
      exact guardExact_nil_iff r later
  | .conditional _ _ body => by
      rw [pieces, statements, guardExact_guard]
      rw [rejection] at hi
      split at hi
      · cases hi
      · rename_i hlen
        exact guardExact_body {} body (by omega) hi r later

theorem guardExact_body (s : Registers) (body : List (Instruction (Gate P)))
    (hlen : body.length ≤ 1) (hb : rejections body = none) (r : Registers)
    (later : List (Instruction (Gate P))) :
    GuardExact (piecesList s body) (piecesList r later)
      ↔ GuardsOne (statementsList body) later :=
  match body with
  | [] => by
      rw [piecesList_nil, statementsList_nil]
      exact guardExact_nil_iff r later
  | i :: rest => by
      have hrest : rest = [] := by
        rw [List.length_cons] at hlen
        exact List.length_eq_zero_iff.mp (by omega)
      subst hrest
      rw [rejections_cons, Option.or_eq_none_iff] at hb
      rw [piecesList_cons, piecesList_nil, List.append_nil,
        statementsList_cons, statementsList_nil, Nat.add_zero]
      exact guardExact_pieces s i hb.1 r later

end

variable [ToString P]

/-- **The reach of an emitted guard.** When a conditional and the
instructions after it are all accepted, the text gains the guard, the
statements of the body and those of the later instructions, in this order;
and the guard reaches the body exactly if and only if the body is written
as one statement, or neither the body nor anything later is written as
any. -/
theorem conditional_guardExact_iff {e : Bool} {q : Nat}
    {body later : List (Instruction (Gate P))} {v w x : OpenQasmVisitor}
    (hc : accept (.conditional e q body) v = .ok () w)
    (hl : acceptAll later w = .ok () x) :
    w.native = v.native ++ Piece.render
        (.guard (v.registers.index.getD q 0) :: piecesList {} body) ∧
      x.native = w.native ++ Piece.render (piecesList w.registers later) ∧
      (GuardExact (piecesList {} body) (piecesList w.registers later)
        ↔ GuardsOne (statementsList body) later) := by
  obtain ⟨hr, hw⟩ := accept_ok hc
  obtain ⟨_, hx⟩ := acceptAll_ok hl
  rw [rejection] at hr
  split at hr
  · cases hr
  · rename_i hlen
    refine ⟨?_, ?_, guardExact_body {} body (by omega) hr _ later⟩
    · rw [hw, native_withRegisters, native_emit, pieces]
    · rw [hx, native_withRegisters, native_emit]

/-- A measured qubit does not save a `Swap` under its guard: only the first
of the three `cx` is guarded. -/
theorem conditional_swap_not_guardExact :
    ¬ ∀ (e : Bool) (q : Nat) (body later : List (Instruction (Gate String)))
        (v w x : OpenQasmVisitor),
        accept (.conditional e q body) v = .ok () w →
        acceptAll later w = .ok () x →
        GuardExact (piecesList {} body) (piecesList w.registers later) := by
  intro h
  have hex := h true 0 [.leaf false (.swap 1 2)] []
    (Exec.after (visitGate (.measure 0 0 : Gate String) (new 3 false))) _ _ rfl rfl
  exact not_guardExact_two rfl rfl hex

/-- The theorem at a teleportation step: measure, then a guarded `Z` and a
later `X`. -/
theorem conditional_guardExact_z :
    GuardExact (piecesList {} [.leaf false (.z 2 : Gate String)])
      (piecesList ⟨StdMap.insert ∅ 0 0, 1⟩ [.leaf true (.x 2)]) := by
  have h := @conditional_guardExact_iff String _ true 0 [.leaf false (.z 2)]
    [.leaf true (.x 2)]
    (Exec.after (visitGate (.measure 0 0 : Gate String) (new 3 false)))
    _ _ rfl rfl
  exact h.2.2.mpr (.inl rfl)

end XaccIbm
