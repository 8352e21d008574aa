import XaccIbm.OpenQasm.Grammar

/-!
# OpenQasm — Parsing

What the tokens of a statement tell about its tree. A statement ends at its
first semicolon, its parameters at its last parenthesis, and the commas
between parameters and between operands are in neither. So applications with
indexed operands, measurements and register declarations are read one way,
up to how the tokens of an expression are grouped.
-/

namespace XaccIbm.OpenQasm

@[simp] theorem lit_inj {s s' : String} {h : literals.contains s = true}
    {h' : literals.contains s' = true} : lit s h = lit s' h' ↔ s = s' := by
  simp [lit]

@[simp] theorem lit_ne_ID {s : String} {h : literals.contains s = true} {x : ID} :
    lit s h ≠ .ID x := Token.noConfusion

@[simp] theorem ID_ne_lit {s : String} {h : literals.contains s = true} {x : ID} :
    .ID x ≠ lit s h := Token.noConfusion

/-! ## Splitting at a token -/

theorem split_first {α : Type} {t : α} {x x' y y' : List α} (hx : t ∉ x) (hx' : t ∉ x')
    (h : x ++ t :: y = x' ++ t :: y') : x = x' ∧ y = y' := by
  induction x generalizing x' with
  | nil =>
      cases x' with
      | nil => exact ⟨rfl, List.tail_eq_of_cons_eq h⟩
      | cons a x' =>
          cases h
          exact absurd List.mem_cons_self hx'
  | cons a x ih =>
      cases x' with
      | nil =>
          cases h
          exact absurd List.mem_cons_self hx
      | cons b x' =>
          obtain ⟨rfl, htail⟩ := List.cons.inj h
          obtain ⟨rfl, rfl⟩ := ih (fun hm => hx (List.mem_cons_of_mem _ hm))
            (fun hm => hx' (List.mem_cons_of_mem _ hm)) htail
          exact ⟨rfl, rfl⟩

theorem split_last {α : Type} {t : α} {x x' y y' : List α} (hy : t ∉ y) (hy' : t ∉ y')
    (h : x ++ t :: y = x' ++ t :: y') : x = x' ∧ y = y' := by
  have hrev := congrArg List.reverse h
  simp only [List.reverse_append, List.reverse_cons, List.append_assoc,
    List.singleton_append] at hrev
  obtain ⟨h1, h2⟩ := split_first (mt List.mem_reverse.mp hy) (mt List.mem_reverse.mp hy') hrev
  exact ⟨List.reverse_injective h2, List.reverse_injective h1⟩

theorem mem_commaList {α : Type} {f : α → List Token} {l : CommaList α} {t : Token}
    (ht : t ∈ CommaList.tokens f l) : t = lit "," ∨ ∃ a ∈ l.toList, t ∈ f a := by
  obtain ⟨a, as⟩ := l
  induction as generalizing a with
  | nil =>
      rw [CommaList.tokens_single] at ht
      exact .inr ⟨a, List.mem_cons_self, ht⟩
  | cons b as ih =>
      rw [CommaList.tokens_cons, List.mem_append, List.mem_cons] at ht
      rcases ht with ht | rfl | ht
      · exact .inr ⟨a, List.mem_cons_self, ht⟩
      · exact .inl rfl
      · exact (ih b ht).imp_right fun ⟨c, hc, htc⟩ => ⟨c, List.mem_cons_of_mem _ hc, htc⟩

/-- **A comma list is read one way** when no element has a comma. -/
theorem map_tokens_eq {α : Type} {f : α → List Token} (hf : ∀ a, lit "," ∉ f a)
    {l l' : CommaList α} (h : CommaList.tokens f l = CommaList.tokens f l') :
    l.toList.map f = l'.toList.map f := by
  have hsplit : ∀ l : CommaList α,
      (CommaList.tokens f l).splitOn (lit ",") = l.toList.map f := by
    intro l
    refine List.splitOn_intercalate _ (fun ts hts => ?_) (by simp [CommaList.toList])
    obtain ⟨a, _, rfl⟩ := List.mem_map.mp hts
    exact hf a
  rw [← hsplit, ← hsplit, h]

/-! ## Tokens that are not in a rule -/

/-- The tokens of an expression. -/
def Token.inExp : Token → Bool
  | lit l => ["pi", "+", "-", "*", "/", "^", "sin", "cos", "tan", "exp", "ln", "sqrt", "(",
      ")"].contains l.text
  | ID _ => true
  | REAL _ => true
  | INT _ => true
  | _ => false

theorem Exp.inExp (e : Exp) : ∀ t ∈ e.tokens, t.inExp = true := by
  induction e with
  | real r => exact List.forall_mem_singleton.mpr rfl
  | INT n => exact List.forall_mem_singleton.mpr rfl
  | pi => exact List.forall_mem_singleton.mpr rfl
  | id x => exact List.forall_mem_singleton.mpr rfl
  | binary a op b iha ihb =>
      refine List.forall_mem_append.mpr ⟨iha, List.forall_mem_cons.mpr ⟨?_, ihb⟩⟩
      cases op <;> rfl
  | neg a ih => exact List.forall_mem_cons.mpr ⟨rfl, ih⟩
  | paren a ih =>
      refine List.forall_mem_cons.mpr ⟨rfl, List.forall_mem_append.mpr ⟨ih, ?_⟩⟩
      exact List.forall_mem_singleton.mpr rfl
  | unary f a ih =>
      refine List.forall_mem_cons.mpr ⟨by cases f <;> rfl, List.forall_mem_cons.mpr ⟨rfl, ?_⟩⟩
      exact List.forall_mem_append.mpr ⟨ih, List.forall_mem_singleton.mpr rfl⟩

/-- The tokens of an operand or a register. -/
def Token.inOperand : Token → Bool
  | lit l => ["[", "]"].contains l.text
  | ID _ => true
  | INT _ => true
  | _ => false

theorem GateArg.inOperand (a : GateArg) : ∀ t ∈ a.tokens, t.inOperand = true := by
  cases a with
  | indexed x i => simp [tokens, Token.inOperand, lit]
  | bare x => exact List.forall_mem_singleton.mpr rfl

theorem Register.inOperand (r : Register) : ∀ t ∈ r.tokens, t.inOperand = true := by
  cases r with
  | sized x i => exact (GateArg.indexed x i).inOperand
  | bare x => exact (GateArg.bare x).inOperand

/-- A token that is not in a rule. -/
theorem not_mem_of_all {p : Token → Bool} {ts : List Token} (h : ∀ t ∈ ts, p t = true) {t : Token}
    (ht : p t = false) : t ∉ ts := by
  intro hmem
  rw [h t hmem] at ht
  cases ht

theorem Exp.not_mem {t : Token} (ht : t.inExp = false) (e : Exp) : t ∉ e.tokens :=
  not_mem_of_all e.inExp ht

theorem GateArg.not_mem {t : Token} (ht : t.inOperand = false) (a : GateArg) :
    t ∉ a.tokens := not_mem_of_all a.inOperand ht

theorem not_mem_commaList {α : Type} {f : α → List Token} {t : Token} (ht : t ≠ lit ",")
    (hf : ∀ a, t ∉ f a) (l : CommaList α) : t ∉ CommaList.tokens f l := by
  intro hmem
  rcases mem_commaList hmem with h | ⟨a, _, ha⟩
  · exact ht h
  · exact hf a ha

theorem GateArgList.not_mem {t : Token} (ht : t ≠ lit ",") (h : t.inOperand = false)
    (as : GateArgList) : t ∉ as.tokens := not_mem_commaList ht (GateArg.not_mem h) as

/-! ## Inside a statement -/

/-- No semicolon and no brace. -/
def Token.inner : Token → Bool
  | lit l => !([";", "\x7b", "\x7d"].contains l.text)
  | _ => true

theorem Token.inner_of {p : Token → Bool} (hsemicolon : p (OpenQasm.lit ";") = false)
    (hopen : p (OpenQasm.lit "\x7b") = false) (hclose : p (OpenQasm.lit "\x7d") = false)
    {t : Token} (h : p t = true) : t.inner = true := by
  cases t with
  | lit l =>
      obtain ⟨text, spelled⟩ := l
      rw [inner, Bool.not_eq_true', ← Bool.not_eq_true, List.contains_iff_mem]
      intro hmem
      simp only [List.mem_cons, List.not_mem_nil, or_false] at hmem
      rcases hmem with rfl | rfl | rfl
      · exact absurd (hsemicolon.symm.trans h) (by decide)
      · exact absurd (hopen.symm.trans h) (by decide)
      · exact absurd (hclose.symm.trans h) (by decide)
  | _ => rfl

theorem inner_commaList {α : Type} {f : α → List Token} (hf : ∀ a, ∀ t ∈ f a, t.inner = true)
    (l : CommaList α) : ∀ t ∈ CommaList.tokens f l, t.inner = true := by
  intro t ht
  rcases mem_commaList ht with rfl | ⟨a, _, ha⟩
  · rfl
  · exact hf a t ha

theorem Explist.inner (es : Explist) : ∀ t ∈ es.tokens, t.inner = true :=
  inner_commaList (fun e t ht => Token.inner_of rfl rfl rfl (e.inExp t ht)) es

theorem GateArg.inner (a : GateArg) : ∀ t ∈ a.tokens, t.inner = true :=
  fun t ht => Token.inner_of rfl rfl rfl (a.inOperand t ht)

theorem GateArgList.inner (as : GateArgList) : ∀ t ∈ as.tokens, t.inner = true :=
  inner_commaList GateArg.inner as

theorem Register.inner (r : Register) : ∀ t ∈ r.tokens, t.inner = true :=
  fun t ht => Token.inner_of rfl rfl rfl (r.inOperand t ht)

theorem GateName.inner (g : GateName) : ∀ t ∈ g.tokens, t.inner = true := by
  have hps : ∀ ps : CommaList ID, ∀ t ∈ CommaList.tokens (fun p => [.ID p]) ps,
      t.inner = true := inner_commaList fun _ => List.forall_mem_singleton.mpr rfl
  rcases g with x | ⟨x, _ | ps⟩ <;>
    simp only [tokens, List.forall_mem_append, List.forall_mem_cons]
  · exact ⟨rfl, List.forall_mem_nil _⟩
  · exact ⟨rfl, rfl, rfl, List.forall_mem_nil _⟩
  · exact ⟨⟨rfl, rfl, hps ps⟩, rfl, List.forall_mem_nil _⟩

theorem Uop.inner (u : Uop) : ∀ t ∈ u.tokens, t.inner = true := by
  rcases u with ⟨_ | es, a⟩ | ⟨a, b⟩ | ⟨g, _ | es, as⟩ <;>
    simp only [tokens, List.forall_mem_append, List.forall_mem_cons]
  · exact ⟨rfl, rfl, rfl, a.inner⟩
  · exact ⟨⟨rfl, rfl, es.inner⟩, rfl, a.inner⟩
  · exact ⟨⟨rfl, a.inner⟩, rfl, b.inner⟩
  · exact ⟨g.inner, as.inner⟩
  · exact ⟨⟨g.inner, rfl, es.inner⟩, rfl, as.inner⟩

theorem MeasureOperand.inner (o : MeasureOperand) : ∀ t ∈ o.tokens, t.inner = true := by
  cases o with
  | gatearg a => exact a.inner
  | register r => exact r.inner

theorem Measure.inner (m : Measure) : ∀ t ∈ m.tokens, t.inner = true := by
  simp only [tokens, List.forall_mem_append, List.forall_mem_cons]
  exact ⟨⟨rfl, m.qbit.inner⟩, rfl, m.cbit.inner⟩

theorem Qop.inner (q : Qop) : ∀ t ∈ q.tokens, t.inner = true := by
  cases q with
  | uop u => exact u.inner
  | reeset o => exact List.forall_mem_cons.mpr ⟨rfl, o.inner⟩
  | measure m => exact m.inner
  | barrier as => exact List.forall_mem_cons.mpr ⟨rfl, as.inner⟩

theorem RegDecl.inner (d : RegDecl) : ∀ t ∈ d.tokens, t.inner = true := by
  cases d with
  | qreg r => exact List.forall_mem_cons.mpr ⟨rfl, r.inner⟩
  | creg r => exact List.forall_mem_cons.mpr ⟨rfl, r.inner⟩

theorem OpaqueDecl.inner (o : OpaqueDecl) : ∀ t ∈ o.tokens, t.inner = true :=
  List.forall_mem_cons.mpr ⟨rfl, List.forall_mem_append.mpr
    ⟨o.name.inner, inner_commaList (fun a => (GateArg.indexed a.1 a.2).inner) o.args⟩⟩

theorem Conditional.inner (c : Conditional) : ∀ t ∈ c.tokens, t.inner = true := by
  simp only [tokens, List.forall_mem_cons]
  exact ⟨rfl, rfl, rfl, rfl, rfl, rfl, c.action.inner⟩

theorem Kernelcall.inner (k : Kernelcall) : ∀ t ∈ k.tokens, t.inner = true := by
  simp only [tokens, List.forall_mem_append, List.forall_mem_cons, List.forall_mem_map,
    List.forall_mem_flatMap]
  exact ⟨⟨⟨rfl, rfl, fun _ _ => rfl⟩, fun _ _ => ⟨rfl, rfl, List.forall_mem_nil _⟩⟩,
    rfl, List.forall_mem_nil _⟩

theorem Uop.no_semicolon (u : Uop) : lit ";" ∉ u.tokens := not_mem_of_all u.inner rfl

theorem Measure.no_semicolon (m : Measure) : lit ";" ∉ m.tokens := not_mem_of_all m.inner rfl

theorem RegDecl.no_semicolon (d : RegDecl) : lit ";" ∉ d.tokens := not_mem_of_all d.inner rfl

theorem Kernelcall.no_semicolon (k : Kernelcall) : lit ";" ∉ k.tokens :=
  not_mem_of_all k.inner rfl

/-! ## Parentheses -/

/-- How deep one is in parentheses after a token, if it closes none that was
not opened. -/
def deepen (d : Nat) (t : Token) : Option Nat :=
  if t = lit "(" (Eq.refl true) then some (d + 1)
  else if t = lit ")" (Eq.refl true) then
    if d = 0 then none else some (d - 1)
  else some d

def depth (d : Nat) (ts : List Token) : Option Nat := ts.foldlM deepen d

theorem depth_cons (d : Nat) (t : Token) (ts : List Token) :
    depth d (t :: ts) = (deepen d t).bind fun d => depth d ts := List.foldlM_cons

theorem depth_append (d : Nat) (ts us : List Token) :
    depth d (ts ++ us) = (depth d ts).bind fun d => depth d us := List.foldlM_append

theorem deepen_other {t : Token} (ht : t ≠ lit "(") (ht' : t ≠ lit ")") (d : Nat) :
    deepen d t = some d := by
  rw [deepen, if_neg ht, if_neg ht']

/-- Tokens that open and close the same parentheses. -/
def Balanced (ts : List Token) : Prop := ∀ d, depth d ts = some d

theorem Balanced.append {ts us : List Token} (h : Balanced ts) (h' : Balanced us) :
    Balanced (ts ++ us) := by
  intro d
  rw [depth_append, h d]
  exact h' d

theorem Balanced.nil : Balanced [] := fun _ => rfl

theorem Balanced.cons {t : Token} {ts : List Token} (ht : t ≠ lit "(") (ht' : t ≠ lit ")")
    (h : Balanced ts) : Balanced (t :: ts) := by
  intro d
  rw [depth_cons, deepen_other ht ht']
  exact h d

theorem Balanced.paren {ts : List Token} (h : Balanced ts) :
    Balanced (lit "(" :: ts ++ [lit ")"]) := by
  intro d
  have hopen : deepen d (lit "(") = some (d + 1) := if_pos rfl
  rw [List.cons_append, depth_cons, hopen, Option.bind_some, depth_append, h (d + 1)]
  rfl

theorem Exp.balanced (e : Exp) : Balanced e.tokens := by
  induction e with
  | real r => exact .cons (by simp [lit]) (by simp [lit]) .nil
  | INT n => exact .cons (by simp [lit]) (by simp [lit]) .nil
  | pi => exact .cons (by simp) (by simp) .nil
  | id x => exact .cons (by simp [lit]) (by simp [lit]) .nil
  | binary a op b iha ihb =>
      exact iha.append (.cons (by cases op <;> decide) (by cases op <;> decide) ihb)
  | neg a ih => exact .cons (by simp) (by simp) ih
  | paren a ih => exact ih.paren
  | unary f a ih => exact .cons (by cases f <;> decide) (by cases f <;> decide) ih.paren

theorem Explist.balanced (es : Explist) : Balanced es.tokens := by
  obtain ⟨e, es⟩ := es
  induction es generalizing e with
  | nil =>
      rw [Explist.tokens, CommaList.tokens_single]
      exact e.balanced
  | cons f es ih =>
      rw [Explist.tokens, CommaList.tokens_cons]
      exact e.balanced.append (.cons (by simp) (by simp) (ih f))

/-- Balanced tokens do not begin by closing. -/
theorem Balanced.opens_first {ts us : List Token} (h : Balanced (ts ++ lit ")" :: us))
    (hclose : lit ")" ∉ ts) : lit "(" ∈ ts := by
  by_contra hopen
  have hts : depth 0 ts = some 0 := by
    clear h
    induction ts with
    | nil => rfl
    | cons t ts ih =>
        rw [List.mem_cons, not_or] at hopen hclose
        rw [depth_cons, deepen_other (Ne.symm hopen.1) (Ne.symm hclose.1)]
        exact ih hclose.2 hopen.2
  have hzero := h 0
  rw [depth_append, hts] at hzero
  cases hzero

/-! ## First tokens -/

def Uop.opening : Uop → Token
  | U _ _ => lit "U" (Eq.refl true)
  | CX _ _ => lit "CX" (Eq.refl true)
  | UserDefGate g _ _ => .ID g.id

def Qop.opening : Qop → Token
  | uop u => u.opening
  | reeset _ => lit "reset" (Eq.refl true)
  | measure _ => lit "measure" (Eq.refl true)
  | barrier _ => lit "barrier" (Eq.refl true)

def Statement.opening : Statement → Token
  | regdecl (.qreg _) => lit "qreg" (Eq.refl true)
  | regdecl (.creg _) => lit "creg" (Eq.refl true)
  | gatedecl _ => lit "gate" (Eq.refl true)
  | opaqueDecl _ => lit "opaque" (Eq.refl true)
  | qop q => q.opening
  | conditional _ => lit "if" (Eq.refl true)
  | kernelcall k => .ID k.kernelname

def Line.opening : Line → Token
  | statement s => s.opening
  | comment c => .COMMENT c
  | includeFile _ => lit "include" (Eq.refl true)

theorem Uop.tokens_eq (u : Uop) : ∃ ts, u.tokens = u.opening :: ts := by
  cases u with
  | U es a => cases es <;> exact ⟨_, rfl⟩
  | CX a b => exact ⟨_, rfl⟩
  | UserDefGate g es as =>
      cases g with
      | plain x => cases es <;> exact ⟨_, rfl⟩
      | withParams x ps => cases ps <;> cases es <;> exact ⟨_, rfl⟩

theorem Line.tokens_eq (l : Line) : ∃ ts, l.tokens = l.opening :: ts := by
  cases l with
  | comment c => exact ⟨_, rfl⟩
  | includeFile f => exact ⟨_, rfl⟩
  | statement s =>
      cases s with
      | regdecl d => cases d <;> exact ⟨_, rfl⟩
      | gatedecl d => exact ⟨_, rfl⟩
      | opaqueDecl o => exact ⟨_, rfl⟩
      | conditional c => exact ⟨_, rfl⟩
      | kernelcall k => exact ⟨_, rfl⟩
      | qop q =>
          cases q with
          | uop u =>
              obtain ⟨ts, h⟩ := u.tokens_eq
              exact ⟨ts ++ [lit ";"], congrArg (· ++ [lit ";"]) h⟩
          | _ => exact ⟨_, rfl⟩

theorem opening_eq {l l' : Line} {rest rest' : List Token}
    (h : l.tokens ++ rest = l'.tokens ++ rest') : l.opening = l'.opening := by
  obtain ⟨ts, hts⟩ := l.tokens_eq
  obtain ⟨ts', hts'⟩ := l'.tokens_eq
  rw [hts, hts'] at h
  exact (List.cons.inj h).1

/-! ## Trees of the same tokens -/

/-- The tokens of the expressions of an application. -/
def Uop.exps : Uop → Option (List (List Token))
  | U es _ => es.map fun es => es.toList.map Exp.tokens
  | CX _ _ => none
  | UserDefGate _ es _ => es.map fun es => es.toList.map Exp.tokens

/-- **Applications that differ in how their expressions are grouped.** -/
structure Uop.Alike (u u' : Uop) : Prop where
  opening : u.opening = u'.opening
  exps : u.exps = u'.exps
  args : u.args = u'.args

/-- Statements that differ in how their expressions are grouped. -/
inductive Statement.Alike : Statement → Statement → Prop where
  | same (s : Statement) : Alike s s
  | uop {u u' : Uop} (h : u.Alike u') : Alike (.qop (.uop u)) (.qop (.uop u'))

/-- The alternatives the parser takes in a statement. -/
def Statement.Preferred : Statement → Prop
  | gatedecl d => ∀ u ∈ d.body, u.Preferred
  | qop q => q.Preferred
  | conditional c => c.action.Preferred
  | _ => True

def Line.Preferred : Line → Prop
  | statement s => s.Preferred
  | _ => True

/-- Statements that are read one way. -/
inductive Statement.Plain : Statement → Prop where
  | creg (r : Register) : Plain (.regdecl (.creg r))
  | measure (a b : GateArg) : Plain (.qop (.measure ⟨.gatearg a, .gatearg b⟩))
  | U (es : Explist) (a : GateArg) : Plain (.qop (.uop (.U (some es) a)))
  | apply (x : ID) (es : Option Explist) (as : GateArgList) :
      Plain (.qop (.uop (.UserDefGate (.plain x) es as)))

theorem GateArg.tokens_injective {a b : GateArg} (h : a.tokens = b.tokens) : a = b := by
  cases a with
  | indexed x i =>
      cases b with
      | indexed y j =>
          cases h
          rfl
      | bare y => cases h
  | bare x =>
      cases b with
      | indexed y j => cases h
      | bare y =>
          cases h
          rfl

theorem Register.tokens_injective {r r' : Register} (h : r.tokens = r'.tokens) : r = r' := by
  cases r with
  | sized x i =>
      cases r' with
      | sized y j =>
          cases h
          rfl
      | bare y => cases h
  | bare x =>
      cases r' with
      | sized y j => cases h
      | bare y =>
          cases h
          rfl

/-- What a line is by the keyword it begins with. -/
theorem Line.of_opening_lit {l : Line} {s : String} {hs : literals.contains s = true}
    (h : l.opening = lit s hs) :
    (s = "creg" → ∃ r, l = .statement (.regdecl (.creg r))) ∧
      (s = "measure" → ∃ m, l = .statement (.qop (.measure m))) ∧
      (s = "U" → ∃ es a, l = .statement (.qop (.uop (.U es a)))) := by
  cases l with
  | comment c => cases h
  | includeFile f =>
      cases lit_inj.mp h
      simp
  | statement st =>
      cases st with
      | kernelcall k => exact absurd h ID_ne_lit
      | regdecl d =>
          cases d with
          | _ r =>
              cases lit_inj.mp h
              simp
      | qop q =>
          cases q with
          | uop u =>
              cases u with
              | UserDefGate g es as => exact absurd h ID_ne_lit
              | _ =>
                  cases lit_inj.mp h
                  simp
          | _ =>
              cases lit_inj.mp h
              simp
      | _ =>
          cases lit_inj.mp h
          simp

/-- A line that begins with a name. -/
theorem Line.of_opening_ID {l : Line} {x : ID} (h : l.opening = .ID x) :
    (∃ g es as, l = .statement (.qop (.uop (.UserDefGate g es as)))) ∨
      ∃ k, l = .statement (.kernelcall k) := by
  cases l with
  | comment c => cases h
  | includeFile f => exact absurd h lit_ne_ID
  | statement st =>
      cases st with
      | regdecl d => cases d <;> exact absurd h lit_ne_ID
      | qop q =>
          cases q with
          | uop u =>
              cases u with
              | UserDefGate g es as => exact .inl ⟨g, es, as, rfl⟩
              | _ => exact absurd h lit_ne_ID
          | _ => exact absurd h lit_ne_ID
      | kernelcall k => exact .inr ⟨k, rfl⟩
      | _ => exact absurd h lit_ne_ID

/-- Two statements that end at their semicolon. -/
theorem ended_inj {ts ts' rest rest' : List Token} (hts : lit ";" ∉ ts) (hts' : lit ";" ∉ ts')
    (h : ts ++ [lit ";"] ++ rest = ts' ++ [lit ";"] ++ rest') : ts = ts' ∧ rest = rest' := by
  rw [List.append_assoc, List.append_assoc] at h
  exact split_first hts hts' h

theorem creg_unique {l : Line} {r : Register} {rest rest' : List Token}
    (h : l.tokens ++ rest = (Line.statement (.regdecl (.creg r))).tokens ++ rest') :
    l = .statement (.regdecl (.creg r)) ∧ rest = rest' := by
  obtain ⟨r', rfl⟩ := (Line.of_opening_lit (opening_eq h)).1 rfl
  obtain ⟨htokens, hrest⟩ := ended_inj (RegDecl.creg r').no_semicolon
    (RegDecl.creg r).no_semicolon h
  rw [Register.tokens_injective (List.cons.inj htokens).2]
  exact ⟨rfl, hrest⟩

theorem measure_unique {l : Line} (hl : l.Preferred) {a b : GateArg} {rest rest' : List Token}
    (h : l.tokens ++ rest
      = (Line.statement (.qop (.measure ⟨.gatearg a, .gatearg b⟩))).tokens ++ rest') :
    l = .statement (.qop (.measure ⟨.gatearg a, .gatearg b⟩)) ∧ rest = rest' := by
  obtain ⟨⟨qbit, cbit⟩, rfl⟩ := (Line.of_opening_lit (opening_eq h)).2.1 rfl
  cases qbit with
  | register r => exact hl.1.elim
  | gatearg a' =>
      cases cbit with
      | register r => exact hl.2.elim
      | gatearg b' =>
          obtain ⟨htokens, hrest⟩ := ended_inj (Measure.no_semicolon _)
            (Measure.no_semicolon _) h
          obtain ⟨ha, hb⟩ := split_first (t := lit "->") (a'.not_mem rfl) (a.not_mem rfl)
            (List.cons.inj htokens).2
          rw [GateArg.tokens_injective ha, GateArg.tokens_injective hb]
          exact ⟨rfl, hrest⟩

/-! ## Applications -/

theorem commaList_ne_nil {α : Type} {f : α → List Token} (hf : ∀ a, f a ≠ [])
    (l : CommaList α) : CommaList.tokens f l ≠ [] := by
  obtain ⟨a, as⟩ := l
  cases as with
  | nil =>
      rw [CommaList.tokens_single]
      exact hf a
  | cons b as =>
      rw [CommaList.tokens_cons]
      simp

theorem Explist.tokens_ne_nil (es : Explist) : es.tokens ≠ [] :=
  commaList_ne_nil (fun e => by cases e <;> simp [Exp.tokens]) es

theorem GateArgList.tokens_ne_nil (as : GateArgList) : as.tokens ≠ [] :=
  commaList_ne_nil (fun a => by cases a <;> simp [GateArg.tokens]) as

theorem U_unique {l : Line} {es : Explist} {a : GateArg} {rest rest' : List Token}
    (h : l.tokens ++ rest = (Line.statement (.qop (.uop (.U (some es) a)))).tokens ++ rest') :
    ∃ es', l = .statement (.qop (.uop (.U (some es') a))) ∧
      es'.toList.map Exp.tokens = es.toList.map Exp.tokens ∧ rest = rest' := by
  obtain ⟨es', a', rfl⟩ := (Line.of_opening_lit (opening_eq h)).2.2 rfl
  obtain ⟨htokens, hrest⟩ := ended_inj (Uop.no_semicolon (.U es' a'))
    (Uop.no_semicolon (.U (some es) a)) h
  cases es' with
  | none =>
      have htokens : lit "U" :: lit "(" :: [] ++ lit ")" :: a'.tokens
          = lit "U" :: lit "(" :: es.tokens ++ lit ")" :: a.tokens := htokens
      obtain ⟨hnil, _⟩ := split_last (a'.not_mem rfl) (a.not_mem rfl) htokens
      exact absurd (List.cons.inj (List.cons.inj hnil).2).2.symm es.tokens_ne_nil
  | some es' =>
      obtain ⟨hes, ha⟩ := split_last (t := lit ")") (a'.not_mem rfl) (a.not_mem rfl) htokens
      have hes := (List.cons.inj (List.cons.inj hes).2).2
      rw [GateArg.tokens_injective ha]
      exact ⟨es', rfl, map_tokens_eq (Exp.not_mem rfl) hes, hrest⟩

/-- The operands of an application follow its last parenthesis. -/
theorem args_unique (ts : List Token) {ts' : List Token} {as as' : GateArgList}
    (h : ts ++ lit ")" :: as.tokens = ts' ++ lit ")" :: as'.tokens) :
    ts = ts' ∧ as.toList = as'.toList := by
  obtain ⟨hts, has⟩ := split_last (as.not_mem (by simp) rfl) (as'.not_mem (by simp) rfl) h
  refine ⟨hts, ?_⟩
  have hmap := map_tokens_eq (GateArg.not_mem rfl) has
  exact List.map_injective_iff.mpr (fun a b => GateArg.tokens_injective) hmap

theorem ID_inj {x y : ID} {ts us : List Token}
    (h : Token.ID x :: ts = Token.ID y :: us) : x = y ∧ ts = us := by
  cases h
  exact ⟨rfl, rfl⟩

/-- An application without parentheses is no other one. -/
theorem bare_unique {g : GateName} {es : Option Explist} {x : ID} {as as' : GateArgList}
    (h : (Uop.UserDefGate g es as').tokens = (Uop.UserDefGate (.plain x) none as).tokens) :
    (Uop.UserDefGate g es as').Alike (.UserDefGate (.plain x) none as) := by
  -- every other alternative has a parenthesis after the name
  have hno : lit "(" ∉ as.tokens := as.not_mem (by simp) rfl
  have hright : (Uop.UserDefGate (.plain x) none as).tokens = .ID x :: as.tokens := rfl
  rw [hright] at h
  cases g with
  | plain y =>
      cases es with
      | none =>
          obtain ⟨rfl, has⟩ := ID_inj h
          have hmap := map_tokens_eq (GateArg.not_mem rfl) has
          have hargs := List.map_injective_iff.mpr (fun _ _ => GateArg.tokens_injective) hmap
          exact ⟨rfl, rfl, hargs⟩
      | some es =>
          refine absurd ?_ hno
          rw [← (ID_inj h).2]
          exact List.mem_cons_self
  | withParams y ps =>
      refine absurd ?_ hno
      cases ps <;> cases es <;>
        · rw [← (ID_inj h).2]
          exact List.mem_cons_self

/-- An application with expressions is read with these, its parameters being
balanced. -/
theorem applied_unique {g : GateName} {es : Option Explist} {x : ID} {es' : Explist}
    {as as' : GateArgList} (hl : (Uop.UserDefGate g es as').Preferred)
    (h : (Uop.UserDefGate g es as').tokens = (Uop.UserDefGate (.plain x) (some es') as).tokens) :
    (Uop.UserDefGate g es as').Alike (.UserDefGate (.plain x) (some es') as) := by
  have hright : (Uop.UserDefGate (.plain x) (some es') as).tokens
      = .ID x :: lit "(" :: es'.tokens ++ lit ")" :: as.tokens := rfl
  rw [hright] at h
  cases g with
  | plain y =>
      cases es with
      | none =>
          have hno : lit "(" ∉ as'.tokens := as'.not_mem (by simp) rfl
          refine absurd ?_ hno
          rw [show as'.tokens = _ from (ID_inj h).2]
          exact List.mem_cons_self
      | some es =>
          obtain ⟨hes, hargs⟩ := args_unique (.ID y :: lit "(" :: es.tokens) h
          obtain ⟨rfl, hparen⟩ := ID_inj hes
          have hmap := map_tokens_eq (Exp.not_mem rfl) (List.cons.inj hparen).2
          exact ⟨rfl, congrArg some hmap, hargs⟩
  | withParams y ps =>
      cases es with
      | none =>
          cases ps with
          | none =>
              obtain ⟨hes, _⟩ := args_unique [.ID y, lit "("] h
              exact absurd (List.cons.inj (ID_inj hes).2).2.symm es'.tokens_ne_nil
          | some ps => exact hl.elim
      | some es =>
          -- `g()(es) as`, with the parameters `)(es`: they would begin by closing
          have hbalanced := es'.balanced
          cases ps with
          | none =>
              obtain ⟨hes, _⟩ := args_unique
                (.ID y :: lit "(" :: lit ")" :: lit "(" :: es.tokens) h
              rw [← (List.cons.inj (ID_inj hes).2).2] at hbalanced
              have hopen : lit "(" ∈ ([] : List Token) := hbalanced.opens_first (by simp)
              cases hopen
          | some ps =>
              have hps : ∀ {t : Token}, t ≠ lit "," → (∀ p, t ≠ .ID p) →
                  t ∉ CommaList.tokens (fun p => [Token.ID p]) ps := by
                intro t ht hid
                exact not_mem_commaList ht (fun p => by simp [hid p]) ps
              obtain ⟨hes, _⟩ := args_unique
                ((GateName.withParams y (some ps)).tokens ++ lit "(" :: es.tokens) h
              have hexps : CommaList.tokens (fun p => [Token.ID p]) ps ++ [lit ")"]
                  ++ lit "(" :: es.tokens = es'.tokens := (List.cons.inj (ID_inj hes).2).2
              rw [← hexps, List.append_assoc] at hbalanced
              refine absurd (hbalanced.opens_first (hps (by simp) (by simp))) ?_
              exact hps (by simp) (by simp)

theorem apply_unique {l : Line} (hl : l.Preferred) {x : ID} {es : Option Explist}
    {as : GateArgList} {rest rest' : List Token}
    (h : l.tokens ++ rest
      = (Line.statement (.qop (.uop (.UserDefGate (.plain x) es as)))).tokens ++ rest') :
    ∃ u, l = .statement (.qop (.uop u)) ∧ u.Alike (.UserDefGate (.plain x) es as) ∧
      rest = rest' := by
  have hopen : l.opening = .ID x := opening_eq h
  rcases Line.of_opening_ID hopen with ⟨g, es', as', rfl⟩ | ⟨k, rfl⟩
  · obtain ⟨htokens, hrest⟩ := ended_inj (Uop.no_semicolon (.UserDefGate g es' as'))
      (Uop.no_semicolon (.UserDefGate (.plain x) es as)) h
    refine ⟨_, rfl, ?_, hrest⟩
    cases es with
    | none => exact bare_unique htokens
    | some es => exact applied_unique hl htokens
  · obtain ⟨htokens, hrest⟩ := ended_inj k.no_semicolon
      (Uop.no_semicolon (.UserDefGate (.plain x) es as)) h
    have hright : k.tokens = .ID k.kernelname :: lit "(" :: (k.buffer.toList.map Token.ID)
        ++ (k.args.flatMap fun a => [lit ",", .ID a]) ++ lit ")" :: [] := rfl
    rw [hright] at htokens
    -- a call ends with its parenthesis, an application with its operands
    cases es with
    | none =>
        have hno : lit "(" ∉ as.tokens := as.not_mem (by simp) rfl
        refine absurd ?_ hno
        rw [← show _ = as.tokens from (ID_inj htokens).2]
        simp
    | some es =>
        obtain ⟨_, has⟩ := split_last (t := lit ")") (by simp)
          (as.not_mem (by simp) rfl) htokens
        exact absurd has.symm as.tokens_ne_nil

/-- **A plain statement is read one way**, up to the grouping of expressions. -/
theorem Statement.Plain.unique {s : Statement} (hs : s.Plain) {l : Line} (hl : l.Preferred)
    {rest rest' : List Token} (h : l.tokens ++ rest = s.tokens ++ rest') :
    ∃ s', l = .statement s' ∧ s'.Alike s ∧ rest = rest' := by
  cases hs with
  | creg r =>
      obtain ⟨rfl, hrest⟩ := creg_unique h
      exact ⟨_, rfl, .same _, hrest⟩
  | measure a b =>
      obtain ⟨rfl, hrest⟩ := measure_unique hl h
      exact ⟨_, rfl, .same _, hrest⟩
  | U es a =>
      obtain ⟨es', rfl, hes, hrest⟩ := U_unique h
      exact ⟨_, rfl, .uop ⟨rfl, congrArg some hes, rfl⟩, hrest⟩
  | apply x es as =>
      obtain ⟨u, rfl, hu, hrest⟩ := apply_unique hl h
      exact ⟨_, rfl, .uop hu, hrest⟩

/-- The same for a list of them. -/
theorem program_unique {ss : List Statement} (hss : ∀ s ∈ ss, s.Plain) {ls : List Line}
    (hls : ∀ l ∈ ls, l.Preferred) (h : programTokens ls = ss.flatMap Statement.tokens) :
    List.Forall₂ Statement.Alike (ls.filterMap Line.statement?) ss := by
  induction ss generalizing ls with
  | nil =>
      cases ls with
      | nil => exact .nil
      | cons l ls =>
          obtain ⟨ts, hts⟩ := l.tokens_eq
          have h : l.tokens ++ programTokens ls = [] := h
          rw [hts] at h
          cases h
  | cons s ss ih =>
      cases ls with
      | nil =>
          obtain ⟨ts, hts⟩ := (Line.statement s).tokens_eq
          have h : [] = (Line.statement s).tokens ++ ss.flatMap Statement.tokens := h
          rw [hts] at h
          cases h
      | cons l ls =>
          obtain ⟨s', rfl, hs', hrest⟩ := (hss s List.mem_cons_self).unique
            (hls l List.mem_cons_self) h
          refine .cons hs' (ih (fun x hx => hss x ?_) (fun x hx => hls x ?_) hrest)
          · exact List.mem_cons_of_mem _ hx
          · exact List.mem_cons_of_mem _ hx

end XaccIbm.OpenQasm
