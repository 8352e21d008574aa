import XaccIbm.OpenQasm.Token

/-!
# OpenQasm — Grammar

The parse trees of `OQASM2.g4`, one type for each parser rule whose shape
somebody looks at, and the token list each tree is derived from. Where a
rule has alternatives that match the same tokens, both are trees here, as
they are derivations of the grammar; which one the parser takes is said by
`Preferred`. The grouping of statements into `line` and `program` is flat.
-/

namespace XaccIbm.OpenQasm

/-- A literal token. -/
def lit (s : String) (h : literals.contains s = true := by decide) : Token :=
  .lit ⟨s, h⟩

/-- `x (',' x)*`. -/
structure CommaList (α : Type) where
  head : α
  tail : List α

namespace CommaList

variable {α β : Type}

def toList (l : CommaList α) : List α := l.head :: l.tail

def map (f : α → β) (l : CommaList α) : CommaList β := ⟨f l.head, l.tail.map f⟩

@[simp] theorem toList_map (f : α → β) (l : CommaList α) :
    (l.map f).toList = l.toList.map f := rfl

def tokens (f : α → List Token) (l : CommaList α) : List Token :=
  [lit ","].intercalate (l.toList.map f)

theorem tokens_single (f : α → List Token) (a : α) : tokens f ⟨a, []⟩ = f a := by
  simp [tokens, toList]

theorem tokens_cons (f : α → List Token) (a b : α) (as : List α) :
    tokens f ⟨a, b :: as⟩ = f a ++ lit "," :: tokens f ⟨b, as⟩ := by
  simp [tokens, toList]

end CommaList

/-! ## Expressions -/

inductive Unaryop where
  | sin
  | cos
  | tan
  | exp
  | ln
  | sqrt
  deriving DecidableEq

def Unaryop.token : Unaryop → Token
  | sin => lit "sin"
  | cos => lit "cos"
  | tan => lit "tan"
  | exp => lit "exp"
  | ln => lit "ln"
  | sqrt => lit "sqrt"

/-- The infix operators of `exp`. -/
inductive Binop where
  | plus
  | minus
  | times
  | divide
  | power
  deriving DecidableEq

def Binop.token : Binop → Token
  | plus => lit "+"
  | minus => lit "-"
  | times => lit "*"
  | divide => lit "/"
  | power => lit "^"

inductive Exp where
  | real (r : REAL)
  | INT (n : INT)
  | pi
  | id (x : ID)
  | binary (a : Exp) (op : Binop) (b : Exp)
  | neg (a : Exp)
  | paren (a : Exp)
  | unary (f : Unaryop) (a : Exp)
  deriving DecidableEq

/-- `getText()` of a context: the texts of its tokens, side by side. -/
def getText (ts : List Token) : String :=
  String.ofList (Lexing.textOf lexer ts)

namespace Exp

def tokens : Exp → List Token
  | real r => [.REAL r]
  | INT n => [.INT n]
  | pi => [lit "pi"]
  | id x => [.ID x]
  | binary a op b => a.tokens ++ op.token :: b.tokens
  | neg a => lit "-" :: a.tokens
  | paren a => lit "(" :: a.tokens ++ [lit ")"]
  | unary f a => f.token :: lit "(" :: a.tokens ++ [lit ")"]

def text (e : Exp) : String := getText e.tokens

end Exp

abbrev Explist := CommaList Exp

def Explist.tokens (es : Explist) : List Token := CommaList.tokens Exp.tokens es

/-! ## Operands and registers -/

/-- `gatearg`; the index is an optional child. -/
inductive GateArg where
  | indexed (reg : ID) (index : INT)
  | bare (reg : ID)
  deriving DecidableEq

def GateArg.tokens : GateArg → List Token
  | indexed r i => [.ID r, lit "[", .INT i, lit "]"]
  | bare r => [.ID r]

abbrev GateArgList := CommaList GateArg

def GateArgList.tokens (as : GateArgList) : List Token :=
  CommaList.tokens GateArg.tokens as

/-- `qregister` and `cregister`. -/
inductive Register where
  | sized (reg : ID) (size : INT)
  | bare (reg : ID)
  deriving DecidableEq

namespace Register

def tokens : Register → List Token
  | sized r n => [.ID r, lit "[", .INT n, lit "]"]
  | bare r => [.ID r]

def name : Register → ID
  | sized r _ => r
  | bare r => r

end Register

inductive RegDecl where
  | qreg (r : Register)
  | creg (r : Register)

def RegDecl.tokens : RegDecl → List Token
  | qreg r => lit "qreg" :: r.tokens
  | creg r => lit "creg" :: r.tokens

/-! ## Quantum operations -/

/-- `gatename` and `opaquename`. -/
inductive GateName where
  | plain (id : ID)
  | withParams (id : ID) (params : Option (CommaList ID))

namespace GateName

def id : GateName → ID
  | plain x => x
  | withParams x _ => x

def params : GateName → List ID
  | plain _ => []
  | withParams _ none => []
  | withParams _ (some ps) => ps.toList

def tokens : GateName → List Token
  | plain x => [.ID x]
  | withParams x none => [.ID x, lit "(", lit ")"]
  | withParams x (some ps) =>
      .ID x :: lit "(" :: CommaList.tokens (fun p => [.ID p]) ps ++ [lit ")"]

end GateName

/-- `uop`, with its three labelled alternatives. -/
inductive Uop where
  | U (explist : Option Explist) (arg : GateArg)
  | CX (a b : GateArg)
  | UserDefGate (gatename : GateName) (explist : Option Explist)
      (args : GateArgList)

namespace Uop

/-- The operands. -/
def args : Uop → List GateArg
  | U _ a => [a]
  | CX a b => [a, b]
  | UserDefGate _ _ as => as.toList

def tokens : Uop → List Token
  | U none a => lit "U" :: lit "(" :: lit ")" :: a.tokens
  | U (some es) a => lit "U" :: lit "(" :: es.tokens ++ lit ")" :: a.tokens
  | CX a b => lit "CX" :: a.tokens ++ lit "," :: b.tokens
  | UserDefGate g none as => g.tokens ++ as.tokens
  | UserDefGate g (some es) as =>
      g.tokens ++ lit "(" :: es.tokens ++ lit ")" :: as.tokens

/-- An identifier list after a gate name is read as its expressions. -/
def Preferred : Uop → Prop
  | UserDefGate (.withParams _ (some _)) none _ => False
  | _ => True

end Uop

/-- An operand of `measure`: only the `gatearg` alternative is labelled. -/
inductive MeasureOperand where
  | gatearg (a : GateArg)
  | register (r : Register)

namespace MeasureOperand

def tokens : MeasureOperand → List Token
  | gatearg a => a.tokens
  | register r => r.tokens

def Preferred : MeasureOperand → Prop
  | gatearg _ => True
  | register _ => False

end MeasureOperand

structure Measure where
  qbit : MeasureOperand
  cbit : MeasureOperand

def Measure.tokens (m : Measure) : List Token :=
  lit "measure" :: m.qbit.tokens ++ lit "->" :: m.cbit.tokens

inductive Qop where
  | uop (u : Uop)
  | reeset (operand : MeasureOperand)
  | measure (m : Measure)
  | barrier (args : GateArgList)

namespace Qop

def tokens : Qop → List Token
  | uop u => u.tokens
  | reeset o => lit "reset" :: o.tokens
  | measure m => m.tokens
  | barrier as => lit "barrier" :: as.tokens

/-- The alternatives the parser takes where two match: the first. -/
def Preferred : Qop → Prop
  | uop u => u.Preferred
  | reeset o => o.Preferred
  | measure m => m.qbit.Preferred ∧ m.cbit.Preferred
  | barrier _ => True

end Qop

/-! ## Statements -/

/-- `gatedecl`; a missing `gatebody` is an empty one. -/
structure GateDecl where
  gatename : GateName
  args : GateArgList
  gatebody : Option (List Uop)

namespace GateDecl

/-- The `uop`s of the body. -/
def body (d : GateDecl) : List Uop := d.gatebody.getD []

def tokens (d : GateDecl) : List Token :=
  lit "gate" :: d.gatename.tokens ++ d.args.tokens ++
    match d.gatebody with
    | none => []
    | some us =>
        lit "\x7b" :: (us.flatMap fun u => u.tokens ++ [lit ";"]) ++ [lit "\x7d"]

end GateDecl

structure Conditional where
  reg : ID
  value : INT
  action : Qop

def Conditional.tokens (c : Conditional) : List Token :=
  lit "if" :: lit "(" :: .ID c.reg :: lit "==" :: .INT c.value :: lit ")"
    :: c.action.tokens

/-- `opaque`. -/
structure OpaqueDecl where
  name : GateName
  args : CommaList (ID × INT)

def OpaqueDecl.tokens (o : OpaqueDecl) : List Token :=
  lit "opaque" :: o.name.tokens
    ++ CommaList.tokens (fun a => (GateArg.indexed a.1 a.2).tokens) o.args

/-- `kernelcall`: the first parameter may be missing. -/
structure Kernelcall where
  kernelname : ID
  buffer : Option ID
  args : List ID

def Kernelcall.tokens (k : Kernelcall) : List Token :=
  .ID k.kernelname :: lit "(" :: (k.buffer.toList.map Token.ID)
    ++ (k.args.flatMap fun a => [lit ",", .ID a]) ++ [lit ")"]

inductive Statement where
  | regdecl (d : RegDecl)
  | gatedecl (d : GateDecl)
  | opaqueDecl (o : OpaqueDecl)
  | qop (q : Qop)
  | conditional (c : Conditional)
  | kernelcall (k : Kernelcall)

def Statement.tokens : Statement → List Token
  | regdecl d => d.tokens ++ [lit ";"]
  | gatedecl d => d.tokens
  | opaqueDecl o => o.tokens ++ [lit ";"]
  | qop q => q.tokens ++ [lit ";"]
  | conditional c => c.tokens ++ [lit ";"]
  | kernelcall k => k.tokens ++ [lit ";"]

/-- What a `line` is made of. -/
inductive Line where
  | statement (s : Statement)
  | comment (c : COMMENT)
  | includeFile (filename : STRING)

namespace Line

def tokens : Line → List Token
  | statement s => s.tokens
  | comment c => [.COMMENT c]
  | includeFile f => [lit "include", .STRING f, lit ";"]

def statement? : Line → Option Statement
  | statement s => some s
  | _ => none

end Line

/-- `program`, whose `line`s are never none. -/
def programTokens (ls : List Line) : List Token := ls.flatMap Line.tokens

/-- **The sentences of `program`.** -/
def Sentence (text : String) : Prop :=
  ∃ ls, ls ≠ [] ∧ Lexing.Lexes lexer text.toList (programTokens ls)

/-! ## Kernels -/

inductive TypeName where
  | int
  | double
  | float

def TypeName.token : TypeName → Token
  | int => lit "int"
  | double => lit "double"
  | float => lit "float"

structure Mainprog where
  comments : List COMMENT
  capitals : Bool
  version : REAL
  program : List Line

def Mainprog.tokens (m : Mainprog) : List Token :=
  m.comments.map Token.COMMENT
    ++ [if m.capitals then lit "OPENQASM" else lit "OpenQASM", .REAL m.version,
      lit ";"] ++ programTokens m.program

structure Xacckernel where
  kernelname : ID
  acceleratorbuffer : ID
  typedparams : List (TypeName × ID)
  mainprog : Mainprog

namespace Xacckernel

def tokens (k : Xacckernel) : List Token :=
  lit "__qpu__" :: .ID k.kernelname :: lit "(" :: lit "AcceleratorBuffer"
    :: .ID k.acceleratorbuffer
    :: (k.typedparams.flatMap fun p => [lit ",", p.1.token, .ID p.2])
    ++ lit ")" :: lit "\x7b" :: k.mainprog.tokens ++ [lit "\x7d"]

/-- The statements of the kernel, in their order. -/
def statements (k : Xacckernel) : List Statement :=
  k.mainprog.program.filterMap Line.statement?

end Xacckernel

/-- `xaccsrc`. -/
abbrev Xaccsrc := List Xacckernel

/-- **The trees of a source**: those derived from the tokens of its text. -/
def ParseTree (src : String) (tree : Xaccsrc) : Prop :=
  Lexing.Lexes lexer src.toList (tree.flatMap Xacckernel.tokens)

end XaccIbm.OpenQasm
