import XaccIbm.OQASMCompiler.Registry
import XaccIbm.OpenQasm.Kernel
import XaccIbm.OpenQasm.Spelling

/-!
# OQASMCompiler — Source

`OQASMCompiler::compile` from the text on. The error listener is attached to
the parser only: where the lexer finds no token it prints a message and goes
on behind the character. The start rule has no end of input in it: its loop
leaves the tokens behind the last kernel unread, unless they start another
one. So an IR can be that of a part of the text.
-/

namespace XaccIbm.OQASMCompiler

open OpenQasm Lexing

variable {N : Type}

/-! ## Compiling a text -/

/-- `OQASMErrorListener::syntaxError`. -/
def syntaxError (line charPositionInLine : Nat) (msg : String) : WalkFailure :=
  .error ("Invalid OpenQASM source: " ++ "line " ++ toString line ++ ":"
    ++ toString charPositionInLine ++ " " ++ msg)

/-- **How `compile` ends on a text.** Where a token starts nowhere the runtime
drops the character, and as many of the following ones as its `recovery`
says; the place and the message of a syntax error are the runtime's. -/
inductive CompilesSource (S : Services N) (recovery : List Char → Nat) (src : String) :
    Walk (IR N) → Prop where
  | walked {ts rest : List Token} {dropped : List Char} {tree : Xaccsrc}
      (hscan : Scans lexer recovery src.toList ts dropped) (hstop : Stops ts tree rest)
      (hpreferred : ∀ k ∈ tree, k.Preferred) :
      CompilesSource S recovery src (compile S tree)
  | syntaxError {ts : List Token} {dropped : List Char} (line charPositionInLine : Nat)
      (msg : String) (hscan : Scans lexer recovery src.toList ts dropped)
      (hno : ∀ tree rest, ¬ Stops ts tree rest) :
      CompilesSource S recovery src (.error (syntaxError line charPositionInLine msg))

variable {S : Services N} {recovery : List Char → Nat} {src : String}

/-- **Every text is compiled or refused.** -/
theorem exists_compilesSource (S : Services N) (recovery : List Char → Nat) (src : String) :
    ∃ r, CompilesSource S recovery src r := by
  obtain ⟨ts, dropped, hscan⟩ := exists_scans (G := lexer) Token.toList_ne_nil src.toList
  by_cases hstop : ∃ tree rest, Stops ts tree rest
  · obtain ⟨tree, rest, hstop⟩ := hstop
    obtain ⟨tree', hstop', hpreferred⟩ := hstop.exists_preferred
    exact ⟨_, .walked hscan hstop' hpreferred⟩
  · refine ⟨_, .syntaxError 0 0 "" hscan fun tree rest h => hstop ⟨tree, rest, h⟩⟩

/-- What an IR is the IR of. -/
theorem CompilesSource.returned {ir : IR N} (h : CompilesSource S recovery src (.ok ir)) :
    ∃ ts dropped tree rest, Scans lexer recovery src.toList ts dropped ∧ Stops ts tree rest ∧
      compile S tree = .ok ir := by
  generalize hr : (.ok ir : Walk (IR N)) = r at h
  cases h with
  | walked hscan hstop _ => exact ⟨_, _, _, _, hscan, hstop, rfl⟩
  | syntaxError => cases hr

/-! ## Whole texts -/

/-- **Nothing stands beside the kernels**: every character is skipped or in a
token, and a token behind complete kernels starts another one. -/
def OnlyKernels (src : String) : Prop :=
  ∃ ts, Lexes lexer src.toList ts ∧ ∀ (tree : Xaccsrc) t rest,
    ts = tree.flatMap Xacckernel.tokens ++ t :: rest → t = lit "__qpu__" (Eq.refl true)

theorem onlyKernels_of_parseTree {tree : Xaccsrc} (h : ParseTree src tree) : OnlyKernels src := by
  refine ⟨_, h, fun tree' t rest htokens => ?_⟩
  by_contra ht
  have hstop : Stops (tree.flatMap Xacckernel.tokens) tree' (t :: rest) :=
    ⟨htokens, fun hhead => ht (Option.some.inj hhead)⟩
  exact List.cons_ne_nil _ _ (hstop.unique (stops_end tree)).2

/-- The kernels in front of a text that has nothing beside kernels are all of it. -/
theorem OnlyKernels.parseTree (h : OnlyKernels src) {ts rest : List Token}
    {dropped : List Char} {tree : Xaccsrc}
    (hscan : Scans lexer recovery src.toList ts dropped) (hstop : Stops ts tree rest) :
    ParseTree src tree := by
  obtain ⟨us, hlexes, hnext⟩ := h
  obtain ⟨rfl, rfl⟩ := hscan.unique text_injective hlexes.scans
  cases rest with
  | nil =>
      have htokens := hstop.tokens
      rw [List.append_nil] at htokens
      rw [ParseTree, ← htokens]
      exact hlexes
  | cons t rest =>
      exact absurd (congrArg some (hnext tree t rest hstop.tokens)) hstop.next

/-! ## A kernel alone -/

/-- A kernel without statements. -/
def idleKernel : Xacckernel := Sample.kernel Sample.f [] []

def idleText : String := "__qpu__ f(AcceleratorBuffer b) \x7b\nOPENQASM 2.0;\n\x7d\n"

def idleIR : IR String := ⟨[0], [⟨"f", [], []⟩]⟩

/-- The kernel is read wherever its text stands. -/
theorem spells_idleText {cs : List Char} {us : List Token} (h : Spells cs us) :
    Spells (idleText.toList ++ cs) (idleKernel.tokens ++ us) := by
  have htext : idleText.toList ++ cs = "__qpu__".toList ++ ' ' :: ("f".toList ++ '(' ::
      ("AcceleratorBuffer".toList ++ ' ' :: ("b".toList ++ ')' :: ' ' :: ("\x7b".toList ++ '\n' ::
        ("OPENQASM".toList ++ ' ' :: ("2.0".toList ++ ';' :: '\n' :: ("\x7d".toList
          ++ '\n' :: cs))))))) := by simp [idleText]
  have htokens : idleKernel.tokens ++ us = lit "__qpu__" :: .ID Sample.f :: lit "("
      :: lit "AcceleratorBuffer" :: .ID Sample.b :: lit ")" :: lit "\x7b" :: lit "OPENQASM"
      :: .REAL idleKernel.mainprog.version :: lit ";" :: lit "\x7d" :: us := rfl
  rw [htext, htokens]
  refine Wordlike.spells (t := lit "__qpu__") ⟨'_', rfl, rfl⟩ rfl (by decide) (.space ?_)
  refine (wordlike_id Sample.f).spells rfl (by decide) (.punct "(" ?_)
  refine Wordlike.spells (t := lit "AcceleratorBuffer") ⟨'A', rfl, rfl⟩ rfl (by decide) (.space ?_)
  refine (wordlike_id Sample.b).spells rfl (by decide) (.punct ")" (.space ?_))
  refine shut_brace.1.spells (.newline ?_)
  refine Wordlike.spells (t := lit "OPENQASM") ⟨'O', rfl, rfl⟩ rfl (by decide) (.space ?_)
  have hversion := wordlike_real idleKernel.mainprog.version
  refine hversion.spells rfl (by decide) (.punct ";" (.newline ?_))
  exact shut_brace.2.spells h.newline

theorem lexes_idleText : Lexes lexer idleText.toList idleKernel.tokens := by
  have hend : Spells [] [] := fun _ _ hrest => hrest
  simpa using spells_idleText hend [] [] .nil

/-- The kernel is compiled whatever the lexer drops and whatever is left behind it. -/
theorem compilesSource_idle {src : String} {dropped : List Char} {rest : List Token}
    (hscan : Scans lexer (fun _ => 0) src.toList (idleKernel.tokens ++ rest) dropped)
    (hnext : rest.head? ≠ some (lit "__qpu__")) :
    CompilesSource plainServices (fun _ => 0) src (.ok idleIR) := by
  have hir : compile plainServices [idleKernel] = .ok idleIR := rfl
  rw [← hir]
  refine .walked hscan ⟨by rw [List.flatMap_singleton], hnext⟩ ?_
  exact List.forall_mem_singleton.mpr (List.forall_mem_nil _)

/-! ## When an IR is that of the whole text -/

/-- **A text that is compiled is a sequence of kernels** if and only if nothing
stands beside its kernels. -/
theorem compilesSource_whole_iff {ir : IR N} (h : CompilesSource S recovery src (.ok ir)) :
    (∃ tree, ParseTree src tree) ↔ OnlyKernels src := by
  constructor
  · rintro ⟨tree, htree⟩
    exact onlyKernels_of_parseTree htree
  · intro honly
    obtain ⟨ts, dropped, tree, rest, hscan, hstop, _⟩ := h.returned
    exact ⟨tree, honly.parseTree hscan hstop⟩

/-- The kernel alone: nothing stands beside it. -/
theorem idleText_onlyKernels :
    CompilesSource plainServices (fun _ => 0) idleText (.ok idleIR) ∧ OnlyKernels idleText := by
  have hscan : Scans lexer (fun _ => 0) idleText.toList (idleKernel.tokens ++ []) [] := by
    rw [List.append_nil]
    exact lexes_idleText.scans
  have hrun := compilesSource_idle hscan (Option.some_ne_none _).symm
  refine ⟨hrun, (compilesSource_whole_iff hrun).mp ⟨[idleKernel], ?_⟩⟩
  rw [ParseTree, List.flatMap_singleton]
  exact lexes_idleText

/-! ## What is lost beside a kernel -/

/-- The kernel and an operation behind it. -/
def trailingText : String := idleText ++ "h q[0];\n"

/-- The kernel and a character no token has in front of it. -/
def droppedText : String := "#" ++ idleText

def trailingTokens : List Token :=
  .ID Sample.h :: (GateArg.indexed Sample.q Sample.zero).tokens ++ [lit ";" (Eq.refl true)]

theorem scans_trailingText :
    Scans lexer (fun _ => 0) trailingText.toList (idleKernel.tokens ++ trailingTokens) [] := by
  have hline : Spells "h q[0];\n".toList trailingTokens := by
    have hend : Spells [';', '\n'] [lit ";"] := spells_newline.punct ";"
    have hq := hend.indexed (x := Sample.q) (i := Sample.zero)
    exact (wordlike_id Sample.h).spells rfl (by decide) hq.space
  have h := spells_idleText hline [] [] .nil
  rw [List.append_nil, List.append_nil] at h
  rw [trailingText, String.toList_append]
  exact h.scans

theorem literals_no_hash : ∀ s ∈ literals, s.toList.head? ≠ some '#' := by decide

theorem not_starts_hash (t : Token) : ¬ t.Starts '#' := by
  cases t with
  | lit l => exact literals_no_hash _ l.mem_literals
  | COMMENT c => exact show '#' ≠ '/' by decide
  | ID x => exact show ¬ '#'.isLower = true by decide
  | REAL r => exact show ¬ '#'.isDigit = true by decide
  | INT n => exact show ¬ '#'.isDigit = true by decide
  | STRING s => exact show '#' ≠ '"' by decide
  | EOL => exact show '#' ≠ '\r' by decide

theorem scans_droppedText :
    Scans lexer (fun _ => 0) droppedText.toList (idleKernel.tokens ++ []) ['#'] := by
  rw [droppedText, String.toList_append, List.append_nil]
  exact .drop rfl (not_prefix_of_not_starts not_starts_hash _) lexes_idleText.scans

/-- Either text is compiled to the IR of its kernel. -/
theorem compilesSource_part :
    (¬ ∀ ir, CompilesSource plainServices (fun _ => 0) trailingText (.ok ir) →
      ∃ tree, ParseTree trailingText tree) ∧
    ¬ ∀ ir, CompilesSource plainServices (fun _ => 0) droppedText (.ok ir) →
      ∃ tree, ParseTree droppedText tree := by
  constructor
  · intro h
    have hnext : trailingTokens.head? ≠ some (lit "__qpu__") := by decide
    obtain ⟨tree, htree⟩ := h _ (compilesSource_idle scans_trailingText hnext)
    have htokens := (scans_trailingText.unique text_injective htree.scans).1
    have hstop : Stops (tree.flatMap Xacckernel.tokens) [idleKernel] trailingTokens :=
      ⟨by rw [List.flatMap_singleton, htokens], hnext⟩
    exact List.cons_ne_nil _ _ (hstop.unique (stops_end tree)).2
  · intro h
    obtain ⟨tree, htree⟩ := h _ (compilesSource_idle scans_droppedText
      (Option.some_ne_none _).symm)
    exact List.cons_ne_nil _ _ (scans_droppedText.unique text_injective htree.scans).2

end XaccIbm.OQASMCompiler
