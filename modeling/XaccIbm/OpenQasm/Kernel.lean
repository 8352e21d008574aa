import XaccIbm.Lib.Brackets
import XaccIbm.OpenQasm.Parsing

/-!
# OpenQasm — Kernel

Where a kernel ends. Braces are balanced in everything a program is made of,
so the brace that closes a kernel is found one way, and with it the kernels
a token list starts with: `xaccsrc` reads kernels as long as the next token
is `__qpu__`, and stops. Every derivation has the tokens of one with the
alternatives the parser takes.
-/

namespace XaccIbm.OpenQasm

open Brackets

/-! ## Braces -/

theorem nested_of_inner {ts : List Token} (h : ∀ t ∈ ts, t.inner = true) :
    Nested (lit "\x7b") (lit "\x7d") ts :=
  nested_of_plain (not_mem_of_all h rfl) (not_mem_of_all h rfl)

/-- Tokens and the semicolon behind them. -/
theorem nested_ended {ts : List Token} (h : ∀ t ∈ ts, t.inner = true) :
    Nested (lit "\x7b") (lit "\x7d") (ts ++ [lit ";"]) :=
  (nested_of_inner h).append (.plain (by simp) (by simp) .nil)

theorem GateDecl.nested (d : GateDecl) : Nested (lit "\x7b") (lit "\x7d") d.tokens := by
  have hhead : Nested (lit "\x7b") (lit "\x7d")
      (lit "gate" :: d.gatename.tokens ++ d.args.tokens) := by
    refine nested_of_inner (List.forall_mem_append.mpr ⟨?_, d.args.inner⟩)
    exact List.forall_mem_cons.mpr ⟨rfl, d.gatename.inner⟩
  refine hhead.append ?_
  cases d.gatebody with
  | none => exact .nil
  | some us => exact .block (nested_flatMap fun u _ => nested_ended u.inner) .nil

theorem Statement.nested (s : Statement) : Nested (lit "\x7b") (lit "\x7d") s.tokens := by
  cases s with
  | regdecl d => exact nested_ended d.inner
  | gatedecl d => exact d.nested
  | opaqueDecl o => exact nested_ended o.inner
  | qop q => exact nested_ended q.inner
  | conditional c => exact nested_ended c.inner
  | kernelcall k => exact nested_ended k.inner

theorem Line.nested (l : Line) : Nested (lit "\x7b") (lit "\x7d") l.tokens := by
  cases l with
  | statement s => exact s.nested
  | comment c => exact nested_of_inner (List.forall_mem_singleton.mpr rfl)
  | includeFile f =>
      have h : ∀ t ∈ [lit "include", .STRING f], t.inner = true :=
        List.forall_mem_cons.mpr ⟨rfl, List.forall_mem_singleton.mpr rfl⟩
      exact nested_ended h

theorem Mainprog.nested (m : Mainprog) : Nested (lit "\x7b") (lit "\x7d") m.tokens := by
  have hcomments : ∀ t ∈ m.comments.map Token.COMMENT, t.inner = true :=
    List.forall_mem_map.mpr fun _ _ => rfl
  have hversion : ∀ t ∈ [if m.capitals then lit "OPENQASM" else lit "OpenQASM",
      .REAL m.version], t.inner = true :=
    List.forall_mem_cons.mpr ⟨by cases m.capitals <;> rfl, List.forall_mem_singleton.mpr rfl⟩
  exact ((nested_of_inner hcomments).append (nested_ended hversion)).append
    (nested_flatMap fun l _ => l.nested)

/-! ## Where a kernel ends -/

namespace Xacckernel

/-- The tokens in front of the opening brace. -/
def header (k : Xacckernel) : List Token :=
  lit "__qpu__" (Eq.refl true) :: .ID k.kernelname :: lit "(" (Eq.refl true)
    :: lit "AcceleratorBuffer" (Eq.refl true) :: .ID k.acceleratorbuffer
    :: (k.typedparams.flatMap fun p => [lit "," (Eq.refl true), p.1.token, .ID p.2])
      ++ [lit ")" (Eq.refl true)]

theorem tokens_eq (k : Xacckernel) :
    k.tokens = k.header ++ lit "\x7b" :: (k.mainprog.tokens ++ [lit "\x7d"]) := by
  simp [tokens, header]

theorem header_inner (k : Xacckernel) : ∀ t ∈ k.header, t.inner = true := by
  have htype : ∀ ty : TypeName, ty.token.inner = true := by
    intro ty
    cases ty <;> rfl
  simp only [header, List.forall_mem_append, List.forall_mem_cons, List.forall_mem_flatMap]
  exact ⟨⟨rfl, rfl, rfl, rfl, rfl, fun p _ => ⟨rfl, htype p.1, rfl, List.forall_mem_nil _⟩⟩,
    rfl, List.forall_mem_nil _⟩

theorem head?_tokens (k : Xacckernel) : k.tokens.head? = some (lit "__qpu__") := rfl

/-- **No kernel is the beginning of another one.** -/
theorem prefixFree : PrefixFree tokens := by
  intro k k' xs ys h
  rw [tokens_eq, tokens_eq, List.append_assoc, List.append_assoc, List.cons_append,
    List.cons_append, List.append_assoc, List.append_assoc] at h
  obtain ⟨hheader, hbody⟩ := split_first (not_mem_of_all k.header_inner rfl)
    (not_mem_of_all k'.header_inner rfl) h
  obtain ⟨hmain, hrest⟩ := k.mainprog.nested.close_unique (by simp) k'.mainprog.nested hbody
  exact ⟨by rw [tokens_eq, tokens_eq, hheader, hmain], hrest⟩

end Xacckernel

/-- **Where the loop of `xaccsrc` stops**: kernels in front, and then the end
or a token that starts no kernel. -/
structure Stops (ts : List Token) (tree : Xaccsrc) (rest : List Token) : Prop where
  tokens : ts = tree.flatMap Xacckernel.tokens ++ rest
  next : rest.head? ≠ some (lit "__qpu__")

/-- **The loop stops at one place.** -/
theorem Stops.unique {ts rest rest' : List Token} {tree tree' : Xaccsrc}
    (h : Stops ts tree rest) (h' : Stops ts tree' rest') :
    tree.flatMap Xacckernel.tokens = tree'.flatMap Xacckernel.tokens ∧ rest = rest' :=
  blocks_unique Xacckernel.prefixFree Xacckernel.head?_tokens h.next h'.next
    (h.tokens.symm.trans h'.tokens)

/-- A sequence of kernels is read to its end. -/
theorem stops_end (tree : Xaccsrc) : Stops (tree.flatMap Xacckernel.tokens) tree [] where
  tokens := (List.append_nil _).symm
  next := (Option.some_ne_none _).symm

/-! ## The alternatives the parser takes -/

/-- A kernel with the alternatives the parser takes. -/
def Xacckernel.Preferred (k : Xacckernel) : Prop := ∀ l ∈ k.mainprog.program, l.Preferred

theorem Uop.exists_preferred (u : Uop) : ∃ u' : Uop, u'.tokens = u.tokens ∧ u'.Preferred := by
  rcases u with ⟨es, a⟩ | ⟨a, b⟩ | ⟨x | ⟨x, _ | ps⟩, _ | es, as⟩
  case UserDefGate.withParams.some.none =>
    -- the identifiers are expressions
    refine ⟨.UserDefGate (.plain x) (some (ps.map Exp.id)) as, ?_, trivial⟩
    have hps : Explist.tokens (ps.map Exp.id) = CommaList.tokens (fun p => [Token.ID p]) ps := by
      rw [Explist.tokens, CommaList.tokens, CommaList.tokens, CommaList.toList_map, List.map_map]
      rfl
    simp [tokens, GateName.tokens, hps]
  all_goals exact ⟨_, rfl, trivial⟩

theorem MeasureOperand.exists_preferred (o : MeasureOperand) :
    ∃ o' : MeasureOperand, o'.tokens = o.tokens ∧ o'.Preferred := by
  rcases o with a | r | r
  · exact ⟨.gatearg a, rfl, trivial⟩
  · exact ⟨.gatearg (.indexed r _), rfl, trivial⟩
  · exact ⟨.gatearg (.bare r), rfl, trivial⟩

theorem Qop.exists_preferred (q : Qop) : ∃ q' : Qop, q'.tokens = q.tokens ∧ q'.Preferred := by
  cases q with
  | uop u =>
      obtain ⟨u', htokens, hu⟩ := u.exists_preferred
      exact ⟨.uop u', htokens, hu⟩
  | reeset o =>
      obtain ⟨o', htokens, ho⟩ := o.exists_preferred
      exact ⟨.reeset o', congrArg (lit "reset" :: ·) htokens, ho⟩
  | measure m =>
      obtain ⟨q', hq, hqp⟩ := m.qbit.exists_preferred
      obtain ⟨c', hc, hcp⟩ := m.cbit.exists_preferred
      refine ⟨.measure ⟨q', c'⟩, ?_, hqp, hcp⟩
      rw [tokens, tokens, Measure.tokens, Measure.tokens, hq, hc]
  | barrier as => exact ⟨.barrier as, rfl, trivial⟩

/-- Each of some trees has one with its tokens that is preferred. -/
theorem exists_preferred_list {β : Type} {f : β → List Token} {P : β → Prop}
    (h : ∀ b, ∃ b', f b' = f b ∧ P b') (bs : List β) :
    ∃ bs' : List β, bs'.flatMap f = bs.flatMap f ∧ ∀ b ∈ bs', P b := by
  induction bs with
  | nil => exact ⟨[], rfl, List.forall_mem_nil _⟩
  | cons b bs ih =>
      obtain ⟨b', htokens, hb⟩ := h b
      obtain ⟨bs', hrest, hbs⟩ := ih
      refine ⟨b' :: bs', ?_, List.forall_mem_cons.mpr ⟨hb, hbs⟩⟩
      rw [List.flatMap_cons, List.flatMap_cons, htokens, hrest]

theorem GateDecl.exists_preferred (d : GateDecl) :
    ∃ d' : GateDecl, d'.tokens = d.tokens ∧ ∀ u ∈ d'.body, u.Preferred := by
  obtain ⟨gatename, args, _ | us⟩ := d
  · exact ⟨⟨gatename, args, none⟩, rfl, List.forall_mem_nil _⟩
  · have hline : ∀ u : Uop, ∃ u' : Uop, u'.tokens ++ [lit ";"] = u.tokens ++ [lit ";"] ∧
        u'.Preferred := fun u =>
      let ⟨u', htokens, hu⟩ := u.exists_preferred
      ⟨u', by rw [htokens], hu⟩
    obtain ⟨us', htokens, hus⟩ := exists_preferred_list hline us
    refine ⟨⟨gatename, args, some us'⟩, ?_, hus⟩
    simp only [tokens, htokens]

theorem Statement.exists_preferred (s : Statement) :
    ∃ s' : Statement, s'.tokens = s.tokens ∧ s'.Preferred := by
  cases s with
  | regdecl d => exact ⟨.regdecl d, rfl, trivial⟩
  | gatedecl d =>
      obtain ⟨d', htokens, hd⟩ := d.exists_preferred
      exact ⟨.gatedecl d', htokens, hd⟩
  | opaqueDecl o => exact ⟨.opaqueDecl o, rfl, trivial⟩
  | qop q =>
      obtain ⟨q', htokens, hq⟩ := q.exists_preferred
      exact ⟨.qop q', congrArg (· ++ [lit ";"]) htokens, hq⟩
  | conditional c =>
      obtain ⟨q', htokens, hq⟩ := c.action.exists_preferred
      refine ⟨.conditional ⟨c.reg, c.value, q'⟩, ?_, hq⟩
      simp only [tokens, Conditional.tokens, htokens]
  | kernelcall k => exact ⟨.kernelcall k, rfl, trivial⟩

theorem Line.exists_preferred (l : Line) : ∃ l' : Line, l'.tokens = l.tokens ∧ l'.Preferred := by
  cases l with
  | statement s =>
      obtain ⟨s', htokens, hs⟩ := s.exists_preferred
      exact ⟨.statement s', htokens, hs⟩
  | comment c => exact ⟨.comment c, rfl, trivial⟩
  | includeFile f => exact ⟨.includeFile f, rfl, trivial⟩

theorem Xacckernel.exists_preferred (k : Xacckernel) :
    ∃ k' : Xacckernel, k'.tokens = k.tokens ∧ k'.Preferred := by
  obtain ⟨ls, htokens, hls⟩ := exists_preferred_list Line.exists_preferred k.mainprog.program
  refine ⟨{ k with mainprog := { k.mainprog with program := ls } }, ?_, hls⟩
  simp only [tokens, Mainprog.tokens, programTokens, htokens]

/-- **The parser has a tree** wherever there is a derivation. -/
theorem Stops.exists_preferred {ts rest : List Token} {tree : Xaccsrc} (h : Stops ts tree rest) :
    ∃ tree', Stops ts tree' rest ∧ ∀ k ∈ tree', k.Preferred := by
  obtain ⟨tree', htokens, hpreferred⟩ := exists_preferred_list Xacckernel.exists_preferred tree
  exact ⟨tree', ⟨by rw [htokens, h.tokens], h.next⟩, hpreferred⟩

end XaccIbm.OpenQasm
