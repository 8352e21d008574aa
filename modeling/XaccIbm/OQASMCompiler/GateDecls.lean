import XaccIbm.OQASMCompiler.Contexts

/-!
# OQASMCompiler — GateDecls

What a gate declaration means in OpenQASM: the kernel without it, every
application of the gate replaced by its body. The listener knows nothing of
declarations. The operations of a body are built where they stand, an
application goes to the registry under the gate's name, and a formal operand
without an index is a null pointer.
-/

namespace XaccIbm.OQASMCompiler

open OpenQasm Traverse OQASMToXACCListener

variable {N : Type}

/-! ## The program without declarations -/

/-- Parameters replaced in an expression. -/
def substExp (σ : ID → Option Exp) : Exp → Exp
  | .real r => .real r
  | .INT n => .INT n
  | .pi => .pi
  | .id x =>
      match σ x with
      | some e => .paren e
      | none => .id x
  | .binary a op b => .binary (substExp σ a) op (substExp σ b)
  | .neg a => .neg (substExp σ a)
  | .paren a => .paren (substExp σ a)
  | .unary f a => .unary f (substExp σ a)

/-- The value bound to a name by two parallel lists. -/
def bound {α β : Type} [DecidableEq α] (xs : List α) (vs : List β) (x : α) :
    Option β :=
  ((xs.zip vs).find? fun p => p.1 = x).map Prod.snd

/-- The arguments of an application; an identifier list after the name can
be derived as one of the name. -/
def applied (g : GateName) (es : Option Explist) : List Exp :=
  g.params.map Exp.id ++ expressions es

def explistOf : List Exp → Option Explist
  | [] => none
  | e :: es => some ⟨e, es⟩

/-- An operation of a body, with the formals replaced. -/
def substUop (σ : ID → Option Exp) (ρ : GateArg → GateArg) : Uop → Uop
  | .U es a => .U (es.map fun l => l.map (substExp σ)) (ρ a)
  | .CX a b => .CX (ρ a) (ρ b)
  | .UserDefGate g es as =>
      .UserDefGate (.plain g.id) (explistOf ((applied g es).map (substExp σ)))
        (as.map ρ)

/-- The body of a gate, applied. -/
def instantiate (d : GateDecl) (g : GateName) (es : Option Explist)
    (as : GateArgList) : List Uop :=
  d.body.map (substUop (bound d.gatename.params (applied g es))
    fun a => (bound d.args.toList as.toList a).getD a)

/-- An application expanded by the declarations, the latest first; a body
knows the declarations before its own. -/
def expandUop : List GateDecl → Uop → List Uop
  | [], u => [u]
  | d :: ds, .UserDefGate g es as =>
      if g.id = d.gatename.id then
        (instantiate d g es as).flatMap (expandUop ds)
      else expandUop ds (.UserDefGate g es as)
  | _ :: _, u => [u]

def expandStatement (ds : List GateDecl) : Statement → List Statement
  | .gatedecl _ => []
  | .qop (.uop u) => (expandUop ds u).map fun u => .qop (.uop u)
  | .conditional ⟨r, v, .uop u⟩ =>
      (expandUop ds u).map fun u => .conditional ⟨r, v, .uop u⟩
  | st => [st]

def gatedecl? : Statement → Option GateDecl
  | .gatedecl d => some d
  | _ => none

/-- The gate declarations of a kernel, the latest first. -/
def declarations (k : Xacckernel) : List GateDecl :=
  (k.statements.filterMap gatedecl?).reverse

theorem mem_declarations {k : Xacckernel} {d : GateDecl} :
    d ∈ declarations k ↔ .gatedecl d ∈ k.statements := by
  rw [declarations, List.mem_reverse, List.mem_filterMap]
  constructor
  · rintro ⟨st, hst, h⟩
    cases st with
    | gatedecl d' =>
        cases h
        exact hst
    | _ => cases h
  · intro h
    exact ⟨_, h, rfl⟩

/-- **The kernel without its gate declarations.** -/
def expanded (k : Xacckernel) : Xacckernel :=
  { k with mainprog := { k.mainprog with
    program :=
      (k.statements.flatMap (expandStatement (declarations k))).map .statement } }

/-! ## What the compiler owes -/

/-- The listener when the walk comes to a statement of a kernel. -/
def walkTo (S : Services N) (before : Xaccsrc) (k : Xacckernel)
    (pre : List Statement) : Walk (OQASMToXACCListener N) := do
  let s ← before.foldlM (walkKernel S) .new
  (pre.flatMap callbacks).foldlM (step S) (enterXacckernel k s)

/-- A declaration adds nothing to the kernel being built. -/
def DeclarationsSilent (S : Services N) (src : Xaccsrc) : Prop :=
  ∀ before k after pre d post s s', src = before ++ k :: after →
    k.statements = pre ++ .gatedecl d :: post → walkTo S before k pre = .ok s →
    (callbacks (.gatedecl d)).foldlM (step S) s = .ok s' → s' = s

/-- **Declarations are expanded**: compiling raises an error, or gives what
the program without declarations gives, and no declaration adds an
instruction. -/
def Expands (S : Services N) (src : Xaccsrc) : Prop :=
  Raises (compile S src) ∨
    ∃ ir, compile S src = .ok ir ∧ compile S (src.map expanded) = .ok ir ∧
      DeclarationsSilent S src

/-- The gate an operation applies. -/
def gate? : Uop → Option GateName
  | .UserDefGate g _ _ => some g
  | _ => none

/-- The gate a statement applies, also under a condition. -/
def applies : Statement → Option GateName
  | .qop (.uop u) => gate? u
  | .conditional ⟨_, _, .uop u⟩ => gate? u
  | _ => none

/-- The kernel declares gates with empty bodies only, and applies none of
them. -/
def UnusedAndEmpty (k : Xacckernel) : Prop :=
  ∀ d ∈ declarations k, d.body = [] ∧
    ∀ st ∈ k.statements, ∀ g, applies st = some g → g.id ≠ d.gatename.id

/-! ## Empty declarations -/

/-- The gate is declared. -/
def DeclaredIn (ds : List GateDecl) (g : GateName) : Prop :=
  ∃ d ∈ ds, g.id = d.gatename.id

/-- With empty bodies an application of a declared gate vanishes, and every
other operation stays. -/
theorem expandUop_cases {ds : List GateDecl} (h : ∀ d ∈ ds, d.body = [])
    (u : Uop) :
    expandUop ds u = [u] ∧ (∀ g, gate? u = some g → ¬ DeclaredIn ds g) ∨
      expandUop ds u = [] ∧ ∃ g, gate? u = some g ∧ DeclaredIn ds g := by
  induction ds with
  | nil =>
      refine .inl ⟨rfl, ?_⟩
      rintro g _ ⟨d, hd, _⟩
      cases hd
  | cons d ds ih =>
      cases u with
      | U es a => exact .inl ⟨rfl, fun g hg => by cases hg⟩
      | CX a b => exact .inl ⟨rfl, fun g hg => by cases hg⟩
      | UserDefGate g es as =>
          rw [expandUop]
          by_cases hg : g.id = d.gatename.id
          · rw [if_pos hg, instantiate, h d (by simp)]
            exact .inr ⟨rfl, g, rfl, d, by simp, hg⟩
          · rw [if_neg hg]
            rcases ih fun d' hd' => h d' (by simp [hd']) with ⟨h1, hno⟩ | ⟨h0, g', hg', d', hd', hid⟩
            · refine .inl ⟨h1, ?_⟩
              rintro g' hg' ⟨d', hd', hid⟩
              rcases List.mem_cons.mp hd' with rfl | hd'
              · cases hg'
                exact hg hid
              · exact hno g' hg' ⟨d', hd', hid⟩
            · exact .inr ⟨h0, g', hg', d', by simp [hd'], hid⟩

/-- The same for a statement and its callbacks. -/
theorem callbacks_expandStatement {ds : List GateDecl}
    (hds : ∀ d ∈ ds, d.body = []) {st : Statement}
    (hst : ∀ d, st = .gatedecl d → d.body = []) :
    (expandStatement ds st).flatMap callbacks = callbacks st ∧
        (∀ g, applies st = some g → ¬ DeclaredIn ds g) ∨
      (expandStatement ds st).flatMap callbacks = [] ∧ callbacks st ≠ [] ∧
        ∃ g, applies st = some g ∧ DeclaredIn ds g := by
  -- The statements nothing happens to.
  have hkeep : expandStatement ds st = [st] → applies st = none →
      (expandStatement ds st).flatMap callbacks = callbacks st ∧
        (∀ g, applies st = some g → ¬ DeclaredIn ds g) := by
    intro h ha
    refine ⟨by rw [h]; simp, ?_⟩
    intro g hg
    rw [ha] at hg
    cases hg
  cases st with
  | regdecl d => exact .inl (hkeep rfl rfl)
  | opaqueDecl o => exact .inl (hkeep rfl rfl)
  | kernelcall k => exact .inl (hkeep rfl rfl)
  | gatedecl d =>
      refine .inl ⟨?_, fun g hg => by cases hg⟩
      simp [expandStatement, callbacks, hst d rfl]
  | qop q =>
      cases q with
      | uop u =>
          rcases expandUop_cases hds u with ⟨h1, hno⟩ | ⟨h0, hg⟩
          · exact .inl ⟨by simp [expandStatement, h1], hno⟩
          · exact .inr ⟨by simp [expandStatement, h0], List.cons_ne_nil _ _, hg⟩
      | _ => exact .inl (hkeep rfl rfl)
  | conditional c =>
      obtain ⟨r, v, action⟩ := c
      cases action with
      | uop u =>
          rcases expandUop_cases hds u with ⟨h1, hno⟩ | ⟨h0, hg⟩
          · exact .inl ⟨by simp [expandStatement, h1], hno⟩
          · exact .inr ⟨by simp [expandStatement, h0], List.cons_ne_nil _ _, hg⟩
      | _ => exact .inl (hkeep rfl rfl)

theorem kernelCallbacks_expanded (k : Xacckernel) :
    kernelCallbacks (expanded k) = k.statements.flatMap fun st =>
      (expandStatement (declarations k) st).flatMap callbacks := by
  rw [kernelCallbacks, Xacckernel.statements, expanded, statements_map,
    List.flatMap_assoc]

theorem length_flatMap_eq_iff {α β : Type} {f g : α → List β} {l : List α}
    (h : ∀ a ∈ l, (f a).length ≤ (g a).length) :
    (l.flatMap f).length = (l.flatMap g).length ↔
      ∀ a ∈ l, (f a).length = (g a).length := by
  have hle : ∀ l : List α, (∀ a ∈ l, (f a).length ≤ (g a).length) →
      (l.flatMap f).length ≤ (l.flatMap g).length := by
    intro l
    induction l with
    | nil => intro _; exact Nat.le_refl _
    | cons a l ih =>
        intro h
        have ha := h a (by simp)
        have hl := ih fun b hb => h b (by simp [hb])
        rw [List.flatMap_cons, List.flatMap_cons, List.length_append, List.length_append]
        omega
  induction l with
  | nil => simp
  | cons a l ih =>
      have ha := h a (by simp)
      have hl := fun b (hb : b ∈ l) => h b (by simp [hb])
      have hlen := hle l hl
      rw [List.forall_mem_cons, List.flatMap_cons, List.flatMap_cons,
        List.length_append, List.length_append]
      constructor
      · intro heq
        exact ⟨by omega, (ih hl).mp (by omega)⟩
      · intro heq
        have := (ih hl).mpr heq.2
        omega

/-- With empty bodies only, the kernel keeps its callbacks exactly when it
applies none of its gates. -/
theorem length_expanded_iff {k : Xacckernel}
    (hk : ∀ d ∈ declarations k, d.body = []) :
    (kernelCallbacks (expanded k)).length = (kernelCallbacks k).length ↔
      ∀ st ∈ k.statements, ∀ g, applies st = some g →
        ¬ DeclaredIn (declarations k) g := by
  have hst : ∀ st ∈ k.statements, ∀ d, st = .gatedecl d → d.body = [] := by
    rintro st hst d rfl
    exact hk d (mem_declarations.mpr hst)
  rw [kernelCallbacks_expanded, kernelCallbacks, length_flatMap_eq_iff]
  · refine forall₂_congr fun st hmem => ?_
    rcases callbacks_expandStatement hk (hst st hmem) with ⟨heq, hno⟩ | ⟨h0, hne, g, hg, hd⟩
    · exact iff_of_true (congrArg List.length heq) hno
    · refine iff_of_false ?_ fun h => h g hg hd
      rw [h0]
      exact fun h => hne (List.length_eq_zero_iff.mp h.symm)
  · intro st hmem
    rcases callbacks_expandStatement hk (hst st hmem) with ⟨heq, _⟩ | ⟨h0, _⟩
    · rw [heq]
    · rw [h0]
      exact Nat.zero_le _

theorem kernelCallbacks_expanded_of_unused {k : Xacckernel} (hk : UnusedAndEmpty k) :
    kernelCallbacks (expanded k) = kernelCallbacks k := by
  rw [kernelCallbacks_expanded, kernelCallbacks]
  refine List.flatMap_congr fun st hmem => ?_
  have hst : ∀ d, st = .gatedecl d → d.body = [] := by
    rintro d rfl
    exact (hk d (mem_declarations.mpr hmem)).1
  rcases callbacks_expandStatement (fun d hd => (hk d hd).1) hst with ⟨heq, _⟩ | ⟨_, _, g, hg, d, hd, hid⟩
  · exact heq
  · exact absurd hid ((hk d hd).2 st hmem g hg)

/-! ## The walk with declarations -/

variable {S : Services N}

/-- A walk that returns comes to every statement, with a current function. -/
theorem walkTo_ok {before after : Xaccsrc} {k : Xacckernel}
    {pre post : List Statement} {ir : IR N}
    (h : compile S (before ++ k :: after) = .ok ir)
    (hk : k.statements = pre ++ post) :
    ∃ s f t, walkTo S before k pre = .ok s ∧ s.curFunc = some f ∧
      f < s.heap.length ∧ (post.flatMap callbacks).foldlM (step S) s = .ok t := by
  obtain ⟨t, ht, _⟩ := bind_ok.mp h
  obtain ⟨s₀, hs₀, ht⟩ := foldlM_append_ok.mp ht
  obtain ⟨u, hu, _⟩ := foldlM_cons_ok.mp ht
  obtain ⟨v, hv, _⟩ := bind_ok.mp hu
  rw [kernelCallbacks, hk, List.flatMap_append] at hv
  obtain ⟨s, hs, hpost⟩ := foldlM_append_ok.mp hv
  have hpre := hs
  rw [foldlM_step S _ _ rfl] at hs
  obtain ⟨ns, _, rfl⟩ := map_ok.mp hs
  refine ⟨_, s₀.heap.length, v, bind_ok.mpr ⟨s₀, hs₀, hpre⟩, rfl, ?_, hpost⟩
  simp [addInstructions, enterXacckernel]

/-- Callbacks that leave the listener as it was are none. -/
theorem nil_of_foldlM_step {s : OQASMToXACCListener N} {f : Nat}
    (hf : s.curFunc = some f) (hlt : f < s.heap.length) {cs : List Callback}
    (h : cs.foldlM (step S) s = .ok s) : cs = [] := by
  rw [foldlM_step S cs s hf] at h
  obtain ⟨ns, hns, heq⟩ := map_ok.mp h
  have hheap := congrArg (fun t => t.heap[f]?.map fun k => k.instructions.length) heq
  have hnil : ns = [] := by
    simpa [addInstructions, List.getElem?_eq_getElem hlt] using hheap
  rw [hnil] at hns
  exact List.length_eq_zero_iff.mp (mapM_ok.mp hns).length_eq

/-- The declarations are silent exactly when their bodies are empty. -/
theorem declarationsSilent_iff {src : Xaccsrc} {ir : IR N}
    (h : compile S src = .ok ir) :
    DeclarationsSilent S src ↔ ∀ k ∈ src, ∀ d ∈ declarations k, d.body = [] := by
  constructor
  · intro hsilent k hk d hd
    obtain ⟨before, after, rfl⟩ := List.append_of_mem hk
    obtain ⟨pre, post, hstatements⟩ := List.append_of_mem (mem_declarations.mp hd)
    obtain ⟨s, f, t, hs, hf, hlt, ht⟩ := walkTo_ok h hstatements
    rw [List.flatMap_cons] at ht
    obtain ⟨s', hs', _⟩ := foldlM_append_ok.mp ht
    have hsame := hsilent before k after pre d post s s' rfl hstatements hs hs'
    rw [hsame] at hs'
    exact List.map_eq_nil_iff.mp (nil_of_foldlM_step hf hlt hs')
  · intro hempty before k after pre d post s s' hsrc hstatements _ hs'
    have hd : d.body = [] := by
      refine hempty k (by simp [hsrc]) d (mem_declarations.mpr ?_)
      simp [hstatements]
    rw [callbacks, hd] at hs'
    cases hs'
    rfl

/-- Kernels exchanged for ones with the same names, parameters and
callbacks. -/
theorem compile_map {φ : Xacckernel → Xacckernel} {src : Xaccsrc}
    (hname : ∀ k, (φ k).kernelname = k.kernelname)
    (hparams : ∀ k, (φ k).typedparams = k.typedparams)
    (hcallbacks : ∀ k ∈ src, kernelCallbacks (φ k) = kernelCallbacks k) :
    compile S (src.map φ) = compile S src := by
  have hrun : ∀ (ks before : Xaccsrc),
      (∀ k ∈ ks, kernelCallbacks (φ k) = kernelCallbacks k) →
      kernelFunctions S (before.map φ) (ks.map φ) = kernelFunctions S before ks := by
    intro ks
    induction ks with
    | nil => intro before _; rfl
    | cons k ks ih =>
        intro before hks
        have hnames : ((before ++ [k]).map φ).map Xacckernel.kernelname
            = (before ++ [k]).map Xacckernel.kernelname := by
          rw [List.map_map]
          exact List.map_congr_left fun k _ => hname k
        have hkernel : kernelFunction S (before.map φ) (φ k) = kernelFunction S before k := by
          rw [List.map_append, List.map_singleton] at hnames
          rw [kernelFunction, kernelFunction, kernelNodes, kernelNodes,
            hks k (by simp), hname, formals, formals, hparams, visible_congr hnames]
        have hrest := ih (before ++ [k]) fun k' hk' => hks k' (by simp [hk'])
        rw [List.map_append, List.map_singleton] at hrest
        rw [kernelFunctions, kernelFunctions] at hrest ⊢
        rw [List.map_cons, splitsFrom, splitsFrom, List.mapM_cons, List.mapM_cons]
        simp only [hkernel]
        exact bind_congr fun f => by rw [hrest]
  have h := hrun src [] hcallbacks
  rw [kernelFunctions, kernelFunctions] at h
  rw [compile_eq, compile_eq, List.length_map]
  exact congrArg _ h

/-! ## Which sources are expanded -/

/-- Two compiled sources with the same functions have equally many callbacks
in corresponding kernels. -/
theorem length_kernelCallbacks {before after before' after' : Xaccsrc}
    {k k' : Xacckernel} {ir : IR N} (h : compile S (before ++ k :: after) = .ok ir)
    (h' : compile S (before' ++ k' :: after') = .ok ir)
    (hlen : before'.length = before.length) :
    (kernelCallbacks k').length = (kernelCallbacks k).length := by
  obtain ⟨ns, hns, hk⟩ := compiled_kernel h
  obtain ⟨ns', hns', hk'⟩ := compiled_kernel h'
  rw [hlen, hk, Option.some.injEq, KernelFunction.mk.injEq] at hk'
  rw [(mapM_ok.mp hns).length_eq, (mapM_ok.mp hns').length_eq, hk'.2.2]

/-- **Which sources are expanded.** Either a callback reads an index too large, or
is refused by the framework, before any callback reads a missing child; or no
callback reads one, every declared gate has an empty body, and no declared gate
is applied. -/
theorem expands_iff (src : Xaccsrc) :
    Expands S src ↔
      (∃ before c after, sourceCallbacks src = before ++ c :: after ∧
        (∀ x ∈ before, ¬ ReadsNull x.2) ∧ (ReadsTooLarge c.2 ∨ Refused S c)) ∨
      ((∀ x ∈ sourceCallbacks src, ¬ ReadsNull x.2) ∧
        ∀ k ∈ src, UnusedAndEmpty k) := by
  rw [← raises_iff S]
  constructor
  · rintro (hr | ⟨ir, hir, hir', hsilent⟩)
    · exact .inl hr
    have hempty := (declarationsSilent_iff hir).mp hsilent
    refine .inr ⟨compile_ok_not_null S hir, fun k hk d hd => ⟨hempty k hk d hd, ?_⟩⟩
    intro st hst g hg hid
    obtain ⟨before, after, rfl⟩ := List.append_of_mem hk
    rw [List.map_append, List.map_cons] at hir'
    have hlen := length_kernelCallbacks hir hir' (by simp)
    exact (length_expanded_iff (hempty k hk)).mp hlen st hst g hg ⟨d, hd, hid⟩
  · rintro (hr | ⟨hnull, hunused⟩)
    · exact .inl hr
    by_cases hr : Raises (compile S src)
    · exact .inl hr
    obtain ⟨ir, hir⟩ := compile_of_not_raises S hr hnull
    refine .inr ⟨ir, hir, ?_, (declarationsSilent_iff hir).mpr fun k hk d hd =>
      (hunused k hk d hd).1⟩
    have hmap : compile S (src.map expanded) = compile S src :=
      compile_map (fun _ => rfl) (fun _ => rfl) fun k hk =>
        kernelCallbacks_expanded_of_unused (hunused k hk)
    rw [hmap, hir]

/-- `gate g a { h a; }` -/
def bodyDeclared : Xaccsrc :=
  [Sample.kernel Sample.f [] [.gatedecl ⟨.plain Sample.g, ⟨.bare Sample.a, []⟩,
    some [Sample.apply Sample.h (.bare Sample.a)]⟩]]

/-- The body of the declaration is walked like a statement, into a null
pointer. -/
theorem bodyDeclared_not_expands :
    ¬ ∀ (N : Type) (S : Services N) (src : Xaccsrc), Expands S src := by
  intro h
  have he : compile plainServices bodyDeclared = .error .nullContext := rfl
  rcases h String plainServices bodyDeclared with ⟨e, h, hne⟩ | ⟨ir, hir, _⟩
  · rw [he] at h
    cases h
    exact hne rfl
  · rw [he] at hir
    cases hir

end XaccIbm.OQASMCompiler
