import XaccIbm.Lib.Words
import XaccIbm.OQASMCompiler.Contexts
import XaccIbm.OQASMCompiler.Kernels

/-!
# OQASMCompiler — Calls

A call inserts the function object of the callee as it is: the arguments are
not read. What a call should contribute is an instance of the callee's
instructions, with the arguments in the place of the formal parameters. The
two agree when each formal the callee's instructions mention is given an
argument of its own name.
-/

namespace XaccIbm.OQASMCompiler

open OpenQasm Traverse

variable {N : Type}

/-! ## Instances -/

/-- The instruction a listed node is. -/
def Node.inst? : Node N → Option (GateInstruction N)
  | .inst i => some i
  | .call _ => none

/-- The instructions of a function, those of the functions it contains in
the place of the calls. -/
def Sequence (ir : IR N) (f : KernelFunction N) (l : List (GateInstruction N)) : Prop :=
  ∃ m, Lists ir.heap f.instructions m ∧ l = m.filterMap Node.inst?

/-- What the parameters of a call stand for: a word that is a formal is the
argument at its place, and any other word is itself. -/
def argument (formals args : List ID) (w : List Char) : List Char :=
  match (formals.zip args).find? fun p => p.1.text.toList == w with
  | some p => p.2.text.toList
  | none => w

/-- A parameter with its words replaced, when it is symbolic. -/
def InstructionParameter.rename (σ : List Char → List Char) :
    InstructionParameter N → InstructionParameter N
  | .str s => .str (String.ofList (Words.rename isWord σ s.toList))
  | p => p

def GateInstruction.rename (σ : List Char → List Char) (i : GateInstruction N) :
    GateInstruction N :=
  { i with params := i.params.map (·.rename σ) }

/-- An instruction of the kernel `g`, as the call has it. -/
def instanceOf (ctx : Kernelcall) (g : Xacckernel) (i : GateInstruction N) :
    GateInstruction N :=
  i.rename (argument (g.typedparams.map Prod.snd) ctx.args)

/-- What a callback contributes to the instructions of its kernel, where
`bind` is what a call makes of an instruction of its callee. -/
def Contributes (S : Services N) (src : Xaccsrc) (ir : IR N)
    (callees : StdMap String Nat)
    (bind : Kernelcall → Xacckernel → GateInstruction N → GateInstruction N) :
    Callback → List (GateInstruction N) → Prop
  | .exitKernelcall ctx, l =>
      ∃ j g f gl, callees.find ctx.kernelname.text = some j ∧ src[j]? = some g ∧
        ir.kernel j = some f ∧ Sequence ir f gl ∧ l = gl.map (bind ctx g)
  | c, l => ∃ i, nodeOf S callees c = .ok (.inst i) ∧ l = [i]

/-- **The calls of a compiled source are instances**: the instructions of
every kernel are its own and, for each call, the instructions of the callee
with the arguments for the formals. -/
def CallsInstantiated (S : Services N) (src : Xaccsrc) (ir : IR N) : Prop :=
  ∀ before k after, src = before ++ k :: after →
    ∃ f ls, ir.kernel before.length = some f ∧
      List.Forall₂ (Contributes S src ir (visible (before ++ [k])) instanceOf)
        (kernelCallbacks k) ls ∧
      Sequence ir f ls.flatten

/-! ## What the instructions mention -/

variable (S : Services N)

def InstructionParameter.symbol? : InstructionParameter N → Option String
  | .str s => some s
  | _ => none

/-- The symbolic parameters a callback sets. -/
def Callback.symbols : Callback → List String
  | .exitUop u => (slots S u).filterMap InstructionParameter.symbol?
  | _ => []

/-- The `j`-th kernel has an instruction with the symbolic parameter, or
calls a kernel that has one. -/
inductive Mentions (src : Xaccsrc) : Nat → String → Prop where
  | own {before after : Xaccsrc} {k : Xacckernel} {c : Callback} {s : String}
      (hsrc : src = before ++ k :: after) (hc : c ∈ kernelCallbacks k)
      (hs : s ∈ c.symbols S) : Mentions src before.length s
  | call {before after : Xaccsrc} {k : Xacckernel} {ctx : Kernelcall} {j : Nat}
      {s : String} (hsrc : src = before ++ k :: after)
      (hc : .exitKernelcall ctx ∈ kernelCallbacks k)
      (hj : (visible (before ++ [k])).find ctx.kernelname.text = some j)
      (hs : Mentions src j s) : Mentions src before.length s

/-- A call gives every formal that the callee's instructions mention an
argument of the same name. -/
def ArgumentsNamed (src : Xaccsrc) : Prop :=
  ∀ before k after, src = before ++ k :: after →
    ∀ ctx, .exitKernelcall ctx ∈ kernelCallbacks k →
    ∀ j g, (visible (before ++ [k])).find ctx.kernelname.text = some j →
      src[j]? = some g →
    ∀ s, Mentions S src j s → ∀ w ∈ Words.words isWord s.toList,
      argument (g.typedparams.map Prod.snd) ctx.args w = w

variable {S}

/-! ## The symbolic parameters of an instruction -/

theorem mem_symbols {ps : List (InstructionParameter N)} {s : String} :
    s ∈ ps.filterMap InstructionParameter.symbol? ↔ .str s ∈ ps := by
  rw [List.mem_filterMap]
  constructor
  · rintro ⟨p, hp, hsym⟩
    cases p with
    | str s' =>
        cases hsym
        exact hp
    | num x => cases hsym
    | int n => cases hsym
  · intro hp
    exact ⟨.str s, hp, rfl⟩

/-- **The symbolic parameters of an instruction** are those its callback
sets. -/
theorem nodeOf_symbols (hS : S.Lawful) {callees : StdMap String Nat}
    {c : Callback} {i : GateInstruction N}
    (h : nodeOf S callees c = .ok (.inst i)) (s : String) :
    .str s ∈ i.params ↔ s ∈ c.symbols S := by
  have hnums : ∀ xs : List N, InstructionParameter.str s ∉ xs.map .num := by
    intro xs hs
    obtain ⟨x, _, hx⟩ := List.mem_map.mp hs
    cases hx
  rcases nodeOf_inst.mp h with ⟨u, rfl, hi⟩ | ⟨m, rfl, hi⟩
  · obtain ⟨qs, inst, _, hinst, hset⟩ := instructionUop_ok hi
    obtain ⟨xs, hxs⟩ := hS.params_eq hinst
    rw [List.nil_append] at hxs
    rw [setParameters_params hS hset, hxs, Nat.zero_add, List.take_zero,
      List.nil_append, ← List.map_drop, List.mem_append, or_iff_left (hnums _)]
    exact mem_symbols.symm
  · obtain ⟨_, _, _, _, _, hi⟩ := instructionMeasure_ok hi
    obtain ⟨xs, hxs⟩ := hS.params_eq hi
    rw [hxs, List.mem_append, or_iff_left (hnums xs)]
    simp [Callback.symbols]

/-! ## Sequences -/

theorem Sequence.unique {ir : IR N} {f : KernelFunction N}
    {l l' : List (GateInstruction N)} (h : Sequence ir f l) (h' : Sequence ir f l') :
    l = l' := by
  obtain ⟨m, hm, rfl⟩ := h
  obtain ⟨m', hm', rfl⟩ := h'
  rw [hm.unique hm']

/-- An instruction a function lists stands in it, or in a function it
contains. -/
theorem Lists.mem_inst {heap : List (KernelFunction N)} {ns m : List (Node N)}
    (h : Lists heap ns m) {i : GateInstruction N} (hi : .inst i ∈ m)
    {j : Nat} {f : KernelFunction N} (hf : heap[j]? = some f)
    (hsub : ∀ n ∈ ns, n ∈ f.instructions) :
    ∃ j' f', Relation.ReflTransGen (Contains heap) j j' ∧ heap[j']? = some f' ∧
      .inst i ∈ f'.instructions := by
  induction h generalizing j f with
  | nil => cases hi
  | inst _ ih =>
      rcases List.mem_cons.mp hi with heq | hi
      · cases heq
        exact ⟨j, f, .refl, hf, hsub _ (by simp)⟩
      · exact ih hi hf fun n hn => hsub n (List.mem_cons_of_mem _ hn)
  | @call j₁ f₁ _ _ _ hf₁ _ _ ihm ih =>
      rw [List.cons_append, List.mem_cons, List.mem_append] at hi
      rcases hi with heq | hi | hi
      · cases heq
      · obtain ⟨j', f', hreach, hf', hi'⟩ := ihm hi hf₁ fun n hn => hn
        exact ⟨j', f', .head ⟨f, hf, hsub _ (by simp)⟩ hreach, hf', hi'⟩
      · exact ih hi hf fun n hn => hsub n (List.mem_cons_of_mem _ hn)

/-- What a function contains directly is listed. -/
theorem Lists.mem_self {heap : List (KernelFunction N)} {ns m : List (Node N)}
    (h : Lists heap ns m) : ∀ n ∈ ns, n ∈ m := by
  induction h with
  | nil => simp
  | inst _ ih =>
      intro n hn
      rcases List.mem_cons.mp hn with rfl | hn
      · simp
      · exact List.mem_cons_of_mem _ (ih n hn)
  | call _ _ _ _ ih =>
      intro n hn
      rcases List.mem_cons.mp hn with rfl | hn
      · simp
      · simp [ih n hn]

theorem compiled_kernel_eq {src : Xaccsrc} {ir : IR N} (h : compile S src = .ok ir)
    (j : Nat) : ir.kernel j = ir.heap[j]? := by
  have hlen := compiled_length h
  rw [compile_eq, map_ok] at h
  obtain ⟨fs, _, rfl⟩ := h
  rw [IR.kernel]
  by_cases hj : j < src.length
  · rw [List.getElem?_range hj, Option.bind_some]
  · rw [List.getElem?_eq_none (by simpa using hj), Option.bind_none,
      List.getElem?_eq_none (by omega)]

theorem mem_sequence {m : List (Node N)} {i : GateInstruction N} :
    i ∈ m.filterMap Node.inst? ↔ .inst i ∈ m := by
  rw [List.mem_filterMap]
  constructor
  · rintro ⟨n, hn, hin⟩
    cases n with
    | inst i' =>
        cases hin
        exact hn
    | call j => cases hin
  · intro hi
    exact ⟨_, hi, rfl⟩

/-- A kernel mentions what the kernels it reaches through calls mention. -/
theorem Mentions.of_reaches {src : Xaccsrc} {ir : IR N} (h : compile S src = .ok ir)
    {j j' : Nat} {s : String} (hreach : Relation.ReflTransGen (Contains ir.heap) j j')
    (hs : Mentions S src j' s) : Mentions S src j s := by
  induction hreach using Relation.ReflTransGen.head_induction_on with
  | refl => exact hs
  | @head a b hab _ ih =>
      obtain ⟨f, hf, hcall⟩ := hab
      obtain ⟨before, k, after, rfl, rfl, _⟩ := compiled_of_heap h hf
      obtain ⟨ctx, hctx, hfind⟩ := (contains_iff h).mp ⟨f, hf, hcall⟩
      exact .call rfl hctx hfind ih

/-- **What the instructions of a kernel mention** is what the source says. -/
theorem mentions_iff (hS : S.Lawful) {src : Xaccsrc} {ir : IR N}
    (h : compile S src = .ok ir) {j : Nat} {f : KernelFunction N}
    {l : List (GateInstruction N)} (hf : ir.kernel j = some f) (hl : Sequence ir f l)
    (s : String) : Mentions S src j s ↔ ∃ i ∈ l, .str s ∈ i.params := by
  rw [compiled_kernel_eq h] at hf
  obtain ⟨m, hm, rfl⟩ := hl
  constructor
  · intro hmentions
    induction hmentions generalizing f m with
    | @own before after k c s hsrc hc hs =>
        subst hsrc
        obtain ⟨ns, hns, hheap⟩ := compiled_heap h
        rw [hf] at hheap
        cases hheap
        obtain ⟨n, hn, hcn⟩ := mapM_ok_mem hns hc
        cases n with
        | inst i =>
            exact ⟨i, mem_sequence.mpr (hm.mem_self _ hn), (nodeOf_symbols hS hcn s).mpr hs⟩
        | call j =>
            obtain ⟨ctx, rfl, _⟩ := nodeOf_call.mp hcn
            cases hs
    | @call before after k ctx j s hsrc hc hj _ ih =>
        subst hsrc
        obtain ⟨f', hf', hcall⟩ := (contains_iff h).mpr ⟨ctx, hc, hj⟩
        rw [hf] at hf'
        cases hf'
        obtain ⟨g, m', hg, hm', hin⟩ := hm.of_call hcall
        obtain ⟨i, hi, his⟩ := ih hg m' hm'
        refine ⟨i, mem_sequence.mpr (hin.subset ?_), his⟩
        exact List.mem_cons_of_mem _ (mem_sequence.mp hi)
  · rintro ⟨i, hi, his⟩
    obtain ⟨j', f', hreach, hf', hi'⟩ :=
      hm.mem_inst (mem_sequence.mp hi) hf fun n hn => hn
    obtain ⟨before, k, after, hsrc, rfl, hns⟩ := compiled_of_heap h hf'
    obtain ⟨c, hc, hci⟩ := mapM_ok_of_mem hns hi'
    exact .of_reaches h hreach (.own hsrc hc ((nodeOf_symbols hS hci s).mp his))

/-! ## Calls compared with instances -/

theorem argument_intoWords (formals args : List ID) :
    Words.IntoWords isWord (argument formals args) := by
  intro w hne hall
  rw [argument]
  split
  · rename_i p _
    refine ⟨?_, List.all_eq_true.mpr fun c hc => p.2.isWord_of_mem hc⟩
    obtain ⟨c, cs, htext, _⟩ := p.2.toList_eq
    rw [htext]
    exact List.cons_ne_nil c cs
  · exact ⟨hne, hall⟩

/-- An instruction is its own instance when the words of its symbolic
parameters are left alone. -/
theorem rename_eq_self {σ : List Char → List Char} (hσ : Words.IntoWords isWord σ)
    {i : GateInstruction N} :
    i.rename σ = i ↔
      ∀ s, .str s ∈ i.params → ∀ w ∈ Words.words isWord s.toList, σ w = w := by
  have hparam : ∀ p : InstructionParameter N, p.rename σ = p ↔
      ∀ s, p = .str s → ∀ w ∈ Words.words isWord s.toList, σ w = w := by
    intro p
    cases p with
    | int n => simp [InstructionParameter.rename]
    | num x => simp [InstructionParameter.rename]
    | str s =>
        have htext : String.ofList (Words.rename isWord σ s.toList) = s ↔
            Words.rename isWord σ s.toList = s.toList := by
          rw [← String.toList_inj, String.toList_ofList]
        rw [InstructionParameter.rename, InstructionParameter.str.injEq, htext,
          Words.rename_eq_self hσ]
        simp
  have hparams : i.rename σ = i ↔ ∀ p ∈ i.params, p.rename σ = p := by
    have hmap : i.rename σ = i ↔ i.params.map (·.rename σ) = i.params.map fun p => p := by
      rw [List.map_id']
      constructor
      · intro h
        exact congrArg GateInstruction.params h
      · intro h
        rw [GateInstruction.rename, h]
    rw [hmap, List.map_inj_left]
  rw [hparams]
  constructor
  · intro h s hs
    exact (hparam _).mp (h _ hs) s rfl
  · intro h p hp
    refine (hparam p).mpr fun s heq => h s ?_
    rw [← heq]
    exact hp

/-- What a call inserts: the instructions of the callee as they are. -/
def inserted (_ : Kernelcall) (_ : Xacckernel) (i : GateInstruction N) :
    GateInstruction N := i

/-- **What the listener makes of the callbacks of a kernel**: a call
contributes the instructions of its callee, whatever its arguments. -/
theorem contributes_inserted {src : Xaccsrc} {ir : IR N} (h : compile S src = .ok ir)
    {callees : StdMap String Nat} {cs : List Callback} {ns m : List (Node N)}
    (hns : cs.mapM (nodeOf S callees) = .ok ns) (hm : Lists ir.heap ns m) :
    ∃ ls, List.Forall₂ (Contributes S src ir callees inserted) cs ls ∧
      m.filterMap Node.inst? = ls.flatten := by
  induction cs generalizing ns m with
  | nil =>
      cases hns
      cases hm
      exact ⟨[], .nil, rfl⟩
  | cons c cs ih =>
      obtain ⟨n, ns, hn, hrest, rfl⟩ := mapM_cons_ok.mp hns
      cases hm with
      | @inst i _ l hl =>
          obtain ⟨ls, hls, hflat⟩ := ih hrest hl
          refine ⟨[i] :: ls, .cons ?_ hls, ?_⟩
          · rcases nodeOf_inst.mp hn with ⟨u, rfl, _⟩ | ⟨mc, rfl, _⟩
            · exact ⟨i, hn, rfl⟩
            · exact ⟨i, hn, rfl⟩
          · rw [List.flatten_cons, ← hflat]
            rfl
      | @call j f _ m' l hf hm' hl =>
          obtain ⟨ls, hls, hflat⟩ := ih hrest hl
          obtain ⟨ctx, rfl, hfind⟩ := nodeOf_call.mp hn
          have hj : j < src.length := by
            rw [← compiled_length h]
            exact (List.getElem?_eq_some_iff.mp hf).1
          refine ⟨m'.filterMap Node.inst? :: ls, .cons ?_ hls, ?_⟩
          · refine ⟨j, src[j], f, _, hfind, List.getElem?_eq_getElem hj, ?_, ⟨m', hm', rfl⟩, ?_⟩
            · rw [compiled_kernel_eq h, hf]
            · exact (List.map_id' _).symm
          · rw [List.flatten_cons, ← hflat, List.cons_append, List.filterMap_cons,
              List.filterMap_append]
            rfl

/-- Contributions differ in what calls make of instructions, not in their
number. -/
theorem Contributes.length_eq {src : Xaccsrc} {ir : IR N}
    {callees : StdMap String Nat}
    {bind bind' : Kernelcall → Xacckernel → GateInstruction N → GateInstruction N}
    {c : Callback} {l l' : List (GateInstruction N)}
    (h : Contributes S src ir callees bind c l)
    (h' : Contributes S src ir callees bind' c l') : l.length = l'.length := by
  cases c with
  | exitKernelcall ctx =>
      obtain ⟨j, g, f, gl, hj, _, hf, hgl, rfl⟩ := h
      obtain ⟨j', g', f', gl', hj', _, hf', hgl', rfl⟩ := h'
      rw [hj] at hj'
      cases hj'
      rw [hf] at hf'
      cases hf'
      rw [hgl.unique hgl', List.length_map, List.length_map]
  | exitUop u =>
      obtain ⟨i, _, rfl⟩ := h
      obtain ⟨i', _, rfl⟩ := h'
      rfl
  | exitMeasure mc =>
      obtain ⟨i, _, rfl⟩ := h
      obtain ⟨i', _, rfl⟩ := h'
      rfl

theorem Contributes.lengths_eq {src : Xaccsrc} {ir : IR N}
    {callees : StdMap String Nat}
    {bind bind' : Kernelcall → Xacckernel → GateInstruction N → GateInstruction N}
    {cs : List Callback} {ls ls' : List (List (GateInstruction N))}
    (h : List.Forall₂ (Contributes S src ir callees bind) cs ls)
    (h' : List.Forall₂ (Contributes S src ir callees bind') cs ls') :
    ls.map List.length = ls'.map List.length := by
  induction h generalizing ls' with
  | nil =>
      cases h'
      rfl
  | cons hl _ ih =>
      cases h' with
      | cons hl' hls' => rw [List.map_cons, List.map_cons, hl.length_eq hl', ih hls']

/-- Every call of the kernel makes of its callee's instructions what the
listener makes of them. -/
def CallsFixed (src : Xaccsrc) (ir : IR N) (callees : StdMap String Nat)
    (k : Xacckernel) : Prop :=
  ∀ ctx, .exitKernelcall ctx ∈ kernelCallbacks k → ∀ j g f gl,
    callees.find ctx.kernelname.text = some j → src[j]? = some g →
    ir.kernel j = some f → Sequence ir f gl → gl.map (instanceOf ctx g) = gl

/-- The instructions of a kernel are instances when its calls are fixed. -/
theorem instances_iff {src : Xaccsrc} {ir : IR N} (h : compile S src = .ok ir)
    {callees : StdMap String Nat} {k : Xacckernel} {f : KernelFunction N}
    {m : List (Node N)}
    (hns : (kernelCallbacks k).mapM (nodeOf S callees) = .ok f.instructions)
    (hm : Lists ir.heap f.instructions m) :
    (∃ ls, List.Forall₂ (Contributes S src ir callees instanceOf) (kernelCallbacks k) ls ∧
        Sequence ir f ls.flatten) ↔ CallsFixed src ir callees k := by
  obtain ⟨ls, hls, hflat⟩ := contributes_inserted h hns hm
  constructor
  · rintro ⟨ls', hls', hseq⟩
    have heq : ls = ls' := by
      refine List.eq_iff_flatten_eq.mpr ⟨?_, Contributes.lengths_eq hls hls'⟩
      rw [← hflat]
      exact Sequence.unique ⟨m, hm, rfl⟩ hseq
    subst heq
    intro ctx hctx j g f gl hj hg hf hgl
    have hboth := hls.mp (fun c l h h' => And.intro h h') hls'
    obtain ⟨l, _, hl, hl'⟩ := forall₂_mem hboth hctx
    obtain ⟨j₁, g₁, f₁, gl₁, hj₁, _, hf₁, hgl₁, rfl⟩ := hl
    obtain ⟨j₂, g₂, f₂, gl₂, hj₂, hg₂, hf₂, hgl₂, heq⟩ := hl'
    -- the callee is the same one all three times
    rw [hj] at hj₁ hj₂
    cases hj₁
    cases hj₂
    rw [hf] at hf₁ hf₂
    cases hf₁
    cases hf₂
    rw [hg] at hg₂
    cases hg₂
    rw [hgl.unique hgl₂, ← heq, hgl₁.unique hgl₂]
    exact List.map_id' gl₂
  · intro hfixed
    refine ⟨ls, ?_, m, hm, hflat.symm⟩
    refine List.forall₂_iff_zip.mpr ⟨hls.length_eq, fun {c l} hcl => ?_⟩
    have hins := (List.forall₂_iff_zip.mp hls).2 hcl
    cases c with
    | exitKernelcall ctx =>
        obtain ⟨j, g, f, gl, hj, hg, hf, hgl, rfl⟩ := hins
        refine ⟨j, g, f, gl, hj, hg, hf, hgl, ?_⟩
        rw [hfixed ctx (List.of_mem_zip hcl).1 j g f gl hj hg hf hgl]
        exact List.map_id' _
    | exitUop u => exact hins
    | exitMeasure mc => exact hins

/-- A call is fixed when no word its callee mentions is renamed. -/
theorem map_instanceOf_eq_self (hS : S.Lawful) {src : Xaccsrc} {ir : IR N}
    (h : compile S src = .ok ir) {j : Nat} {f : KernelFunction N}
    {gl : List (GateInstruction N)} (hf : ir.kernel j = some f)
    (hgl : Sequence ir f gl) (ctx : Kernelcall) (g : Xacckernel) :
    gl.map (instanceOf ctx g) = gl ↔
      ∀ s, Mentions S src j s → ∀ w ∈ Words.words isWord s.toList,
        argument (g.typedparams.map Prod.snd) ctx.args w = w := by
  have hmap : gl.map (instanceOf ctx g) = gl ↔ ∀ i ∈ gl, instanceOf ctx g i = i := by
    rw [← List.map_inj_left, List.map_id']
  have hfix := fun i : GateInstruction N =>
    rename_eq_self (i := i) (argument_intoWords (g.typedparams.map Prod.snd) ctx.args)
  rw [hmap]
  constructor
  · intro hall s hs
    obtain ⟨i, hi, his⟩ := (mentions_iff hS h hf hgl s).mp hs
    exact (hfix i).mp (hall i hi) s his
  · intro hall i hi
    refine (hfix i).mpr fun s hs => hall s ?_
    exact (mentions_iff hS h hf hgl s).mpr ⟨i, hi, hs⟩

/-- Without a kernel that calls itself, calls go back and every traversal ends. -/
theorem exists_lists_of_noCycle {src : Xaccsrc} {ir : IR N} (h : compile S src = .ok ir)
    (hsrc : NoCycle src) : ∀ f ∈ ir.heap, ∃ l, Lists ir.heap f.instructions l := by
  intro f hf
  obtain ⟨i, hi⟩ := List.mem_iff_getElem?.mp hf
  refine exists_lists ?_ hi
  intro i j hij
  obtain ⟨before, k, after, rfl, rfl, _⟩ := compiled_of_heap h hij.choose_spec.1
  have hlen := compiled_length h
  rw [List.length_append, List.length_cons] at hlen
  rcases contains_le h hij with hlt | ⟨_, hself, hno⟩
  · omega
  · obtain ⟨k', hk', hname⟩ := hsrc _ _ _ rfl hself
    exact absurd hname (hno k' hk')

/-- **Which compiled sources have instances for their calls.** -/
theorem callsInstantiated_iff (hS : S.Lawful) {src : Xaccsrc} {ir : IR N}
    (h : compile S src = .ok ir) :
    CallsInstantiated S src ir ↔ NoCycle src ∧ ArgumentsNamed S src := by
  constructor
  · intro hinst
    have hlists : ∀ f ∈ ir.heap, ∃ m, Lists ir.heap f.instructions m := by
      intro f hf
      obtain ⟨j, hj⟩ := List.mem_iff_getElem?.mp hf
      obtain ⟨before, k, after, hsrc, rfl, _⟩ := compiled_of_heap h hj
      obtain ⟨f', ls, hf', _, m, hm, _⟩ := hinst before k after hsrc
      rw [compiled_kernel_eq h, hj] at hf'
      cases hf'
      exact ⟨m, hm⟩
    refine ⟨noCycle_of_lists h hlists, ?_⟩
    intro before k after hsrc ctx hctx j g hj hg
    obtain ⟨f, ls, hf, hls, hseq⟩ := hinst before k after hsrc
    subst hsrc
    obtain ⟨ns, hns, hk⟩ := compiled_kernel h
    rw [hk] at hf
    cases hf
    obtain ⟨m, hm, hflat⟩ := hseq
    have hfixed := (instances_iff (f := ⟨_, formals k, ns⟩) h hns hm).mp ⟨ls, hls, m, hm, hflat⟩
    obtain ⟨f', hf', hcall⟩ := (contains_iff h).mpr ⟨ctx, hctx, hj⟩
    rw [← compiled_kernel_eq h, hk] at hf'
    cases hf'
    obtain ⟨fj, mj, hfj, hmj, _⟩ := hm.of_call hcall
    rw [← compiled_kernel_eq h] at hfj
    have hgl : Sequence ir fj (mj.filterMap Node.inst?) := ⟨mj, hmj, rfl⟩
    exact (map_instanceOf_eq_self hS h hfj hgl ctx g).mp
      (hfixed ctx hctx j g fj _ hj hg hfj hgl)
  · rintro ⟨hcycle, hnamed⟩ before k after hsrc
    have hwf := exists_lists_of_noCycle h hcycle
    subst hsrc
    obtain ⟨ns, hns, hk⟩ := compiled_kernel h
    have hmem := hk
    rw [compiled_kernel_eq h] at hmem
    obtain ⟨m, hm⟩ := hwf _ (List.mem_of_getElem? hmem)
    have hfixed : CallsFixed (before ++ k :: after) ir (visible (before ++ [k])) k := by
      intro ctx hctx j g f gl hj hg hf hgl
      exact (map_instanceOf_eq_self hS h hf hgl ctx g).mpr
        (hnamed before k after rfl ctx hctx j g hj hg)
    obtain ⟨ls, hls, hseq⟩ := (instances_iff (f := ⟨_, formals k, ns⟩) h hns hm).mpr hfixed
    exact ⟨_, ls, hk, hls, hseq⟩

/-- **Calls are instances**: compiling raises an error, or the calls of the
source are instances. -/
def Instantiates (S : Services N) (src : Xaccsrc) : Prop :=
  Raises (compile S src) ∨ ∃ ir, compile S src = .ok ir ∧ CallsInstantiated S src ir

/-- **Which sources have instances for their calls.** Either a callback reads an
index too large, or is refused by the framework, before any callback reads a
missing child; or no callback reads one, no kernel calls its own name before it
is a name of an earlier kernel, and every call gives the formals its callee
mentions arguments of their names. -/
theorem instantiates_iff (hS : S.Lawful) (src : Xaccsrc) :
    Instantiates S src ↔
      (∃ before c after, sourceCallbacks src = before ++ c :: after ∧
        (∀ x ∈ before, ¬ ReadsNull x.2) ∧ (ReadsTooLarge c.2 ∨ Refused S c)) ∨
      ((∀ x ∈ sourceCallbacks src, ¬ ReadsNull x.2) ∧ NoCycle src ∧
        ArgumentsNamed S src) := by
  rw [← raises_iff S]
  constructor
  · rintro (hr | ⟨ir, hir, hinst⟩)
    · exact .inl hr
    exact .inr ⟨compile_ok_not_null S hir, (callsInstantiated_iff hS hir).mp hinst⟩
  · rintro (hr | ⟨hnull, hcond⟩)
    · exact .inl hr
    by_cases hr : Raises (compile S src)
    · exact .inl hr
    obtain ⟨ir, hir⟩ := compile_of_not_raises S hr hnull
    exact .inr ⟨ir, hir, (callsInstantiated_iff hS hir).mpr hcond⟩

/-- Arguments with the names of the formals rename nothing. -/
theorem argument_self (formals : List ID) (w : List Char) :
    argument formals formals w = w := by
  rw [argument]
  split
  · rename_i p hp
    have hmem := List.mem_of_find?_eq_some hp
    have hfound := List.find?_some hp
    have hsame : p.1 = p.2 := by
      clear hp hfound
      induction formals with
      | nil => cases hmem
      | cons x xs ih =>
          rcases List.mem_cons.mp hmem with rfl | hmem
          · rfl
          · exact ih hmem
    rw [← hsame]
    exact beq_iff_eq.mp hfound
  · rfl

/-- `g(b, double x)` with `rx(x) q[0];` in it, and `f(b, double y)` with
`g(b, y);` in it. -/
def callWith (y : ID) : Xaccsrc :=
  [Sample.kernel Sample.g [Sample.x] [.qop (.uop (.UserDefGate (.plain Sample.rx)
      (some ⟨.id Sample.x, []⟩) ⟨.indexed Sample.q Sample.zero, []⟩))],
    Sample.kernel Sample.f [y] [.kernelcall ⟨Sample.g, some Sample.b, [y]⟩]]

/-- The argument happens to have the formal's name. -/
theorem callWith_x_instantiates : Instantiates plainServices (callWith Sample.x) := by
  have hc : compile plainServices (callWith Sample.x) =
      .ok ⟨[0, 1], [⟨"g", [.str "x"], [.inst ⟨"Rx", [0], [.str "x"]⟩]⟩,
        ⟨"f", [.str "x"], [.call 0]⟩]⟩ := rfl
  refine (instantiates_iff plainServices_lawful _).mpr
    (.inr ⟨compile_ok_not_null _ hc, ?_, ?_⟩)
  · refine noCycle_of_lists hc ?_
    intro f hf
    rcases List.mem_pair.mp hf with rfl | rfl
    · exact ⟨_, .inst .nil⟩
    · exact ⟨_, .call rfl (.inst .nil) .nil⟩
  · intro before k after hsplit ctx hctx j g hj hg s _ w _
    cases before with
    | nil =>
        cases hsplit
        cases List.mem_singleton.mp hctx
    | cons k' before =>
        cases before with
        | nil =>
            cases hsplit
            have hcalls := List.mem_singleton.mp hctx
            cases hcalls
            cases hj
            cases hg
            exact argument_self [Sample.x] w
        | cons k'' before => simp [callWith] at hsplit

/-- `f` lists `g`'s rotation by `x`, not by `y`. -/
theorem callWith_y_not_instantiates :
    ¬ ∀ (N : Type) (S : Services N), S.Lawful → ∀ src, Instantiates S src := by
  intro h
  have hc : compile plainServices (callWith Sample.y) =
      .ok ⟨[0, 1], [⟨"g", [.str "x"], [.inst ⟨"Rx", [0], [.str "x"]⟩]⟩,
        ⟨"f", [.str "y"], [.call 0]⟩]⟩ := rfl
  rcases h String plainServices plainServices_lawful (callWith Sample.y) with
    ⟨e, he, _⟩ | ⟨ir, hir, hinst⟩
  · rw [hc] at he
    cases he
  · have hnamed := ((callsInstantiated_iff plainServices_lawful hir).mp hinst).2
    have hx : Mentions plainServices (callWith Sample.y) ([] : Xaccsrc).length "x" :=
      .own rfl (List.mem_singleton_self _) (by decide)
    have hw := hnamed [_] _ [] rfl _ (List.mem_singleton_self _) 0 _ rfl rfl "x" hx ['x']
      (by decide)
    exact absurd hw (by decide)

end XaccIbm.OQASMCompiler
