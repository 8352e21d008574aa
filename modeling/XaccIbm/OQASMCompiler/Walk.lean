import XaccIbm.OQASMCompiler.Listener

/-!
# OQASMCompiler — Walk

The walk without the listener's state. Every callback of a kernel's body
adds exactly one node to the kernel, and which one depends on the callback
and on the names of the kernels up to this one. So a kernel is a traversal
of its callbacks, a source is a traversal of its kernels, and `compile_eq`
says that the listener is exactly this.
-/

namespace XaccIbm.OQASMCompiler

open OpenQasm Traverse OQASMToXACCListener

variable {N : Type} (S : Services N)

/-! ## Indices -/

theorem child_ok {α : Type} {o : Option α} {a : α} :
    child o = .ok a ↔ o = some a := by
  cases o <;> simp [child]

/-- `std::stoi` on the text of an `INT`. -/
theorem stoi_eq (n : INT) :
    stoi n = if n.value < 2 ^ 31 then .ok n.value else .error .outOfRange := by
  have hspelled := n.spelled
  rw [isINT, Bool.and_eq_true, Bool.not_eq_true', List.isEmpty_eq_false_iff] at hspelled
  obtain ⟨hne, hall⟩ := hspelled
  rw [stoi, StdString.stoi_of_digits hne (List.all_eq_true.mp hall), ← INT.value]
  by_cases h : n.value < 2 ^ 31
  · rw [if_pos h, if_pos h]
    rfl
  · rw [if_neg h, if_neg h]

theorem stoi_ok {n : INT} {q : Nat} :
    stoi n = .ok q ↔ n.value < 2 ^ 31 ∧ q = n.value := by
  rw [stoi_eq]
  by_cases h : n.value < 2 ^ 31
  · rw [if_pos h]
    constructor
    · intro hq
      exact ⟨h, (Except.ok.inj hq).symm⟩
    · rintro ⟨_, rfl⟩
      rfl
  · rw [if_neg h]
    constructor
    · intro hq
      cases hq
    · intro hq
      exact absurd hq.1 h

/-- The qubit of an operand is its index. -/
theorem qubit_ok {a : GateArg} {q : Nat} :
    qubit a = .ok q ↔ ∃ i, index a = some i ∧ i.value < 2 ^ 31 ∧ q = i.value := by
  rw [qubit, bind_ok]
  simp only [child_ok, stoi_ok]

/-! ## One callback -/

/-- The node a callback adds. -/
def nodeOf (functions : StdMap String Nat) : Callback → Walk (Node N)
  | .exitKernelcall ctx =>
      match functions.find ctx.kernelname.text with
      | some f => .ok (.call f)
      | none => .error (.error "Tried calling undefined kernel.")
  | .exitUop u => Node.inst <$> instructionUop S u
  | .exitMeasure m => Node.inst <$> instructionMeasure S m

/-- A call adds the function of its name. -/
theorem nodeOf_call {S : Services N} {functions : StdMap String Nat} {c : Callback} {j : Nat} :
    nodeOf S functions c = .ok (.call j) ↔
      ∃ ctx, c = .exitKernelcall ctx ∧ functions.find ctx.kernelname.text = some j := by
  cases c with
  | exitKernelcall ctx =>
      rw [nodeOf]
      cases hfind : functions.find ctx.kernelname.text with
      | none => simp [hfind]
      | some f => simp [hfind]
  | exitUop u =>
      rw [nodeOf, map_ok]
      simp
  | exitMeasure m =>
      rw [nodeOf, map_ok]
      simp

/-- The other callbacks add the instruction they make. -/
theorem nodeOf_inst {S : Services N} {functions : StdMap String Nat} {c : Callback}
    {i : GateInstruction N} :
    nodeOf S functions c = .ok (.inst i) ↔
      (∃ u, c = .exitUop u ∧ instructionUop S u = .ok i) ∨
        ∃ m, c = .exitMeasure m ∧ instructionMeasure S m = .ok i := by
  cases c with
  | exitKernelcall ctx =>
      rw [nodeOf]
      cases functions.find ctx.kernelname.text with
      | none => simp
      | some f => simp
  | exitUop u =>
      rw [nodeOf, map_ok]
      simp
  | exitMeasure m =>
      rw [nodeOf, map_ok]
      simp

/-- **Every callback adds its node.** -/
theorem step_eq (s : OQASMToXACCListener N) (c : Callback) :
    step S s c = nodeOf S s.functions c >>= s.addInstruction := by
  cases c with
  | exitKernelcall ctx =>
      rw [step, exitKernelcall, nodeOf]
      cases s.functions.find ctx.kernelname.text <;> rfl
  | exitUop u =>
      rw [step, exitUop, nodeOf]
      cases instructionUop S u <;> rfl
  | exitMeasure m =>
      rw [step, exitMeasure, nodeOf]
      cases instructionMeasure S m <;> rfl

/-- Several nodes added to the function at `f`. -/
def addInstructions (f : Nat) (ns : List (Node N)) (s : OQASMToXACCListener N) :
    OQASMToXACCListener N :=
  { s with heap := s.heap.modify f fun k =>
    { k with instructions := k.instructions ++ ns } }

theorem addInstructions_nil (f : Nat) (s : OQASMToXACCListener N) :
    addInstructions f [] s = s := by
  have h : (fun k : KernelFunction N => { k with
      instructions := k.instructions ++ [] }) = id := by
    funext k
    simp
  rw [addInstructions, h, List.modify_id]

theorem addInstructions_append (f : Nat) (ns ms : List (Node N))
    (s : OQASMToXACCListener N) :
    addInstructions f ms (addInstructions f ns s)
      = addInstructions f (ns ++ ms) s := by
  simp only [addInstructions, List.modify_modify_eq]
  congr 2
  funext k
  simp

theorem addInstruction_eq {f : Nat} {s : OQASMToXACCListener N}
    (hf : s.curFunc = some f) (n : Node N) :
    s.addInstruction n = .ok (addInstructions f [n] s) := by
  obtain ⟨ir, functions, curFunc, heap⟩ := s
  cases hf
  rfl

/-- The callbacks of a body, one after another. -/
theorem foldlM_step {f : Nat} (cs : List Callback) (s : OQASMToXACCListener N)
    (hf : s.curFunc = some f) :
    cs.foldlM (step S) s
      = (addInstructions f · s) <$> cs.mapM (nodeOf S s.functions) := by
  induction cs generalizing s with
  | nil =>
      show Except.ok s = Except.ok (addInstructions f [] s)
      rw [addInstructions_nil]
  | cons c cs ih =>
      rw [List.foldlM_cons, List.mapM_cons, step_eq]
      cases nodeOf S s.functions c with
      | error e => rfl
      | ok n =>
          show (s.addInstruction n >>= fun s' => cs.foldlM (step S) s') = _
          rw [addInstruction_eq hf]
          show cs.foldlM (step S) (addInstructions f [n] s) = _
          rw [ih (addInstructions f [n] s) hf]
          show (addInstructions f · (addInstructions f [n] s))
            <$> cs.mapM (nodeOf S s.functions) = _
          cases cs.mapM (nodeOf S s.functions) with
          | error e => rfl
          | ok ns =>
              exact congrArg Except.ok (addInstructions_append f [n] ns s)

/-! ## One kernel -/

/-- The kernels a name can stand for: the first one of that name. -/
def visible (ks : Xaccsrc) : StdMap String Nat :=
  ⟨fun name => ks.findIdx? fun k => k.kernelname.text == name⟩

theorem visible_append (ks : Xaccsrc) (k : Xacckernel) :
    (visible ks).insert k.kernelname.text ks.length = visible (ks ++ [k]) := by
  ext1 name
  by_cases h : name = k.kernelname.text
  · subst h
    rw [StdMap.find_insert_self, StdMap.getD]
    simp only [visible, List.findIdx?_append]
    cases ks.findIdx? fun k' => k'.kernelname.text == k.kernelname.text with
    | none => simp [List.findIdx?_cons]
    | some i => rfl
  · rw [StdMap.find_insert_ne _ _ h]
    simp [visible, List.findIdx?_append, List.findIdx?_cons, Ne.symm h]

/-- Only the names of the kernels matter. -/
theorem visible_congr {ks ks' : Xaccsrc}
    (h : ks.map Xacckernel.kernelname = ks'.map Xacckernel.kernelname) :
    visible ks = visible ks' := by
  have hmap : ∀ (ks : Xaccsrc) (name : String),
      (ks.findIdx? fun k => k.kernelname.text == name)
        = (ks.map Xacckernel.kernelname).findIdx? fun x => x.text == name := by
    intro ks name
    rw [List.findIdx?_map]
    rfl
  ext1 name
  show ks.findIdx? _ = ks'.findIdx? _
  rw [hmap, hmap, h]

/-- The parameters of a kernel's function: their names. -/
def formals (k : Xacckernel) : List (InstructionParameter N) :=
  k.typedparams.map fun p => .str p.2.text

/-- The nodes of a kernel that comes after the kernels `before`. -/
def kernelNodes (before : Xaccsrc) (k : Xacckernel) : Walk (List (Node N)) :=
  (kernelCallbacks k).mapM (nodeOf S (visible (before ++ [k])))

theorem statements_map (ss : List Statement) :
    (ss.map Line.statement).filterMap Line.statement? = ss := by
  induction ss with
  | nil => rfl
  | cons st ss ih => exact congrArg (st :: ·) ih

/-- The function object of a kernel. -/
def kernelFunction (before : Xaccsrc) (k : Xacckernel) :
    Walk (KernelFunction N) :=
  KernelFunction.mk k.kernelname.text (formals k) <$> kernelNodes S before k

/-- The listener between two kernels. -/
structure Between (before : Xaccsrc) (s : OQASMToXACCListener N) : Prop where
  functions : s.functions = visible before
  heap : s.heap.length = before.length
  ir : s.ir = List.range before.length

theorem Between.new : Between [] (new : OQASMToXACCListener N) where
  functions := by
    ext1 name
    rfl
  heap := rfl
  ir := rfl

/-- The listener after one more kernel. -/
def afterKernel (s : OQASMToXACCListener N) (before : Xaccsrc) (k : Xacckernel)
    (f : KernelFunction N) : OQASMToXACCListener N where
  ir := s.ir ++ [before.length]
  functions := visible (before ++ [k])
  curFunc := some before.length
  heap := s.heap ++ [f]

theorem Between.afterKernel {before : Xaccsrc} {s : OQASMToXACCListener N}
    (h : Between before s) (k : Xacckernel) (f : KernelFunction N) :
    Between (before ++ [k]) (afterKernel s before k f) where
  functions := rfl
  heap := by
    rw [OQASMCompiler.afterKernel, List.length_append, List.length_append, h.heap]
    rfl
  ir := by
    rw [OQASMCompiler.afterKernel, h.ir, List.length_append,
      List.length_singleton, List.range_succ]

private theorem modify_concat {α : Type} (l : List α) (a : α) (f : α → α) :
    (l ++ [a]).modify l.length f = l ++ [f a] := by
  induction l with
  | nil => rfl
  | cons b l ih => exact congrArg (b :: ·) ih

/-- **A kernel is walked to its function object.** -/
theorem walkKernel_eq {before : Xaccsrc} {s : OQASMToXACCListener N}
    (h : Between before s) (k : Xacckernel) :
    walkKernel S s k
      = afterKernel s before k <$> kernelFunction S before k := by
  have hfun : (enterXacckernel k s).functions = visible (before ++ [k]) := by
    rw [← visible_append, ← h.functions, ← h.heap]
    rfl
  have hcur : (enterXacckernel k s).curFunc = some before.length := by
    rw [← h.heap]
    rfl
  rw [walkKernel, foldlM_step S _ _ hcur, hfun, kernelFunction, kernelNodes]
  cases (kernelCallbacks k).mapM (nodeOf S (visible (before ++ [k]))) with
  | error e => rfl
  | ok ns =>
      show exitXacckernel (addInstructions before.length ns (enterXacckernel k s)) = _
      rw [exitXacckernel]
      show (child (enterXacckernel k s).curFunc >>= _) = _
      rw [hcur]
      show Except.ok _ = Except.ok _
      congr 1
      rw [OQASMCompiler.afterKernel, addInstructions, hfun, hcur]
      congr 1
      rw [← h.heap, enterXacckernel, modify_concat]
      rfl

/-! ## A source -/

theorem foldlM_append_ok {α σ : Type} {f : σ → α → Walk σ} {as bs : List α}
    {s t : σ} :
    (as ++ bs).foldlM f s = .ok t ↔
      ∃ u, as.foldlM f s = .ok u ∧ bs.foldlM f u = .ok t := by
  rw [List.foldlM_append, bind_ok]

theorem foldlM_cons_ok {α σ : Type} {f : σ → α → Walk σ} {a : α} {as : List α}
    {s t : σ} :
    (a :: as).foldlM f s = .ok t ↔ ∃ u, f s a = .ok u ∧ as.foldlM f u = .ok t := by
  rw [List.foldlM_cons, bind_ok]

/-- The kernels of a source, each with the kernels before it. -/
def splitsFrom (before : Xaccsrc) : Xaccsrc → List (Xaccsrc × Xacckernel)
  | [] => []
  | k :: ks => (before, k) :: splitsFrom (before ++ [k]) ks

def splits (src : Xaccsrc) : List (Xaccsrc × Xacckernel) := splitsFrom [] src

theorem foldlM_walkKernel {before : Xaccsrc} {s : OQASMToXACCListener N}
    (h : Between before s) (ks : Xaccsrc) :
    (fun t => (IR.mk t.ir t.heap)) <$> ks.foldlM (walkKernel S) s
      = (fun fs => IR.mk (List.range (before.length + ks.length)) (s.heap ++ fs))
          <$> (splitsFrom before ks).mapM fun p => kernelFunction S p.1 p.2 := by
  induction ks generalizing before s with
  | nil =>
      show Except.ok (IR.mk s.ir s.heap)
        = Except.ok (IR.mk (List.range before.length) (s.heap ++ []))
      rw [h.ir, List.append_nil]
  | cons k ks ih =>
      rw [List.foldlM_cons, walkKernel_eq S h, splitsFrom, List.mapM_cons]
      cases kernelFunction S before k with
      | error e => rfl
      | ok f =>
          show (fun t => (IR.mk t.ir t.heap))
            <$> ks.foldlM (walkKernel S) (afterKernel s before k f) = _
          rw [ih (h.afterKernel k f)]
          show _ = (fun fs => IR.mk _ (s.heap ++ fs))
            <$> (((splitsFrom (before ++ [k]) ks).mapM fun p =>
              kernelFunction S p.1 p.2) >>= fun fs => pure (f :: fs))
          cases (splitsFrom (before ++ [k]) ks).mapM fun p =>
              kernelFunction S p.1 p.2 with
          | error e => rfl
          | ok fs =>
              have hlen : (before ++ [k]).length + ks.length
                  = before.length + (k :: ks).length := by
                simp only [List.length_append, List.length_cons, List.length_nil]
                omega
              show Except.ok _ = Except.ok _
              simp only [hlen, afterKernel, List.append_assoc, List.singleton_append]

/-- **The compiler is a traversal**: kernel by kernel, callback by
callback. -/
theorem compile_eq (src : Xaccsrc) :
    compile S src = IR.mk (List.range src.length)
      <$> (splits src).mapM fun p => kernelFunction S p.1 p.2 := by
  have h := foldlM_walkKernel S Between.new src
  simp only [List.length_nil, Nat.zero_add] at h
  exact h

variable {S}

theorem splitsFrom_append (before ks ls : Xaccsrc) :
    splitsFrom before (ks ++ ls)
      = splitsFrom before ks ++ splitsFrom (before ++ ks) ls := by
  induction ks generalizing before with
  | nil => simp [splitsFrom]
  | cons k ks ih => simp [splitsFrom, ih]

theorem length_splitsFrom (before ks : Xaccsrc) :
    (splitsFrom before ks).length = ks.length := by
  induction ks generalizing before with
  | nil => rfl
  | cons k ks ih => simp [splitsFrom, ih]

/-- The function objects of the kernels `ks`, which come after `before`. -/
def kernelFunctions (S : Services N) (before ks : Xaccsrc) :
    Walk (List (KernelFunction N)) :=
  (splitsFrom before ks).mapM fun p => kernelFunction S p.1 p.2

theorem length_kernelFunctions {before ks : Xaccsrc}
    {fs : List (KernelFunction N)} (h : kernelFunctions S before ks = .ok fs) :
    fs.length = ks.length := by
  rw [← (mapM_ok.mp h).length_eq, length_splitsFrom]

/-- **One kernel of a compiled source.** -/
theorem compile_split {before after : Xaccsrc} {k : Xacckernel} {ir : IR N} :
    compile S (before ++ k :: after) = .ok ir ↔
      ∃ fs ns gs, kernelFunctions S [] before = .ok fs ∧
        kernelNodes S before k = .ok ns ∧
        kernelFunctions S (before ++ [k]) after = .ok gs ∧
        ir = ⟨List.range (before ++ k :: after).length,
          fs ++ ⟨k.kernelname.text, formals k, ns⟩ :: gs⟩ := by
  rw [compile_eq, map_ok, splits, splitsFrom_append, splitsFrom]
  constructor
  · rintro ⟨hs, hhs, rfl⟩
    obtain ⟨fs, rest, hfs, hrest, rfl⟩ := mapM_append_ok.mp hhs
    obtain ⟨f, gs, hf, hgs, rfl⟩ := mapM_cons_ok.mp hrest
    obtain ⟨ns, hns, rfl⟩ := map_ok.mp hf
    exact ⟨fs, ns, gs, hfs, hns, hgs, rfl⟩
  · rintro ⟨fs, ns, gs, hfs, hns, hgs, rfl⟩
    refine ⟨_, mapM_append_ok.mpr ⟨fs, _, hfs, mapM_cons_ok.mpr ?_, rfl⟩, rfl⟩
    exact ⟨_, gs, map_ok.mpr ⟨ns, hns, rfl⟩, hgs, rfl⟩

theorem heap_split {fs gs : List (KernelFunction N)} {f : KernelFunction N}
    {before after : Xaccsrc} {k : Xacckernel} (h : fs.length = before.length) :
    (IR.mk (List.range (before ++ k :: after).length) (fs ++ f :: gs)).kernel
      before.length = some f := by
  have hr : (List.range (before ++ k :: after).length)[before.length]?
      = some before.length := by
    rw [List.getElem?_range (by simp)]
  rw [IR.kernel, hr, Option.bind_some, ← h]
  simp

/-- **A kernel of a compiled source** is its name, its parameters and its
nodes. -/
theorem compiled_kernel {before after : Xaccsrc} {k : Xacckernel} {ir : IR N}
    (h : compile S (before ++ k :: after) = .ok ir) :
    ∃ ns, kernelNodes S before k = .ok ns ∧
      ir.kernel before.length = some ⟨k.kernelname.text, formals k, ns⟩ := by
  obtain ⟨fs, ns, gs, hfs, hns, _, rfl⟩ := compile_split.mp h
  exact ⟨ns, hns, heap_split (length_kernelFunctions hfs)⟩

/-- The same kernel in the heap. -/
theorem compiled_heap {before after : Xaccsrc} {k : Xacckernel} {ir : IR N}
    (h : compile S (before ++ k :: after) = .ok ir) :
    ∃ ns, kernelNodes S before k = .ok ns ∧
      ir.heap[before.length]? = some ⟨k.kernelname.text, formals k, ns⟩ := by
  obtain ⟨fs, ns, gs, hfs, hns, _, rfl⟩ := compile_split.mp h
  refine ⟨ns, hns, ?_⟩
  rw [← length_kernelFunctions hfs]
  simp

theorem compiled_length {src : Xaccsrc} {ir : IR N} (h : compile S src = .ok ir) :
    ir.heap.length = src.length := by
  rw [compile_eq, map_ok] at h
  obtain ⟨fs, hfs, rfl⟩ := h
  exact length_kernelFunctions hfs

theorem kernelFunctions_congr {before before' : Xaccsrc}
    (h : before.map Xacckernel.kernelname = before'.map Xacckernel.kernelname)
    (ks : Xaccsrc) :
    kernelFunctions S before ks = kernelFunctions S before' ks := by
  induction ks generalizing before before' with
  | nil => rfl
  | cons k ks ih =>
      have hk : (before ++ [k]).map Xacckernel.kernelname
          = (before' ++ [k]).map Xacckernel.kernelname := by
        rw [List.map_append, List.map_append, h]
      have hrest := ih hk
      rw [kernelFunctions, kernelFunctions] at hrest
      rw [kernelFunctions, kernelFunctions, splitsFrom, splitsFrom, List.mapM_cons,
        List.mapM_cons, hrest]
      simp only [kernelFunction, kernelNodes, visible_congr hk]

/-- A kernel replaced by another one of its name and parameters: the rest of
the source does not notice. -/
theorem compile_replace {before after : Xaccsrc} {k k' : Xacckernel} {ir : IR N}
    (h : compile S (before ++ k :: after) = .ok ir)
    (hname : k'.kernelname = k.kernelname)
    (hparams : k'.typedparams = k.typedparams) :
    compile S (before ++ k' :: after) = .ok ir ↔
      kernelNodes S before k' = kernelNodes S before k := by
  have hafter : kernelFunctions S (before ++ [k']) after
      = kernelFunctions S (before ++ [k]) after :=
    kernelFunctions_congr (by simp [hname]) after
  have hformals : formals k' = (formals k : List (InstructionParameter N)) := by
    rw [formals, formals, hparams]
  obtain ⟨fs, ns, gs, hfs, hns, hgs, rfl⟩ := compile_split.mp h
  rw [compile_split, hns, hafter, hname, hformals]
  constructor
  · rintro ⟨fs', ns', gs', hfs', hns', hgs', heq⟩
    rw [hfs] at hfs'
    cases hfs'
    rw [hgs] at hgs'
    cases hgs'
    rw [hns']
    simp only [IR.mk.injEq, List.append_cancel_left_eq, List.cons.injEq,
      KernelFunction.mk.injEq, and_true, true_and] at heq
    rw [heq.2]
  · intro heq
    exact ⟨fs, ns, gs, hfs, heq, hgs, by simp⟩

/-- The nodes of a kernel, split at one of its statements. -/
theorem kernelNodes_split {before : Xaccsrc} {k : Xacckernel}
    {pre post : List Statement} {s : Statement} {ns : List (Node N)}
    (h : kernelNodes S before k = .ok ns) (hk : k.statements = pre ++ s :: post) :
    ∃ ns₁ ns₂ ns₃, ns = ns₁ ++ (ns₂ ++ ns₃) ∧
      ns₁.length = (pre.flatMap callbacks).length ∧
      (callbacks s).mapM (nodeOf S (visible (before ++ [k]))) = .ok ns₂ := by
  rw [kernelNodes, kernelCallbacks, hk, List.flatMap_append, List.flatMap_cons] at h
  obtain ⟨ns₁, rest, hns₁, hrest, rfl⟩ := mapM_append_ok.mp h
  obtain ⟨ns₂, ns₃, hns₂, _, rfl⟩ := mapM_append_ok.mp hrest
  exact ⟨ns₁, ns₂, ns₃, rfl, (mapM_ok.mp hns₁).length_eq.symm, hns₂⟩

/-! ## The callbacks of a source -/

/-- Every callback of the walk, with the kernels its name is looked up in. -/
def sourceCallbacks (src : Xaccsrc) : List (StdMap String Nat × Callback) :=
  (splits src).flatMap fun p =>
    (kernelCallbacks p.2).map (visible (p.1 ++ [p.2]), ·)

/-- A walk fails as the first callback that fails. -/
theorem compile_error {src : Xaccsrc} {e : WalkFailure} :
    compile S src = .error e ↔
      ∃ before c after, sourceCallbacks src = before ++ c :: after ∧
        (∀ x ∈ before, ∃ n, nodeOf S x.1 x.2 = .ok n) ∧
        nodeOf S c.1 c.2 = .error e := by
  rw [compile_eq, map_error]
  have hkernel : ∀ (p : Xaccsrc × Xacckernel) (e : WalkFailure),
      kernelFunction S p.1 p.2 = .error e ↔
      ((kernelCallbacks p.2).map (visible (p.1 ++ [p.2]), ·)).mapM
        (fun x => nodeOf S x.1 x.2) = .error e := by
    intro p e
    rw [kernelFunction, map_error, List.mapM_map]
    rfl
  rw [mapM_congr_error hkernel, ← mapM_flatMap_error]
  exact mapM_error

end XaccIbm.OQASMCompiler
