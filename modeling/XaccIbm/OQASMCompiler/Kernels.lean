import Mathlib.Logic.Relation
import XaccIbm.OQASMCompiler.Registry

/-!
# OQASMCompiler — Kernels

Kernels that call kernels. A call inserts the function object of the first
kernel of that name, and a kernel's own name is known from the moment its
body is entered, so a function can come to contain itself. Then there is no
finite list of its instructions, which is what every traversal of a function
makes.
-/

namespace XaccIbm.OQASMCompiler

open OpenQasm Traverse

variable {N : Type}

/-! ## Traversals -/

/-- What `InstructionIterator` lists for some nodes: each node, and after a
function the nodes of the function. There is a derivation only when the
traversal ends. -/
inductive Lists (heap : List (KernelFunction N)) :
    List (Node N) → List (Node N) → Prop where
  | nil : Lists heap [] []
  | inst {i : GateInstruction N} {ns l : List (Node N)} (h : Lists heap ns l) :
      Lists heap (.inst i :: ns) (.inst i :: l)
  | call {j : Nat} {f : KernelFunction N} {ns m l : List (Node N)}
      (hf : heap[j]? = some f) (hm : Lists heap f.instructions m)
      (h : Lists heap ns l) : Lists heap (.call j :: ns) (.call j :: m ++ l)

theorem Lists.unique {heap : List (KernelFunction N)} {ns l l' : List (Node N)}
    (h : Lists heap ns l) (h' : Lists heap ns l') : l = l' := by
  induction h generalizing l' with
  | nil =>
      cases h'
      rfl
  | inst _ ih =>
      cases h' with
      | inst h' => rw [ih h']
  | call hf _ _ ihm ih =>
      cases h' with
      | call hf' hm' h' =>
          rw [hf] at hf'
          cases hf'
          rw [ihm hm', ih h']

/-- What a contained function lists is listed after its call. -/
theorem Lists.of_call {heap : List (KernelFunction N)} {ns m : List (Node N)}
    (h : Lists heap ns m) {j : Nat} (hj : .call j ∈ ns) :
    ∃ f m', heap[j]? = some f ∧ Lists heap f.instructions m' ∧ .call j :: m' <:+: m := by
  induction h with
  | nil => cases hj
  | inst _ ih =>
      rcases List.mem_cons.mp hj with heq | hj
      · cases heq
      · obtain ⟨f, m', hf, hm', hin⟩ := ih hj
        exact ⟨f, m', hf, hm', List.infix_cons hin⟩
  | @call j₁ f₁ _ m₁ l₁ hf₁ hm₁ _ _ ih =>
      rcases List.mem_cons.mp hj with heq | hj
      · cases heq
        exact ⟨f₁, m₁, hf₁, hm₁, (List.prefix_append _ l₁).isInfix⟩
      · obtain ⟨f, m', hf, hm', hin⟩ := ih hj
        exact ⟨f, m', hf, hm', hin.trans (List.suffix_append _ l₁).isInfix⟩

/-- The function at `i` contains the one at `j`. -/
def Contains (heap : List (KernelFunction N)) (i j : Nat) : Prop :=
  ∃ f, heap[i]? = some f ∧ .call j ∈ f.instructions

/-- **The kernels are well founded**: none contains itself, directly or
through others, and every traversal of one ends. -/
def WellFoundedKernels (ir : IR N) : Prop :=
  (∀ i, ¬ Relation.TransGen (Contains ir.heap) i i) ∧
    ∀ f ∈ ir.heap, ∃ l, Lists ir.heap f.instructions l

/-- When every function contains earlier ones only, every traversal ends. -/
theorem exists_lists {heap : List (KernelFunction N)}
    (h : ∀ i j, Contains heap i j → j < i ∧ j < heap.length) {i : Nat}
    {f : KernelFunction N} (hf : heap[i]? = some f) :
    ∃ l, Lists heap f.instructions l := by
  induction i using Nat.strong_induction_on generalizing f with
  | _ i ih =>
      have hcalls : ∀ ns : List (Node N), (∀ j, .call j ∈ ns → .call j ∈ f.instructions) →
          ∃ l, Lists heap ns l := by
        intro ns
        induction ns with
        | nil => intro _; exact ⟨[], .nil⟩
        | cons n ns ihns =>
            intro hsub
            obtain ⟨l, hl⟩ := ihns fun j hj => hsub j (by simp [hj])
            cases n with
            | inst g => exact ⟨_, .inst hl⟩
            | call j =>
                obtain ⟨hji, hjlen⟩ := h i j ⟨f, hf, hsub j (by simp)⟩
                have hg := List.getElem?_eq_getElem hjlen
                obtain ⟨m, hm⟩ := ih j hji hg
                exact ⟨_, .call hg hm hl⟩
      exact hcalls f.instructions fun j hj => hj

/-! ## Calls in a source -/

variable {S : Services N}

/-- The first kernel of a name. -/
theorem visible_find {ks : Xaccsrc} {name : String} {j : Nat} :
    (visible ks).find name = some j ↔
      ∃ before k after, ks = before ++ k :: after ∧ before.length = j ∧
        k.kernelname.text = name ∧ ∀ k' ∈ before, k'.kernelname.text ≠ name := by
  show (ks.findIdx? fun k => k.kernelname.text == name) = some j ↔ _
  constructor
  · intro h
    obtain ⟨hj, hp, hno⟩ := List.findIdx?_eq_some_iff_getElem.mp h
    refine ⟨ks.take j, ks[j], ks.drop (j + 1), ?_, ?_, by simpa using hp, ?_⟩
    · rw [← List.drop_eq_getElem_cons, List.take_append_drop]
    · rw [List.length_take]
      omega
    · intro k' hk'
      obtain ⟨i, hi, rfl⟩ := List.mem_take_iff_getElem.mp hk'
      have hlt : i < j := by omega
      simpa using hno i hlt
  · rintro ⟨before, k, after, rfl, rfl, rfl, hno⟩
    have hnone : (before.findIdx? fun k' => k'.kernelname.text == k.kernelname.text) = none :=
      List.findIdx?_eq_none_iff.mpr fun k' hk' => by simpa using hno k' hk'
    rw [List.findIdx?_append, hnone, List.findIdx?_cons]
    simp

/-- Every function object is that of a kernel, at its place. -/
theorem compiled_of_heap {src : Xaccsrc} {ir : IR N} (h : compile S src = .ok ir)
    {j : Nat} {f : KernelFunction N} (hf : ir.heap[j]? = some f) :
    ∃ before k after, src = before ++ k :: after ∧ before.length = j ∧
      kernelNodes S before k = .ok f.instructions := by
  have hj : j < src.length := by
    rw [← compiled_length h]
    exact (List.getElem?_eq_some_iff.mp hf).1
  have hsplit : src = src.take j ++ src[j] :: src.drop (j + 1) := by
    rw [← List.drop_eq_getElem_cons, List.take_append_drop]
  have hlen : (src.take j).length = j := by
    rw [List.length_take]
    omega
  refine ⟨_, _, _, hsplit, hlen, ?_⟩
  rw [hsplit] at h
  obtain ⟨ns, hns, hheap⟩ := compiled_heap h
  rw [hlen, hf] at hheap
  cases hheap
  exact hns

/-- Which functions a compiled kernel contains. -/
theorem contains_iff {before after : Xaccsrc} {k : Xacckernel} {ir : IR N}
    (h : compile S (before ++ k :: after) = .ok ir) {j : Nat} :
    Contains ir.heap before.length j ↔
      ∃ ctx, .exitKernelcall ctx ∈ kernelCallbacks k ∧
        (visible (before ++ [k])).find ctx.kernelname.text = some j := by
  obtain ⟨ns, hns, hheap⟩ := compiled_heap h
  constructor
  · rintro ⟨f, hf, hj⟩
    rw [hheap] at hf
    cases hf
    obtain ⟨c, hc, hcj⟩ := mapM_ok_of_mem hns hj
    obtain ⟨ctx, rfl, hfind⟩ := nodeOf_call.mp hcj
    exact ⟨ctx, hc, hfind⟩
  · rintro ⟨ctx, hctx, hfind⟩
    refine ⟨_, hheap, ?_⟩
    obtain ⟨n, hn, hcn⟩ := mapM_ok_mem hns hctx
    rw [nodeOf_call.mpr ⟨ctx, rfl, hfind⟩] at hcn
    cases hcn
    exact hn

/-- A kernel that calls its own name. -/
def CallsItself (k : Xacckernel) : Prop :=
  ∃ ctx, .exitKernelcall ctx ∈ kernelCallbacks k ∧
    ctx.kernelname.text = k.kernelname.text

/-- A kernel calls its own name only when an earlier kernel has it. -/
def NoCycle (src : Xaccsrc) : Prop :=
  ∀ before k after, src = before ++ k :: after → CallsItself k →
    ∃ k' ∈ before, k'.kernelname.text = k.kernelname.text

/-- A kernel that calls the first kernel of its own name has no finite list
of instructions. -/
theorem noCycle_of_lists {src : Xaccsrc} {ir : IR N} (h : compile S src = .ok ir)
    (hlists : ∀ f ∈ ir.heap, ∃ m, Lists ir.heap f.instructions m) : NoCycle src := by
  rintro before k after rfl ⟨ctx, hctx, hname⟩
  by_contra hno
  have hself : Contains ir.heap before.length before.length := by
    refine (contains_iff h).mpr ⟨ctx, hctx, ?_⟩
    rw [hname]
    refine visible_find.mpr ⟨before, k, [], rfl, rfl, rfl, ?_⟩
    intro k' hk' heq
    exact hno ⟨k', hk', heq⟩
  obtain ⟨f, hf, hcall⟩ := hself
  obtain ⟨m, hm⟩ := hlists f (List.mem_of_getElem? hf)
  obtain ⟨f', m', hf', hm', hin⟩ := hm.of_call hcall
  rw [hf] at hf'
  cases hf'
  have hlen := hin.length_le
  rw [hm'.unique hm, List.length_cons] at hlen
  omega

/-- A call goes to an earlier kernel, or to the kernel it stands in when
that is the first of its name. -/
theorem contains_le {before after : Xaccsrc} {k : Xacckernel} {ir : IR N}
    (h : compile S (before ++ k :: after) = .ok ir) {j : Nat}
    (hj : Contains ir.heap before.length j) :
    j < before.length ∨ j = before.length ∧ CallsItself k ∧
      ∀ k' ∈ before, k'.kernelname.text ≠ k.kernelname.text := by
  obtain ⟨ctx, hctx, hfind⟩ := (contains_iff h).mp hj
  obtain ⟨pre, g, post, hsplit, rfl, hname, hno⟩ := visible_find.mp hfind
  by_cases hlt : pre.length < before.length
  · exact .inl hlt
  · have hlen := congrArg List.length hsplit
    simp only [List.length_append, List.length_cons, List.length_nil] at hlen
    have hpre : pre.length = before.length := by omega
    obtain ⟨rfl, hrest⟩ := List.append_inj hsplit hpre.symm
    cases hrest
    refine .inr ⟨rfl, ⟨ctx, hctx, hname.symm⟩, ?_⟩
    rw [hname]
    exact hno

/-- **Which compiled sources are well founded.** Exactly those in which no
kernel calls its own name, unless an earlier kernel has that name. -/
theorem wellFoundedKernels_iff {src : Xaccsrc} {ir : IR N}
    (h : compile S src = .ok ir) : WellFoundedKernels ir ↔ NoCycle src := by
  constructor
  · intro hwf
    exact noCycle_of_lists h hwf.2
  · intro hsrc
    have hdown : ∀ i j, Contains ir.heap i j → j < i ∧ j < ir.heap.length := by
      intro i j hij
      obtain ⟨f, hf, hcall⟩ := hij
      obtain ⟨before, k, after, rfl, rfl, _⟩ := compiled_of_heap h hf
      have hheap := compiled_length h
      rw [List.length_append, List.length_cons] at hheap
      rcases contains_le h ⟨f, hf, hcall⟩ with hlt | ⟨_, hself, hno⟩
      · omega
      · obtain ⟨k', hk', hname⟩ := hsrc _ _ _ rfl hself
        exact absurd hname (hno k' hk')
    refine ⟨?_, ?_⟩
    · intro i hi
      have hlt : ∀ a b, Relation.TransGen (Contains ir.heap) a b → b < a := by
        intro a b hab
        induction hab with
        | single hab => exact (hdown _ _ hab).1
        | tail _ hbc ih =>
            have := (hdown _ _ hbc).1
            omega
      exact Nat.lt_irrefl i (hlt i i hi)
    · intro f hf
      obtain ⟨i, hi⟩ := List.mem_iff_getElem?.mp hf
      exact exists_lists hdown hi

/-- `g` applies a gate and `f` calls `g`. -/
def callsEarlier : Xaccsrc :=
  [Sample.kernel Sample.g [] [.qop (.uop (Sample.apply Sample.h (.indexed Sample.q Sample.zero)))],
    Sample.kernel Sample.f [] [.kernelcall ⟨Sample.g, some Sample.b, []⟩]]

theorem callsEarlier_wellFounded :
    WellFoundedKernels (N := String)
      ⟨[0, 1], [⟨"g", [], [.inst ⟨"H", [0], []⟩]⟩, ⟨"f", [], [.call 0]⟩]⟩ := by
  have hc : compile plainServices callsEarlier =
      .ok ⟨[0, 1], [⟨"g", [], [.inst ⟨"H", [0], []⟩]⟩, ⟨"f", [], [.call 0]⟩]⟩ := rfl
  refine (wellFoundedKernels_iff hc).mpr ?_
  intro before k after hsplit ⟨ctx, hctx, hname⟩
  cases before with
  | nil =>
      cases hsplit
      rcases List.mem_singleton.mp hctx
  | cons k' before =>
      cases before with
      | nil =>
          cases hsplit
          have hcalls := List.mem_singleton.mp hctx
          cases hcalls
          exact absurd hname (by decide)
      | cons k'' before => simp [callsEarlier] at hsplit

/-- `f` calls `f`. -/
def callsItself : Xaccsrc :=
  [Sample.kernel Sample.f [] [.kernelcall ⟨Sample.f, some Sample.b, []⟩]]

/-- The call is accepted, and the function lists itself. -/
theorem callsItself_not_wellFounded :
    ¬ ∀ (N : Type) (S : Services N) (src : Xaccsrc) (ir : IR N),
      compile S src = .ok ir → WellFoundedKernels ir := by
  intro h
  have hc : compile plainServices callsItself =
      .ok ⟨[0], [⟨"f", [], [.call 0]⟩]⟩ := rfl
  exact (h String plainServices callsItself _ hc).1 0
    (.single ⟨⟨"f", [], [.call 0]⟩, rfl, by simp⟩)

end XaccIbm.OQASMCompiler
