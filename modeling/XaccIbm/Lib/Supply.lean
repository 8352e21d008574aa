import XaccIbm.Lib.Exec

/-!
# Supply — calls that take answers off a list

A call works on a state with a list of answers in it: it takes answers off
the front, and waits when there are none left. The answers behind those that
it takes make no difference to it: unless it ends waiting, it ends the same
way with more answers behind, and leaves them. `Follows` says so of two calls,
because a loop that asks is given more rounds when there are more answers.
-/

namespace XaccIbm.Supply

variable {σ τ α β : Type}

/-- A call that ends waiting for an answer. -/
def Waits (r : EStateM.Result Failure σ α) : Prop := ∃ s, r = .error .waiting s

theorem not_waits_ok (a : α) (s : σ) : ¬ Waits (.ok a s : EStateM.Result Failure σ α) := by
  intro ⟨s', h⟩
  cases h

/-- The same end, with more answers left. -/
def shift (more : σ → σ) : EStateM.Result Failure σ α → EStateM.Result Failure σ α
  | .ok a s => .ok a (more s)
  | .error e s => .error e (more s)

@[simp] theorem shift_ok (more : σ → σ) (a : α) (s : σ) :
    shift more (.ok a s : EStateM.Result Failure σ α) = .ok a (more s) := rfl

@[simp] theorem shift_error (more : σ → σ) (e : Failure) (s : σ) :
    shift more (.error e s : EStateM.Result Failure σ α) = .error e (more s) := rfl

/-- **A call with more answers** goes as another one without them: `more` puts
answers behind those that are there. -/
def Follows (more : σ → σ) (x y : Exec σ α) : Prop :=
  ∀ s, ¬ Waits (x s) → y (more s) = shift more (x s)

variable {more : σ → σ}

theorem Follows.pure (a : α) : Follows more (pure a : Exec σ α) (pure a) := fun _ _ => rfl

theorem Follows.throw (e : Failure) : Follows more (throw e : Exec σ α) (throw e) :=
  fun _ _ => rfl

theorem Follows.demand (o : Option α) : Follows more (Exec.demand o) (Exec.demand o) := by
  intro s _
  cases o <;> rfl

theorem Follows.reply (x : Except String α) : Follows more (Exec.reply x) (Exec.reply x) := by
  intro s _
  cases x <;> rfl

/-- An update that takes no answers. -/
theorem Follows.modify {f : σ → σ} (h : ∀ s, f (more s) = more (f s)) :
    Follows more (modify f : Exec σ PUnit) (modify f) := by
  intro s _
  rw [Exec.modify_apply, Exec.modify_apply, h, shift_ok]

theorem Follows.bind {x y : Exec σ α} {f g : α → Exec σ β} (hx : Follows more x y)
    (hf : ∀ a, Follows more (f a) (g a)) : Follows more (x >>= f) (y >>= g) := by
  intro s hwaits
  rw [Exec.bind_apply] at hwaits ⊢
  cases hr : x s with
  | error e s' =>
      have hnot : ¬ Waits (x s) := by
        intro ⟨t, ht⟩
        rw [hr] at ht
        cases ht
        exact hwaits ⟨s', by rw [hr]⟩
      rw [hx s hnot, Exec.bind_apply, hr]
      rfl
  | ok a s' =>
      rw [hr] at hwaits
      have hnot : ¬ Waits (x s) := by
        rw [hr]
        exact not_waits_ok a s'
      rw [hx s hnot, Exec.bind_apply, hr]
      exact hf a s' hwaits

/-- A call that looks at the state. -/
theorem Follows.get_bind {f g : σ → Exec σ β} (h : ∀ s, Follows more (f s) (g (more s))) :
    Follows more (get >>= f) (get >>= g) :=
  fun s hwaits => h s s hwaits

theorem Follows.ite {c : Prop} [Decidable c] {x y x' y' : Exec σ α} (hx : Follows more x x')
    (hy : Follows more y y') :
    Follows more (if c then x else y) (if c then x' else y') := by
  split
  · exact hx
  · exact hy

/-- A call on a part, whose answers are the part's. -/
theorem Follows.onPart {part : σ → τ} {put : τ → σ → σ} {more' : τ → τ}
    (hpart : ∀ s, part (more s) = more' (part s))
    (hput : ∀ t s, put (more' t) (more s) = more (put t s)) {x y : Exec τ α}
    (h : Follows more' x y) : Follows more (Exec.onPart part put x) (Exec.onPart part put y) := by
  intro s hwaits
  have hnot : ¬ Waits (x (part s)) := by
    intro ⟨t, ht⟩
    apply hwaits
    rw [Exec.onPart, ht]
    exact ⟨_, rfl⟩
  rw [Exec.onPart, Exec.onPart, hpart, h _ hnot]
  cases x (part s) with
  | ok a t => simp only [shift_ok, hput]
  | error e t => simp only [shift_error, hput]

/-- A call on a part without answers. -/
theorem Follows.id (x : Exec τ α) : Follows id x x := by
  intro s _
  show x s = shift (fun t => t) (x s)
  cases x s <;> rfl

end XaccIbm.Supply
