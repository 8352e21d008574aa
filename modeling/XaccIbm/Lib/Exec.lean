import Mathlib.Data.List.Basic

/-!
# Exec — C++ calls that may raise

A call on an object is a function of the object's state that ends in one of
two ways, and in both of them the state it leaves behind is kept: an
exception does not undo the writes made before it. `EStateM` is exactly
that. Code that reads outside a container has no defined result; such a
call ends in `Failure.undefined`, so a successful call is one that made no
such read.
-/

namespace XaccIbm

/-- How a call ends when it does not return. -/
inductive Failure where
  /-- An exception, with the text it carries. -/
  | error (msg : String)
  /-- A read outside a container, or of a member that is not there. -/
  | undefined
  /-- A polling loop still waits for the next reply. -/
  | waiting
  deriving DecidableEq, Repr

/-- A call on an object with state `σ` that returns an `α` or fails. -/
abbrev Exec (σ α : Type) := EStateM Failure σ α

namespace Exec

variable {σ α β : Type}

/-- The state a call leaves behind, however it ends. -/
def after (r : EStateM.Result Failure σ α) : σ :=
  match r with
  | .ok _ s => s
  | .error _ s => s

/-- Whether a call returned. -/
def succeeds (r : EStateM.Result Failure σ α) : Bool :=
  match r with
  | .ok _ _ => true
  | .error _ _ => false

@[simp] theorem after_ok (a : α) (s : σ) :
    after (.ok a s : EStateM.Result Failure σ α) = s := rfl

@[simp] theorem after_error (e : Failure) (s : σ) :
    after (.error e s : EStateM.Result Failure σ α) = s := rfl

@[simp] theorem succeeds_ok (a : α) (s : σ) :
    succeeds (.ok a s : EStateM.Result Failure σ α) = true := rfl

@[simp] theorem succeeds_error (e : Failure) (s : σ) :
    succeeds (.error e s : EStateM.Result Failure σ α) = false := rfl

theorem succeeds_iff {r : EStateM.Result Failure σ α} :
    succeeds r = true ↔ ∃ a s, r = .ok a s := by
  cases r <;> simp [succeeds]

@[simp] theorem pure_apply (a : α) (s : σ) :
    (pure a : Exec σ α) s = .ok a s := rfl

@[simp] theorem throw_apply (e : Failure) (s : σ) :
    (throw e : Exec σ α) s = .error e s := rfl

@[simp] theorem get_apply (s : σ) : (get : Exec σ σ) s = .ok s s := rfl

@[simp] theorem set_apply (s s' : σ) :
    (set s' : Exec σ PUnit) s = .ok ⟨⟩ s' := rfl

@[simp] theorem modify_apply (f : σ → σ) (s : σ) :
    (modify f : Exec σ PUnit) s = .ok ⟨⟩ (f s) := rfl

theorem bind_apply (x : Exec σ α) (f : α → Exec σ β) (s : σ) :
    (x >>= f) s = match x s with
      | .ok a s' => f a s'
      | .error e s' => .error e s' := by
  show EStateM.bind x f s = _
  unfold EStateM.bind
  cases x s <;> rfl

/-- A sequence returns exactly when both of its parts do. -/
theorem bind_ok {x : Exec σ α} {f : α → Exec σ β} {s s'' : σ} {b : β} :
    (x >>= f) s = .ok b s'' ↔
      ∃ a s', x s = .ok a s' ∧ f a s' = .ok b s'' := by
  rw [bind_apply]
  cases x s with
  | ok a s' =>
      constructor
      · intro h
        exact ⟨a, s', rfl, h⟩
      · rintro ⟨a', t, h, hf⟩
        cases h
        exact hf
  | error e s' => simp

/-- A sequence whose first part is known to return. -/
theorem bind_of_ok {x : Exec σ α} {f : α → Exec σ β} {s s' : σ} {a : α}
    (h : x s = .ok a s') : (x >>= f) s = f a s' := by
  rw [bind_apply, h]

theorem get_bind (f : σ → Exec σ β) (s : σ) : (get >>= f) s = f s s := rfl

theorem modify_bind (g : σ → σ) (f : PUnit → Exec σ β) (s : σ) :
    (modify g >>= f) s = f ⟨⟩ (g s) := rfl

/-- A sequence fails in its first part or in its second. -/
theorem bind_error {x : Exec σ α} {f : α → Exec σ β} {s s'' : σ} {e : Failure}
    (h : (x >>= f) s = .error e s'') :
    x s = .error e s'' ∨ ∃ a s', x s = .ok a s' ∧ f a s' = .error e s'' := by
  rw [bind_apply] at h
  cases hx : x s with
  | ok a s' =>
      rw [hx] at h
      exact .inr ⟨a, s', rfl, h⟩
  | error e' s' =>
      rw [hx] at h
      cases h
      exact .inl rfl

/-- A result passed on changes nothing. -/
theorem after_bind_pure (x : Exec σ α) (f : α → β) (s : σ) :
    after ((x >>= fun a => pure (f a)) s) = after (x s) := by
  rw [bind_apply]
  cases x s <;> rfl

theorem succeeds_bind_pure (x : Exec σ α) (f : α → β) (s : σ) :
    succeeds ((x >>= fun a => pure (f a)) s) = succeeds (x s) := by
  rw [bind_apply]
  cases x s <;> rfl

/-- Run a call on one part of the object; the rest is untouched. -/
def onPart {τ : Type} (part : σ → τ) (put : τ → σ → σ) (x : Exec τ α) :
    Exec σ α := fun s =>
  match x (part s) with
  | .ok a t => .ok a (put t s)
  | .error e t => .error e (put t s)

/-- A value that may be missing: reading it when it is has no defined
result. -/
def demand : Option α → Exec σ α
  | some a => pure a
  | none => throw .undefined

@[simp] theorem demand_some (a : α) (s : σ) :
    (demand (some a) : Exec σ α) s = .ok a s := rfl

@[simp] theorem demand_none (s : σ) :
    (demand none : Exec σ α) s = .error .undefined s := rfl

theorem demand_ok {o : Option α} {s s' : σ} {a : α} :
    (demand o : Exec σ α) s = .ok a s' ↔ o = some a ∧ s' = s := by
  cases o with
  | none => simp
  | some b =>
      simp only [demand_some, EStateM.Result.ok.injEq, Option.some.injEq]
      constructor
      · rintro ⟨rfl, rfl⟩
        exact ⟨rfl, rfl⟩
      · rintro ⟨rfl, rfl⟩
        exact ⟨rfl, rfl⟩

theorem demand_bind_ok {o : Option α} {f : α → Exec σ β} {s s' : σ} {b : β} :
    (demand o >>= f) s = .ok b s' ↔ ∃ a, o = some a ∧ f a s = .ok b s' := by
  cases o with
  | none => simp [bind_apply]
  | some a => simp [bind_apply]

/-- The answer of a service: a value, or the text of an exception. -/
def reply : Except String α → Exec σ α
  | .ok a => pure a
  | .error msg => throw (.error msg)

@[simp] theorem reply_ok (a : α) (s : σ) :
    (reply (.ok a) : Exec σ α) s = .ok a s := rfl

@[simp] theorem reply_error (msg : String) (s : σ) :
    (reply (.error msg) : Exec σ α) s = .error (.error msg) s := rfl

theorem reply_bind_ok {x : Except String α} {f : α → Exec σ β} {s s' : σ} {b : β} :
    (reply x >>= f) s = .ok b s' ↔ ∃ a, x = .ok a ∧ f a s = .ok b s' := by
  cases x with
  | error e => simp [bind_apply]
  | ok a => simp [bind_apply]

/-! ## What a call leaves alone -/

/-- A call that leaves a part of the object as it was, however it ends. -/
def Keeps {τ : Type} (part : σ → τ) (x : Exec σ α) : Prop :=
  ∀ s, part (after (x s)) = part s

section

variable {τ : Type} {p : σ → τ}

theorem Keeps.of_ok {x : Exec σ α} (h : Keeps p x) {s s' : σ} {a : α}
    (hx : x s = .ok a s') : p s' = p s := by
  have := h s
  rwa [hx] at this

theorem Keeps.pure (a : α) : Keeps p (pure a : Exec σ α) := fun _ => rfl

theorem Keeps.throw (e : Failure) : Keeps p (throw e : Exec σ α) :=
  fun _ => rfl

theorem Keeps.get : Keeps p (get : Exec σ σ) := fun _ => rfl

theorem Keeps.demand (o : Option α) : Keeps p (demand o) := by
  intro s
  cases o <;> rfl

theorem Keeps.reply (x : Except String α) : Keeps p (reply x) := by
  intro s
  cases x <;> rfl

theorem Keeps.bind {x : Exec σ α} {f : α → Exec σ β} (hx : Keeps p x)
    (hf : ∀ a, Keeps p (f a)) : Keeps p (x >>= f) := by
  intro s
  rw [bind_apply]
  have h := hx s
  cases hr : x s with
  | error e s' =>
      rw [hr] at h
      exact h
  | ok a s' =>
      rw [hr] at h
      exact (hf a s').trans h

/-- When the rest of a sequence keeps a part, its beginning decides it. -/
theorem Keeps.after_bind {x : Exec σ α} {f : α → Exec σ β}
    (hf : ∀ a, Keeps p (f a)) (s : σ) :
    p (after ((x >>= f) s)) = p (after (x s)) := by
  rw [bind_apply]
  cases x s with
  | error e s' => rfl
  | ok a s' => exact hf a s'

/-- A part that is kept until the failure is kept by a failing sequence. -/
theorem Keeps.of_error {x : Exec σ α} (hx : Keeps p x) {f : α → Exec σ β}
    (hf : ∀ a s e s', f a s = .error e s' → p s' = p s) {s s' : σ}
    {e : Failure} (h : (x >>= f) s = .error e s') : p s' = p s := by
  have hpart := hx s
  rcases bind_error h with h | ⟨a, s1, ha, h⟩
  · rwa [h] at hpart
  · rw [ha] at hpart
    exact (hf a s1 e s' h).trans hpart

theorem Keeps.modify {f : σ → σ} (h : ∀ s, p (f s) = p s) :
    Keeps p (modify f : Exec σ PUnit) := h

theorem Keeps.ite {c : Prop} [Decidable c] {x y : Exec σ α}
    (hx : Keeps p x) (hy : Keeps p y) :
    Keeps p (if c then x else y) := by
  split
  · exact hx
  · exact hy

/-- A part of a part that is kept is kept. -/
theorem Keeps.sub {υ : Type} (f : τ → υ) {x : Exec σ α} (h : Keeps p x) :
    Keeps (fun s => f (p s)) x := fun s => congrArg f (h s)

end

end Exec

end XaccIbm
