import Mathlib.Data.List.Forall2

/-!
# Traverse — a fallible map over a list

`List.mapM` in `Except`: it returns when every element does, element by
element, and otherwise ends with the failure of the first element that
fails.
-/

namespace XaccIbm.Traverse

variable {ε α β : Type}

/-- A sequence returns exactly when both of its parts do. -/
theorem bind_ok {γ : Type} {x : Except ε α} {f : α → Except ε γ} {c : γ} :
    x >>= f = .ok c ↔ ∃ a, x = .ok a ∧ f a = .ok c := by
  cases x with
  | error e =>
      constructor
      · intro h
        cases h
      · rintro ⟨a, h, _⟩
        cases h
  | ok a =>
      constructor
      · intro h
        exact ⟨a, rfl, h⟩
      · rintro ⟨b, h, hf⟩
        cases h
        exact hf

/-- A sequence fails in its first part or in its second. -/
theorem bind_error {γ : Type} {x : Except ε α} {f : α → Except ε γ} {e : ε} :
    x >>= f = .error e ↔ x = .error e ∨ ∃ a, x = .ok a ∧ f a = .error e := by
  cases x with
  | error e' =>
      constructor
      · intro h
        cases h
        exact .inl rfl
      · rintro (h | ⟨a, h, _⟩)
        · cases h
          rfl
        · cases h
  | ok a =>
      constructor
      · intro h
        exact .inr ⟨a, rfl, h⟩
      · rintro (h | ⟨b, h, hf⟩)
        · cases h
        · cases h
          exact hf

theorem map_ok {γ : Type} {x : Except ε α} {f : α → γ} {c : γ} :
    f <$> x = .ok c ↔ ∃ a, x = .ok a ∧ f a = c := by
  cases x with
  | error e =>
      constructor
      · intro h
        cases h
      · rintro ⟨a, h, _⟩
        cases h
  | ok a =>
      constructor
      · intro h
        exact ⟨a, rfl, Except.ok.inj h⟩
      · rintro ⟨b, h, rfl⟩
        cases h
        rfl

theorem map_error {γ : Type} {x : Except ε α} {f : α → γ} {e : ε} :
    f <$> x = .error e ↔ x = .error e := by
  cases x with
  | error e' =>
      constructor
      · intro h
        cases h
        rfl
      · intro h
        cases h
        rfl
  | ok a =>
      constructor
      · intro h
        cases h
      · intro h
        cases h

/-- A result or a failure. -/
theorem ok_or_error (x : Except ε α) : (∃ a, x = .ok a) ∨ ∃ e, x = .error e := by
  cases x with
  | ok a => exact .inl ⟨a, rfl⟩
  | error e => exact .inr ⟨e, rfl⟩

variable {f : α → Except ε β}

theorem mapM_cons_ok {a : α} {as : List α} {bs : List β} :
    (a :: as).mapM f = .ok bs ↔
      ∃ b cs, f a = .ok b ∧ as.mapM f = .ok cs ∧ bs = b :: cs := by
  rw [List.mapM_cons, bind_ok]
  constructor
  · rintro ⟨b, hb, h⟩
    obtain ⟨cs, hcs, h⟩ := bind_ok.mp h
    exact ⟨b, cs, hb, hcs, (Except.ok.inj h).symm⟩
  · rintro ⟨b, cs, hb, hcs, rfl⟩
    exact ⟨b, hb, bind_ok.mpr ⟨cs, hcs, rfl⟩⟩

/-- **All results, or none.** -/
theorem mapM_ok {as : List α} {bs : List β} :
    as.mapM f = .ok bs ↔ List.Forall₂ (fun a b => f a = .ok b) as bs := by
  induction as generalizing bs with
  | nil =>
      rw [List.mapM_nil, List.forall₂_nil_left_iff]
      constructor
      · intro h
        exact (Except.ok.inj h).symm
      · rintro rfl
        rfl
  | cons a as ih =>
      rw [mapM_cons_ok, List.forall₂_cons_left_iff]
      simp only [ih]

/-- The same in `Option`. -/
theorem mapM_eq_some {g : α → Option β} {as : List α} {bs : List β} :
    as.mapM g = some bs ↔ List.Forall₂ (fun a b => g a = some b) as bs := by
  induction as generalizing bs with
  | nil =>
      rw [List.mapM_nil, List.forall₂_nil_left_iff]
      exact ⟨fun h => (Option.some.inj h).symm, fun h => by rw [h]; rfl⟩
  | cons a as ih =>
      rw [List.mapM_cons, List.forall₂_cons_left_iff]
      constructor
      · intro h
        obtain ⟨b, hb, h⟩ := Option.bind_eq_some_iff.mp h
        obtain ⟨bs', hbs, h⟩ := Option.bind_eq_some_iff.mp h
        exact ⟨b, bs', hb, ih.mp hbs, (Option.some.inj h).symm⟩
      · rintro ⟨b, bs', hb, hbs, rfl⟩
        rw [hb, ih.mpr hbs]
        rfl

/-- The places of a list of two. -/
theorem forall_pair {a b : α} {p : Nat → α → Prop} :
    (∀ i c, [a, b][i]? = some c → p i c) ↔ p 0 a ∧ p 1 b := by
  constructor
  · intro h
    exact ⟨h 0 a rfl, h 1 b rfl⟩
  · rintro ⟨ha, hb⟩ i c hc
    cases i with
    | zero =>
        cases hc
        exact ha
    | succ i =>
        cases i with
        | zero =>
            cases hc
            exact hb
        | succ i => cases hc

/-- A result for every element, place by place. -/
theorem exists_results {R : Nat → α → β → Prop} {as : List α}
    (h : ∀ j a, as[j]? = some a → ∃ b, R j a b) :
    ∃ bs : List β, bs.length = as.length ∧
      ∀ j a b, as[j]? = some a → bs[j]? = some b → R j a b := by
  induction as generalizing R with
  | nil => exact ⟨[], rfl, fun j a b ha => by simp at ha⟩
  | cons a as ih =>
      obtain ⟨b, hb⟩ := h 0 a rfl
      obtain ⟨bs, hlen, hall⟩ := ih (R := fun j => R (j + 1)) fun j a ha => h (j + 1) a ha
      refine ⟨b :: bs, by simp [hlen], fun j a' b' ha hb' => ?_⟩
      cases j with
      | zero =>
          cases ha
          cases hb'
          exact hb
      | succ j => exact hall j a' b' ha hb'

theorem exists_mapM_eq_some {g : α → Option β} {as : List α} (h : ∀ a ∈ as, ∃ b, g a = some b) :
    ∃ bs, as.mapM g = some bs := by
  induction as with
  | nil => exact ⟨[], rfl⟩
  | cons a as ih =>
      obtain ⟨b, hb⟩ := h a List.mem_cons_self
      obtain ⟨bs, hbs⟩ := ih fun x hx => h x (List.mem_cons_of_mem _ hx)
      exact ⟨b :: bs, mapM_eq_some.mpr (.cons hb (mapM_eq_some.mp hbs))⟩

/-- Two relations in turn. -/
theorem forall₂_comp {γ : Type} {R : α → β → Prop} {T : β → γ → Prop} {as : List α}
    {cs : List γ} :
    List.Forall₂ (fun a c => ∃ b, R a b ∧ T b c) as cs ↔
      ∃ bs, List.Forall₂ R as bs ∧ List.Forall₂ T bs cs := by
  constructor
  · intro h
    induction h with
    | nil => exact ⟨[], .nil, .nil⟩
    | cons hac _ ih =>
        obtain ⟨b, hab, hbc⟩ := hac
        obtain ⟨bs, hR, hT⟩ := ih
        exact ⟨b :: bs, .cons hab hR, .cons hbc hT⟩
  · rintro ⟨bs, hR, hT⟩
    induction hR generalizing cs with
    | nil =>
        cases hT
        exact .nil
    | cons hab _ ih =>
        cases hT with
        | cons hbc hT => exact .cons ⟨_, hab, hbc⟩ (ih hT)

theorem mapM_append_ok {as as' : List α} {bs : List β} :
    (as ++ as').mapM f = .ok bs ↔
      ∃ cs ds, as.mapM f = .ok cs ∧ as'.mapM f = .ok ds ∧ bs = cs ++ ds := by
  rw [List.mapM_append, bind_ok]
  constructor
  · rintro ⟨cs, hcs, h⟩
    obtain ⟨ds, hds, h⟩ := bind_ok.mp h
    exact ⟨cs, ds, hcs, hds, (Except.ok.inj h).symm⟩
  · rintro ⟨cs, ds, hcs, hds, rfl⟩
    exact ⟨cs, hcs, bind_ok.mpr ⟨ds, hds, rfl⟩⟩

/-- The result at a position is that of the element there. -/
theorem mapM_ok_get {as : List α} {bs : List β} (h : as.mapM f = .ok bs)
    {j : Nat} {a : α} (ha : as[j]? = some a) :
    ∃ b, bs[j]? = some b ∧ f a = .ok b := by
  have hall := mapM_ok.mp h
  clear h
  induction hall generalizing j with
  | nil => cases ha
  | @cons x y xs ys hxy hrest ih =>
      cases j with
      | zero =>
          cases ha
          exact ⟨y, rfl, hxy⟩
      | succ j => exact ih ha

theorem forall₂_mem {R : α → β → Prop} {as : List α} {bs : List β}
    (h : List.Forall₂ R as bs) {a : α} (ha : a ∈ as) : ∃ b ∈ bs, R a b := by
  induction h with
  | nil => cases ha
  | @cons a' b' as' bs' hab _ ih =>
      rcases List.mem_cons.mp ha with rfl | ha
      · exact ⟨b', by simp, hab⟩
      · obtain ⟨b, hb, hab⟩ := ih ha
        exact ⟨b, List.mem_cons_of_mem b' hb, hab⟩

/-- Every element of a traversal that returned has its result. -/
theorem mapM_ok_mem {as : List α} {bs : List β} (h : as.mapM f = .ok bs)
    {a : α} (ha : a ∈ as) : ∃ b ∈ bs, f a = .ok b :=
  forall₂_mem (mapM_ok.mp h) ha

/-- Every result is that of an element. -/
theorem mapM_ok_of_mem {as : List α} {bs : List β} (h : as.mapM f = .ok bs)
    {b : β} (hb : b ∈ bs) : ∃ a ∈ as, f a = .ok b := by
  have hall := mapM_ok.mp h
  clear h
  induction hall with
  | nil => cases hb
  | @cons x y xs ys hxy _ ih =>
      rcases List.mem_cons.mp hb with rfl | hb
      · exact ⟨x, by simp, hxy⟩
      · obtain ⟨a, ha, hab⟩ := ih hb
        exact ⟨a, by simp [ha], hab⟩

/-- **The first failure ends the traversal.** -/
theorem mapM_error {as : List α} {e : ε} :
    as.mapM f = .error e ↔
      ∃ before a after, as = before ++ a :: after ∧
        (∀ x ∈ before, ∃ b, f x = .ok b) ∧ f a = .error e := by
  induction as with
  | nil =>
      constructor
      · intro h
        cases h
      · rintro ⟨before, a, after, h, _⟩
        simp at h
  | cons a as ih =>
      rw [List.mapM_cons, bind_error]
      constructor
      · rintro (h | ⟨b, hb, h⟩)
        · exact ⟨[], a, as, rfl, by simp, h⟩
        · rcases bind_error.mp h with h | ⟨cs, _, h⟩
          · obtain ⟨before, x, after, rfl, hbefore, hx⟩ := ih.mp h
            refine ⟨a :: before, x, after, rfl, ?_, hx⟩
            intro y hy
            rcases List.mem_cons.mp hy with rfl | hy
            · exact ⟨b, hb⟩
            · exact hbefore y hy
          · cases h
      · rintro ⟨before, x, after, h, hbefore, hx⟩
        cases before with
        | nil =>
            cases h
            exact .inl hx
        | cons y before =>
            cases h
            obtain ⟨b, hb⟩ := hbefore a (by simp)
            refine .inr ⟨b, hb, bind_error.mpr (.inl (ih.mpr ?_))⟩
            exact ⟨before, x, after, rfl,
              fun z hz => hbefore z (by simp [hz]), hx⟩

/-- A nested traversal fails as the flat one does. -/
theorem mapM_flatMap_error {γ : Type} {g : γ → List α} {cs : List γ} {e : ε} :
    (cs.flatMap g).mapM f = .error e ↔
      (cs.mapM fun c => (g c).mapM f) = .error e := by
  induction cs with
  | nil =>
      constructor
      · intro h
        cases h
      · intro h
        cases h
  | cons c cs ih =>
      rw [List.flatMap_cons, List.mapM_append, List.mapM_cons, bind_error,
        bind_error]
      refine or_congr Iff.rfl (exists_congr fun bs => and_congr_right fun _ => ?_)
      rw [bind_error, bind_error, ih]
      refine or_congr Iff.rfl ?_
      constructor
      · rintro ⟨_, _, h⟩
        cases h
      · rintro ⟨_, _, h⟩
        cases h

theorem mapM_congr_error {g : α → Except ε β} {γ : Type} {k : α → Except ε γ}
    {e : ε} (h : ∀ a e, g a = .error e ↔ k a = .error e) {as : List α} :
    as.mapM g = .error e ↔ as.mapM k = .error e := by
  have hok : ∀ a, (∃ b, g a = .ok b) ↔ ∃ c, k a = .ok c := by
    intro a
    constructor
    · rintro ⟨b, hb⟩
      rcases ok_or_error (k a) with hk | ⟨e, hk⟩
      · exact hk
      · rw [(h a e).mpr hk] at hb
        cases hb
    · rintro ⟨c, hc⟩
      rcases ok_or_error (g a) with hg | ⟨e, hg⟩
      · exact hg
      · rw [(h a e).mp hg] at hc
        cases hc
  rw [mapM_error, mapM_error]
  simp only [hok, h]

end XaccIbm.Traverse
