import Mathlib.Data.List.Basic

/-!
# Brackets — where a block ends

Lists in which an opening and a closing bracket are balanced. The bracket
that closes a block is found one way, and a list of blocks that start with a
mark of their own is read one way up to the first element that is no mark.
-/

namespace XaccIbm.Brackets

variable {α : Type}

/-! ## Balanced lists -/

/-- The brackets `o` and `c` are balanced. -/
inductive Nested (o c : α) : List α → Prop where
  | nil : Nested o c []
  | plain {a : α} {as : List α} (ho : a ≠ o) (hc : a ≠ c) (h : Nested o c as) :
      Nested o c (a :: as)
  | block {as bs : List α} (h : Nested o c as) (h' : Nested o c bs) :
      Nested o c (o :: (as ++ c :: bs))

variable {o c : α}

theorem Nested.append {as bs : List α} (h : Nested o c as) (h' : Nested o c bs) :
    Nested o c (as ++ bs) := by
  induction h with
  | nil => exact h'
  | plain ho hc _ ih => exact .plain ho hc ih
  | block h _ _ ih =>
      rw [List.cons_append, List.append_assoc]
      exact .block h ih

theorem nested_of_plain {as : List α} (ho : o ∉ as) (hc : c ∉ as) : Nested o c as := by
  induction as with
  | nil => exact .nil
  | cons a as ih =>
      obtain ⟨hao, ho⟩ := List.ne_and_not_mem_of_not_mem_cons ho
      obtain ⟨hac, hc⟩ := List.ne_and_not_mem_of_not_mem_cons hc
      exact .plain (Ne.symm hao) (Ne.symm hac) (ih ho hc)

theorem nested_flatMap {β : Type} {f : β → List α} {bs : List β}
    (h : ∀ b ∈ bs, Nested o c (f b)) : Nested o c (bs.flatMap f) := by
  induction bs with
  | nil => exact .nil
  | cons b bs ih =>
      rw [List.flatMap_cons]
      exact (h b List.mem_cons_self).append (ih fun x hx => h x (List.mem_cons_of_mem _ hx))

/-- **The closing bracket is found one way.** -/
theorem Nested.close_unique (hoc : o ≠ c) {as bs xs ys : List α} (h : Nested o c as)
    (h' : Nested o c bs) (heq : as ++ c :: xs = bs ++ c :: ys) : as = bs ∧ xs = ys := by
  induction h generalizing bs xs ys with
  | nil =>
      cases h' with
      | nil => exact ⟨rfl, (List.cons.inj heq).2⟩
      | plain ho hc h' => exact absurd (List.cons.inj heq).1.symm hc
      | block => exact absurd (List.cons.inj heq).1.symm hoc
  | plain ho hc _ ih =>
      cases h' with
      | nil => exact absurd (List.cons.inj heq).1 hc
      | plain ho' hc' h' =>
          obtain ⟨rfl, hrest⟩ := List.cons.inj heq
          obtain ⟨rfl, rfl⟩ := ih h' hrest
          exact ⟨rfl, rfl⟩
      | block => exact absurd (List.cons.inj heq).1 ho
  | block _ _ ih ih' =>
      cases h' with
      | nil => exact absurd (List.cons.inj heq).1 hoc
      | plain ho hc h' => exact absurd (List.cons.inj heq).1.symm ho
      | block h1 h2 =>
          rw [List.cons_append, List.cons_append, List.append_assoc, List.append_assoc] at heq
          -- the block closes at the same place, and what follows it is balanced again
          obtain ⟨rfl, hafter⟩ := ih h1 (List.cons.inj heq).2
          obtain ⟨rfl, rfl⟩ := ih' h2 hafter
          exact ⟨rfl, rfl⟩

/-! ## Blocks one after the other -/

/-- Texts of which none is the beginning of another one. -/
def PrefixFree {β : Type} (f : β → List α) : Prop :=
  ∀ b b' xs ys, f b ++ xs = f b' ++ ys → f b = f b' ∧ xs = ys

/-- **A list of marked blocks is read one way** up to where no mark stands. -/
theorem blocks_unique {β : Type} {f : β → List α} (hf : PrefixFree f) {mark : α}
    (hmark : ∀ b, (f b).head? = some mark) {bs bs' : List β} {xs ys : List α}
    (hxs : xs.head? ≠ some mark) (hys : ys.head? ≠ some mark)
    (h : bs.flatMap f ++ xs = bs'.flatMap f ++ ys) :
    bs.flatMap f = bs'.flatMap f ∧ xs = ys := by
  -- a block in front of what starts with no mark
  have hhead : ∀ b (as : List α), (f b ++ as).head? = some mark := by
    intro b as
    rw [List.head?_append, hmark b]
    rfl
  induction bs generalizing bs' with
  | nil =>
      cases bs' with
      | nil => exact ⟨rfl, h⟩
      | cons b' bs' =>
          rw [List.flatMap_cons, List.append_assoc] at h
          have h : xs = f b' ++ (bs'.flatMap f ++ ys) := h
          rw [h] at hxs
          exact absurd (hhead b' _) hxs
  | cons b bs ih =>
      cases bs' with
      | nil =>
          rw [List.flatMap_cons, List.append_assoc] at h
          have h : f b ++ (bs.flatMap f ++ xs) = ys := h
          rw [← h] at hys
          exact absurd (hhead b _) hys
      | cons b' bs' =>
          rw [List.flatMap_cons, List.flatMap_cons, List.append_assoc, List.append_assoc] at h
          obtain ⟨hb, hrest⟩ := hf b b' _ _ h
          obtain ⟨hbs, hxy⟩ := ih hrest
          exact ⟨by rw [List.flatMap_cons, List.flatMap_cons, hb, hbs], hxy⟩

end XaccIbm.Brackets
