import Mathlib.Data.List.Infix
import Mathlib.Order.WellFounded

/-!
# Lexing — longest match

A lexer given by the texts of its tokens and the characters it skips: at
each place the longest token wins. `Lexes` says which token list a text
splits into, `Scans` what a lexer that goes on after an error makes of any
text; there is one answer when no two tokens share a text. A token ends
where the next character could not be part of a longer one, which is what a
printer has to ensure.
-/

namespace XaccIbm.Lexing

/-- The tokens `τ` of a lexer over characters `α`. -/
structure Tokens (α τ : Type) where
  text : τ → List α
  skip : α → Bool

variable {α τ : Type}

/-- **The lexer's answer**: at each place a skipped character no token
starts with, or the longest token there. -/
inductive Lexes (G : Tokens α τ) : List α → List τ → Prop where
  | nil : Lexes G [] []
  | skip {c : α} {cs : List α} {ts : List τ} (hc : G.skip c = true)
      (hno : ∀ t, ¬ G.text t <+: c :: cs) (h : Lexes G cs ts) :
      Lexes G (c :: cs) ts
  | token {t : τ} {cs : List α} {ts : List τ} (hne : G.text t ≠ [])
      (hmax : ∀ t', G.text t' <+: G.text t ++ cs →
        (G.text t').length ≤ (G.text t).length) (h : Lexes G cs ts) :
      Lexes G (G.text t ++ cs) (t :: ts)

variable {G : Tokens α τ}

/-- The texts of tokens side by side. -/
def textOf (G : Tokens α τ) (ts : List τ) : List α := ts.flatMap G.text

@[simp] theorem textOf_nil : textOf G [] = [] := rfl

@[simp] theorem textOf_cons (t : τ) (ts : List τ) :
    textOf G (t :: ts) = G.text t ++ textOf G ts := rfl

/-! ## Going on after an error -/

/-- **The answer of a lexer that goes on after an error**: where a character
is not skipped and no token starts, the character is dropped, and with it as
many of the following ones as `recovery` says. The last list is what was
dropped. -/
inductive Scans (G : Tokens α τ) (recovery : List α → Nat) :
    List α → List τ → List α → Prop where
  | nil : Scans G recovery [] [] []
  | skip {c : α} {cs ds : List α} {ts : List τ} (hc : G.skip c = true)
      (hno : ∀ t, ¬ G.text t <+: c :: cs) (h : Scans G recovery cs ts ds) :
      Scans G recovery (c :: cs) ts ds
  | token {t : τ} {cs ds : List α} {ts : List τ} (hne : G.text t ≠ [])
      (hmax : ∀ t', G.text t' <+: G.text t ++ cs →
        (G.text t').length ≤ (G.text t).length) (h : Scans G recovery cs ts ds) :
      Scans G recovery (G.text t ++ cs) (t :: ts) ds
  | drop {c : α} {cs ds : List α} {ts : List τ} (hc : G.skip c = false)
      (hno : ∀ t, ¬ G.text t <+: c :: cs)
      (h : Scans G recovery (cs.drop (recovery cs)) ts ds) :
      Scans G recovery (c :: cs) ts (c :: (cs.take (recovery cs) ++ ds))

variable {recovery : List α → Nat}

theorem Lexes.scans {cs : List α} {ts : List τ} (h : Lexes G cs ts) :
    Scans G recovery cs ts [] := by
  induction h with
  | nil => exact .nil
  | skip hc hno _ ih => exact .skip hc hno ih
  | token hne hmax _ ih => exact .token hne hmax ih

/-- **A text has one answer.** -/
theorem Scans.unique (hinj : Function.Injective G.text) {cs ds es : List α}
    {ts us : List τ} (h : Scans G recovery cs ts ds) (h' : Scans G recovery cs us es) :
    ts = us ∧ ds = es := by
  -- which rule applies is decided by the text, and how much it takes as well
  induction h generalizing us es with
  | nil =>
      generalize hcs : ([] : List α) = cs at h'
      cases h' with
      | nil => exact ⟨rfl, rfl⟩
      | token hne hmax h' =>
          exact absurd (List.append_eq_nil_iff.mp hcs.symm).1 hne
      | _ => cases hcs
  | @skip c cs ds ts hc hno h ih =>
      generalize hcs : c :: cs = xs at h'
      cases h' with
      | nil => cases hcs
      | skip hc' hno' h' =>
          cases hcs
          exact ih h'
      | token hne hmax h' =>
          exact absurd (hcs ▸ List.prefix_append _ _) (hno _)
      | drop hc' hno' h' =>
          cases hcs
          rw [hc] at hc'
          cases hc'
  | @token t cs ds ts hne hmax h ih =>
      generalize hcs : G.text t ++ cs = xs at h'
      cases h' with
      | nil => exact absurd (List.append_eq_nil_iff.mp hcs).1 hne
      | skip hc hno h' =>
          exact absurd (hcs ▸ List.prefix_append _ _) (hno t)
      | @token t' cs' es us hne' hmax' h' =>
          have hle := hmax t' (hcs ▸ List.prefix_append _ _)
          have hge := hmax' t (hcs ▸ List.prefix_append _ _)
          obtain ⟨ht, hr⟩ := List.append_inj hcs (Nat.le_antisymm hge hle)
          subst hr
          obtain ⟨hts, hds⟩ := ih h'
          exact ⟨by rw [hinj ht, hts], hds⟩
      | drop hc hno h' =>
          exact absurd (hcs ▸ List.prefix_append _ _) (hno t)
  | @drop c cs ds ts hc hno h ih =>
      generalize hcs : c :: cs = xs at h'
      cases h' with
      | nil => cases hcs
      | skip hc' hno' h' =>
          cases hcs
          rw [hc] at hc'
          cases hc'
      | token hne hmax h' =>
          exact absurd (hcs ▸ List.prefix_append _ _) (hno _)
      | drop hc' hno' h' =>
          cases hcs
          obtain ⟨hts, hds⟩ := ih h'
          exact ⟨hts, by rw [hds]⟩

/-- **A text has one token list.** -/
theorem Lexes.unique (hinj : Function.Injective G.text) {cs : List α}
    {ts us : List τ} (h : Lexes G cs ts) (h' : Lexes G cs us) : ts = us :=
  have hscans : Scans G (fun _ => 0) cs ts [] := h.scans
  (hscans.unique hinj h'.scans).1

/-- The longest token at a place where one starts. -/
theorem exists_longest {cs : List α} (h : ∃ t, G.text t <+: cs) :
    ∃ t, G.text t <+: cs ∧ ∀ t', G.text t' <+: cs →
      (G.text t').length ≤ (G.text t).length := by
  obtain ⟨t, ht, hmin⟩ := (measure fun t => cs.length - (G.text t).length).wf.has_min
    {t | G.text t <+: cs} h
  refine ⟨t, ht, fun t' ht' => ?_⟩
  have hnot : ¬ cs.length - (G.text t').length < cs.length - (G.text t).length :=
    hmin t' ht'
  have hlen : (G.text t').length ≤ cs.length := ht'.length_le
  omega

/-- **Every text has an answer.** -/
theorem exists_scans (hne : ∀ t, G.text t ≠ []) (cs : List α) :
    ∃ ts ds, Scans G recovery cs ts ds := by
  induction hn : cs.length using Nat.strong_induction_on generalizing cs with
  | _ n ih =>
      cases cs with
      | nil => exact ⟨[], [], .nil⟩
      | cons c cs =>
          by_cases hstarts : ∃ t, G.text t <+: c :: cs
          · obtain ⟨t, ⟨rest, hrest⟩, hmax⟩ := exists_longest hstarts
            have hpos := List.length_pos_of_ne_nil (hne t)
            have hlt : rest.length < n := by
              rw [← hn, ← hrest, List.length_append]
              omega
            obtain ⟨ts, ds, h⟩ := ih _ hlt rest rfl
            rw [← hrest] at hmax ⊢
            exact ⟨t :: ts, ds, .token (hne t) hmax h⟩
          · have hno := not_exists.mp hstarts
            rw [List.length_cons] at hn
            cases hc : G.skip c with
            | true =>
                obtain ⟨ts, ds, h⟩ := ih _ (by omega) cs rfl
                exact ⟨ts, ds, .skip hc hno h⟩
            | false =>
                have hlt : (cs.drop (recovery cs)).length < n := by
                  rw [List.length_drop]
                  omega
                obtain ⟨ts, ds, h⟩ := ih _ hlt _ rfl
                exact ⟨ts, _, .drop hc hno h⟩

/-! ## Printing -/

/-- A character that ends a token: no token goes on with it. -/
def Ends (G : Tokens α τ) (t : τ) (c : α) : Prop :=
  ∀ t', ¬ G.text t ++ [c] <+: G.text t'

/-- What follows a token ends it. -/
def EndsAt (G : Tokens α τ) (t : τ) (cs : List α) : Prop :=
  ∀ c ∈ cs.head?, Ends G t c

theorem EndsAt.longest {t : τ} {cs : List α} (h : EndsAt G t cs) {t' : τ}
    (hp : G.text t' <+: G.text t ++ cs) :
    (G.text t').length ≤ (G.text t).length := by
  by_contra hlt
  cases cs with
  | nil =>
      have := hp.length_le
      rw [List.append_nil] at this
      exact hlt this
  | cons c cs =>
      refine h c rfl t' ?_
      have hlong : (G.text t ++ [c]).length ≤ (G.text t').length := by
        rw [List.length_append, List.length_singleton]
        omega
      refine List.prefix_of_prefix_length_le ⟨cs, ?_⟩ hp hlong
      rw [List.append_assoc]
      rfl

/-- One token in front of a text. -/
theorem Lexes.cons {t : τ} {cs : List α} {ts : List τ} (hne : G.text t ≠ [])
    (hend : EndsAt G t cs) (h : Lexes G cs ts) :
    Lexes G (G.text t ++ cs) (t :: ts) :=
  .token hne (fun _ => hend.longest) h

/-- Tokens each of which is ended by the text that follows it. -/
def Chained (G : Tokens α τ) : List τ → List α → Prop
  | [], _ => True
  | t :: ts, cs => EndsAt G t (textOf G ts ++ cs) ∧ Chained G ts cs

/-- **Printed tokens are read back** when each is ended by what follows. -/
theorem Lexes.chained (hne : ∀ t, G.text t ≠ []) {ts us : List τ}
    {cs : List α} (hch : Chained G ts cs) (h : Lexes G cs us) :
    Lexes G (textOf G ts ++ cs) (ts ++ us) := by
  induction ts with
  | nil => exact h
  | cons t ts ih =>
      rw [textOf_cons, List.append_assoc, List.cons_append]
      exact .cons (hne t) hch.1 (ih hch.2)

/-- **A character that is not skipped lies in a token**, and the token starts
with it or with a character before it. -/
theorem Lexes.exists_token {cs : List α} {ts : List τ} (h : Lexes G cs ts)
    {before after : List α} {c : α} (hcs : cs = before ++ c :: after)
    (hskip : G.skip c = false) :
    ∃ t, c ∈ G.text t ∧ ∃ d ∈ (G.text t).head?, d = c ∨ d ∈ before := by
  induction h generalizing before with
  | nil => simp at hcs
  | @skip c' cs ts hc _ _ ih =>
      cases before with
      | nil =>
          cases hcs
          rw [hc] at hskip
          cases hskip
      | cons b before =>
          cases hcs
          obtain ⟨t, ht, d, hd, hmem⟩ := ih rfl
          exact ⟨t, ht, d, hd, hmem.imp_right (List.mem_cons_of_mem _)⟩
  | @token t cs ts hne _ _ ih =>
      -- the character lies behind the token, or in it
      rcases List.append_eq_append_iff.mp hcs with ⟨as, hbefore, hrest⟩ | ⟨as, htext, hrest⟩
      · obtain ⟨t', ht', d, hd, hmem⟩ := ih hrest
        refine ⟨t', ht', d, hd, hmem.imp_right fun hb => ?_⟩
        rw [hbefore]
        exact List.mem_append_right _ hb
      · cases as with
        | nil =>
            obtain ⟨t', ht', d, hd, hmem⟩ := ih (show cs = [] ++ c :: after from hrest.symm)
            exact ⟨t', ht', d, hd, hmem.imp_right fun hb => absurd hb (by simp)⟩
        | cons a as =>
            cases hrest
            refine ⟨t, ?_, ?_⟩
            · rw [htext]
              simp
            · rw [htext]
              cases before with
              | nil => exact ⟨c, rfl, .inl rfl⟩
              | cons b before => exact ⟨b, rfl, .inr (by simp)⟩

end XaccIbm.Lexing
