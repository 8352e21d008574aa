import Mathlib.Data.List.SplitBy

/-!
# Words — renaming in a text

A text falls into the longest runs of characters that are all word
characters or all others. Renaming replaces the word runs. When every word
is renamed to a word, a text is left as it is exactly when each of its words
is: the runs of the renamed text are the renamed runs.
-/

namespace XaccIbm.Words

variable {α : Type} (p : α → Bool)

/-- The longest runs of characters alike as to `p`. -/
def runs (l : List α) : List (List α) := l.splitBy fun a b => p a == p b

/-- The runs of word characters. -/
def words (l : List α) : List (List α) := (runs p l).filter fun w => w.all p

/-- A run, renamed when it is a word. -/
def renameRun (σ : List α → List α) (w : List α) : List α :=
  if w.all p then σ w else w

/-- The text with its words renamed. -/
def rename (σ : List α → List α) (l : List α) : List α :=
  (runs p l).flatMap (renameRun p σ)

/-- Words are renamed to words. -/
def IntoWords (σ : List α → List α) : Prop :=
  ∀ w, w ≠ [] → w.all p → σ w ≠ [] ∧ (σ w).all p

/-- Some characters, all of one kind. -/
structure Alike (b : Bool) (w : List α) : Prop where
  ne_nil : w ≠ []
  kind : ∀ a ∈ w, p a = b

variable {p}

theorem Alike.of_mem_runs {l w : List α} (h : w ∈ runs p l) : ∃ b, Alike p b w := by
  have hne : w ≠ [] := List.ne_nil_of_mem_splitBy h
  have hchain := List.isChain_of_mem_splitBy h
  cases w with
  | nil => exact absurd rfl hne
  | cons a w =>
      refine ⟨p a, hne, ?_⟩
      clear hne h
      induction w generalizing a with
      | nil => simp
      | cons b w ih =>
          rw [List.isChain_cons_cons] at hchain
          have hab : p a = p b := by simpa using hchain.1
          intro c hc
          rcases List.mem_cons.mp hc with rfl | hc
          · rfl
          · rw [hab]
            exact ih b hchain.2 c hc

/-- A renamed run has the kind of the run. -/
theorem Alike.renameRun {σ : List α → List α} (hσ : IntoWords p σ) {b : Bool}
    {w : List α} (h : Alike p b w) : Alike p b (renameRun p σ w) := by
  rw [Words.renameRun]
  split
  · rename_i hall
    obtain ⟨hne, hword⟩ := hσ w h.ne_nil hall
    refine ⟨hne, fun a ha => ?_⟩
    obtain ⟨c, hc⟩ := List.exists_mem_of_ne_nil w h.ne_nil
    rw [← h.kind c hc, List.all_eq_true.mp hall c hc, List.all_eq_true.mp hword a ha]
  · exact h

theorem Alike.isChain {b : Bool} {w : List α} (h : Alike p b w) :
    w.IsChain fun x y => p x == p y := by
  refine List.Pairwise.isChain (List.pairwise_iff_forall_sublist.mpr ?_)
  intro x y hxy
  have hx := h.kind x (hxy.subset (by simp))
  have hy := h.kind y (hxy.subset (by simp))
  rw [hx, hy]
  exact beq_self_eq_true b

/-- The runs of a renamed text. -/
theorem runs_rename {σ : List α → List α} (hσ : IntoWords p σ) (l : List α) :
    runs p (rename p σ l) = (runs p l).map (renameRun p σ) := by
  refine List.splitBy_eq_iff.mpr ⟨List.flatMap_def, ?_, ?_, ?_⟩
  · intro hnil
    obtain ⟨w, hw, hwnil⟩ := List.mem_map.mp hnil
    obtain ⟨b, hb⟩ := Alike.of_mem_runs hw
    exact (hb.renameRun hσ).ne_nil hwnil
  · intro m hm
    obtain ⟨w, hw, rfl⟩ := List.mem_map.mp hm
    obtain ⟨b, hb⟩ := Alike.of_mem_runs hw
    exact (hb.renameRun hσ).isChain
  · rw [List.isChain_map]
    have hsplit := List.isChain_getLast_head_splitBy (fun a b => p a == p b) l
    refine List.IsChain.imp_of_mem_imp ?_ hsplit
    intro w v hw hv hwv
    obtain ⟨b, hb⟩ := Alike.of_mem_runs hw
    obtain ⟨c, hc⟩ := Alike.of_mem_runs hv
    have hb' := hb.renameRun hσ
    have hc' := hc.renameRun hσ
    obtain ⟨ha, hb₀, hne⟩ := hwv
    refine ⟨hb'.ne_nil, hc'.ne_nil, ?_⟩
    rw [hb.kind _ (List.getLast_mem _), hc.kind _ (List.head_mem _)] at hne
    rw [hb'.kind _ (List.getLast_mem _), hc'.kind _ (List.head_mem _)]
    exact hne

/-- **A renaming fixes a text when it fixes the words of the text.** -/
theorem rename_eq_self {σ : List α → List α} (hσ : IntoWords p σ) {l : List α} :
    rename p σ l = l ↔ ∀ w ∈ words p l, σ w = w := by
  constructor
  · intro h w hw
    obtain ⟨hrun, hall⟩ := List.mem_filter.mp hw
    have hmap := runs_rename hσ l
    rw [h] at hmap
    have hfix : renameRun p σ w = w :=
      List.map_inj_left.mp (hmap.symm.trans (List.map_id' _).symm) w hrun
    rwa [renameRun, if_pos hall] at hfix
  · intro h
    have hmap : (runs p l).map (renameRun p σ) = runs p l := by
      refine (List.map_congr_left fun w hw => ?_).trans (List.map_id' _)
      rw [renameRun]
      split
      · rename_i hall
        exact h w (List.mem_filter.mpr ⟨hw, hall⟩)
      · rfl
    rw [rename, List.flatMap_def, hmap]
    exact List.flatten_splitBy _ l

end XaccIbm.Words
