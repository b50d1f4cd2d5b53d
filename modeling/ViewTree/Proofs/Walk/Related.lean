import Mathlib.Data.List.Forall2

namespace ViewTree

variable {R : α → β → Prop} {xs ys : List α} {zs : List β}

theorem map_eq_of_forall₂ {f : α → γ} {g : β → γ} (h : List.Forall₂ R xs zs)
    (hmap : ∀ x z, R x z → f x = g z) : xs.map f = zs.map g := by
  rw [← List.forall₂_eq_eq_eq]
  exact List.rel_map hmap h

theorem exists_of_forall₂ (h : List.Forall₂ R xs zs) : ∀ x ∈ xs, ∃ z ∈ zs, R x z := by
  intro x hx
  obtain ⟨i, hi, rfl⟩ := List.getElem_of_mem hx
  have hz : i < zs.length := h.length_eq ▸ hi
  exact ⟨zs[i], List.getElem_mem hz, h.get hi hz⟩

theorem forall₂_append_left (h : List.Forall₂ R (xs ++ ys) zs) :
    ∃ us vs, zs = us ++ vs ∧ List.Forall₂ R xs us ∧ List.Forall₂ R ys vs := by
  have hflip : List.Forall₂ (flip R) zs (xs ++ ys) := h.flip
  refine ⟨zs.take xs.length, zs.drop xs.length, (List.take_append_drop _ _).symm, ?_, ?_⟩
  · exact (List.forall₂_take_append zs xs ys hflip).flip
  · exact (List.forall₂_drop_append zs xs ys hflip).flip

end ViewTree
