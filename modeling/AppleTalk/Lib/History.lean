import Mathlib.Computability.Language
import Mathlib.Order.CompletePartialOrder

/-!
# What happens between two states

A program that keeps what it does and sees in a history appends to it. What a piece of it may
append is a language, and the languages compose as the pieces do: one after the other, either one,
any number of times.
-/

open scoped Computability

variable {σ α : Type*} {past : σ → List α} {L M : Language α} {s s' s'' : σ}

/-- The history of `s'` is that of `s` and a string of the language. -/
def Grew (past : σ → List α) (L : Language α) (s s' : σ) : Prop :=
  ∃ seg ∈ L, past s' = past s ++ seg

namespace Grew

theorem of_eq (h : past s' = past s) (hnil : [] ∈ L) : Grew past L s s' := ⟨[], hnil, by simp [h]⟩

/-- Nothing happened. -/
theorem nothing (h : past s' = past s) : Grew past L∗ s s' := .of_eq h (Language.nil_mem_kstar L)

theorem single {a : α} (h : past s' = past s ++ [a]) : Grew past {[a]} s s' := ⟨[a], rfl, h⟩

theorem mono (h : Grew past L s s') (hle : L ≤ M) : Grew past M s s' := by
  obtain ⟨seg, hseg, he⟩ := h
  exact ⟨seg, hle hseg, he⟩

theorem trans (h : Grew past L s s') (h' : Grew past M s' s'') : Grew past (L * M) s s'' := by
  obtain ⟨seg, hseg, he⟩ := h
  obtain ⟨seg', hseg', he'⟩ := h'
  exact ⟨seg ++ seg', Language.append_mem_mul hseg hseg', by rw [he', he, List.append_assoc]⟩

/-- Any number of times, and again. -/
theorem star_trans (h : Grew past L∗ s s') (h' : Grew past L∗ s' s'') : Grew past L∗ s s'' :=
  (h.trans h').mono (kstar_mul_kstar L).le

/-- What reads the same history grew the same. -/
theorem congr_left (h : Grew past L s s') (he : past s'' = past s) : Grew past L s'' s' := by
  obtain ⟨seg, hseg, h⟩ := h
  exact ⟨seg, hseg, by rw [he, h]⟩

theorem congr_right (h : Grew past L s s') (he : past s'' = past s') : Grew past L s s'' := by
  obtain ⟨seg, hseg, h⟩ := h
  exact ⟨seg, hseg, by rw [he, h]⟩

end Grew
