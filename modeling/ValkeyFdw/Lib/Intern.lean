import Mathlib.Data.List.Infix
import Mathlib.Data.List.Nodup

/-!
# Interning tables

A table gives every value it has seen the place of its first mention, counted
from one. What was entered stays in its place as the table grows
(`prefix_foldl_intern`), and the place of a value leads back to it (`exists_index`).
-/

namespace Intern

variable {α : Type*} [DecidableEq α] {t u : List α} {a b : α}

/-- Enter a value at its first mention. -/
def intern (t : List α) (a : α) : List α := if a ∈ t then t else t ++ [a]

/-- The place of a value, if it was entered. -/
def index (t : List α) (a : α) : Option Nat := if a ∈ t then some (t.idxOf a + 1) else none

theorem mem_intern : b ∈ intern t a ↔ b ∈ t ∨ b = a := by
  unfold intern
  split
  · rename_i ha
    exact ⟨.inl, fun h => h.elim id fun hb => hb ▸ ha⟩
  · simp

theorem nodup_intern (h : t.Nodup) : (intern t a).Nodup := by
  unfold intern
  split
  · exact h
  · rename_i ha
    refine List.nodup_append.mpr ⟨h, List.nodup_singleton a, fun x hx y hy hxy => ?_⟩
    rw [List.mem_singleton.mp hy] at hxy
    exact ha (hxy ▸ hx)

theorem prefix_intern (t : List α) (a : α) : t <+: intern t a := by
  unfold intern
  split
  · exact List.prefix_refl t
  · exact List.prefix_append t [a]

theorem mem_foldl_intern {l : List α} : b ∈ l.foldl intern t ↔ b ∈ t ∨ b ∈ l := by
  induction l generalizing t with
  | nil => simp
  | cons a l ih => rw [List.foldl_cons, ih, mem_intern, List.mem_cons, or_assoc]

theorem nodup_foldl_intern {l : List α} (h : t.Nodup) : (l.foldl intern t).Nodup := by
  induction l generalizing t with
  | nil => exact h
  | cons a l ih => exact ih (nodup_intern h)

theorem prefix_foldl_intern (t l : List α) : t <+: l.foldl intern t := by
  induction l generalizing t with
  | nil => exact List.prefix_refl t
  | cons a l ih => exact (prefix_intern t a).trans (ih (intern t a))

/-- Distinct values are entered one after another. -/
theorem foldl_intern_of_nodup {l : List α} (h : (t ++ l).Nodup) : l.foldl intern t = t ++ l := by
  induction l generalizing t with
  | nil => simp
  | cons a l ih =>
    have ha : a ∉ t := fun hMem =>
      (List.nodup_append.mp h).2.2 a hMem a List.mem_cons_self rfl
    have hRest : t ++ a :: l = t ++ [a] ++ l := by simp
    rw [List.foldl_cons, intern, if_neg ha, ih (hRest ▸ h), hRest]

theorem exists_index (h : a ∈ t) : ∃ i, index t a = some (i + 1) ∧ t[i]? = some a := by
  refine ⟨t.idxOf a, if_pos h, ?_⟩
  rw [List.getElem?_eq_getElem (List.idxOf_lt_length_of_mem h), List.getElem_idxOf]

end Intern
