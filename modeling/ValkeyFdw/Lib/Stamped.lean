import Mathlib.Data.List.Infix

/-!
# A log with stamps, and pointers into it

A log counts how often it changed and how often it lost entries. Whoever has read
it can tell from the two counters what became of it since (`Log.Follows`): with the
same number of changes it is the log that was read, and with the same number of
losses it begins with the log that was read. A reader that remembers the last entry
it has read finds the others behind it (`append_behind`).
-/

namespace Stamped

variable {α : Type*}

/-- A list with the counters of its changes. -/
structure Log (α : Type*) where
  entries : List α := []
  gen : Nat := 0
  shrinkGen : Nat := 0

namespace Log

def push (a : α) (l : Log α) : Log α :=
  { l with entries := l.entries ++ [a], gen := l.gen + 1 }

/-- Only `kept` is left of the log. -/
def cut (kept : List α) (l : Log α) : Log α := ⟨kept, l.gen + 1, l.shrinkGen + 1⟩

/-- What the stamps of an earlier log say about the log now. -/
structure Follows (old now : Log α) : Prop where
  gen_le : old.gen ≤ now.gen
  shrinkGen_le : old.shrinkGen ≤ now.shrinkGen
  same : now.gen = old.gen → now = old
  grown : now.shrinkGen = old.shrinkGen → old.entries <+: now.entries

namespace Follows

variable {old l now : Log α}

theorem refl (l : Log α) : Follows l l :=
  ⟨le_rfl, le_rfl, fun _ => rfl, fun _ => List.prefix_rfl⟩

theorem trans (h : Follows old l) (h' : Follows l now) : Follows old now where
  gen_le := h.gen_le.trans h'.gen_le
  shrinkGen_le := h.shrinkGen_le.trans h'.shrinkGen_le
  same hGen := by
    have := h.gen_le
    have := h'.gen_le
    exact (h'.same (by omega)).trans (h.same (by omega))
  grown hShrink := by
    have := h.shrinkGen_le
    have := h'.shrinkGen_le
    exact (h.grown (by omega)).trans (h'.grown (by omega))

theorem push (h : Follows old l) (a : α) : Follows old (l.push a) :=
  h.trans ⟨Nat.le_succ _, le_rfl, fun hGen => absurd hGen (Nat.succ_ne_self _),
    fun _ => List.prefix_append _ _⟩

theorem cut (h : Follows old l) (kept : List α) : Follows old (l.cut kept) :=
  h.trans ⟨Nat.le_succ _, Nat.le_succ _, fun hGen => absurd hGen (Nat.succ_ne_self _),
    fun hShrink => absurd hShrink (Nat.succ_ne_self _)⟩

end Follows

end Log

/-! ## Pointers -/

section Pointers

variable [DecidableEq α]

/-- The entries from a pointer on; a null pointer is at the end. -/
def standing : Option α → List α → List α
  | none, _ => []
  | some a, l => l.dropWhile (· ≠ a)

/-- The entries behind the one that was read last; without one, all of them. -/
def behind : Option α → List α → List α
  | none, l => l
  | some a, l => (standing (some a) l).tail

variable {l old rest : List α}

theorem standing_suffix (p : Option α) (l : List α) : standing p l <:+ l := by
  cases p with
  | none => exact List.nil_suffix
  | some a => exact List.dropWhile_suffix _

theorem standing_append (a : α) (h : (old ++ a :: rest).Nodup) :
    standing (some a) (old ++ a :: rest) = a :: rest := by
  have hNot : ∀ b ∈ old, (b ≠ a) = true := by
    intro b hb
    have hDisjoint := (List.nodup_append.mp h).2.2 b hb a List.mem_cons_self
    simpa using hDisjoint
  rw [standing, List.dropWhile_append_of_pos (by simpa using hNot)]
  exact List.dropWhile_cons_of_neg (by simp)

theorem standing_head (h : (old ++ rest).Nodup) : standing rest.head? (old ++ rest) = rest := by
  cases rest with
  | nil => rfl
  | cons a rest => exact standing_append a h

theorem behind_append (h : (old ++ rest).Nodup) : behind old.getLast? (old ++ rest) = rest := by
  rcases List.eq_nil_or_concat old with rfl | ⟨init, a, rfl⟩
  · rfl
  · rw [List.concat_eq_append, List.append_assoc] at h
    rw [List.concat_eq_append, List.getLast?_append, List.append_assoc, List.getLast?_singleton,
      Option.some_or]
    exact congrArg List.tail (standing_append a h)

/-- What was read and what stands behind it make up the log. -/
theorem append_behind (hGrown : old <+: l) (h : l.Nodup) : old ++ behind old.getLast? l = l := by
  obtain ⟨rest, rfl⟩ := hGrown
  rw [behind_append h]

end Pointers

end Stamped
