import Mathlib.Logic.Function.Basic
import Mathlib.Order.Nat

/-!
# Takings from a stock

Things are put into a stock and taken out again, one at a time and in a given
order. A `Tally` counts, for one kind of thing, what was put in and is not yet
taken, and what was taken beyond that. The second number is the largest lead of the
takings over the puttings in any part of the sequence that begins at its start:
a stock serves the whole sequence if and only if it has that much of every kind to
begin with (`served_iff`).
-/

namespace Deficit

variable {α : Type*}

/-- A value is put in or taken. -/
inductive Move (α : Type*) where
  | put (a : α)
  | take (a : α)

/-- What is there of one value, and what was missing. -/
structure Tally where
  /-- Put in and not yet taken. -/
  count : Nat := 0
  /-- Taken when there was nothing of the kind that had been put in. -/
  missing : Nat := 0

def Tally.put (t : Tally) : Tally := { t with count := t.count + 1 }

def Tally.take (t : Tally) : Tally :=
  if 0 < t.count then { t with count := t.count - 1 } else { t with missing := t.missing + 1 }

variable [DecidableEq α]

/-- The tallies of all kinds after one move. -/
def Move.tally : Move α → (α → Tally) → α → Tally
  | .put a, t => Function.update t a (t a).put
  | .take a, t => Function.update t a (t a).take

def tallies (moves : List (Move α)) (t : α → Tally) : α → Tally :=
  moves.foldl (fun t m => m.tally t) t

/-- Every taking finds something of its kind. -/
def Served : List (Move α) → (α → Nat) → Prop
  | [], _ => True
  | .put a :: moves, stock => Served moves (Function.update stock a (stock a + 1))
  | .take a :: moves, stock =>
    0 < stock a ∧ Served moves (Function.update stock a (stock a - 1))

/-! ## What a tally says about the stock -/

/-- The stock now, against the one at the start. -/
def Agrees (start : α → Nat) (t : α → Tally) (stock : α → Nat) : Prop :=
  ∀ a, stock a + (t a).missing = start a + (t a).count

theorem missing_le_tally (m : Move α) (t : α → Tally) (a : α) :
    (t a).missing ≤ (m.tally t a).missing := by
  cases m with
  | put b =>
    by_cases hb : a = b
    · subst hb
      simp [Move.tally, Tally.put]
    · simp [Move.tally, hb]
  | take b =>
    by_cases hb : a = b
    · subst hb
      simp only [Move.tally, Function.update_self, Tally.take]
      split <;> simp
    · simp [Move.tally, hb]

theorem missing_le_tallies (moves : List (Move α)) (t : α → Tally) (a : α) :
    (t a).missing ≤ (tallies moves t a).missing := by
  induction moves generalizing t with
  | nil => exact le_rfl
  | cons m moves ih => exact (missing_le_tally m t a).trans (ih _)

variable {start stock : α → Nat} {t : α → Tally}

theorem Agrees.put (h : Agrees start t stock) (a : α) :
    Agrees start ((Move.put a).tally t) (Function.update stock a (stock a + 1)) := by
  intro b
  have hb := h b
  by_cases hba : b = a
  · subst hba
    simp only [Move.tally, Function.update_self, Tally.put]
    omega
  · simpa only [Move.tally, Function.update_of_ne hba] using hb

theorem Agrees.take (h : Agrees start t stock) {a : α} (ha : 0 < stock a) :
    Agrees start ((Move.take a).tally t) (Function.update stock a (stock a - 1)) := by
  intro b
  have hb := h b
  by_cases hba : b = a
  · subst hba
    simp only [Move.tally, Function.update_self, Tally.take]
    split
    · dsimp only
      omega
    · dsimp only
      omega
  · simpa only [Move.tally, Function.update_of_ne hba] using hb

/-- A stock that has served the moves so far serves the others as long as the start
had everything that turns out to be missing. -/
theorem served_iff_of_agrees (moves : List (Move α)) (h : Agrees start t stock)
    (hLe : ∀ a, (t a).missing ≤ start a) :
    Served moves stock ↔ ∀ a, (tallies moves t a).missing ≤ start a := by
  induction moves generalizing t stock with
  | nil => exact iff_of_true trivial hLe
  | cons m moves ih =>
    cases m with
    | put a =>
      refine ih (h.put a) fun b => ?_
      by_cases hb : b = a
      · subst hb
        simpa [Move.tally, Tally.put] using hLe b
      · simpa [Move.tally, hb] using hLe b
    | take a =>
      have hMissing : ((Move.take a).tally t a).missing =
          if 0 < (t a).count then (t a).missing else (t a).missing + 1 := by
        simp only [Move.tally, Function.update_self, Tally.take]
        split <;> rfl
      have hAgree := h a
      have hStart := hLe a
      by_cases hStock : 0 < stock a
      · rw [Served, and_iff_right hStock]
        refine ih (h.take hStock) fun b => ?_
        by_cases hb : b = a
        · subst hb
          rw [hMissing]
          split <;> omega
        · simpa [Move.tally, hb] using hLe b
      · -- nothing is left, so the start was short of what is taken now
        refine iff_of_false (fun hServed => hStock hServed.1) fun hAll => ?_
        have hFinal := (missing_le_tallies moves ((Move.take a).tally t) a).trans (hAll a)
        rw [hMissing] at hFinal
        split at hFinal <;> omega

theorem served_iff (moves : List (Move α)) (stock : α → Nat) :
    Served moves stock ↔ ∀ a, (tallies moves (fun _ => {}) a).missing ≤ stock a :=
  served_iff_of_agrees moves (fun _ => rfl) fun _ => Nat.zero_le _

end Deficit
