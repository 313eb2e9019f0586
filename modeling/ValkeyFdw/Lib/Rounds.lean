import Mathlib.Data.List.Perm.Subperm

/-!
# Retry rounds

Items are tried in rounds. A round tries every item that is owed, once and in any
order; the items that come back are owed to the next round. However often items come
back, none is tried again after it was settled, and the settled ones together with
those still owed are what the series began with.
-/

namespace Rounds

variable {α κ : Type*} (key : α → κ) (back : α → Bool)

/-- What a round leaves for the next. -/
def owed (round : List α) : List κ := (round.filter back).map key

/-- The rounds over some items, with the items that are owed after them. -/
inductive Series (ks : List κ) : List (List α) → List κ → Prop
  | start : Series ks [] ks
  | round {rounds : List (List α)} {left : List κ} {tries : List α} :
      Series ks rounds left → (tries.map key).Perm left →
      Series ks (rounds ++ [tries]) (owed key back tries)

variable {key} {back} {ks left : List κ} {rounds : List (List α)} {tries : List α}

theorem owed_append (l m : List α) : owed key back (l ++ m) = owed key back l ++ owed key back m := by
  simp [owed]

theorem settled_append_owed (l : List α) :
    ((l.filter fun a => !back a).map key ++ owed key back l).Perm (l.map key) := by
  rw [owed, ← List.map_append]
  refine List.Perm.map key (List.perm_append_comm.trans ?_)
  exact List.filter_append_perm back l

variable (h : Series key back ks rounds left)

include h

/-- What is settled and what is owed make up the items, each once. -/
theorem Series.perm :
    ((rounds.flatten.filter fun a => !back a).map key ++ left).Perm ks := by
  induction h with
  | start => exact .refl _
  | @round rounds left tries _ hTries ih =>
    rw [List.flatten_append, List.filter_append, List.map_append, List.append_assoc]
    refine (List.Perm.append_left _ ?_).trans ih
    simpa using (settled_append_owed tries).trans hTries

theorem Series.left_subset : left ⊆ ks := fun _ hx =>
  h.perm.mem_iff.mp (List.mem_append_right _ hx)

theorem Series.nodup (hNodup : ks.Nodup) :
    ((rounds.flatten.filter fun a => !back a).map key ++ left).Nodup :=
  h.perm.nodup_iff.mpr hNodup

theorem Series.left_nodup (hNodup : ks.Nodup) :
    left.Nodup := (List.nodup_append.mp (h.nodup hNodup)).2.1

/-- A round adds no try of an item that is settled. -/
theorem Series.pairwise_append (hNodup : ks.Nodup)
    (hRounds : rounds.flatten.Pairwise fun a b => back a = false → key b ≠ key a)
    (hTries : (tries.map key).Subperm left) :
    (rounds.flatten ++ tries).Pairwise fun a b => back a = false → key b ≠ key a := by
  refine List.pairwise_append.mpr ⟨hRounds, ?_, fun a ha b hb hSettled hSame => ?_⟩
  · obtain ⟨l, hPerm, hSub⟩ := hTries
    have hDistinct : (tries.map key).Nodup :=
      hPerm.nodup_iff.mp ((h.left_nodup hNodup).sublist hSub)
    exact (List.pairwise_map.mp hDistinct).imp fun hne _ hSame => hne hSame.symm
  · refine (List.nodup_append.mp (h.nodup hNodup)).2.2 (key a) ?_ (key b) ?_ hSame.symm
    · exact List.mem_map_of_mem (List.mem_filter.mpr ⟨ha, by simp [hSettled]⟩)
    · exact hTries.subset (List.mem_map_of_mem hb)

/-- No item is tried again after it was settled. -/
theorem Series.pairwise (hNodup : ks.Nodup) :
    rounds.flatten.Pairwise fun a b => back a = false → key b ≠ key a := by
  induction h with
  | start => exact List.Pairwise.nil
  | @round rounds left tries hSeries hTries ih =>
    rw [List.flatten_append, List.flatten_singleton]
    exact hSeries.pairwise_append hNodup ih hTries.subperm

end Rounds
