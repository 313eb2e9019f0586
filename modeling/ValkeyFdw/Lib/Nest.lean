import Mathlib.Data.List.DropRight

/-!
# Nested scopes and a log with levels

Scopes open inside one another. What was noted in a scope that is released
belongs to the scope around it, and what was noted in one that is rolled back is
gone. A `Nest` keeps the open scopes apart; a log keeps one list and writes the
level of its scope on every entry. The two say the same: opening a scope leaves
the log alone, rolling one back cuts the entries of the innermost level off its
end (`view_rollback`), and releasing one relabels them (`view_release`). Levels
never decrease along the log (`labelled_pairwise`).
-/

/-- The open scopes with what was noted in each: the innermost, then those around it. -/
structure Nest (α : Type*) where
  top : List α
  below : List (List α)

namespace Nest

variable {α β : Type*}

def empty : Nest α := ⟨[], []⟩

def depth (n : Nest α) : Nat := n.below.length + 1

def note (a : α) (n : Nest α) : Nest α := { n with top := n.top ++ [a] }

def start (n : Nest α) : Nest α := ⟨[], n.top :: n.below⟩

/-- Leave the innermost scope without a trace. Leaving the outermost one starts afresh. -/
def rollback (n : Nest α) : Nest α :=
  match n.below with
  | [] => empty
  | f :: fs => ⟨f, fs⟩

/-- Leave the innermost scope and keep what was noted in it. -/
def release (n : Nest α) : Nest α :=
  match n.below with
  | [] => n
  | f :: fs => ⟨f ++ n.top, fs⟩

/-- What the open scopes hold, oldest first. -/
def live (n : Nest α) : List α := (n.top :: n.below).reverse.flatten

/-! ## The log -/

/-- The entries of scopes, innermost first, each with the level of its scope. -/
def label : List (List α) → List (Nat × α)
  | [] => []
  | f :: fs => label fs ++ f.map (Prod.mk (fs.length + 1))

def labelled (n : Nest α) : List (Nat × α) := label (n.top :: n.below)

theorem label_snd (fs : List (List α)) : (label fs).map Prod.snd = fs.reverse.flatten := by
  induction fs with
  | nil => rfl
  | cons f fs ih => simp [label, ih, Function.comp_def]

theorem labelled_snd (n : Nest α) : n.labelled.map Prod.snd = n.live := label_snd _

variable {fs : List (List α)}

theorem level_le {x : Nat × α} (hx : x ∈ label fs) : x.1 ≤ fs.length := by
  induction fs with
  | nil => cases hx
  | cons f fs ih =>
    rcases List.mem_append.mp hx with hx | hx
    · exact Nat.le_succ_of_le (ih hx)
    · obtain ⟨a, -, rfl⟩ := List.mem_map.mp hx
      exact Nat.le_refl _

theorem label_pairwise (fs : List (List α)) : (label fs).Pairwise fun x y => x.1 ≤ y.1 := by
  induction fs with
  | nil => exact List.Pairwise.nil
  | cons f fs ih =>
    refine List.pairwise_append.mpr ⟨ih, ?_, ?_⟩
    · exact List.pairwise_map.mpr (List.pairwise_of_forall fun _ _ => Nat.le_refl _)
    · intro x hx y hy
      obtain ⟨a, -, rfl⟩ := List.mem_map.mp hy
      exact Nat.le_succ_of_le (level_le hx)

theorem labelled_pairwise (n : Nest α) : n.labelled.Pairwise fun x y => x.1 ≤ y.1 :=
  label_pairwise _

theorem labelled_note (a : α) (n : Nest α) :
    (n.note a).labelled = n.labelled ++ [(n.depth, a)] := by
  simp [labelled, label, note, depth]

theorem labelled_start (n : Nest α) : n.start.labelled = n.labelled := by
  simp [labelled, label, start]

/-- The log of a nested scope is the log below it, then its own entries. -/
theorem labelled_rollback {n : Nest α} {f : List α} (hBelow : n.below = f :: fs) :
    n.labelled = n.rollback.labelled ++ n.top.map (Prod.mk n.depth) := by
  simp only [labelled, rollback, hBelow, depth]
  rfl

theorem level_lt_of_rollback {n : Nest α} {f : List α} (hBelow : n.below = f :: fs) {x : Nat × α}
    (hx : x ∈ n.rollback.labelled) : x.1 < n.depth := by
  have hLe := level_le hx
  simp only [rollback, hBelow, List.length_cons] at hLe
  simp only [depth, hBelow, List.length_cons]
  omega

/-- A release lowers the levels to those of the scopes that stay open. -/
theorem labelled_release {n : Nest α} {f : List α} (hBelow : n.below = f :: fs) :
    n.release.labelled = n.labelled.map fun x => (min x.1 (n.depth - 1), x.2) := by
  have hKept : n.rollback.labelled.map (fun x => (min x.1 (n.depth - 1), x.2)) =
      n.rollback.labelled := by
    refine (List.map_congr_left fun x hx => ?_).trans (List.map_id _)
    have hLt := level_lt_of_rollback hBelow hx
    exact Prod.ext (Nat.min_eq_left (by omega)) rfl
  rw [labelled_rollback hBelow, List.map_append, hKept, List.map_map]
  simp [labelled, label, release, rollback, hBelow, depth, Function.comp_def]

theorem live_note (a : α) (n : Nest α) : (n.note a).live = n.live ++ [a] := by
  rw [← labelled_snd, labelled_note, List.map_append, labelled_snd]
  rfl

theorem live_start (n : Nest α) : n.start.live = n.live := by
  rw [← labelled_snd, labelled_start, labelled_snd]

theorem live_release (n : Nest α) : n.release.live = n.live := by
  unfold release
  split <;> simp_all [live]

theorem mem_live_of_rollback {n : Nest α} {a : α} (h : a ∈ n.rollback.live) : a ∈ n.live := by
  unfold rollback at h
  split at h
  · cases h
  · rename_i f fs hBelow
    rw [live, hBelow]
    simp only [live, List.reverse_cons, List.flatten_append, List.mem_append] at h ⊢
    exact .inl h

/-! ## Views of the log -/

/-- Some of the entries, as values that carry their level. -/
def view (v : Nat → α → Option β) (n : Nest α) : List β :=
  n.labelled.filterMap fun x => v x.1 x.2

section View

variable {v : Nat → α → Option β} {n : Nest α}

theorem view_note (a : α) : (n.note a).view v = n.view v ++ (v n.depth a).toList := by
  rw [view, labelled_note, List.filterMap_append]
  congr 1

theorem view_start : n.start.view v = n.view v := by rw [view, labelled_start, view]

theorem rdropWhile_append (l : List β) {m : List β} {p : β → Bool} (hm : ∀ b ∈ m, p b = true) :
    (l ++ m).rdropWhile p = l.rdropWhile p ∧ (l ++ m).rtakeWhile p = l.rtakeWhile p ++ m := by
  induction m using List.reverseRecOn with
  | nil => simp
  | append_singleton m b ih =>
    have hb : p b = true := hm b (by simp)
    obtain ⟨hDrop, hTake⟩ := ih fun c hc => hm c (List.mem_append_left _ hc)
    rw [← List.append_assoc]
    refine ⟨by rw [List.rdropWhile_concat_pos p _ b hb, hDrop], ?_⟩
    rw [List.rtakeWhile_concat_pos p _ b hb, hTake, List.append_assoc]

variable (level : β → Nat) (hLevel : ∀ l a b, v l a = some b → level b = l)

include hLevel

variable {fs : List (List α)}

theorem view_split {f : List α} (hBelow : n.below = f :: fs) :
    (n.view v).rdropWhile (fun b => n.depth ≤ level b) = n.rollback.view v ∧
      (n.view v).rtakeWhile (fun b => n.depth ≤ level b) = n.top.filterMap (v n.depth) := by
  have hView : n.view v = n.rollback.view v ++ n.top.filterMap (v n.depth) := by
    rw [view, labelled_rollback hBelow, List.filterMap_append, List.filterMap_map]
    rfl
  have hKept : ∀ b ∈ n.rollback.view v, level b < n.depth := by
    intro b hb
    obtain ⟨x, hx, hv⟩ := List.mem_filterMap.mp hb
    rw [hLevel _ _ _ hv]
    exact level_lt_of_rollback hBelow hx
  obtain ⟨hDrop, hTake⟩ := rdropWhile_append (n.rollback.view v) (m := n.top.filterMap (v n.depth))
    (p := fun b => n.depth ≤ level b) fun b hb => by
      obtain ⟨a, -, hv⟩ := List.mem_filterMap.mp hb
      simp [hLevel _ _ _ hv]
  rw [hView, hDrop, hTake]
  refine ⟨List.rdropWhile_eq_self_iff.mpr fun hNil => ?_, ?_⟩
  · have hLast := hKept _ (List.getLast_mem hNil)
    simpa using hLast
  · rw [List.rtakeWhile_eq_nil_iff.mpr fun hNil => ?_, List.nil_append]
    have hLast := hKept _ (List.getLast_mem hNil)
    simpa using hLast

theorem view_rollback {f : List α} (hBelow : n.below = f :: fs) :
    (n.view v).rdropWhile (fun b => n.depth ≤ level b) = n.rollback.view v :=
  (view_split level hLevel hBelow).1

theorem view_release {f : List α} (hBelow : n.below = f :: fs) {relabel : β → β}
    (hRelabel : ∀ a, v (n.depth - 1) a = (v n.depth a).map relabel) :
    (n.view v).rdropWhile (fun b => n.depth ≤ level b) ++
      ((n.view v).rtakeWhile fun b => n.depth ≤ level b).map relabel = n.release.view v := by
  obtain ⟨hDrop, hTake⟩ := view_split level hLevel hBelow
  have hTop : n.top.filterMap (v (fs.length + 1)) = (n.top.filterMap (v n.depth)).map relabel := by
    rw [List.map_filterMap]
    refine List.filterMap_congr fun a _ => ?_
    have hDepth : n.depth - 1 = fs.length + 1 := by simp [depth, hBelow]
    rw [← hDepth, hRelabel]
  rw [hDrop, hTake, ← hTop]
  simp only [view, labelled, label, rollback, release, hBelow, List.map_append,
    List.filterMap_append, List.filterMap_map, List.append_assoc]
  rfl

end View

end Nest
