import Mathlib.Data.List.Dedup
import Mathlib.Data.List.Nodup
import Mathlib.Data.List.Perm.Basic
import Mathlib.Data.List.Perm.Subperm
import Mathlib.Logic.Function.Basic

/-!
# Reading the rows of a list of keys

A store answers a key with its rows, or fails. `gather` reads a list of keys one
after another and stops at the first failure. `Lists` says that a result is a
listing of the whole store: the rows of distinct keys that pass a filter, such
that no other key has a row that passes.

* `gather_eq` and `gather_error`: the result when all keys can be read, and why
  one cannot;
* `Lists.of_gather`: distinct keys that leave out no row that passes;
* `flatMap_perm`: two listings agree when they agree key by key;
* `gather_tagged_iff`: two readings whose rows carry their keys agree when they agree key by key;
* `shared_perm`: keys that are shared out to nodes are all there.
-/

namespace Gather

variable {ε κ ρ : Type*} {f g : κ → Except ε (List ρ)} {l : List κ}

/-- The rows of the keys, one after another. -/
def gather (f : κ → Except ε (List ρ)) : List κ → Except ε (List ρ)
  | [] => .ok []
  | k :: l => (f k).bind fun rows => (gather f l).map (rows ++ ·)

theorem gather_congr (h : ∀ k ∈ l, f k = g k) : gather f l = gather g l := by
  induction l with
  | nil => rfl
  | cons k l ih =>
    rw [List.forall_mem_cons] at h
    rw [gather, gather, h.1, ih h.2]

theorem gather_append (f : κ → Except ε (List ρ)) (l m : List κ) :
    gather f (l ++ m) = (gather f l).bind fun rows => (gather f m).map (rows ++ ·) := by
  induction l with
  | nil =>
    rw [List.nil_append]
    cases gather f m <;> rfl
  | cons k l ih =>
    rw [List.cons_append, gather, gather, ih]
    cases f k with
    | error e => rfl
    | ok rows =>
      cases gather f l with
      | error e => rfl
      | ok rows' => cases gather f m <;> simp [Except.bind, Except.map]

theorem gather_map {ι : Type*} (f : κ → Except ε (List ρ)) (g : ι → κ) (l : List ι) :
    gather f (l.map g) = gather (fun i => f (g i)) l := by
  induction l with
  | nil => rfl
  | cons i l ih => rw [List.map_cons, gather, gather, ih]

variable {m : List κ} {rows : List ρ}

theorem gather_append_ok {f : κ → Except ε (List ρ)} {l : List κ} {out : List ρ} :
    gather f (l ++ m) = .ok out ↔
      ∃ rows rest, gather f l = .ok rows ∧ out = rows ++ rest ∧ gather f m = .ok rest := by
  rw [gather_append]
  cases gather f l with
  | error e => simp [Except.bind]
  | ok rows =>
    cases gather f m with
    | error e => simp [Except.bind, Except.map]
    | ok rest => simp [Except.bind, Except.map, eq_comm]

/-- If every key can be read, the result is the rows of all of them. -/
theorem gather_eq {rows : κ → List ρ} (h : ∀ k ∈ l, f k = .ok (rows k)) :
    gather f l = .ok (l.flatMap rows) := by
  induction l with
  | nil => rfl
  | cons k l ih =>
    rw [List.forall_mem_cons] at h
    rw [gather, h.1, ih h.2]
    rfl

/-- A reading that succeeds read every key. -/
theorem gather_ok (h : gather f l = .ok rows) : ∀ k ∈ l, ∃ r, f k = .ok r := by
  induction l generalizing rows with
  | nil => simp
  | cons k l ih =>
    rw [gather] at h
    cases hk : f k with
    | error e => simp [hk, Except.bind] at h
    | ok r =>
      cases hl : gather f l with
      | error e => simp [hk, hl, Except.bind, Except.map] at h
      | ok rest => exact List.forall_mem_cons.mpr ⟨⟨r, hk⟩, ih hl⟩

/-- The rows of a key, or none where it cannot be read. -/
def rowsOf (f : κ → Except ε (List ρ)) (k : κ) : List ρ :=
  match f k with
  | .ok rows => rows
  | .error _ => []

theorem eq_ok_rowsOf {k : κ} (h : f k = .ok rows) : f k = .ok (rowsOf f k) := by
  rw [rowsOf, h]

theorem gather_ok_iff {out : List ρ} :
    gather f l = .ok out ↔ (∀ k ∈ l, f k = .ok (rowsOf f k)) ∧ out = l.flatMap (rowsOf f) := by
  constructor
  · intro h
    have hAll : ∀ k ∈ l, f k = .ok (rowsOf f k) := fun k hk =>
      (gather_ok h k hk).elim fun _ hRows => eq_ok_rowsOf hRows
    rw [gather_eq hAll] at h
    exact ⟨hAll, (Except.ok.inj h).symm⟩
  · rintro ⟨hAll, rfl⟩
    exact gather_eq hAll

/-- A store that has no rows but under the keys that were read can be read everywhere. -/
theorem ok_rowsOf (hRest : ∀ k, k ∉ l → f k = .ok []) (h : gather f l = .ok rows) (k : κ) :
    f k = .ok (rowsOf f k) := by
  by_cases hk : k ∈ l
  · exact (gather_ok_iff.mp h).1 k hk
  · rw [rowsOf, hRest k hk]

theorem gather_error {e : ε} (h : gather f l = .error e) : ∃ k ∈ l, f k = .error e := by
  induction l with
  | nil => cases h
  | cons k l ih =>
    rw [gather] at h
    cases hk : f k with
    | error e' =>
      rw [hk] at h
      cases h
      exact ⟨k, List.mem_cons_self, hk⟩
    | ok r =>
      cases hl : gather f l with
      | error e' =>
        rw [hk, hl] at h
        cases h
        obtain ⟨k', hk', hf⟩ := ih hl
        exact ⟨k', List.mem_cons_of_mem k hk', hf⟩
      | ok rest => simp [hk, hl, Except.bind, Except.map] at h

/-! ## Listings -/

/-- The result lists the rows of a store that pass a filter: those of distinct
keys, where no other key has a row that passes. It may fail only where a key of
the store cannot be read. -/
def Lists (f : κ → Except ε (List ρ)) (q : ρ → Bool) : Except ε (List ρ) → Prop
  | .ok rows => ∃ keys all, keys.Nodup ∧ gather f keys = .ok all ∧ rows.Perm (all.filter q) ∧
      ∀ k, k ∉ keys → ∀ r, f k = .ok r → ∀ x ∈ r, q x = false
  | .error e => ∃ k, f k = .error e

theorem Lists.of_gather {q : ρ → Bool} (hNodup : l.Nodup)
    (hRest : ∀ k, k ∉ l → ∀ r, f k = .ok r → ∀ x ∈ r, q x = false) :
    Lists f q ((gather f l).map (List.filter q)) := by
  cases h : gather f l with
  | error e =>
    obtain ⟨k, -, hk⟩ := gather_error h
    exact ⟨k, hk⟩
  | ok rows => exact ⟨l, rows, hNodup, h, .refl _, hRest⟩

/-- A listing holds every row that passes its filter. -/
theorem Lists.mem {q : ρ → Bool} (h : Lists f q (.ok rows)) {k : κ} {r : List ρ} (hk : f k = .ok r)
    {x : ρ} (hx : x ∈ r) (hq : q x = true) : x ∈ rows := by
  obtain ⟨keys, all, -, hAll, hPerm, hRest⟩ := h
  have hKey : k ∈ keys := by_contra fun hNot => by simp [hRest k hNot r hk x hx] at hq
  rw [hPerm.mem_iff, List.mem_filter]
  refine ⟨?_, hq⟩
  rw [(gather_ok_iff.mp hAll).2, List.mem_flatMap]
  exact ⟨k, hKey, by rwa [rowsOf, hk]⟩

/-- The rows of a list of keys are those of the keys with a property and those of the rest. -/
theorem flatMap_split (p : κ → Bool) (r : κ → List ρ) (l : List κ) :
    (l.flatMap r).Perm ((l.filter p).flatMap r ++ (l.filter fun k => !p k).flatMap r) := by
  rw [← List.flatMap_append]
  exact (List.filter_append_perm p l).symm.flatMap_right r

/-- Two families of rows over distinct keys have the same rows when they agree on
the keys of both and have none for the keys of one only. -/
theorem flatMap_perm [DecidableEq κ] {r s : κ → List ρ} (hl : l.Nodup) (hm : m.Nodup)
    (hBoth : ∀ k ∈ l, k ∈ m → (r k).Perm (s k)) (hLeft : ∀ k ∈ l, k ∉ m → r k = [])
    (hRight : ∀ k ∈ m, k ∉ l → s k = []) : (l.flatMap r).Perm (m.flatMap s) := by
  have hDrop : ∀ {a b : List κ} {t : κ → List ρ}, (∀ k ∈ a, k ∉ b → t k = []) →
      (a.flatMap t).Perm ((a.filter (· ∈ b)).flatMap t) := by
    intro a b t hNone
    refine (flatMap_split (· ∈ b) t a).trans ?_
    have hEmpty : (a.filter fun k => !decide (k ∈ b)).flatMap t = [] := by
      simp only [List.flatMap_eq_nil_iff, List.mem_filter, Bool.not_eq_true', decide_eq_false_iff_not]
      exact fun k hk => hNone k hk.1 hk.2
    rw [hEmpty, List.append_nil]
  have hSame : (l.filter (· ∈ m)).Perm (m.filter (· ∈ l)) := by
    rw [List.perm_ext_iff_of_nodup (hl.filter _) (hm.filter _)]
    intro k
    simp [and_comm]
  refine (hDrop hLeft).trans (.trans ?_ (hDrop hRight).symm)
  refine (hSame.flatMap_right r).trans (List.Perm.flatMap_left _ fun k hk => ?_)
  simp only [List.mem_filter, decide_eq_true_eq] at hk
  exact hBoth k hk.2 hk.1

/-- What the keys of both have cancels, so nothing is left for those that one leaves out. -/
theorem flatMap_perm_iff [DecidableEq κ] {r : κ → List ρ} (hl : l.Nodup) (hm : m.Nodup)
    (hRest : ∀ k, k ∉ m → r k = []) :
    (l.flatMap r).Perm (m.flatMap r) ↔ ∀ k, k ∉ l → r k = [] := by
  refine ⟨fun hPerm k hk => ?_, fun hNone => flatMap_perm hl hm (fun k _ _ => .refl _)
    (fun k _ => hRest k) fun k _ => hNone k⟩
  by_cases hTable : k ∈ m
  · have hBoth : (l.flatMap r).Perm ((m.filter (· ∈ l)).flatMap r) := by
      refine flatMap_perm hl (hm.filter _) (fun k _ _ => .refl _) (fun k hk hNot => ?_) ?_
      · exact hRest k fun hMem => hNot (List.mem_filter.mpr ⟨hMem, decide_eq_true hk⟩)
      · intro k hk hNot
        exact absurd (of_decide_eq_true (List.mem_filter.mp hk).2) hNot
    have hLength := (hBoth.symm.trans (hPerm.trans (flatMap_split (· ∈ l) r m))).length_eq
    rw [List.length_append] at hLength
    have hLeft : (m.filter fun k => !decide (k ∈ l)).flatMap r = [] :=
      List.length_eq_zero_iff.mp (by omega)
    exact List.flatMap_eq_nil_iff.mp hLeft k (List.mem_filter.mpr ⟨hTable, by simpa using hk⟩)
  · exact hRest k hTable

/-- Reading the keys of `l`, in some order, instead of those of `m`. The strays of `l` have no
rows of their own. If no row of a stray counts, the readings agree where the keys that `l` leaves
out have no row that counts and the strays can be read. -/
theorem gather_strays_iff [DecidableEq κ] {order : List κ} {stray : κ → Bool} {q : ρ → Bool}
    {walk : List ρ} (hl : l.Nodup) (hm : m.Nodup) (hOrder : order.Perm l)
    (hSame : ∀ k ∈ l, stray k = false → f k = g k) (hStray : ∀ k ∈ l, stray k = true → g k = .ok [])
    (hRest : ∀ k, k ∉ m → g k = .ok []) (hWalk : gather g m = .ok walk) :
    ((∃ out, gather f order = .ok out ∧ (out.filter q).Perm (walk.filter q)) ∧
        ∀ k ∈ l, stray k = true → ∀ rows, f k = .ok rows → ∀ x ∈ rows, q x = false) ↔
      (∀ k, k ∉ l → ∀ rows, g k = .ok rows → ∀ x ∈ rows, q x = false) ∧
        ∀ k ∈ l, stray k = true → ∃ rows, f k = .ok rows ∧ ∀ x ∈ rows, q x = false := by
  have hOk := ok_rowsOf hRest hWalk
  obtain ⟨-, rfl⟩ := gather_ok_iff.mp hWalk
  have hNone {rows : List ρ} : rows.filter q = [] ↔ ∀ x ∈ rows, q x = false := by
    simp [List.filter_eq_nil_iff]
  have hPerm (hStrays : ∀ k ∈ l, stray k = true → (rowsOf f k).filter q = []) :
      ((order.flatMap (rowsOf f)).filter q).Perm ((m.flatMap (rowsOf g)).filter q) ↔
        ∀ k, k ∉ l → (rowsOf g k).filter q = [] := by
    rw [List.filter_flatMap, List.filter_flatMap, ← flatMap_perm_iff hl hm fun k hk => by
      rw [rowsOf, hRest k hk]; rfl]
    have hOwn : (order.flatMap fun k => (rowsOf f k).filter q).Perm
        (l.flatMap fun k => (rowsOf g k).filter q) := by
      refine (hOrder.flatMap_right _).trans (.of_eq (List.flatMap_congr fun k hk => ?_))
      cases hs : stray k with
      | true => rw [hStrays k hk hs, rowsOf, hStray k hk hs]; rfl
      | false => rw [rowsOf, rowsOf, hSame k hk hs]
    exact ⟨hOwn.symm.trans, hOwn.trans⟩
  constructor
  · rintro ⟨⟨out, hOut, hAgree⟩, hFails⟩
    obtain ⟨hAll, rfl⟩ := gather_ok_iff.mp hOut
    have hRead : ∀ k ∈ l, f k = .ok (rowsOf f k) := fun k hk => hAll k (hOrder.mem_iff.mpr hk)
    have hMissed := (hPerm fun k hk hs => hNone.mpr (hFails k hk hs _ (hRead k hk))).mp hAgree
    refine ⟨fun k hk rows hRows => ?_, fun k hk hs => ⟨_, hRead k hk, hFails k hk hs _ (hRead k hk)⟩⟩
    cases hRows.symm.trans (hOk k)
    exact hNone.mp (hMissed k hk)
  · rintro ⟨hMissed, hExtra⟩
    have hRead : ∀ k ∈ l, f k = .ok (rowsOf f k) := by
      intro k hk
      cases hs : stray k with
      | true => exact (hExtra k hk hs).elim fun _ hRows => eq_ok_rowsOf hRows.1
      | false =>
        rw [rowsOf, hSame k hk hs]
        exact hOk k
    have hFails : ∀ k ∈ l, stray k = true → ∀ rows, f k = .ok rows → ∀ x ∈ rows, q x = false := by
      intro k hk hs rows hRows
      obtain ⟨rows', hRows', hPass⟩ := hExtra k hk hs
      cases hRows.symm.trans hRows'
      exact hPass
    refine ⟨⟨_, gather_eq fun k hk => hRead k (hOrder.mem_iff.mp hk), ?_⟩, hFails⟩
    exact (hPerm fun k hk hs => hNone.mpr (hFails k hk hs _ (hRead k hk))).mpr fun k hk =>
      hNone.mpr (hMissed k hk _ (hOk k))

/-- The rows that carry a key are those read under it. -/
theorem filter_tag [DecidableEq κ] {tag : ρ → Option κ} {r : κ → List ρ} (hl : l.Nodup)
    (hTag : ∀ k ∈ l, ∀ x ∈ r k, tag x = some k) (k : κ) :
    (l.flatMap r).filter (fun x => decide (tag x = some k)) = if k ∈ l then r k else [] := by
  induction l with
  | nil => rfl
  | cons j l ih =>
    rw [List.forall_mem_cons] at hTag
    obtain ⟨hj, hl⟩ := List.nodup_cons.mp hl
    rw [List.flatMap_cons, List.filter_append, ih hl hTag.2]
    by_cases hk : j = k
    · subst hk
      rw [if_neg hj, if_pos List.mem_cons_self, List.append_nil, List.filter_eq_self]
      exact fun x hx => decide_eq_true (hTag.1 x hx)
    · have hNone : (r j).filter (fun x => decide (tag x = some k)) = [] := by
        refine List.filter_eq_nil_iff.mpr fun x hx => ?_
        simp [hTag.1 x hx, hk]
      simp [hNone, Ne.symm hk]

/-- What a reading of the keys `l` has under one key. -/
def readIn [DecidableEq κ] (f : κ → Except ε (List ρ)) (l : List κ) (k : κ) :
    Except ε (List ρ) :=
  if k ∈ l then f k else .ok []

/-- Two readings whose rows carry their keys agree if they agree key by key. -/
theorem gather_tagged_iff [DecidableEq κ] {tag : ρ → Option κ} {walk : List ρ} (hl : l.Nodup)
    (hm : m.Nodup) (hTag : ∀ k ∈ l, ∀ rows, f k = .ok rows → ∀ x ∈ rows, tag x = some k)
    (hTag' : ∀ k ∈ m, ∀ rows, g k = .ok rows → ∀ x ∈ rows, tag x = some k)
    (hRest : ∀ k, k ∉ m → g k = .ok []) (hWalk : gather g m = .ok walk) :
    (∃ out, gather f l = .ok out ∧ out.Perm walk) ↔
      ∀ k, ∃ rows left, readIn f l k = .ok rows ∧ g k = .ok left ∧ rows.Perm left := by
  unfold readIn
  have hOk := ok_rowsOf hRest hWalk
  obtain ⟨hRead, rfl⟩ := gather_ok_iff.mp hWalk
  constructor
  · rintro ⟨out, hOut, hPerm⟩ k
    obtain ⟨hAll, rfl⟩ := gather_ok_iff.mp hOut
    refine ⟨if k ∈ l then rowsOf f k else [], rowsOf g k, ?_, hOk k, ?_⟩
    · split_ifs with hk
      · exact hAll k hk
      · rfl
    · have hOwn := hPerm.filter fun x => decide (tag x = some k)
      rw [filter_tag hl fun k hk => hTag k hk _ (hAll k hk),
        filter_tag hm fun k hk => hTag' k hk _ (hRead k hk)] at hOwn
      refine hOwn.trans (.of_eq ?_)
      split_ifs with hk
      · rfl
      · rw [rowsOf, hRest k hk]
  · intro h
    have hAll : ∀ k ∈ l, f k = .ok (rowsOf f k) ∧ (rowsOf f k).Perm (rowsOf g k) := by
      intro k hk
      obtain ⟨rows, left, hRows, hLeft, hPerm⟩ := h k
      rw [if_pos hk] at hRows
      rw [rowsOf, rowsOf, hRows, hLeft]
      exact ⟨rfl, hPerm⟩
    refine ⟨_, gather_eq fun k hk => (hAll k hk).1, flatMap_perm hl hm (fun k hk _ => (hAll k hk).2)
      (fun k hk hNot => ?_) fun k hk hNot => ?_⟩
    · have hPerm := (hAll k hk).2
      rwa [show rowsOf g k = [] by rw [rowsOf, hRest k hNot], List.perm_nil] at hPerm
    · obtain ⟨rows, left, hRows, hLeft, hPerm⟩ := h k
      rw [if_neg hNot] at hRows
      cases hRows
      rw [rowsOf, hLeft]
      exact List.nil_perm.mp hPerm

/-- Keys that are shared out, each to exactly one of several nodes, are all there. -/
theorem shared_perm {ν : Type*} {nodes : List ν} {keys : List κ} {asks : ν → κ → Bool}
    (hNodes : nodes.Nodup) (hKeys : keys.Nodup)
    (hSome : ∀ k ∈ keys, ∃ n ∈ nodes, asks n k = true)
    (hOne : ∀ k ∈ keys, ∀ n n', asks n k = true → asks n' k = true → n = n') :
    (nodes.flatMap fun n => keys.filter (asks n)).Perm keys := by
  refine (List.perm_ext_iff_of_nodup ?_ hKeys).mpr fun k => ?_
  · refine List.nodup_flatMap.mpr ⟨fun n _ => hKeys.filter _, hNodes.imp fun hne => ?_⟩
    intro k hLeft hRight
    rw [List.mem_filter] at hLeft hRight
    exact hne (hOne k hLeft.1 _ _ hLeft.2 hRight.2)
  · simp only [List.mem_flatMap, List.mem_filter]
    constructor
    · rintro ⟨-, -, hk, -⟩
      exact hk
    · intro hk
      obtain ⟨n, hn, hAsks⟩ := hSome k hk
      exact ⟨n, hn, hk, hAsks⟩

end Gather
