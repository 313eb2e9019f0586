import ValkeyFdw.Overlay.Cache

/-!
# The tail of a scan

When the server's pages are spent, a scan goes on with the keys its transaction
created. It walks the write buffer with an iterator, and the transaction goes on
writing between two of its rows. An iterator that finds the buffer changed starts
again at the head; the keys it has emitted are in the scan's set of seen keys.

The scan reads only what its command may see. As long as the transaction neither
writes nor rolls back anything of that kind, every question to the overlay keeps
its answer (`Quiet`), and the keys that can still be emitted only become fewer.
-/

namespace ValkeyFdw

open Stamped

/-! ## The iterator -/

/-- A place in the write buffer, and the generation it belongs to. -/
structure TailIter where
  /-- The generation of the buffer when the iterator started. -/
  generation : Nat := 0
  next : Option Nat := none

namespace TailIter

def init (l : OpLog) : TailIter := ⟨l.list.gen, l.list.entries.head?⟩

/-- An iterator that the buffer has moved under starts again. -/
def current (l : OpLog) (it : TailIter) : TailIter :=
  if it.generation ≠ l.list.gen then init l else it

/-- The operations an iterator still has before it. -/
def before (l : OpLog) (it : TailIter) : List Nat :=
  standing (it.current l).next l.list.entries

/-- Go on to an INSERT of the table whose key has a row in the overlay: its key, the
row and the operations behind it. -/
def walk (l : OpLog) (relid cid : Nat) :
    List Nat → Overlay → Option (Bytes × Row × List Nat) × Overlay
  | [], o => (none, o)
  | a :: rest, o =>
    if (l.heap a).relid ≠ relid ∨ (l.heap a).kind ≠ .insert then walk l relid cid rest o
    else match o.check l (l.heap a).relid cid (l.heap a).key with
      | (.replace row, o) => (some ((l.heap a).key, row, rest), o)
      | (.pass, o) | (.hide, o) => walk l relid cid rest o

/-- The next row that the transaction created, with its key. -/
def iterNext (l : OpLog) (relid cid : Nat) (it : TailIter) (o : Overlay) :
    Option (Bytes × Row) × TailIter × Overlay :=
  match walk l relid cid (it.before l) o with
  | (none, o) => (none, ⟨(it.current l).generation, none⟩, o)
  | (some (key, row, rest), o) => (some (key, row), ⟨(it.current l).generation, rest.head?⟩, o)

theorem walk_suffix {l : OpLog} {relid cid : Nat} {as : List Nat} {o o' : Overlay} {key : Bytes}
    {row : Row} {rest : List Nat}
    (h : walk l relid cid as o = (some (key, row, rest), o')) : ∃ a, a :: rest <:+ as := by
  induction as generalizing o with
  | nil => cases h
  | cons a as ih =>
    rw [walk] at h
    split at h
    · obtain ⟨b, hb⟩ := ih h
      exact ⟨b, hb.trans (List.suffix_cons a as)⟩
    · split at h
      · cases h
        exact ⟨a, List.suffix_rfl⟩
      all_goals
        obtain ⟨b, hb⟩ := ih h
        exact ⟨b, hb.trans (List.suffix_cons a as)⟩

theorem current_generation (l : OpLog) (it : TailIter) : (it.current l).generation = l.list.gen := by
  unfold current
  split
  · rfl
  · rename_i hSame
    exact not_not.mp hSame

theorem current_of_generation {l : OpLog} {it : TailIter} (h : it.generation = l.list.gen) :
    it.current l = it :=
  if_neg (not_not.mpr h)

theorem before_suffix (l : OpLog) (it : TailIter) : it.before l <:+ l.list.entries :=
  standing_suffix _ _

theorem before_head {l : OpLog} {rest : List Nat} (h : rest <:+ l.list.entries) :
    before l ⟨l.list.gen, rest.head?⟩ = rest := by
  obtain ⟨old, hSplit⟩ := h
  have hNodup := l.nodup
  rw [before, current_of_generation rfl]
  rw [← hSplit] at hNodup ⊢
  exact standing_head hNodup

theorem before_of_iterNext {l : OpLog} {relid cid : Nat} {it it' : TailIter} {o o' : Overlay}
    {found : Bytes × Row} (h : iterNext l relid cid it o = (some found, it', o')) :
    ∃ a, a :: it'.before l <:+ it.before l := by
  unfold iterNext at h
  split at h
  · cases h
  · rename_i hWalk
    cases h
    obtain ⟨a, ha⟩ := walk_suffix hWalk
    rw [current_generation, before_head (((List.suffix_cons a _).trans ha).trans (before_suffix l it))]
    exact ⟨a, ha⟩

end TailIter

/-! ## The scan -/

/-- What a scan keeps to reconcile the server's rows with its transaction's. -/
structure TailScan where
  todo : List Bytes
  seen : List Bytes := []
  overlayTail : Bool := false
  iter : TailIter := {}

namespace TailScan

/-- With an empty buffer nothing is recorded. -/
def markSeen (l : OpLog) (seen : List Bytes) (key : Bytes) : List Bytes :=
  if l.isEmpty then seen else key :: seen

/-- Go through the rows of the iterator to one whose key has not been seen. -/
def inject (l : OpLog) (relid cid : Nat) (seen : List Bytes) (it : TailIter) (o : Overlay) :
    Option (Bytes × Row) × List Bytes × TailIter × Overlay :=
  match _h : it.iterNext l relid cid o with
  | (none, it', o') => (none, seen, it', o')
  | (some (key, row), it', o') =>
    if key ∈ seen then inject l relid cid seen it' o'
    else (some (key, row), markSeen l seen key, it', o')
termination_by (it.before l).length
decreasing_by
  obtain ⟨a, ha⟩ := TailIter.before_of_iterNext _h
  exact Nat.lt_of_lt_of_le (Nat.lt_succ_self _) ha.length_le

/-- What the transaction has done to a key of the server's pages. -/
def applyOverlay (s : Indexed) (relid cid : Nat) (t : TailScan) (key : Bytes) :
    Verdict × TailScan × Overlay :=
  if s.log.isEmpty then (.pass, t, s.overlay)
  else
    let (verdict, o) := s.overlay.check s.log relid cid key
    (verdict, { t with seen := markSeen s.log t.seen key }, o)

/-- The server has no more keys: a row that the transaction created, if one is left. -/
def drainTail (s : Indexed) (relid cid : Nat) (t : TailScan) :
    Option (Bytes × Row) × TailScan × Overlay :=
  if s.log.isEmpty then (none, t, s.overlay)
  else
    let it := if t.overlayTail then t.iter else .init s.log
    let (row, seen, it, o) := inject s.log relid cid t.seen it s.overlay
    (row, { t with overlayTail := true, seen := seen, iter := it }, o)

end TailScan

/-- A scan inside its transaction, with the rows its tail has emitted. -/
structure Fetching where
  indexed : Indexed
  scan : TailScan
  emitted : List (Bytes × Row) := []
  /-- How often the tail was asked for a row, and whether it ever had none. -/
  calls : Nat := 0
  ended : Bool := false

/-- What can happen between two rows of a scan. -/
inductive FetchEvent where
  /-- The transaction writes, rolls back, releases, or asks the overlay. -/
  | buffer (e : IndexEvent)
  /-- The scan goes on by one key of its pages, or by one row of its tail. -/
  | fetch

namespace Fetching

variable (relid cid : Nat)

def step : FetchEvent → Fetching → Fetching
  | .buffer e, s => { s with indexed := s.indexed.step e }
  | .fetch, s =>
    match s.scan.todo with
    | key :: todo =>
      let (_, scan, o) := s.scan.applyOverlay s.indexed relid cid key
      { s with indexed := { s.indexed with overlay := o }, scan := { scan with todo := todo } }
    | [] =>
      let (row, scan, o) := s.scan.drainTail s.indexed relid cid
      { indexed := { s.indexed with overlay := o }
        scan := scan
        emitted := s.emitted ++ row.toList
        calls := s.calls + 1
        ended := s.ended || row.isNone }

def run (events : List FetchEvent) (s : Fetching) : Fetching :=
  events.foldl (fun s e => step relid cid e s) s

/-- An operation that the scan does not see: of another table, or not of an earlier
command. -/
def Unseen (op : WriteOp) : Prop := op.relid = relid → cid ≤ op.cid

/-- What the transaction does while the scan is open: it writes operations and rolls
back operations that the scan does not see. -/
def Quiet : FetchEvent → Fetching → Prop
  | .buffer (.append _ cid' op), _ => Unseen relid cid { op with cid := cid' }
  | .buffer (.abortSub level _), s =>
    ∀ op ∈ s.indexed.log.ops.rtakeWhile fun op => level ≤ op.level, Unseen relid cid op
  | .buffer .reset, _ => False
  | .buffer (.preCommitSub _), _ | .buffer (.check ..), _ | .fetch, _ => True

/-- Every event of a run is quiet. -/
def QuietRun : List FetchEvent → Fetching → Prop
  | [], _ => True
  | e :: events, s => Quiet relid cid e s ∧ QuietRun events (step relid cid e s)

end Fetching

/-! ## What the iterator finds -/

section Walk

variable (l : OpLog) (relid cid : Nat)

/-- An INSERT of the table whose key the overlay has a row for. -/
def Created (a : Nat) (row : Row) : Prop :=
  ((l.heap a).relid = relid ∧ (l.heap a).kind = .insert) ∧
    overlayCheck l.ops relid cid (l.heap a).key = .replace row

variable {l relid cid}

theorem walk_spec {o : Overlay} (hSound : o.Sound l) (as : List Nat) :
    (TailIter.walk l relid cid as o).2.Sound l ∧
      match (TailIter.walk l relid cid as o).1 with
      | none => ∀ a ∈ as, ∀ row, ¬ Created l relid cid a row
      | some (key, row, rest) => ∃ skipped a, as = skipped ++ a :: rest ∧
          (∀ b ∈ skipped, ∀ row, ¬ Created l relid cid b row) ∧
          Created l relid cid a row ∧ (l.heap a).key = key := by
  induction as generalizing o with
  | nil => exact ⟨hSound, fun a ha => absurd ha List.not_mem_nil⟩
  | cons a as ih =>
    -- an operation that is passed over joins those that were skipped
    have hSkip : ∀ {o : Overlay}, o.Sound l → (∀ row, ¬ Created l relid cid a row) →
        (TailIter.walk l relid cid as o).2.Sound l ∧
          match (TailIter.walk l relid cid as o).1 with
          | none => ∀ b ∈ a :: as, ∀ row, ¬ Created l relid cid b row
          | some (key, row, rest) => ∃ skipped b, a :: as = skipped ++ b :: rest ∧
              (∀ c ∈ skipped, ∀ row, ¬ Created l relid cid c row) ∧
              Created l relid cid b row ∧ (l.heap b).key = key := by
      intro o hSound hNot
      obtain ⟨hSound', hFound⟩ := ih hSound
      refine ⟨hSound', ?_⟩
      split at hFound
      · exact List.forall_mem_cons.mpr ⟨hNot, hFound⟩
      · obtain ⟨skipped, b, rfl, hSkipped, hFound⟩ := hFound
        exact ⟨a :: skipped, b, rfl, List.forall_mem_cons.mpr ⟨hNot, hSkipped⟩, hFound⟩
    rw [TailIter.walk]
    split
    · rename_i hOther
      refine hSkip hSound fun row hCreated => ?_
      rcases hOther with hRelid | hKind
      · exact hRelid hCreated.1.1
      · exact hKind hCreated.1.2
    · rename_i hOwn
      obtain ⟨hRelid, hKind⟩ := not_or.mp hOwn
      rw [not_not] at hRelid hKind
      have hAnswer := Overlay.check_eq hSound (l.heap a).relid cid (l.heap a).key
      have hSound' := hSound.check (l.heap a).relid cid (l.heap a).key
      rw [hRelid] at hAnswer hSound' ⊢
      generalize o.check l relid cid (l.heap a).key = answered at hAnswer hSound'
      obtain ⟨verdict, o'⟩ := answered
      have hNot : ∀ row, verdict ≠ .replace row → ¬ Created l relid cid a row :=
        fun row hne hCreated => hne (hAnswer.trans hCreated.2)
      cases verdict with
      | pass => exact hSkip hSound' fun row => hNot row nofun
      | hide => exact hSkip hSound' fun row => hNot row nofun
      | replace row =>
        exact ⟨hSound', [], a, rfl, fun b hb => absurd hb List.not_mem_nil,
          ⟨⟨hRelid, hKind⟩, hAnswer.symm⟩, rfl⟩

/-- Every created row that the iterator has passed is among the seen keys. -/
def Passed (l : OpLog) (relid cid : Nat) (it : TailIter) (seen : List Bytes) : Prop :=
  ∃ passed, passed ++ it.before l = l.list.entries ∧
    ∀ a ∈ passed, ∀ row, Created l relid cid a row → (l.heap a).key ∈ seen

theorem Passed.init (l : OpLog) (seen : List Bytes) : Passed l relid cid (.init l) seen :=
  ⟨[], TailIter.before_head List.suffix_rfl, fun _ ha => absurd ha List.not_mem_nil⟩

variable {it : TailIter} {seen : List Bytes}

/-- An iterator of an earlier generation has passed nothing: it will start again. -/
theorem Passed.stale (h : it.generation ≠ l.list.gen) (seen : List Bytes) :
    Passed l relid cid it seen := by
  have hBefore : it.before l = (TailIter.init l).before l := by
    rw [TailIter.before, TailIter.current, if_pos h, TailIter.before,
      TailIter.current_of_generation rfl]
  have hInit : Passed l relid cid (.init l) seen := .init l seen
  rw [Passed, hBefore]
  exact hInit

theorem Passed.mono {seen' : List Bytes} (h : Passed l relid cid it seen) (hSub : seen ⊆ seen') :
    Passed l relid cid it seen' := by
  obtain ⟨passed, hSplit, hPassed⟩ := h
  exact ⟨passed, hSplit, fun a ha row hCreated => hSub (hPassed a ha row hCreated)⟩

theorem iterNext_spec {o : Overlay} (hSound : o.Sound l) (hPassed : Passed l relid cid it seen) :
    (it.iterNext l relid cid o).2.2.Sound l ∧
      (it.iterNext l relid cid o).2.1.generation = l.list.gen ∧
      match (it.iterNext l relid cid o).1 with
      | none => Passed l relid cid (it.iterNext l relid cid o).2.1 seen ∧
          ∀ a ∈ l.list.entries, ∀ row, Created l relid cid a row → (l.heap a).key ∈ seen
      | some (key, row) => Passed l relid cid (it.iterNext l relid cid o).2.1 (key :: seen) ∧
          ∃ a ∈ l.list.entries, Created l relid cid a row ∧ (l.heap a).key = key := by
  obtain ⟨passed, hSplit, hPassed⟩ := hPassed
  have hWalked := @walk_spec l relid cid o hSound (it.before l)
  obtain ⟨hSound', hFound⟩ := hWalked
  unfold TailIter.iterNext
  split
  · rename_i o' hWalk
    rw [hWalk] at hSound' hFound
    have hAll : ∀ a ∈ l.list.entries, ∀ row, Created l relid cid a row → (l.heap a).key ∈ seen := by
      intro a ha row hCreated
      rw [← hSplit] at ha
      rcases List.mem_append.mp ha with ha | ha
      · exact hPassed a ha row hCreated
      · exact absurd hCreated (hFound a ha row)
    refine ⟨hSound', it.current_generation l, ⟨l.list.entries, ?_, hAll⟩, hAll⟩
    rw [it.current_generation]
    exact (congrArg _ (TailIter.before_head (List.nil_suffix))).trans (List.append_nil _)
  · rename_i key row rest o' hWalk
    rw [hWalk] at hSound' hFound
    obtain ⟨skipped, a, hAt, hSkipped, hCreated, hKey⟩ := hFound
    have hEntries : (passed ++ skipped ++ [a]) ++ rest = l.list.entries := by
      rw [← hSplit, hAt]
      simp only [List.append_assoc, List.singleton_append]
    refine ⟨hSound', it.current_generation l, ⟨passed ++ skipped ++ [a], ?_, ?_⟩, a, ?_, hCreated, hKey⟩
    · rw [it.current_generation, TailIter.before_head ⟨_, hEntries⟩, hEntries]
    · intro b hb row' hCreated'
      rcases List.mem_append.mp hb with hb | hb
      · rcases List.mem_append.mp hb with hb | hb
        · exact List.mem_cons_of_mem _ (hPassed b hb row' hCreated')
        · exact absurd hCreated' (hSkipped b hb row')
      · rw [List.mem_singleton.mp hb, hKey]
        exact List.mem_cons_self
    · rw [← hEntries]
      simp

/-- The tail ends only when every created row has been seen, and what it emits is a
created row that has not. -/
theorem inject_spec {o : Overlay} (hSound : o.Sound l) (hPassed : Passed l relid cid it seen) :
    let r := TailScan.inject l relid cid seen it o
    r.2.2.2.Sound l ∧ r.2.2.1.generation = l.list.gen ∧ Passed l relid cid r.2.2.1 r.2.1 ∧
      match r.1 with
      | none => r.2.1 = seen ∧
          ∀ a ∈ l.list.entries, ∀ row, Created l relid cid a row → (l.heap a).key ∈ seen
      | some (key, row) => r.2.1 = key :: seen ∧ key ∉ seen ∧
          ∃ a ∈ l.list.entries, Created l relid cid a row ∧ (l.heap a).key = key := by
  dsimp only
  fun_induction TailScan.inject l relid cid seen it o with
  | case1 it o it₁ o₁ hNext =>
    obtain ⟨hSound₁, hGen, hFound⟩ := iterNext_spec hSound hPassed
    rw [hNext] at hSound₁ hGen hFound
    exact ⟨hSound₁, hGen, hFound.1, rfl, hFound.2⟩
  | case2 it o key row it₁ o₁ hNext hSeen ih =>
    obtain ⟨hSound₁, hGen, hFound⟩ := iterNext_spec hSound hPassed
    rw [hNext] at hSound₁ hGen hFound
    exact ih hSound₁ (hFound.1.mono (List.cons_subset.mpr ⟨hSeen, List.Subset.refl _⟩))
  | case3 it o key row it₁ o₁ hNext hSeen =>
    obtain ⟨hSound₁, hGen, hFound⟩ := iterNext_spec hSound hPassed
    rw [hNext] at hSound₁ hGen hFound
    obtain ⟨hPassed₁, a, ha, hCreated⟩ := hFound
    have hMark : TailScan.markSeen l seen key = key :: seen := by
      refine if_neg fun hEmpty => ?_
      have hNil := l.isEmpty_iff.mp hEmpty
      rw [OpLog.ops, List.map_eq_nil_iff] at hNil
      exact List.not_mem_nil (hNil ▸ ha)
    rw [hMark]
    exact ⟨hSound₁, hGen, hPassed₁, rfl, hSeen, a, ha, hCreated⟩

end Walk

/-! ## Answers that stay -/

namespace Fetching

variable {relid cid : Nat}

theorem overlayCheck_append_unseen (ops : List WriteOp) {more : List WriteOp}
    (h : ∀ op ∈ more, Unseen relid cid op) (key : Bytes) :
    overlayCheck (ops ++ more) relid cid key = overlayCheck ops relid cid key := by
  have hNone : more.reverse.find? (fun op => op.relid = relid && op.key = key && op.cid < cid) =
      none := by
    rw [List.find?_eq_none]
    intro op hOp
    have hUnseen := h op (List.mem_reverse.mp hOp)
    simp only [Bool.and_eq_true, decide_eq_true_eq, not_and]
    exact fun hOwn => Nat.not_lt.mpr (hUnseen hOwn.1)
  rw [overlayCheck, List.reverse_append, List.find?_append, hNone]
  rfl

theorem overlayCheck_concat (ops : List WriteOp) (op : WriteOp) (key : Bytes) :
    overlayCheck (ops ++ [op]) relid cid key =
      if op.relid = relid ∧ op.key = key ∧ op.cid < cid then
        if op.kind = .delete then .hide else op.newtup.elim .pass .replace
      else overlayCheck ops relid cid key := by
  rw [overlayCheck, List.reverse_append, List.find?_append, overlayCheck]
  by_cases h : op.relid = relid ∧ op.key = key ∧ op.cid < cid
  · rw [if_pos h]
    simp only [h.1, h.2.1, h.2.2, List.reverse_singleton, List.find?_singleton, decide_true,
      Bool.and_self, if_true, Option.some_or]
    cases op.newtup <;> rfl
  · rw [if_neg h]
    have hNot : (decide (op.relid = relid) && decide (op.key = key) && decide (op.cid < cid)) =
        false := by
      simpa [and_assoc] using h
    simp [hNot]

theorem overlayCheck_relabel {f g : Nat → WriteOp} (as : List Nat)
    (h : ∀ a ∈ as, ∃ n, f a = { g a with level := n }) (key : Bytes) :
    overlayCheck (as.map f) relid cid key = overlayCheck (as.map g) relid cid key := by
  induction as using List.reverseRecOn with
  | nil => rfl
  | append_singleton as a ih =>
    obtain ⟨n, hn⟩ := h a (by simp)
    rw [List.map_append, List.map_append, List.map_singleton, List.map_singleton,
      overlayCheck_concat, overlayCheck_concat, ih fun b hb => h b (by simp [hb]), hn]

theorem overlayCheck_truncate (l : OpLog) (level : Nat)
    (h : ∀ op ∈ l.ops.rtakeWhile (fun op => level ≤ op.level), Unseen relid cid op) (key : Bytes) :
    overlayCheck (l.truncate level).ops relid cid key = overlayCheck l.ops relid cid key := by
  rw [l.ops_truncate, ← overlayCheck_append_unseen _ h, List.rdropWhile_append_rtakeWhile]

theorem overlayCheck_preCommitSub (l : OpLog) (level : Nat) (key : Bytes) :
    overlayCheck (l.preCommitSub level).ops relid cid key = overlayCheck l.ops relid cid key :=
  overlayCheck_relabel _ (fun a _ => l.heap_preCommitSub level a) key

/-! ## The invariant of a scan -/

/-- A scan of the pages `keys` that began on the log `start`. -/
structure Inv (relid cid : Nat) (start : OpLog) (keys : List Bytes) (s : Fetching) : Prop where
  sound : s.indexed.overlay.Sound s.indexed.log
  answers : ∀ key, overlayCheck s.indexed.log.ops relid cid key =
    overlayCheck start.ops relid cid key
  iter_le : s.scan.iter.generation ≤ s.indexed.log.list.gen
  passed : s.scan.overlayTail = true → Passed s.indexed.log relid cid s.scan.iter s.scan.seen
  /-- A key of the pages went unrecorded only while the buffer was empty. -/
  pages : ∃ named, named ++ s.scan.todo = keys ∧ ∀ key ∈ named, key ∈ s.scan.seen ∨
    ∀ key', overlayCheck start.ops relid cid key' = .pass
  seen : ∀ key ∈ s.scan.seen, key ∈ keys ∨ key ∈ s.emitted.map Prod.fst
  emitted : ∀ e ∈ s.emitted, (e.1 ∈ s.scan.seen ∧ e.1 ∉ keys) ∧
    overlayCheck start.ops relid cid e.1 = .replace e.2
  nodup : (s.emitted.map Prod.fst).Nodup
  calls : s.ended = false → s.calls = s.emitted.length

variable {start : OpLog} {keys : List Bytes} {s : Fetching}

variable (h : Inv relid cid start keys s)

include h

/-- The transaction goes on: the iterator keeps its place or will start again. -/
theorem Inv.indexed {i : Indexed} (hSound : i.overlay.Sound i.log)
    (hAnswers : ∀ key, overlayCheck i.log.ops relid cid key =
      overlayCheck s.indexed.log.ops relid cid key)
    (hGen : s.indexed.log.list.gen < i.log.list.gen ∨ i.log.list = s.indexed.log.list ∧
      ∀ a, ∃ n, i.log.heap a = { s.indexed.log.heap a with level := n }) :
    Inv relid cid start keys { s with indexed := i } :=
  { h with
    sound := hSound
    answers := fun key => (hAnswers key).trans (h.answers key)
    iter_le := by
      have := h.iter_le
      rcases hGen with hGen | ⟨hList, -⟩
      · exact this.trans hGen.le
      · rw [hList]
        exact this
    passed := by
      intro hTail
      have := h.iter_le
      rcases hGen with hGen | ⟨hList, hHeap⟩
      · exact .stale (by dsimp only; omega) _
      · obtain ⟨passed, hSplit, hPassed⟩ := h.passed hTail
        refine ⟨passed, ?_, fun a ha row hCreated => ?_⟩
        · rw [TailIter.before, TailIter.current, TailIter.init, hList]
          exact hSplit
        · obtain ⟨n, hn⟩ := hHeap a
          rw [Created, hn, hAnswers] at hCreated
          rw [hn]
          exact hPassed a ha row hCreated }

theorem inv_buffer {e : IndexEvent} (hQuiet : Quiet relid cid (.buffer e) s) :
    Inv relid cid start keys (step relid cid (.buffer e) s) := by
  have hSound := Indexed.sound_step e h.sound
  cases e with
  | append level cid' op =>
    refine h.indexed hSound (fun key => ?_) (.inl (Nat.lt_succ_self _))
    have hUnseen : Unseen relid cid { op with level := level, cid := cid' } := hQuiet
    rw [Indexed.step, OpLog.ops_append]
    exact overlayCheck_append_unseen _ (by simpa using hUnseen) key
  | abortSub level raised =>
    refine h.indexed hSound (fun key => overlayCheck_truncate _ level hQuiet key) ?_
    simp only [Indexed.step, OpLog.truncate]
    split
    · exact .inr ⟨rfl, fun a => ⟨_, rfl⟩⟩
    · exact .inl (Nat.lt_succ_self _)
  | preCommitSub level =>
    refine h.indexed hSound (fun key => overlayCheck_preCommitSub _ level key) ?_
    exact .inr ⟨rfl, fun a => s.indexed.log.heap_preCommitSub level a⟩
  | reset => exact hQuiet.elim
  | check relid' cid' key =>
    exact h.indexed hSound (fun _ => rfl) (.inr ⟨rfl, fun a => ⟨_, rfl⟩⟩)

/-- A key of the pages: it is recorded, unless there is nothing in the buffer. -/
theorem inv_page {key : Bytes} {todo : List Bytes} (hTodo : s.scan.todo = key :: todo) :
    Inv relid cid start keys (step relid cid .fetch s) := by
  obtain ⟨named, hSplit, hNamed⟩ := h.pages
  rw [hTodo] at hSplit
  have hSplit' : (named ++ [key]) ++ todo = keys := by
    rw [← hSplit, List.append_assoc, List.singleton_append]
  have hKey : key ∈ keys := by simp [← hSplit]
  simp only [step, hTodo, TailScan.applyOverlay]
  split
  · rename_i hEmpty
    have hPass : ∀ key', overlayCheck start.ops relid cid key' = .pass := by
      intro key'
      rw [← h.answers, s.indexed.log.isEmpty_iff.mp hEmpty]
      rfl
    exact { h with pages := ⟨named ++ [key], hSplit', fun _ _ => .inr hPass⟩ }
  · rename_i hLive
    have hMark : TailScan.markSeen s.indexed.log s.scan.seen key = key :: s.scan.seen := if_neg hLive
    refine { h with
      sound := h.sound.check relid cid key, passed := ?_, pages := ?_, seen := ?_, emitted := ?_ }
    · rw [hMark]
      exact fun hTail => (h.passed hTail).mono (List.subset_cons_self _ _)
    · refine ⟨named ++ [key], hSplit', fun k hk => ?_⟩
      rw [hMark]
      rcases List.mem_append.mp hk with hk | hk
      · exact (hNamed k hk).imp_left (List.mem_cons_of_mem _)
      · exact .inl (List.mem_singleton.mp hk ▸ List.mem_cons_self)
    · rw [hMark]
      exact List.forall_mem_cons.mpr ⟨.inl hKey, h.seen⟩
    · rw [hMark]
      exact fun e he =>
        ⟨⟨List.mem_cons_of_mem _ (h.emitted e he).1.1, (h.emitted e he).1.2⟩, (h.emitted e he).2⟩

theorem drainTail_spec :
    let l := s.indexed.log
    let r := s.scan.drainTail s.indexed relid cid
    r.2.2.Sound l ∧ r.2.1.todo = s.scan.todo ∧ r.2.1.iter.generation ≤ l.list.gen ∧
      (r.2.1.overlayTail = true → Passed l relid cid r.2.1.iter r.2.1.seen) ∧
      match r.1 with
      | none => r.2.1.seen = s.scan.seen ∧
          ∀ a ∈ l.list.entries, ∀ row, Created l relid cid a row → (l.heap a).key ∈ s.scan.seen
      | some (key, row) => r.2.1.seen = key :: s.scan.seen ∧ key ∉ s.scan.seen ∧
          ∃ a ∈ l.list.entries, Created l relid cid a row ∧ (l.heap a).key = key := by
  dsimp only
  unfold TailScan.drainTail
  split
  · rename_i hEmpty
    have hNil := s.indexed.log.isEmpty_iff.mp hEmpty
    rw [OpLog.ops, List.map_eq_nil_iff] at hNil
    exact ⟨h.sound, rfl, h.iter_le, h.passed, rfl, fun a ha => absurd (hNil ▸ ha) List.not_mem_nil⟩
  · have hPassed : Passed s.indexed.log relid cid
        (if s.scan.overlayTail then s.scan.iter else .init s.indexed.log) s.scan.seen := by
      split
      · exact h.passed (by assumption)
      · exact .init _ _
    obtain ⟨hSound, hGen, hPassed', hOut⟩ := inject_spec h.sound hPassed
    exact ⟨hSound, rfl, hGen.le, fun _ => hPassed', hOut⟩

/-- With its pages done, a scan has seen each of their keys, or there is no row to
be added. -/
theorem Inv.not_mem_keys (hTodo : s.scan.todo = []) {key : Bytes} {row : Row}
    (hSeen : key ∉ s.scan.seen) (hRow : overlayCheck start.ops relid cid key = .replace row) :
    key ∉ keys := by
  intro hKey
  obtain ⟨named, hSplit, hNamed⟩ := h.pages
  rw [hTodo, List.append_nil] at hSplit
  rcases hNamed key (hSplit ▸ hKey) with hMem | hPass
  · exact hSeen hMem
  · rw [hPass] at hRow
    cases hRow

theorem inv_tail (hTodo : s.scan.todo = []) :
    Inv relid cid start keys (step relid cid .fetch s) := by
  obtain ⟨hSound, hTodo', hGen, hPassed, hOut⟩ := drainTail_spec h
  simp only [step, hTodo]
  generalize s.scan.drainTail s.indexed relid cid = r at *
  obtain ⟨out, scan, o⟩ := r
  cases out with
  | none =>
    obtain ⟨hSeen, -⟩ := hOut
    dsimp only at hTodo' hSeen
    refine ⟨hSound, h.answers, hGen, hPassed, ?_, ?_, ?_, ?_, ?_⟩
    · simp only [hTodo', hSeen]
      exact h.pages
    · simpa only [hSeen, Option.toList_none, List.append_nil] using h.seen
    · simpa only [hSeen, Option.toList_none, List.append_nil] using h.emitted
    · simpa only [Option.toList_none, List.append_nil] using h.nodup
    · simp
  | some found =>
    obtain ⟨key, row⟩ := found
    obtain ⟨hSeen, hNew, a, ha, hCreated, hKey⟩ := hOut
    dsimp only at hTodo' hSeen
    have hRow : overlayCheck start.ops relid cid key = .replace row := by
      rw [← h.answers, ← hKey]
      exact hCreated.2
    have hFresh : key ∉ s.emitted.map Prod.fst := by
      intro hMem
      obtain ⟨e, he, hFst⟩ := List.mem_map.mp hMem
      exact hNew (hFst ▸ (h.emitted e he).1.1)
    refine ⟨hSound, h.answers, hGen, hPassed, ?_, ?_, ?_, ?_, ?_⟩
    · obtain ⟨named, hSplit, hNamed⟩ := h.pages
      refine ⟨named, by simpa only [hTodo'] using hSplit, fun k hk => ?_⟩
      simp only [hSeen]
      exact (hNamed k hk).imp_left (List.mem_cons_of_mem _)
    · simp only [hSeen, Option.toList_some, List.map_append, List.map_singleton, List.mem_append]
      refine List.forall_mem_cons.mpr ⟨.inr (.inr (List.mem_singleton_self _)), fun k hk => ?_⟩
      exact (h.seen k hk).imp_right .inl
    · simp only [hSeen, Option.toList_some, List.mem_append]
      rintro e (he | he)
      · exact ⟨⟨List.mem_cons_of_mem _ (h.emitted e he).1.1, (h.emitted e he).1.2⟩,
          (h.emitted e he).2⟩
      · rw [List.mem_singleton.mp he]
        exact ⟨⟨List.mem_cons_self, h.not_mem_keys hTodo hNew hRow⟩, hRow⟩
    · simp only [Option.toList_some, List.map_append, List.map_singleton]
      refine List.nodup_append.mpr ⟨h.nodup, List.nodup_singleton _, ?_⟩
      rintro k hk k' hk' rfl
      exact hFresh (List.mem_singleton.mp hk' ▸ hk)
    · simp only [Option.isNone_some, Bool.or_false, Option.toList_some, List.length_append,
        List.length_singleton]
      exact fun hEnded => congrArg (· + 1) (h.calls hEnded)

theorem inv_step {e : FetchEvent} (hQuiet : Quiet relid cid e s) :
    Inv relid cid start keys (step relid cid e s) := by
  cases e with
  | buffer e => exact inv_buffer h hQuiet
  | fetch =>
    cases hTodo : s.scan.todo with
    | nil => exact inv_tail h hTodo
    | cons key todo => exact inv_page h hTodo

theorem inv_run {events : List FetchEvent} (hQuiet : QuietRun relid cid events s) :
    Inv relid cid start keys (run relid cid events s) := by
  induction events generalizing s with
  | nil => exact h
  | cons e events ih => exact ih (inv_step h hQuiet.1) hQuiet.2

omit h

/-- A scan of the pages `keys` begins. -/
def begin (i : Indexed) (keys : List Bytes) : Fetching where
  indexed := i
  scan := { todo := keys }

theorem inv_begin {i : Indexed} (hSound : i.overlay.Sound i.log) (keys : List Bytes) :
    Inv relid cid i.log keys (begin i keys) where
  sound := hSound
  answers _ := rfl
  iter_le := Nat.zero_le _
  passed hTail := absurd hTail Bool.false_ne_true
  pages := ⟨[], rfl, fun _ hKey => absurd hKey List.not_mem_nil⟩
  seen _ hKey := absurd hKey List.not_mem_nil
  emitted _ he := absurd he List.not_mem_nil
  nodup := List.nodup_nil
  calls _ := rfl

/-- The emitted keys are keys of operations that the scan sees, so there are no more
of them than of those. -/
theorem Inv.length_emitted_le (h : Inv relid cid start keys s) :
    s.emitted.length ≤ (visible cid start.ops).length := by
  have hSub : s.emitted.map Prod.fst ⊆ (visible cid start.ops).map WriteOp.key := by
    intro key hKey
    obtain ⟨e, he, rfl⟩ := List.mem_map.mp hKey
    have hRow := (h.emitted e he).2
    rw [overlayCheck_eq] at hRow
    split at hRow
    · cases hRow
    · rename_i op hNewest
      obtain ⟨hOp, -, hKey⟩ := newest_spec hNewest
      exact List.mem_map.mpr ⟨op, hOp, hKey⟩
  have hLe := (h.nodup.subperm hSub).length_le
  rwa [List.length_map, List.length_map] at hLe

end Fetching

/-! ## Every row of an INSERT or UPDATE -/

/-- The operation carries the row it leaves. -/
def WriteOp.Carries (op : WriteOp) : Prop := op.kind ≠ .delete → op.newtup.isSome

/-- What the transaction appends carries its row. -/
def IndexEvent.Carries : IndexEvent → Prop
  | .append _ _ op => op.Carries
  | .abortSub .. | .preCommitSub .. | .reset | .check .. => True

def FetchEvent.Carries : FetchEvent → Prop
  | .buffer e => e.Carries
  | .fetch => True

theorem Indexed.carries_step {e : IndexEvent} (he : e.Carries) {s : Indexed}
    (h : ∀ op ∈ s.log.ops, op.Carries) : ∀ op ∈ (Indexed.step e s).log.ops, op.Carries := by
  cases e with
  | append level cid op =>
    rw [Indexed.step, OpLog.ops_append, List.forall_mem_append]
    exact ⟨h, List.forall_mem_singleton.mpr he⟩
  | abortSub level raised =>
    rw [Indexed.step, OpLog.ops_truncate]
    exact fun op hOp => h op ((List.rdropWhile_prefix _ _).subset hOp)
  | preCommitSub level =>
    rw [Indexed.step, OpLog.ops_preCommitSub, promote, List.forall_mem_append]
    refine ⟨fun op hOp => h op ((List.rdropWhile_prefix _ _).subset hOp), fun op hOp => ?_⟩
    obtain ⟨op', hOp', rfl⟩ := List.mem_map.mp hOp
    exact h op' ((List.rtakeWhile_suffix _ _).subset hOp')
  | reset => exact fun op hOp => absurd hOp List.not_mem_nil
  | check => exact h

theorem Indexed.carries_run {events : List IndexEvent} (hEvents : ∀ e ∈ events, e.Carries)
    {s : Indexed} (h : ∀ op ∈ s.log.ops, op.Carries) :
    ∀ op ∈ (Indexed.run events s).log.ops, op.Carries := by
  induction events generalizing s with
  | nil => exact h
  | cons e events ih =>
    obtain ⟨he, hEvents⟩ := List.forall_mem_cons.mp hEvents
    exact ih hEvents (carries_step he h)

namespace Fetching

variable {relid cid : Nat}

theorem log_fetch (s : Fetching) : (step relid cid .fetch s).indexed.log = s.indexed.log := by
  simp only [step]
  split <;> rfl

theorem carries_run {events : List FetchEvent} (hEvents : ∀ e ∈ events, e.Carries) {s : Fetching}
    (h : ∀ op ∈ s.indexed.log.ops, op.Carries) :
    ∀ op ∈ (run relid cid events s).indexed.log.ops, op.Carries := by
  induction events generalizing s with
  | nil => exact h
  | cons e events ih =>
    obtain ⟨he, hEvents⟩ := List.forall_mem_cons.mp hEvents
    refine ih hEvents ?_
    cases e with
    | buffer e => exact Indexed.carries_step he h
    | fetch =>
      rw [log_fetch]
      exact h

/-! ## Exactly once -/

/-- The transaction holds an INSERT of the key. -/
def Inserted (relid : Nat) (key : Bytes) (ops : List WriteOp) : Prop :=
  ∃ op ∈ ops, (op.relid = relid ∧ op.kind = .insert) ∧ op.key = key

theorem overlayCheck_replace {ops : List WriteOp} {key : Bytes} {row : Row} :
    overlayCheck ops relid cid key = .replace row ↔
      ∃ op, newest relid key (visible cid ops) = some op ∧ op.kind ≠ .delete ∧
        op.newtup = some row := by
  rw [overlayCheck_eq]
  cases newest relid key (visible cid ops) with
  | none => simp
  | some op =>
    cases hTup : op.newtup <;> by_cases hKind : op.kind = .delete <;> simp [hKind, hTup]

/-- Whatever the transaction does between two rows that the scan does not see: when
the pages are spent, the next row of the tail is one that is due and was not emitted
before, the tail ends only when all that are due have been emitted, and it is asked for
a row at most as often as the transaction had operations that the scan sees, until it
ends. -/
theorem tail_emits_once (relid cid : Nat) (before : List IndexEvent) (keys : List Bytes)
    (events : List FetchEvent) (hBefore : ∀ e ∈ before, e.Carries) (hEvents : ∀ e ∈ events, e.Carries)
    (hQuiet : QuietRun relid cid events (begin (Indexed.run before {}) keys)) :
    let s := run relid cid events (begin (Indexed.run before {}) keys)
    let ops := s.indexed.log.ops
    (s.emitted.map Prod.fst).Nodup ∧
    (s.ended = false → s.calls ≤ (visible cid (Indexed.run before {}).log.ops).length) ∧
    (s.scan.todo = [] →
      match (s.scan.drainTail s.indexed relid cid).1 with
      | some (key, row) =>
        Inserted relid key ops ∧ key ∉ keys ∧ key ∉ s.emitted.map Prod.fst ∧
          ∃ op, newest relid key (visible cid ops) = some op ∧ op.kind ≠ .delete ∧
            op.newtup = some row
      | none =>
        ∀ key op, Inserted relid key ops → key ∉ keys →
          newest relid key (visible cid ops) = some op → op.kind ≠ .delete →
            ∃ row, op.newtup = some row ∧ (key, row) ∈ s.emitted) := by
  intro s ops
  have hInv : Inv relid cid (Indexed.run before {}).log keys s :=
    inv_run (inv_begin (Indexed.sound_run before Indexed.sound_start) keys) hQuiet
  have hCarries : ∀ op ∈ ops, op.Carries :=
    carries_run hEvents (Indexed.carries_run hBefore fun op hOp => absurd hOp List.not_mem_nil)
  refine ⟨hInv.nodup, fun hEnded => (hInv.calls hEnded).trans_le hInv.length_emitted_le, ?_⟩
  intro hTodo
  obtain ⟨-, -, -, -, hOut⟩ := drainTail_spec hInv
  split at hOut
  · rename_i hNone
    simp only [hNone]
    rintro key op ⟨op', hOp', hOwn, rfl⟩ hPage hNewest hKind
    obtain ⟨hMem, -, -⟩ := newest_spec hNewest
    obtain ⟨row, hRow⟩ := Option.isSome_iff_exists.mp
      (hCarries op (List.mem_of_mem_filter hMem) hKind)
    have hCheck : overlayCheck ops relid cid op'.key = .replace row :=
      overlayCheck_replace.mpr ⟨op, hNewest, hKind, hRow⟩
    obtain ⟨a, ha, rfl⟩ := List.mem_map.mp hOp'
    refine ⟨row, hRow, ?_⟩
    have hSeen := hOut.2 a ha row ⟨hOwn, hCheck⟩
    rcases hInv.seen _ hSeen with hMem | hMem
    · exact absurd hMem hPage
    · obtain ⟨⟨key, row'⟩, he, hFst⟩ := List.mem_map.mp hMem
      have hRow' := (hInv.emitted _ he).2
      dsimp only at hFst hRow'
      rw [hFst, ← hInv.answers] at hRow'
      rw [hRow'] at hCheck
      cases hCheck
      exact hFst ▸ he
  · rename_i key row hSome
    simp only [hSome]
    obtain ⟨-, hNew, a, ha, hCreated, rfl⟩ := hOut
    have hRow := (hInv.answers _).symm.trans hCreated.2
    refine ⟨⟨_, List.mem_map_of_mem ha, hCreated.1, rfl⟩, hInv.not_mem_keys hTodo hNew hRow, ?_,
      overlayCheck_replace.mp hCreated.2⟩
    intro hMem
    obtain ⟨e, he, hFst⟩ := List.mem_map.mp hMem
    exact hNew (hFst ▸ (hInv.emitted e he).1.1)

/-- A transaction that inserted two keys. After the first row of the tail it writes inside a
savepoint and rolls that back, so the iterator starts again before the second row. -/
theorem tail_emits_once_insert :
    let first : WriteOp :=
      { kind := .insert, relid := 7, tabletype := .string, key := [1], newtup := some [] }
    let second : WriteOp := { first with key := [2] }
    let before : List IndexEvent := [.append 1 3 first, .append 1 3 second]
    let s := run 7 4 [.fetch, .buffer (.append 2 4 second), .buffer (.abortSub 2 false)]
      (begin (Indexed.run before {}) [])
    s.scan.iter.generation ≠ s.indexed.log.list.gen ∧
    (s.emitted.map Prod.fst).Nodup ∧ (s.ended = false → s.calls ≤ 2) ∧
    match (s.scan.drainTail s.indexed 7 4).1 with
    | some (key, row) =>
      Inserted 7 key s.indexed.log.ops ∧ key ∉ s.emitted.map Prod.fst ∧
        ∃ op, newest 7 key (visible 4 s.indexed.log.ops) = some op ∧ op.newtup = some row
    | none =>
      ∀ key op, Inserted 7 key s.indexed.log.ops →
        newest 7 key (visible 4 s.indexed.log.ops) = some op → op.kind ≠ .delete →
          ∃ row, op.newtup = some row ∧ (key, row) ∈ s.emitted := by
  intro first second before s
  have hCarries : first.Carries ∧ second.Carries := ⟨fun _ => rfl, fun _ => rfl⟩
  obtain ⟨hNodup, hCalls, hTail⟩ := tail_emits_once 7 4 before []
    [.fetch, .buffer (.append 2 4 second), .buffer (.abortSub 2 false)]
    (by simp [before, IndexEvent.Carries, hCarries])
    (by simp [FetchEvent.Carries, IndexEvent.Carries, hCarries])
    ⟨trivial, fun _ => le_rfl, by
      simp only [Quiet, step.eq_1, Indexed.step, log_fetch, Unseen]
      decide, trivial⟩
  have hStale : s.scan.iter.generation ≠ s.indexed.log.list.gen := by
    simp only [s, run, List.foldl, step, begin, TailScan.drainTail]
    rw [TailScan.inject]
    decide
  refine ⟨hStale, hNodup, hCalls, ?_⟩
  have hTail := hTail (by
    simp only [run, List.foldl, step, begin, TailScan.drainTail]
    rw [TailScan.inject]
    rfl)
  split at hTail
  · rename_i hSome
    simp only [s, hSome]
    obtain ⟨hInserted, -, hNew, op, hNewest, -, hRow⟩ := hTail
    exact ⟨hInserted, hNew, op, hNewest, hRow⟩
  · rename_i hNone
    simp only [s, hNone]
    exact fun key op hInserted => hTail key op hInserted List.not_mem_nil

end Fetching

end ValkeyFdw
