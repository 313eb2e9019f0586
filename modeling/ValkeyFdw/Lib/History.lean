import Mathlib.Data.List.Induction
import ValkeyFdw.Lib.Trace

/-!
# Histories of transactions on a shared state

A history lists the transactions that ran on a shared state one after another,
each with its outcome and the states before and after it. Where every committed
transaction did what it does on its own and every other one changed nothing,
the last state is the one of replaying the committed transactions in order
(`Chain.replay`). `entriesOf` is what one transaction did. `exists_lastWriter` is about
steps that change a cell or leave it: it finds the one that left what the cell holds.
-/

namespace History

variable {τ ρ σ ε : Type*}

/-- One transaction of a history. -/
structure Entry (τ ρ σ : Type*) where
  txn : τ
  outcome : ρ
  before : σ
  after : σ

/-- Each entry starts in the state the one before it ended in. -/
def Chain : σ → List (Entry τ ρ σ) → σ → Prop
  | s, [], t => s = t
  | s, e :: h, t => e.before = s ∧ Chain e.after h t

theorem Chain.snoc {s t : σ} {h : List (Entry τ ρ σ)} (hChain : Chain s h t) {e : Entry τ ρ σ}
    (he : e.before = t) : Chain s (h ++ [e]) e.after := by
  induction h generalizing s with
  | nil => exact ⟨he.trans hChain.symm, rfl⟩
  | cons d h ih => exact ⟨hChain.1, ih hChain.2⟩

/-- The transactions of a history whose outcome is a commit. -/
def committed (isCommit : ρ → Bool) (h : List (Entry τ ρ σ)) : List τ :=
  (h.filter fun e => isCommit e.outcome).map Entry.txn

/-- The transaction took effect as a whole, or not at all. -/
structure Entry.Atomic (apply : τ → σ → Except ε σ) (isCommit : ρ → Bool) (e : Entry τ ρ σ) :
    Prop where
  commit : isCommit e.outcome = true → apply e.txn e.before = .ok e.after
  abort : isCommit e.outcome = false → e.after = e.before

theorem Chain.replay {apply : τ → σ → Except ε σ} {isCommit : ρ → Bool} {s t : σ}
    {h : List (Entry τ ρ σ)} (hChain : Chain s h t)
    (hAtomic : ∀ e ∈ h, e.Atomic apply isCommit) :
    Trace.run apply (committed isCommit h) s = .ok t := by
  induction h generalizing s with
  | nil =>
    cases hChain
    rfl
  | cons e h ih =>
    obtain ⟨hHead, hTail⟩ := List.forall_mem_cons.mp hAtomic
    obtain ⟨rfl, hRest⟩ := hChain
    have hReplay := ih hRest hTail
    cases hOutcome : isCommit e.outcome with
    | true =>
      have hSplit : committed isCommit (e :: h) = e.txn :: committed isCommit h := by
        simp [committed, hOutcome]
      rw [hSplit]
      exact Trace.run_cons_ok.mpr ⟨e.after, hHead.commit hOutcome, hReplay⟩
    | false =>
      have hSkip : committed isCommit (e :: h) = committed isCommit h := by
        simp [committed, hOutcome]
      rw [hSkip, ← hHead.abort hOutcome]
      exact hReplay

/-- The entries of one transaction. -/
def entriesOf [DecidableEq τ] (t : τ) (h : List (Entry τ ρ σ)) : List (Entry τ ρ σ) :=
  h.filter fun e => e.txn = t

section EntriesOf

variable [DecidableEq τ] {t : τ} {h : List (Entry τ ρ σ)} {e : Entry τ ρ σ}

theorem mem_entriesOf : e ∈ entriesOf t h ↔ e ∈ h ∧ e.txn = t := by
  simp [entriesOf]

theorem entriesOf_snoc_self (he : e.txn = t) :
    entriesOf t (h ++ [e]) = entriesOf t h ++ [e] := by
  simp [entriesOf, List.filter_append, he]

theorem entriesOf_snoc_of_ne (he : e.txn ≠ t) : entriesOf t (h ++ [e]) = entriesOf t h := by
  simp [entriesOf, List.filter_append, he]

end EntriesOf

section LastWriter

variable {α β : Type*} {step : σ → α → σ} {g : σ → β} {Wrote : α → β → Prop}

/-- What a cell holds was there from the start, or one of the steps wrote it and no later
one changed it. -/
theorem exists_lastWriter (hStep : ∀ s a, g (step s a) = g s ∨ Wrote a (g (step s a)))
    (init : σ) (l : List α) :
    g (l.foldl step init) = g init ∨
      ∃ before a after, l = before ++ a :: after ∧ Wrote a (g (l.foldl step init)) ∧
        ∀ later, later <+: after →
          g ((before ++ a :: later).foldl step init) = g (l.foldl step init) := by
  induction l using List.reverseRecOn with
  | nil => exact .inl rfl
  | append_singleton l a ih =>
    have hLast : (l ++ [a]).foldl step init = step (l.foldl step init) a := by
      rw [List.foldl_append]
      rfl
    rcases hStep (l.foldl step init) a with hSame | hWrote
    · rw [hLast, hSame]
      rcases ih with hInit | ⟨before, b, after, rfl, hWrote, hKept⟩
      · exact .inl hInit
      · refine .inr ⟨before, b, after ++ [a], by simp, hWrote, fun later hLater => ?_⟩
        rcases List.prefix_concat_iff.mp hLater with rfl | hLater
        · rw [← hSame, ← hLast, List.append_assoc]
          rfl
        · exact hKept later hLater
    · refine .inr ⟨l, a, [], rfl, hLast ▸ hWrote, fun later hLater => ?_⟩
      rw [List.prefix_nil.mp hLater]

end LastWriter

end History
