import Mathlib.Data.List.Basic
import Mathlib.Tactic.Common

/-!
# Pipelines

A client hands commands over without waiting for their replies. They gather in a
buffer, are sent together, and are answered in the order they were handed over. The
client counts them and keeps one reply at a time: taking the next releases it. What
counts is the list of the commands that await their replies (`pending`): a command
joins it at the end, and a reply takes one off its head.

`Takes` says of a program that reads replies which commands they answer. `Bounded` says
that a run of calls never has more than the limit pending, and `bounded_iff_paced` what
its caller has to do for it.
-/

namespace Pipeline

variable {α : Type*}

/-- The client's end of a pipeline. -/
structure Pipe (α : Type*) where
  /-- How many commands gather before they are sent. -/
  limit : Nat
  queued : Nat
  outstanding : Nat
  buffered : List α
  sent : List α
  /-- The command whose reply is at hand. -/
  current : Option α
  queued_eq : queued = buffered.length
  outstanding_eq : outstanding = sent.length

namespace Pipe

def start (limit : Nat) : Pipe α := ⟨limit, 0, 0, [], [], none, rfl, rfl⟩

def flush (p : Pipe α) : Pipe α :=
  if p.queued = 0 then p
  else
    { p with
      queued := 0
      outstanding := p.outstanding + p.queued
      buffered := []
      sent := p.sent ++ p.buffered
      queued_eq := rfl
      outstanding_eq := by rw [List.length_append, p.outstanding_eq, p.queued_eq] }

/-- Hand a command over. -/
def push (p : Pipe α) (a : α) : Pipe α :=
  { p with
    queued := p.queued + 1
    buffered := p.buffered ++ [a]
    queued_eq := by rw [List.length_append, List.length_singleton, p.queued_eq] }

def add (p : Pipe α) (a : α) : Pipe α :=
  if p.limit ≤ (p.push a).queued then (p.push a).flush else p.push a

/-- Read the reply to the oldest command that was sent. -/
def receive (p : Pipe α) : Pipe α :=
  { p with
    outstanding := p.outstanding - 1
    sent := p.sent.tail
    current := p.sent.head?
    outstanding_eq := by rw [List.length_tail, p.outstanding_eq] }

/-- The next reply, as the command it answers; none if nothing is owed one. -/
def next (p : Pipe α) : Option α × Pipe α :=
  let p := { p with current := none }.flush
  if p.outstanding = 0 then (none, p) else (p.receive.current, p.receive)

/-- Read as many replies as this and drop them. -/
def drop : Nat → Pipe α → Pipe α
  | 0, p => p
  | n + 1, p => drop n p.next.2

/-- How many commands await their replies. -/
def count (p : Pipe α) : Nat := p.queued + p.outstanding

/-- Read what is still owed. -/
def drain (p : Pipe α) : Pipe α := { drop p.count p with current := none }

/-! ## What is pending -/

/-- The commands that await their replies, in the order of these. -/
def pending (p : Pipe α) : List α := p.sent ++ p.buffered

theorem count_eq (p : Pipe α) : p.count = p.pending.length := by
  rw [count, pending, List.length_append, p.queued_eq, p.outstanding_eq, Nat.add_comm]

@[simp] theorem pending_start (limit : Nat) : (start limit : Pipe α).pending = [] := rfl

@[simp] theorem pending_flush (p : Pipe α) : p.flush.pending = p.pending := by
  unfold flush
  split <;> simp [pending]

@[simp] theorem limit_flush (p : Pipe α) : p.flush.limit = p.limit := by
  unfold flush
  split <;> rfl

@[simp] theorem current_flush (p : Pipe α) : p.flush.current = p.current := by
  unfold flush
  split <;> rfl

/-- After a flush nothing is left in the buffer. -/
theorem sent_flush (p : Pipe α) : p.flush.sent = p.pending := by
  unfold flush
  split
  · rename_i hNone
    have hBuffered : p.buffered = [] := List.length_eq_zero_iff.mp (p.queued_eq ▸ hNone)
    rw [pending, hBuffered, List.append_nil]
  · rfl

@[simp] theorem pending_add (p : Pipe α) (a : α) : (p.add a).pending = p.pending ++ [a] := by
  have hPush : (p.push a).pending = p.pending ++ [a] := (List.append_assoc ..).symm
  unfold add
  split
  · rw [pending_flush, hPush]
  · exact hPush

@[simp] theorem limit_add (p : Pipe α) (a : α) : (p.add a).limit = p.limit := by
  unfold add
  split
  · exact limit_flush _
  · rfl

theorem buffered_flush (p : Pipe α) : p.flush.buffered = [] := by
  unfold flush
  split
  · rename_i hNone
    exact List.length_eq_zero_iff.mp (p.queued_eq ▸ hNone)
  · rfl

/-- A reply answers the command that has waited longest, and is kept until the next. -/
theorem next_spec (p : Pipe α) :
    p.next.1 = p.pending.head? ∧ p.next.2.pending = p.pending.tail ∧
      p.next.2.current = p.pending.head? ∧ p.next.2.limit = p.limit := by
  have hSent := sent_flush { p with current := none }
  have hBuffered := buffered_flush { p with current := none }
  have hCurrent := current_flush { p with current := none }
  have hLimit := limit_flush { p with current := none }
  have hOutstanding := ({ p with current := none } : Pipe α).flush.outstanding_eq
  change _ = p.pending at hSent
  unfold next
  generalize ({ p with current := none } : Pipe α).flush = q at *
  dsimp only at hCurrent hLimit ⊢
  rw [← hSent]
  split
  · rename_i hNone
    have hNil : q.sent = [] := List.length_eq_zero_iff.mp (hOutstanding ▸ hNone)
    exact ⟨by rw [hNil]; rfl, by rw [pending, hNil, hBuffered]; rfl, by rw [hNil]; exact hCurrent,
      hLimit⟩
  · have hTail : q.receive.pending = q.sent.tail :=
      (congrArg (q.sent.tail ++ ·) hBuffered).trans (List.append_nil _)
    exact ⟨rfl, hTail, rfl, hLimit⟩

theorem pending_drop (n : Nat) (p : Pipe α) : (drop n p).pending = p.pending.drop n := by
  induction n generalizing p with
  | zero => rfl
  | succ n ih => rw [drop, ih, p.next_spec.2.1, List.drop_tail, Nat.add_comm]

@[simp] theorem pending_drain (p : Pipe α) : p.drain.pending = [] := by
  change (drop p.count p).pending = []
  rw [pending_drop, count_eq, List.drop_length]

end Pipe

/-! ## Programs that read replies -/

structure Reading (α : Type*) where
  pipe : Pipe α
  /-- The commands whose replies have been read; `none` where there was no reply. -/
  reads : List (Option α)

section Reading

variable {α ρ β γ : Type}

/-- Read the next reply, with the command it answers. -/
def read (reply : α → ρ) : StateM (Reading α) (Option (α × ρ)) := fun r =>
  let (asked, pipe) := r.pipe.next
  (asked.map fun a => (a, reply a), ⟨pipe, r.reads ++ [asked]⟩)

/-- The program reads the replies to these commands, if they are the next to be answered. -/
def Takes (x : StateM (Reading α) β) (as : List α) : Prop :=
  ∀ (r : Reading α) (rest : List α), r.pipe.pending = as ++ rest →
    (x r).2.reads = r.reads ++ as.map some ∧ (x r).2.pipe.pending = rest

theorem takes_pure (b : β) : Takes (pure b : StateM (Reading α) β) [] := fun r _ h =>
  ⟨(List.append_nil r.reads).symm, h⟩

theorem read_of_pending (reply : α → ρ) {r : Reading α} {a : α} {rest : List α}
    (h : r.pipe.pending = a :: rest) :
    (read reply r).1 = some (a, reply a) ∧ (read reply r).2.reads = r.reads ++ [some a] ∧
      (read reply r).2.pipe.pending = rest ∧ (read reply r).2.pipe.current = some a := by
  obtain ⟨hAsked, hPending, hCurrent, -⟩ := r.pipe.next_spec
  rw [h] at hAsked hPending hCurrent
  refine ⟨?_, ?_, hPending, hCurrent⟩
  · exact congrArg (Option.map fun a => (a, reply a)) hAsked
  · exact congrArg (fun asked => r.reads ++ [asked]) hAsked

theorem takes_read (reply : α → ρ) (a : α) : Takes (read reply) [a] := fun _ _ h =>
  ⟨(read_of_pending reply h).2.1, (read_of_pending reply h).2.2.1⟩

theorem Takes.bind {x : StateM (Reading α) β} {f : β → StateM (Reading α) γ} {as bs : List α}
    (hx : Takes x as) (hf : ∀ b, Takes (f b) bs) : Takes (x >>= f) (as ++ bs) := by
  intro r rest h
  rw [List.append_assoc] at h
  obtain ⟨hReads, hPending⟩ := hx r _ h
  obtain ⟨hReads', hPending'⟩ := hf (x r).1 (x r).2 rest hPending
  refine ⟨?_, hPending'⟩
  rw [List.map_append, ← List.append_assoc, ← hReads]
  exact hReads'

theorem Takes.map {x : StateM (Reading α) β} {as : List α} (hx : Takes x as) (f : β → γ) :
    Takes (f <$> x) as := hx

/-- A program that is run on a condition. -/
theorem Takes.ite {c : Prop} [Decidable c] {x : StateM (Reading α) β} {as : List α} (b : β)
    (hx : Takes x as) : Takes (if c then x else pure b) (if c then as else []) := by
  split
  · exact hx
  · exact takes_pure b

end Reading

/-! ## Bounds -/

/-- A call of the client. -/
inductive Op (α : Type*) where
  | add (a : α)
  | next

def step (p : Pipe α) : Op α → Pipe α
  | .add a => p.add a
  | .next => p.next.2

def run (ops : List (Op α)) (p : Pipe α) : Pipe α := ops.foldl step p

/-- Every command is handed over while fewer than the limit are pending. -/
def Paced : List (Op α) → Pipe α → Prop
  | [], _ => True
  | .add a :: ops, p => p.count < p.limit ∧ Paced ops (p.add a)
  | .next :: ops, p => Paced ops p.next.2

/-- At no time are more than the limit pending. -/
def Bounded (ops : List (Op α)) (p : Pipe α) : Prop :=
  ∀ done, done <+: ops → (run done p).count ≤ p.limit

variable {p : Pipe α} {ops : List (Op α)}

theorem count_add (p : Pipe α) (a : α) : (p.add a).count = p.count + 1 := by
  simp [Pipe.count_eq]

theorem count_next (p : Pipe α) : p.next.2.count = p.count - 1 := by
  simp [Pipe.count_eq, p.next_spec.2.1]

@[simp] theorem limit_step (p : Pipe α) (op : Op α) : (step p op).limit = p.limit := by
  cases op with
  | add a => exact p.limit_add a
  | next => exact p.next_spec.2.2.2

theorem bounded_cons {op : Op α} :
    Bounded (op :: ops) p ↔ p.count ≤ p.limit ∧ Bounded ops (step p op) := by
  constructor
  · intro h
    refine ⟨h [] List.nil_prefix, fun done hDone => ?_⟩
    rw [limit_step]
    exact h (op :: done) (List.cons_prefix_cons.mpr ⟨rfl, hDone⟩)
  · rintro ⟨hNow, hRest⟩ done hDone
    cases done with
    | nil => exact hNow
    | cons op' done =>
      obtain ⟨rfl, hTail⟩ := List.cons_prefix_cons.mp hDone
      have hAfter := hRest done hTail
      rwa [limit_step] at hAfter

/-- The bound is kept by exactly the runs that never hand over one command too many. -/
theorem bounded_iff_paced (h : p.count ≤ p.limit) : Bounded ops p ↔ Paced ops p := by
  induction ops generalizing p with
  | nil => simp [Bounded, Paced, run, h]
  | cons op ops ih =>
    rw [bounded_cons, and_iff_right h]
    cases op with
    | add a =>
      rw [Paced]
      by_cases hRoom : p.count < p.limit
      · rw [and_iff_right hRoom]
        refine ih ?_
        rw [step, count_add, Pipe.limit_add]
        exact hRoom
      · refine iff_of_false (fun hBounded => hRoom ?_) fun hPaced => hRoom hPaced.1
        have hNow := hBounded [] List.nil_prefix
        simp only [run, List.foldl_nil, step, count_add, Pipe.limit_add] at hNow
        exact hNow
    | next =>
      refine ih ?_
      rw [limit_step, step, count_next]
      omega

theorem paced_append {ops ops' : List (Op α)} :
    Paced (ops ++ ops') p ↔ Paced ops p ∧ Paced ops' (run ops p) := by
  induction ops generalizing p with
  | nil => simp [Paced, run]
  | cons op ops ih =>
    cases op with
    | add a => simp [Paced, ih, run, step, and_assoc]
    | next => simp [Paced, ih, run, step]

theorem paced_adds (as : List α) (h : p.count ≤ p.limit) :
    Paced (as.map .add) p ↔ p.count + as.length ≤ p.limit := by
  induction as generalizing p with
  | nil => simpa [Paced] using h
  | cons a as ih =>
    rw [List.map_cons, Paced, List.length_cons]
    by_cases hRoom : p.count < p.limit
    · rw [ih (by rw [count_add, Pipe.limit_add]; exact hRoom), count_add, Pipe.limit_add,
        and_iff_right hRoom]
      omega
    · omega

/-- Taking replies never exceeds a bound. -/
theorem paced_nexts (n : Nat) (p : Pipe α) : Paced (List.replicate n .next) p := by
  induction n generalizing p with
  | zero => trivial
  | succ n ih => exact ih _

theorem pending_adds (as : List α) (p : Pipe α) :
    (as.foldl Pipe.add p).pending = p.pending ++ as := by
  induction as generalizing p with
  | nil => simp
  | cons a as ih => rw [List.foldl_cons, ih, Pipe.pending_add, List.append_assoc]; rfl

end Pipeline
