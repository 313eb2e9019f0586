import Mathlib.Data.List.Basic
import Mathlib.Data.List.Forall2

/-!
# Runs of partial steps and the reordering of a trace

A trace is a list of labels, each of which names a partial step on a state.
Two labels commute when either order of the two reaches the same states. The
module gives the rules for composing runs, for invariants and frames of a run,
and for moving one block of a trace past another:

* `mapM_ok` takes the results of a traversal element by element;
* `run_append_ok` splits a run at a point of its trace;
* `run_invariant`, `Along.run_invariant` and `run_frame` lift a property of one step to a run;
* `run_lastWrite` reads a cell that the steps overwrite or leave alone;
* `run_insert` moves a block to the end of a trace whose tail commutes with it.
-/

namespace Trace

variable {ε σ α β : Type*} (step : α → σ → Except ε σ)

/-- Take the steps of a trace one after another, stopping at the first error. -/
def run : List α → σ → Except ε σ
  | [], s => .ok s
  | a :: l, s => (step a s).bind (run l)

variable {step}

theorem bind_ok {x : Except ε σ} {f : σ → Except ε β} {b : β} :
    x.bind f = .ok b ↔ ∃ s, x = .ok s ∧ f s = .ok b := by
  cases x with
  | error e => simp [Except.bind]
  | ok s => simp [Except.bind]

variable {f : α → Except ε β} {l : List α} {s t : σ} {I : σ → Prop} {w : α → Option β}
  {P : σ → α → Prop}

theorem mapM_ok {r : List β} :
    l.mapM f = .ok r ↔ List.Forall₂ (fun a b => f a = .ok b) l r := by
  induction l generalizing r with
  | nil => simp [pure, Except.pure, eq_comm]
  | cons a l ih =>
    rw [List.mapM_cons, List.forall₂_cons_left_iff]
    constructor
    · intro h
      obtain ⟨b, hb, h⟩ := bind_ok.mp h
      obtain ⟨bs, hbs, h⟩ := bind_ok.mp h
      exact ⟨b, bs, hb, ih.mp hbs, (Except.ok.inj h).symm⟩
    · rintro ⟨b, bs, hb, hbs, rfl⟩
      exact bind_ok.mpr ⟨b, hb, bind_ok.mpr ⟨bs, ih.mpr hbs, rfl⟩⟩

/-- The same place by place. -/
theorem mapM_ok_getElem? {r : List β} :
    l.mapM f = .ok r ↔ r.length = l.length ∧
      ∀ (i : Nat) (a : α), l[i]? = some a → ∃ b, r[i]? = some b ∧ f a = .ok b := by
  rw [mapM_ok, List.forall₂_iff_get]
  simp only [List.get_eq_getElem]
  constructor
  · rintro ⟨hLength, hAll⟩
    refine ⟨hLength.symm, fun i a ha => ?_⟩
    obtain ⟨hi, rfl⟩ := List.getElem?_eq_some_iff.mp ha
    have hr : i < r.length := hLength ▸ hi
    exact ⟨r[i], List.getElem?_eq_getElem hr, hAll i hi hr⟩
  · rintro ⟨hLength, hAll⟩
    refine ⟨hLength.symm, fun i hi hr => ?_⟩
    obtain ⟨b, hb, hf⟩ := hAll i l[i] (List.getElem?_eq_getElem hi)
    obtain ⟨_, rfl⟩ := List.getElem?_eq_some_iff.mp hb
    exact hf

theorem exists_mapM_ok (h : ∀ a ∈ l, ∃ b, f a = .ok b) :
    ∃ r, l.mapM f = .ok r := by
  induction l with
  | nil => exact ⟨[], rfl⟩
  | cons a l ih =>
    rw [List.forall_mem_cons] at h
    obtain ⟨b, hb⟩ := h.1
    obtain ⟨r, hr⟩ := ih h.2
    exact ⟨b :: r, mapM_ok.mpr (.cons hb (mapM_ok.mp hr))⟩

theorem mapM_congr {g : α → Except ε β} (h : ∀ a ∈ l, f a = g a) :
    l.mapM f = l.mapM g := by
  induction l with
  | nil => rfl
  | cons a l ih =>
    rw [List.forall_mem_cons] at h
    rw [List.mapM_cons, List.mapM_cons, h.1, ih h.2]

/-- A traversal whose results are those of a function. -/
theorem map_of_mapM_ok {g : α → β} {r : List β} (hg : ∀ a ∈ l, ∀ b, f a = .ok b → b = g a)
    (h : l.mapM f = .ok r) : r = l.map g := by
  have hAll := mapM_ok.mp h
  clear h
  induction hAll with
  | nil => rfl
  | cons hb _ ih =>
    rw [List.forall_mem_cons] at hg
    rw [List.map_cons, ← hg.1 _ hb, ih hg.2]

theorem exists_of_mapM_ok {r : List β} (h : l.mapM f = .ok r) {b : β} (hb : b ∈ r) :
    ∃ a ∈ l, f a = .ok b := by
  have hAll := mapM_ok.mp h
  clear h
  induction hAll with
  | nil => cases hb
  | @cons a b' l r ha _ ih =>
    rcases List.mem_cons.mp hb with rfl | hb
    · exact ⟨a, List.mem_cons_self, ha⟩
    · obtain ⟨a', ha', hf⟩ := ih hb
      exact ⟨a', List.mem_cons_of_mem a ha', hf⟩

@[simp] theorem run_nil (s : σ) : run step [] s = .ok s := rfl

theorem run_cons_ok {a : α} :
    run step (a :: l) s = .ok t ↔ ∃ u, step a s = .ok u ∧ run step l u = .ok t :=
  bind_ok

@[simp] theorem run_singleton (a : α) (s : σ) : run step [a] s = step a s := by
  simp only [run]
  cases step a s <;> rfl

theorem run_pair (a b : α) (s : σ) : run step [a, b] s = (step a s).bind (step b) := by
  simp only [run]
  cases step a s with
  | error e => rfl
  | ok u => exact run_singleton b u

/-- A run that is seen to end, ended. -/
theorem ok_of_toOption_map {x : Except ε σ} {see : σ → β} {b : β}
    (h : x.toOption.map see = some b) : ∃ s, x = .ok s ∧ see s = b := by
  cases x with
  | error e => cases h
  | ok s => exact ⟨s, rfl, Option.some.inj h⟩

theorem run_append_ok {m : List α} :
    run step (l ++ m) s = .ok t ↔ ∃ u, run step l s = .ok u ∧ run step m u = .ok t := by
  induction l generalizing s with
  | nil => simp
  | cons a l ih =>
    simp only [List.cons_append, run_cons_ok, ih]
    constructor
    · rintro ⟨u, hu, v, hv, ht⟩
      exact ⟨v, ⟨u, hu, hv⟩, ht⟩
    · rintro ⟨v, ⟨u, hu, hv⟩, ht⟩
      exact ⟨u, hu, v, hv, ht⟩

/-! ## Invariants and frames -/

/-- A property that every step of the trace keeps is kept by the run. -/
theorem run_invariant (hStep : ∀ a ∈ l, ∀ s t, I s → step a s = .ok t → I t) (hs : I s)
    (hRun : run step l s = .ok t) : I t := by
  induction l generalizing s with
  | nil =>
    cases hRun
    exact hs
  | cons a l ih =>
    obtain ⟨u, hu, hRest⟩ := run_cons_ok.mp hRun
    exact ih (fun b hb => hStep b (List.mem_cons_of_mem a hb))
      (hStep a List.mem_cons_self s u hs hu) hRest

/-- A trace of steps that cannot fail runs to its end. -/
theorem run_total (hStep : ∀ a ∈ l, ∀ s, ∃ t, step a s = .ok t) (s : σ) :
    ∃ t, run step l s = .ok t := by
  induction l generalizing s with
  | nil => exact ⟨s, rfl⟩
  | cons a l ih =>
    rw [List.forall_mem_cons] at hStep
    obtain ⟨u, hu⟩ := hStep.1 s
    obtain ⟨t, ht⟩ := ih hStep.2 u
    exact ⟨t, run_cons_ok.mpr ⟨u, hu, ht⟩⟩

/-- An observation that no step of the trace changes is unchanged by the run. -/
theorem run_frame {g : σ → β} (hStep : ∀ a ∈ l, ∀ s t, step a s = .ok t → g t = g s)
    (hRun : run step l s = .ok t) : g t = g s :=
  run_invariant (I := fun u => g u = g s)
    (fun a ha u v hu hv => (hStep a ha u v hv).trans hu) rfl hRun

/-- What the last label of a trace that writes a value writes. -/
def lastWrite (w : α → Option β) : List α → Option β
  | [] => none
  | a :: l => (lastWrite w l).or (w a)

theorem lastWrite_map {γ : Type*} (w : α → Option β) (f : γ → α) (l : List γ) :
    lastWrite w (l.map f) = lastWrite (fun c => w (f c)) l := by
  induction l with
  | nil => rfl
  | cons c l ih => simp [lastWrite, ih]

theorem lastWrite_eq_none :
    lastWrite w l = none ↔ ∀ a ∈ l, w a = none := by
  induction l with
  | nil => simp [lastWrite]
  | cons a l ih => simp [lastWrite, ih, and_comm]

theorem exists_of_lastWrite {b : β} (h : lastWrite w l = some b) :
    ∃ a ∈ l, w a = some b := by
  induction l with
  | nil => cases h
  | cons a l ih =>
    rcases Option.or_eq_some_iff.mp h with h | ⟨-, h⟩
    · obtain ⟨a', ha', hw⟩ := ih h
      exact ⟨a', List.mem_cons_of_mem a ha', hw⟩
    · exact ⟨a, List.mem_cons_self, h⟩

theorem lastWrite_congr {w' : α → Option β} (h : ∀ a ∈ l, w a = w' a) :
    lastWrite w l = lastWrite w' l := by
  induction l with
  | nil => rfl
  | cons a l ih =>
    rw [List.forall_mem_cons] at h
    rw [lastWrite, lastWrite, ih h.2, h.1]

theorem lastWrite_filter (p : α → Bool) (w : α → Option β) (l : List α) :
    lastWrite w (l.filter p) = lastWrite (fun a => if p a = true then w a else none) l := by
  induction l with
  | nil => rfl
  | cons a l ih =>
    by_cases ha : p a = true
    · rw [List.filter_cons_of_pos ha, lastWrite, lastWrite, ih, if_pos ha]
    · rw [List.filter_cons_of_neg ha, lastWrite, ih, if_neg ha, Option.or_none]

theorem lastWrite_option_map {γ : Type*} (f : β → γ) (w : α → Option β) (l : List α) :
    lastWrite (fun a => (w a).map f) l = (lastWrite w l).map f := by
  induction l with
  | nil => rfl
  | cons a l ih =>
    rw [lastWrite, lastWrite, ih]
    cases lastWrite w l <;> rfl

/-- The last label that satisfies a condition is the first one from the end. -/
theorem lastWrite_find? (p : α → Bool) (l : List α) :
    lastWrite (fun a => if p a = true then some a else none) l = l.reverse.find? p := by
  induction l with
  | nil => rfl
  | cons a l ih =>
    rw [lastWrite, ih, List.reverse_cons, List.find?_append, List.find?_singleton]

theorem exists_last {p : α → Prop} [DecidablePred p] (h : ∃ a ∈ l, p a) :
    ∃ pre a post, l = pre ++ a :: post ∧ p a ∧ ∀ b ∈ post, ¬p b := by
  obtain ⟨a, hFind⟩ : ∃ a, l.reverse.find? (fun a => decide (p a)) = some a := by
    rw [← Option.isSome_iff_exists, List.find?_isSome]
    simpa using h
  obtain ⟨ha, post, pre, hSplit, hPost⟩ := List.find?_eq_some_iff_append.mp hFind
  refine ⟨pre.reverse, a, post.reverse, ?_, of_decide_eq_true ha, fun b hb => ?_⟩
  · rw [List.reverse_eq_iff.mp hSplit]
    simp
  · simpa using hPost b (List.mem_reverse.mp hb)

theorem lastWrite_append (w : α → Option β) (l m : List α) :
    lastWrite w (l ++ m) = (lastWrite w m).or (lastWrite w l) := by
  induction l with
  | nil => simp [lastWrite]
  | cons a l ih => rw [List.cons_append, lastWrite, ih, lastWrite, Option.or_assoc]

theorem lastWrite_flatMap {γ : Type*} (w : α → Option β) (f : γ → List α) (l : List γ) :
    lastWrite w (l.flatMap f) = lastWrite (fun c => lastWrite w (f c)) l := by
  induction l with
  | nil => rfl
  | cons c l ih => rw [List.flatMap_cons, lastWrite_append, ih, lastWrite]

/-- An observation that every step overwrites or leaves alone ends with the last
value written. -/
theorem run_lastWrite {g : σ → β}
    (hStep : ∀ a ∈ l, ∀ s t, step a s = .ok t → g t = (w a).getD (g s))
    (hRun : run step l s = .ok t) : g t = (lastWrite w l).getD (g s) := by
  induction l generalizing s with
  | nil =>
    cases hRun
    rfl
  | cons a l ih =>
    obtain ⟨u, hu, hRest⟩ := run_cons_ok.mp hRun
    rw [List.forall_mem_cons] at hStep
    rw [ih hStep.2 hRest, hStep.1 s u hu, lastWrite]
    cases lastWrite w l <;> rfl

variable (step) in
/-- Every step of a run meets a condition on the state before it. -/
def Along (P : σ → α → Prop) : List α → σ → Prop
  | [], _ => True
  | a :: l, s => P s a ∧ ∀ t, step a s = .ok t → Along P l t

instance Along.decidable {P : σ → α → Prop} [∀ s a, Decidable (P s a)] :
    ∀ l s, Decidable (Along step P l s)
  | [], _ => isTrue trivial
  | a :: l, s =>
    match h : step a s with
    | .error _ => decidable_of_iff (P s a) ⟨fun hP => ⟨hP, fun t ht => by simp [h] at ht⟩, And.left⟩
    | .ok t =>
      haveI := Along.decidable (P := P) l t
      decidable_of_iff (P s a ∧ Along step P l t)
        ⟨fun hP => ⟨hP.1, fun u hu => by rw [h] at hu; cases hu; exact hP.2⟩,
          fun hP => ⟨hP.1, hP.2 t h⟩⟩

theorem Along.and {Q : σ → α → Prop} (hP : Along step P l s) (hQ : Along step Q l s) :
    Along step (fun s a => P s a ∧ Q s a) l s := by
  induction l generalizing s with
  | nil => trivial
  | cons a l ih => exact ⟨⟨hP.1, hQ.1⟩, fun t ht => ih (hP.2 t ht) (hQ.2 t ht)⟩

theorem Along.of_invariant (hStep : ∀ a ∈ l, ∀ s t, I s → step a s = .ok t → I t)
    (hMeet : ∀ a ∈ l, ∀ s, I s → P s a) (hs : I s) : Along step P l s := by
  induction l generalizing s with
  | nil => trivial
  | cons a l ih =>
    refine ⟨hMeet a List.mem_cons_self s hs, fun t ht => ?_⟩
    exact ih (fun b hb => hStep b (List.mem_cons_of_mem a hb))
      (fun b hb => hMeet b (List.mem_cons_of_mem a hb)) (hStep a List.mem_cons_self s t hs ht)

/-- A property that every step keeps that meets the condition is kept by the run. -/
theorem Along.run_invariant (hStep : ∀ a ∈ l, ∀ s t, I s → P s a → step a s = .ok t → I t)
    (hs : I s) (hAlong : Along step P l s) (hRun : run step l s = .ok t) : I t := by
  induction l generalizing s with
  | nil =>
    cases hRun
    exact hs
  | cons a l ih =>
    obtain ⟨u, hu, hRest⟩ := run_cons_ok.mp hRun
    exact ih (fun b hb => hStep b (List.mem_cons_of_mem a hb))
      (hStep a List.mem_cons_self s u hs hAlong.1 hu) (hAlong.2 u hu) hRest

/-- If every step of the trace can be taken from a state with the invariant that
meets the condition, the run ends. -/
theorem Along.run_total (hStep : ∀ a ∈ l, ∀ s, I s → P s a → ∃ t, step a s = .ok t ∧ I t) (hs : I s)
    (hAlong : Along step P l s) : ∃ t, run step l s = .ok t ∧ I t := by
  induction l generalizing s with
  | nil => exact ⟨s, rfl, hs⟩
  | cons a l ih =>
    obtain ⟨u, hu, hI⟩ := hStep a List.mem_cons_self s hs hAlong.1
    obtain ⟨t, ht, hIt⟩ := ih (fun b hb => hStep b (List.mem_cons_of_mem a hb)) hI (hAlong.2 u hu)
    exact ⟨t, run_cons_ok.mpr ⟨u, hu, ht⟩, hIt⟩

/-- The same, for observations that every step overwrites or leaves alone. -/
theorem Along.run_lastWrite {ι : Type*} {g : σ → ι → β} {w : ι → α → Option β}
    (hStep : ∀ a ∈ l, ∀ s, I s → P s a →
      ∃ t, step a s = .ok t ∧ I t ∧ ∀ i, g t i = (w i a).getD (g s i)) (hs : I s)
    (hAlong : Along step P l s) :
    ∃ t, run step l s = .ok t ∧ I t ∧ ∀ i, g t i = (lastWrite (w i) l).getD (g s i) := by
  induction l generalizing s with
  | nil => exact ⟨s, rfl, hs, fun _ => rfl⟩
  | cons a l ih =>
    obtain ⟨u, hu, hI, hHead⟩ := hStep a List.mem_cons_self s hs hAlong.1
    obtain ⟨t, ht, hIt, hRest⟩ :=
      ih (fun b hb => hStep b (List.mem_cons_of_mem a hb)) hI (hAlong.2 u hu)
    refine ⟨t, run_cons_ok.mpr ⟨u, hu, ht⟩, hIt, fun i => ?_⟩
    rw [hRest, hHead, lastWrite]
    cases lastWrite (w i) l <;> rfl

/-- A run that ends took every one of its steps. -/
theorem Along.of_run (hStep : ∀ a s t, step a s = .ok t → P s a) (hRun : run step l s = .ok t) :
    Along step P l s := by
  induction l generalizing s with
  | nil => trivial
  | cons a l ih =>
    obtain ⟨u, hu, hRest⟩ := run_cons_ok.mp hRun
    refine ⟨hStep a s u hu, fun v hv => ?_⟩
    rw [hu] at hv
    cases hv
    exact ih hRest

/-- The condition is met at every point of the trace that the run gets to. -/
theorem along_iff : Along step P l s ↔
    ∀ pre a post u, l = pre ++ a :: post → run step pre s = .ok u → P u a := by
  induction l generalizing s with
  | nil => simp [Along]
  | cons b l ih =>
    constructor
    · rintro ⟨hHead, hTail⟩ pre a post u hSplit hRun
      cases pre with
      | nil =>
        cases hSplit
        cases hRun
        exact hHead
      | cons c pre =>
        cases hSplit
        obtain ⟨v, hv, hRest⟩ := run_cons_ok.mp hRun
        exact ih.mp (hTail v hv) pre a post u rfl hRest
    · intro h
      refine ⟨h [] b l s rfl rfl, fun t ht => ih.mpr fun pre a post u hSplit hRun => ?_⟩
      refine h (b :: pre) a post u ?_ (run_cons_ok.mpr ⟨t, ht, hRun⟩)
      rw [hSplit, List.cons_append]

theorem Along.of_append {m : List α} (h : Along step P (l ++ m) s) :
    Along step P l s := by
  refine along_iff.mpr fun pre a post u hSplit => along_iff.mp h pre a (post ++ m) u ?_
  rw [hSplit, List.append_assoc, List.cons_append]

theorem run_mem {a : α} (ha : a ∈ l) (hRun : run step l s = .ok t) :
    ∃ pre post u v, l = pre ++ a :: post ∧ run step pre s = .ok u ∧ step a u = .ok v := by
  obtain ⟨pre, post, rfl⟩ := List.append_of_mem ha
  obtain ⟨u, hu, hRest⟩ := run_append_ok.mp hRun
  obtain ⟨v, hv, -⟩ := run_cons_ok.mp hRest
  exact ⟨pre, post, u, v, rfl, hu, hv⟩

/-! ## Reordering -/

variable (step) in
/-- Both orders of two labels reach the same states. -/
def Commute (a b : α) : Prop :=
  ∀ s t, run step [a, b] s = .ok t ↔ run step [b, a] s = .ok t

theorem Commute.symm {a b : α} (h : Commute step a b) : Commute step b a :=
  fun s t => (h s t).symm

theorem run_move {a : α} (h : ∀ b ∈ l, Commute step b a) :
    run step (l ++ [a]) s = .ok t ↔ run step (a :: l) s = .ok t := by
  induction l generalizing s with
  | nil => rfl
  | cons b l ih =>
    have hTail := fun u => ih (s := u) fun c hc => h c (List.mem_cons_of_mem b hc)
    have hHead := h b List.mem_cons_self
    calc run step (b :: l ++ [a]) s = .ok t
        ↔ ∃ u, step b s = .ok u ∧ run step (a :: l) u = .ok t := by
          simp only [List.cons_append, run_cons_ok, hTail]
      _ ↔ run step ([b, a] ++ l) s = .ok t := run_cons_ok.symm
      _ ↔ run step ([a, b] ++ l) s = .ok t := by
          simp only [run_append_ok, hHead s]
      _ ↔ run step (a :: b :: l) s = .ok t := Iff.rfl

theorem run_swap {m : List α} (h : ∀ a ∈ l, ∀ b ∈ m, Commute step a b) :
    run step (l ++ m) s = .ok t ↔ run step (m ++ l) s = .ok t := by
  induction m generalizing s with
  | nil => simp
  | cons b m ih =>
    have hTail := fun u => ih (s := u) fun a ha c hc => h a ha c (List.mem_cons_of_mem b hc)
    have hMove : ∀ u, run step (l ++ [b]) s = .ok u ↔ run step (b :: l) s = .ok u :=
      fun u => run_move (t := u) fun a ha => h a ha b List.mem_cons_self
    calc run step (l ++ b :: m) s = .ok t
        ↔ run step ((l ++ [b]) ++ m) s = .ok t := by simp
      _ ↔ run step ([b] ++ (l ++ m)) s = .ok t := by
          rw [run_append_ok, ← List.append_assoc, run_append_ok]
          simp only [hMove, List.singleton_append]
      _ ↔ run step ([b] ++ (m ++ l)) s = .ok t := by
          simp only [run_append_ok (l := [b]), hTail]
      _ ↔ run step (b :: m ++ l) s = .ok t := Iff.rfl

/-- A block may be taken before or after a tail that commutes with it. -/
theorem run_insert {l₁ l₂ m : List α} (h : ∀ a ∈ l₂, ∀ b ∈ m, Commute step a b) :
    run step (l₁ ++ m ++ l₂) s = .ok t ↔ run step (l₁ ++ l₂ ++ m) s = .ok t := by
  simp only [List.append_assoc, run_append_ok (l := l₁)]
  refine exists_congr fun u => and_congr_right fun _ => ?_
  exact run_swap fun b hb a ha => (h a ha b hb).symm

end Trace
