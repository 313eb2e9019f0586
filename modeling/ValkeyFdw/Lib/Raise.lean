import Mathlib.Order.Defs.Unbundled

/-!
# Programs that raise

A program of `EStateM` returns or raises, and leaves a state behind either way: what was
changed before a failure stays changed. `wp` is what has to hold of a state for a program
to end as asked, in both ways out. `wp_bind` takes a program apart, `wp_mono` uses what
is known of one of its parts, and `Keeps` is for relations between the first state and
the last that every part keeps.
-/

namespace Raise

variable {ε σ α β : Type}

/-- From this state the program ends in `Q` if it returns, and in `E` if it raises. -/
def wp (x : EStateM ε σ α) (Q : α → σ → Prop) (E : σ → Prop) (s : σ) : Prop :=
  match x s with
  | .ok a t => Q a t
  | .error _ t => E t

section Rules

variable {x : EStateM ε σ α} {f : α → EStateM ε σ β} {Q Q' : α → σ → Prop} {R : β → σ → Prop}
  {E E' : σ → Prop} {s : σ}

@[simp] theorem wp_pure (a : α) : wp (pure a : EStateM ε σ α) Q E s ↔ Q a s := Iff.rfl

@[simp] theorem wp_throw (e : ε) : wp (throw e : EStateM ε σ α) Q E s ↔ E s := Iff.rfl

@[simp] theorem wp_bind : wp (x >>= f) R E s ↔ wp x (fun a t => wp (f a) R E t) E s := by
  change (match EStateM.bind x f s with
    | .ok a t => R a t
    | .error _ t => E t) ↔ _
  unfold wp EStateM.bind
  cases x s <;> rfl

@[simp] theorem wp_map {g : α → β} : wp (g <$> x) R E s ↔ wp x (fun a => R (g a)) E s := by
  change (match EStateM.map g x s with
    | .ok a t => R a t
    | .error _ t => E t) ↔ _
  unfold wp EStateM.map
  cases x s <;> rfl

@[simp] theorem wp_get {Q : σ → σ → Prop} : wp (get : EStateM ε σ σ) Q E s ↔ Q s s := Iff.rfl

@[simp] theorem wp_modify {Q : PUnit → σ → Prop} (g : σ → σ) :
    wp (modify g : EStateM ε σ PUnit) Q E s ↔ Q ⟨⟩ (g s) := Iff.rfl

@[simp] theorem wp_ite {c : Prop} [Decidable c] {y : EStateM ε σ α} :
    wp (if c then x else y) Q E s ↔ (c → wp x Q E s) ∧ (¬c → wp y Q E s) := by
  by_cases hc : c <;> simp [hc]

theorem wp_mono (h : wp x Q E s) (hQ : ∀ a t, Q a t → Q' a t) (hE : ∀ t, E t → E' t) :
    wp x Q' E' s := by
  unfold wp at h ⊢
  split at h
  · exact hQ _ _ h
  · exact hE _ h

/-- What holds in every state needs no look at the program. -/
theorem wp_of_forall (hQ : ∀ a t, Q a t) (hE : ∀ t, E t) : wp x Q E s := by
  unfold wp
  split
  · exact hQ _ _
  · exact hE _

theorem wp_and (h : wp x Q E s) (h' : wp x Q' E' s) :
    wp x (fun a t => Q a t ∧ Q' a t) (fun t => E t ∧ E' t) s := by
  unfold wp at h h' ⊢
  split at h
  · rename_i hx
    rw [hx] at h'
    exact ⟨h, h'⟩
  · rename_i hx
    rw [hx] at h'
    exact ⟨h, h'⟩

theorem of_ok (h : wp x Q E s) {a : α} {t : σ} (hx : x s = .ok a t) : Q a t := by
  rwa [wp, hx] at h

theorem of_error (h : wp x Q E s) {e : ε} {t : σ} (hx : x s = .error e t) : E t := by
  rwa [wp, hx] at h

theorem returns_iff : (∃ a t, x s = .ok a t) ↔ wp x (fun _ _ => True) (fun _ => False) s := by
  unfold wp
  cases hx : x s with
  | ok a t => simp
  | error e t => simp

theorem raises_iff : (∃ e t, x s = .error e t) ↔ wp x (fun _ _ => False) (fun _ => True) s := by
  unfold wp
  cases hx : x s with
  | ok a t => simp
  | error e t => simp

end Rules

/-! ## What a program keeps -/

/-- However the program ends, its first state and its last are related. -/
def Keeps (R : σ → σ → Prop) (x : EStateM ε σ α) : Prop := ∀ s, wp x (fun _ => R s) (R s) s

section Keeps

variable {R : σ → σ → Prop} {x : EStateM ε σ α} {f : α → EStateM ε σ β}

theorem Keeps.modify {g : σ → σ} (h : ∀ s, R s (g s)) :
    Keeps R (modify g : EStateM ε σ PUnit) := h

theorem Keeps.bind [IsTrans σ R] (hx : Keeps R x) (hf : ∀ a, Keeps R (f a)) : Keeps R (x >>= f) := by
  intro s
  rw [wp_bind]
  refine wp_mono (hx s) (fun a t hst => ?_) fun t hst => hst
  exact wp_mono (hf a t) (fun _ _ htu => trans_of R hst htu) fun _ htu => trans_of R hst htu

theorem Keeps.mono {R' : σ → σ → Prop} (hx : Keeps R x) (h : ∀ s t, R s t → R' s t) : Keeps R' x :=
  fun s => wp_mono (hx s) (fun _ t => h s t) fun t => h s t

theorem Keeps.map {g : α → β} (hx : Keeps R x) : Keeps R (g <$> x) := fun s => wp_map.mpr (hx s)

variable [Std.Refl R]

theorem Keeps.pure (a : α) : Keeps R (pure a : EStateM ε σ α) := fun s => refl_of R s

theorem Keeps.throw (e : ε) : Keeps R (throw e : EStateM ε σ α) := fun s => refl_of R s

theorem Keeps.get : Keeps R (get : EStateM ε σ σ) := fun s => refl_of R s

end Keeps

end Raise
