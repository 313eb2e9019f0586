import Mathlib.Data.Set.BooleanAlgebra
import Mathlib.Data.Set.Disjoint
import Mathlib.Logic.Function.Basic
import Mathlib.Order.CompletePartialOrder
import ValkeyFdw.Lib.Trace

/-!
# Cells of a store and the facets through which they are changed

A store is a function from names to cells. A step on a store may be a partial
update of one cell. A facet reads a cell as a value of some type and writes
such a value back; reading and writing are mutually inverse where the cell can
be read at all, so an update through a facet is a plain function on the values.

* `LocalTo.commute`: steps on disjoint sets of names commute;
* `updateAt_commute_facet`: updates of one cell through one facet commute when
  the functions on the values do;
* `Facet.ofPrism`: the facet of a collection that is stored only while it is
  nonempty.
-/

namespace Cell

variable {K E T U ε : Type*}

/-! ## Facets -/

/-- A partial view of a cell that can be written back without loss. -/
structure Facet (E T : Type*) where
  read : E → Option T
  write : T → E
  read_write : ∀ t, read (write t) = some t
  write_read : ∀ {e t}, read e = some t → write t = e

namespace Facet

variable (F : Facet E T)

/-- Change the value a cell holds, or fail when the facet cannot read it. -/
def modify (err : ε) (f : T → T) (e : E) : Except ε E :=
  match F.read e with
  | some t => .ok (F.write (f t))
  | none => .error err

variable {F}

theorem modify_ok {err : ε} {f : T → T} {e e' : E} :
    F.modify err f e = .ok e' ↔ ∃ t, F.read e = some t ∧ e' = F.write (f t) := by
  unfold modify
  cases F.read e with
  | none => simp
  | some t => simp [eq_comm]

theorem modify_write (err : ε) (f : T → T) (t : T) :
    F.modify err f (F.write t) = .ok (F.write (f t)) := by
  simp [modify, F.read_write]

end Facet

/-- A constructor of the contents of a cell, with its partial inverse. -/
structure Prism (U T : Type*) where
  make : T → U
  get : U → Option T
  get_make : ∀ t, get (make t) = some t
  make_get : ∀ {u t}, get u = some t → make t = u

/-- A collection that is stored only while it is nonempty: an absent cell reads
as the empty one, and writing the empty one leaves the cell absent. -/
def Facet.ofPrism [DecidableEq T] (empty : T) (P : Prism U {t : T // t ≠ empty}) :
    Facet (Option U) T where
  read
    | none => some empty
    | some u => (P.get u).map Subtype.val
  write t := if h : t = empty then none else some (P.make ⟨t, h⟩)
  read_write t := by
    by_cases h : t = empty
    · simp [h]
    · simp [h, P.get_make]
  write_read {e t} h := by
    cases e with
    | none =>
      cases h
      simp
    | some u =>
      obtain ⟨⟨t, ht⟩, hGet, rfl⟩ := Option.map_eq_some_iff.mp h
      simp [ht, P.make_get hGet]

section OfPrism

variable [DecidableEq T] {empty : T} {P : Prism U {t : T // t ≠ empty}}

@[simp] theorem Facet.ofPrism_read_none : (Facet.ofPrism empty P).read none = some empty := rfl

@[simp] theorem Facet.ofPrism_write_empty : (Facet.ofPrism empty P).write empty = none := by
  simp [Facet.ofPrism]

theorem Facet.ofPrism_write_eq_none {t : T} :
    (Facet.ofPrism empty P).write t = none ↔ t = empty := by
  by_cases h : t = empty <;> simp [Facet.ofPrism, h]

end OfPrism

/-! ## Steps on a set of names -/

/-- A step that reads and changes only the cells of a set of names. -/
structure LocalTo (N : Set K) (u : (K → E) → Except ε (K → E)) : Prop where
  frame : ∀ {s t}, u s = .ok t → ∀ k ∉ N, t k = s k
  congr : ∀ {s s' t}, (∀ k ∈ N, s' k = s k) → u s = .ok t →
    ∃ t', u s' = .ok t' ∧ ∀ k ∈ N, t' k = t k

theorem LocalTo.swap {N M : Set K} {u v : (K → E) → Except ε (K → E)} (hu : LocalTo N u)
    (hv : LocalTo M v) (hNM : Disjoint N M) {s t : K → E} (h : (u s).bind v = .ok t) :
    (v s).bind u = .ok t := by
  obtain ⟨s₁, hs₁, ht⟩ := Trace.bind_ok.mp h
  have hOut : ∀ k ∈ M, k ∉ N := fun k hM hN => Set.disjoint_left.mp hNM hN hM
  obtain ⟨s₂, hs₂, hM⟩ := hv.congr (fun k hk => (hu.frame hs₁ k (hOut k hk)).symm) ht
  have hSame : ∀ k ∈ N, s₂ k = s k := fun k hk => hv.frame hs₂ k fun hM => hOut k hM hk
  obtain ⟨t', ht', hN⟩ := hu.congr hSame hs₁
  refine Trace.bind_ok.mpr ⟨s₂, hs₂, ht'.trans (congrArg _ (funext fun k => ?_))⟩
  by_cases hkN : k ∈ N
  · rw [hN k hkN, hv.frame ht k fun hM => hOut k hM hkN]
  · rw [hu.frame ht' k hkN]
    by_cases hkM : k ∈ M
    · exact hM k hkM
    · rw [hv.frame hs₂ k hkM, hv.frame ht k hkM, hu.frame hs₁ k hkN]

/-- Steps on disjoint sets of names can be taken in either order. -/
theorem LocalTo.commute {N M : Set K} {u v : (K → E) → Except ε (K → E)} (hu : LocalTo N u)
    (hv : LocalTo M v) (hNM : Disjoint N M) {s t : K → E} :
    (u s).bind v = .ok t ↔ (v s).bind u = .ok t :=
  ⟨hu.swap hv hNM, hv.swap hu hNM.symm⟩

theorem localTo_error (N : Set K) (x : ε) : LocalTo N fun _ : K → E => .error x :=
  ⟨fun h => (nomatch h), fun _ h => (nomatch h)⟩

/-! ## Updates of one cell -/

section Store

variable [DecidableEq K]

/-- A partial update of the cell at one name. -/
def updateAt (k : K) (u : E → Except ε E) (s : K → E) : Except ε (K → E) :=
  (u (s k)).map (Function.update s k)

variable {u : E → Except ε E} {s t : K → E}

theorem updateAt_ok {k : K} :
    updateAt k u s = .ok t ↔ ∃ e, u (s k) = .ok e ∧ t = Function.update s k e := by
  unfold updateAt
  cases u (s k) with
  | error x => simp [Except.map]
  | ok e => simp [Except.map, eq_comm]

theorem updateAt_frame {k l : K} (h : updateAt k u s = .ok t) (hl : l ≠ k) : t l = s l := by
  obtain ⟨e, -, rfl⟩ := updateAt_ok.mp h
  exact Function.update_of_ne hl _ _

theorem updateAt_self {k : K} (h : updateAt k u s = .ok t) : u (s k) = .ok (t k) := by
  obtain ⟨e, he, rfl⟩ := updateAt_ok.mp h
  simpa using he

theorem localTo_updateAt (k : K) (u : E → Except ε E) : LocalTo {k} (updateAt k u) where
  frame h l hl := updateAt_frame h hl
  congr {s s' t} hs h := by
    obtain ⟨e, he, rfl⟩ := updateAt_ok.mp h
    rw [← hs k rfl] at he
    refine ⟨_, updateAt_ok.mpr ⟨e, he, rfl⟩, ?_⟩
    rintro l rfl
    simp

theorem updateAt_facet_twice {F : Facet E T} {err err' : ε} {f g : T → T} {k : K} :
    (updateAt k (F.modify err f) s).bind (updateAt k (F.modify err' g)) = .ok t ↔
      ∃ x, F.read (s k) = some x ∧ t = Function.update s k (F.write (g (f x))) := by
  simp only [Trace.bind_ok, updateAt_ok]
  constructor
  · rintro ⟨_, ⟨e, he, rfl⟩, e', he', rfl⟩
    obtain ⟨x, hx, rfl⟩ := Facet.modify_ok.mp he
    rw [Function.update_self, Facet.modify_write] at he'
    cases he'
    exact ⟨x, hx, Function.update_idem _ _ _⟩
  · rintro ⟨x, hx, rfl⟩
    refine ⟨_, ⟨_, Facet.modify_ok.mpr ⟨x, hx, rfl⟩, rfl⟩, F.write (g (f x)), ?_, ?_⟩
    · rw [Function.update_self, Facet.modify_write]
    · rw [Function.update_idem]

/-- Updates of one cell through one facet can be taken in either order when the
functions on the values commute. -/
theorem updateAt_commute_facet {F : Facet E T} {err err' : ε} {f g : T → T}
    (hfg : ∀ x, f (g x) = g (f x)) {k : K} :
    (updateAt k (F.modify err f) s).bind (updateAt k (F.modify err' g)) = .ok t ↔
      (updateAt k (F.modify err' g) s).bind (updateAt k (F.modify err f)) = .ok t := by
  rw [updateAt_facet_twice, updateAt_facet_twice]
  exact exists_congr fun x => by rw [hfg]

end Store

end Cell
