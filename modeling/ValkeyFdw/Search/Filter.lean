import Mathlib.Algebra.Order.Ring.Unbundled.Rat
import ValkeyFdw.Table.Map

/-!
# The filter of a nearest-neighbour search

The conditions of a query are compiled into terms when it is planned, all of them or the
query is refused. The terms are rendered when it runs, once the bounds are known: a
numeric term is a range, a tag term asks for the text of its bound. A bound that is NULL
or NaN ends the rendering with no rows, without a search.

`filter_loses_nothing_iff` says for which documents that satisfy the conditions the
filter matches: not for a NaN bound, for a stored NaN, for a `real` column that rounds
the stored number across the bound, and for a tag whose type or collation calls
different texts equal.
-/

namespace ValkeyFdw

/-! ## Numbers -/

/-- A number as PostgreSQL orders it: NaN is equal to itself and above all else. -/
inductive PgNum where
  | negInf
  | fin (q : ℚ)
  | posInf
  | nan
deriving DecidableEq

namespace PgNum

def lt : PgNum → PgNum → Bool
  | .negInf, .negInf => false
  | .negInf, _ => true
  | .fin a, .fin b => a < b
  | .fin _, .posInf | .fin _, .nan => true
  | .posInf, .nan => true
  | _, _ => false

/-- The comparison by an operator's name. -/
def compare (opname : String) (x y : PgNum) : Bool :=
  match opname with
  | "=" => x = y
  | "<" => x.lt y
  | "<=" => !y.lt x
  | ">" => y.lt x
  | ">=" => !x.lt y
  | _ => false

variable {x y : PgNum}

theorem lt_negInf : x.lt .negInf = false := by cases x <;> rfl

theorem nan_lt : PgNum.lt .nan y = false := by cases y <;> rfl

theorem lt_nan : x.lt .nan = true ↔ x ≠ .nan := by cases x <;> simp [lt]

theorem posInf_lt : PgNum.lt .posInf y = true ↔ y = .nan := by cases y <;> simp [lt]

theorem eq_iff_not_lt : (x.lt y = false ∧ y.lt x = false) ↔ x = y := by
  cases x <;> cases y <;> simp [lt]
  exact ⟨fun h => le_antisymm h.2 h.1, fun h => ⟨h.ge, h.le⟩⟩

end PgNum

/-! ## Conditions -/

/-- The base type of a column or an expression. -/
inductive PgType where
  | int2
  | int4
  | int8
  | float4
  | float8
  | numeric
  | text
  | other
deriving DecidableEq

inductive IndexType where
  | tag
  | numeric
  | vector
deriving DecidableEq

/-- A column as a search looks at it. -/
structure IndexColumn where
  kind : ColKind
  indexType : Option IndexType
  typid : PgType
  field : Bytes
deriving DecidableEq

/-- An argument of an operator. -/
inductive Operand where
  /-- A column of the relation, under implicit coercions. -/
  | var (attno : Int)
  /-- Any other expression, and whether it mentions the relation. -/
  | expr (id : Nat) (type : PgType) (mentions : Bool)
deriving DecidableEq

/-- A comparison as the query states it. -/
structure OpExpr where
  opname : Option String
  args : List Operand
  boolean : Bool
deriving DecidableEq

/-- A condition of the query. -/
inductive Restriction where
  | op (e : OpExpr)
  | other
deriving DecidableEq

/-! ## Compiling -/

def safeByte (b : UInt8) : Bool :=
  (97 ≤ b && b ≤ 122) || (65 ≤ b && b ≤ 90) || (48 ≤ b && b ≤ 57) || b = 95 || b = 45 || b = 46

def filterNameIsSafe (name : Bytes) : Bool := name ≠ [] && name.all safeByte

/-- The types whose comparison a search is trusted with. -/
def filterTypeIsExact : PgType → Bool
  | .int2 | .int4 | .float4 | .float8 => true
  | _ => false

/-- A compiled comparison. -/
structure FilterTerm where
  field : Bytes
  bound : Operand
  /-- The bound is the low end of the range. -/
  lower : Bool := false
  exclusive : Bool := false
  /-- The bound is both ends. -/
  both : Bool := false
  tag : Bool := false

section Compile

variable (cols : List IndexColumn)

def Operand.column : Operand → Option IndexColumn
  | .var attno => if attno < 1 ∨ (cols.length : Int) < attno then none else cols[(attno - 1).toNat]?
  | .expr _ _ _ => none

def Operand.mentions : Operand → Bool
  | .var _ => true
  | .expr _ _ mentions => mentions

def Operand.type (o : Operand) : PgType :=
  match o with
  | .var _ => ((o.column cols).map IndexColumn.typid).getD .other
  | .expr _ type _ => type

def filterNumericField (o : Operand) : Option IndexColumn :=
  (o.column cols).filter fun col => col.kind = .field && col.indexType = some .numeric &&
    filterTypeIsExact col.typid && filterNameIsSafe col.field

def filterTagField (o : Operand) : Option IndexColumn :=
  (o.column cols).filter fun col => col.kind = .field && col.indexType = some .tag &&
    filterNameIsSafe col.field

/-- Which end of a range an operator bounds: the low one, exclusively, both. -/
def filterOpRange (opname : Option String) (varOnLeft : Bool) : Option (Bool × Bool × Bool) :=
  match opname with
  | some "=" => some (false, false, true)
  | some "<" => some (!varOnLeft, true, false)
  | some "<=" => some (!varOnLeft, false, false)
  | some ">" => some (varOnLeft, true, false)
  | some ">=" => some (varOnLeft, false, false)
  | _ => none

def filterRangeTerm (opname : Option String) (field : Bytes) (bound : Operand) (varOnLeft : Bool) :
    Option FilterTerm :=
  if bound.mentions || !filterTypeIsExact (bound.type cols) then none
  else (filterOpRange opname varOnLeft).map fun (lower, exclusive, both) =>
    { field, bound, lower, exclusive, both }

/-- A tag equality, which is weaker than its clause. -/
def filterTagTerm (opname : Option String) (field : Bytes) (bound : Operand) : Option FilterTerm :=
  if bound.mentions || opname ≠ some "=" then none else some { field, bound, tag := true }

/-- One clause, compiled or refused. -/
def filterOne : Restriction → Option FilterTerm
  | .other => none
  | .op e =>
    match e.args with
    | [l, r] =>
      if !e.boolean then none
      else
        match filterNumericField cols l, filterNumericField cols r with
        | some col, _ => filterRangeTerm cols e.opname col.field r true
        | none, some col => filterRangeTerm cols e.opname col.field l false
        | none, none =>
          match filterTagField cols l, filterTagField cols r with
          | some col, _ => filterTagTerm e.opname col.field r
          | none, some col => filterTagTerm e.opname col.field l
          | none, none => none
    | _ => none

/-- Why a query is refused. -/
def filterWhy : String :=
  "a WHERE clause that cannot be compiled into the search itself, and applying it afterwards " ++
    "would remove rows the search already counted towards k"

/-- All conditions, or the query is refused. -/
def filterCompile (clauses : List Restriction) : Except String (List FilterTerm) :=
  clauses.mapM fun clause =>
    match filterOne cols clause with
    | some term => .ok term
    | none => .error filterWhy

end Compile

/-- The filter says what the conditions say: it has no tag. -/
def filterIsExact (terms : List FilterTerm) : Bool := terms.all fun t => !t.tag

/-! ## Rendering -/

/-- The value of a bound: the number of the four types a range accepts, and the text its
output function prints. -/
structure BoundDatum where
  number : PgNum
  text : Bytes

/-- How PostgreSQL and the search read and print. -/
class Values where
  /-- The text of a finite number. -/
  float8out : ℚ → Bytes
  /-- The number that a text denotes to the search. -/
  number : Bytes → Option PgNum
  /-- The number a column of a type reads from a text. -/
  input : PgType → Bytes → Option PgNum
  /-- Whether the stored text, as the column reads it, is equal to a bound. -/
  equal : IndexColumn → Bytes → BoundDatum → Bool
  /-- Whether the stored text is matched by a tag. -/
  tagged : Bytes → Bytes → Bool

/-- Why a bound cannot be rendered. -/
inductive FilterError where
  | equalInfinity
  | boundType (type : PgType)
deriving DecidableEq

/-- One end of a range. -/
structure RangeEnd where
  text : Bytes
  exclusive : Bool
deriving DecidableEq

/-- A rendered term. -/
inductive QueryTerm where
  | range (field : Bytes) (lo hi : RangeEnd)
  | tag (field text : Bytes)
deriving DecidableEq

def RangeEnd.spell (e : RangeEnd) : Bytes := (if e.exclusive then ascii "(" else []) ++ e.text

/-- A term as it stands in the query. -/
def QueryTerm.spell : QueryTerm → Bytes
  | .range field lo hi =>
    ascii "@" ++ field ++ ascii ":[" ++ lo.spell ++ ascii " " ++ hi.spell ++ ascii "] "
  | .tag field text => ascii "@" ++ field ++ ascii ":\x7b" ++ text ++ ascii "\x7d "

section Render

variable [Values]

/-- A bound as the query language spells it; none for NaN. -/
def filterBoundText (v : BoundDatum) (type : PgType) : Except FilterError (Option Bytes) :=
  if filterTypeIsExact type then
    match v.number with
    | .nan => .ok none
    | .posInf => .ok (some (ascii "+inf"))
    | .negInf => .ok (some (ascii "-inf"))
    | .fin q => .ok (some (Values.float8out q))
  else .error (.boundType type)

/-- A tag value that can be spelled. -/
def tagIsSafe (text : Bytes) : Bool := text.all fun b => safeByte b || b = 32

omit [Values] in
/-- A tag that cannot be spelled is not pushed. -/
def filterRenderTag (term : FilterTerm) (v : BoundDatum) : List QueryTerm :=
  if tagIsSafe v.text then [.tag term.field v.text] else []

omit [Values] in
def FilterTerm.range (term : FilterTerm) (num : Bytes) : QueryTerm :=
  if term.both then .range term.field ⟨num, false⟩ ⟨num, false⟩
  else if term.lower then .range term.field ⟨num, term.exclusive⟩ ⟨ascii "+inf", false⟩
  else .range term.field ⟨ascii "-inf", false⟩ ⟨num, term.exclusive⟩

/-- None when the bound leaves no rows. -/
def filterRenderRange (term : FilterTerm) (v : BoundDatum) (type : PgType) :
    Except FilterError (Option (List QueryTerm)) :=
  match filterBoundText v type with
  | .error e => .error e
  | .ok none => .ok none
  | .ok (some num) =>
    if term.both ∧ num[0]? ≠ some 45 ∧ num[1]? = some 105 then .error .equalInfinity
    else .ok (some [term.range num])

/-- One term, once its bound is known. -/
def filterRenderTerm (cols : List IndexColumn) (term : FilterTerm) :
    Option BoundDatum → Except FilterError (Option (List QueryTerm))
  | none => .ok none
  | some v =>
    if term.tag then .ok (some (filterRenderTag term v))
    else filterRenderRange term v (term.bound.type cols)

/-- The filter of some terms by the values of their bounds: none when the query has no
rows, so that nothing is asked. -/
def filterRender (cols : List IndexColumn) (env : Operand → Option BoundDatum) :
    List FilterTerm → Except FilterError (Option (List QueryTerm))
  | [] => .ok (some [])
  | term :: terms =>
    match filterRenderTerm cols term (env term.bound) with
    | .error e => .error e
    | .ok none => .ok none
    | .ok (some first) => (filterRender cols env terms).map (·.map (first ++ ·))

end Render

/-! ## What conditions and filters mean -/

/-- The fields of a document. -/
abbrev Document := Bytes → Option Bytes

def RangeEnd.above (e : RangeEnd) (lo x : PgNum) : Bool := if e.exclusive then lo.lt x else !x.lt lo

def RangeEnd.below (e : RangeEnd) (hi x : PgNum) : Bool := if e.exclusive then x.lt hi else !hi.lt x

/-- A column compared with a bound. -/
structure Comparison where
  col : IndexColumn
  opname : String
  bound : Operand
  varOnLeft : Bool

/-- The condition as a comparison of one column. -/
def Restriction.comparison (cols : List IndexColumn) : Restriction → Option Comparison
  | .op ⟨some opname, [l, r], true⟩ =>
    match l.column cols, r.column cols with
    | some col, none => some ⟨col, opname, r, true⟩
    | none, some col => some ⟨col, opname, l, false⟩
    | _, _ => none
  | _ => none

/-- The comparison of two numbers in the order the condition has them. -/
def Comparison.compares (c : Comparison) (x y : PgNum) : Bool :=
  if c.varOnLeft then PgNum.compare c.opname x y else PgNum.compare c.opname y x

section Meaning

variable [Values]

/-- Whether a document matches a term: a range compares the number that the stored text
denotes. -/
def QueryTerm.selects (doc : Document) : QueryTerm → Bool
  | .range field lo hi =>
    match (doc field).bind Values.number, Values.number lo.text, Values.number hi.text with
    | some x, some l, some h => lo.above l x && hi.below h x
    | _, _, _ => false
  | .tag field text => (doc field).elim false (Values.tagged · text)

/-- Whether a document satisfies a comparison: an absent field and a NULL bound do not.
Numbers are compared as the column reads them; the other types are only ever compared
for equality. -/
def Comparison.holds (cols : List IndexColumn) (env : Operand → Option BoundDatum) (doc : Document)
    (c : Comparison) : Bool :=
  match env c.bound, doc c.col.field with
  | some v, some text =>
    if filterTypeIsExact c.col.typid && filterTypeIsExact (c.bound.type cols) then
      (Values.input c.col.typid text).elim false (c.compares · v.number)
    else c.opname = "=" && Values.equal c.col text v
  | _, _ => false

/-- The document satisfies every condition. -/
def Satisfies (cols : List IndexColumn) (env : Operand → Option BoundDatum) (doc : Document)
    (clauses : List Restriction) : Prop :=
  ∀ clause ∈ clauses, ∃ c, clause.comparison cols = some c ∧ c.holds cols env doc = true

/-- The document is not lost: the query was refused, or it was asked and the document
matches. -/
def Keeps (doc : Document) : Except FilterError (Option (List QueryTerm)) → Prop
  | .error _ => True
  | .ok none => False
  | .ok (some query) => ∀ term ∈ query, term.selects doc = true

instance (doc : Document) : DecidablePred (Keeps doc)
  | .error _ => isTrue trivial
  | .ok none => isFalse id
  | .ok (some query) => inferInstanceAs (Decidable (∀ term ∈ query, term.selects doc = true))

end Meaning

/-! ## What was compiled -/

section Compiled

variable {cols : List IndexColumn} {clause : Restriction} {term : FilterTerm}

/-- A term and the comparison it was compiled from. -/
structure FilterTerm.Compiles (cols : List IndexColumn) (c : Comparison) (term : FilterTerm) :
    Prop where
  field : term.field = c.col.field
  bound : term.bound = c.bound
  numeric : term.tag = false → c.col.indexType = some .numeric ∧
    filterTypeIsExact (c.bound.type cols) = true ∧
    filterOpRange (some c.opname) c.varOnLeft = some (term.lower, term.exclusive, term.both)
  tag : term.tag = true → c.col.indexType = some .tag ∧ c.opname = "="

theorem Operand.column_of_not_mentions {o : Operand} (h : o.mentions = false) :
    o.column cols = none := by
  cases o with
  | var attno => cases h
  | expr id type mentions => rfl

variable {col : IndexColumn}

theorem filterNumericField_eq_some {o : Operand} (h : filterNumericField cols o = some col) :
    o.column cols = some col ∧ col.indexType = some .numeric := by
  obtain ⟨hCol, hIs⟩ := Option.filter_eq_some_iff.mp h
  simp only [Bool.and_eq_true, decide_eq_true_eq] at hIs
  exact ⟨hCol, hIs.1.1.2⟩

theorem filterTagField_eq_some {o : Operand} (h : filterTagField cols o = some col) :
    o.column cols = some col ∧ col.indexType = some .tag := by
  obtain ⟨hCol, hIs⟩ := Option.filter_eq_some_iff.mp h
  simp only [Bool.and_eq_true, decide_eq_true_eq] at hIs
  exact ⟨hCol, hIs.1.2⟩

theorem filterRangeTerm_compiles {opname : Option String} {bound : Operand} {varOnLeft : Bool}
    (hIndex : col.indexType = some .numeric)
    (h : filterRangeTerm cols opname col.field bound varOnLeft = some term) :
    bound.column cols = none ∧ ∃ name, opname = some name ∧
      term.Compiles cols ⟨col, name, bound, varOnLeft⟩ := by
  unfold filterRangeTerm at h
  split at h
  · cases h
  · rename_i hBound
    simp only [Bool.or_eq_true, Bool.not_eq_true', not_or, Bool.not_eq_true,
      Bool.not_eq_false] at hBound
    obtain ⟨⟨lower, exclusive, both⟩, hRange, rfl⟩ := Option.map_eq_some_iff.mp h
    refine ⟨Operand.column_of_not_mentions hBound.1, ?_⟩
    cases opname with
    | none => cases hRange
    | some name => exact ⟨name, rfl, rfl, rfl, fun _ => ⟨hIndex, hBound.2, hRange⟩, nofun⟩

theorem filterTagTerm_compiles {opname : Option String} {bound : Operand} {varOnLeft : Bool}
    (hIndex : col.indexType = some .tag) (h : filterTagTerm opname col.field bound = some term) :
    bound.column cols = none ∧ ∃ name, opname = some name ∧
      term.Compiles cols ⟨col, name, bound, varOnLeft⟩ := by
  unfold filterTagTerm at h
  split at h
  · cases h
  · rename_i hBound
    simp only [Bool.or_eq_true, decide_eq_true_eq, not_or, Bool.not_eq_true, not_not] at hBound
    cases h
    exact ⟨Operand.column_of_not_mentions hBound.1, "=", hBound.2, rfl, rfl, nofun,
      fun _ => ⟨hIndex, rfl⟩⟩

/-- A clause that compiles compares one column of the table with a bound. -/
theorem filterOne_eq_some (h : filterOne cols clause = some term) :
    ∃ c, clause.comparison cols = some c ∧ term.Compiles cols c := by
  obtain ⟨opname, args, boolean⟩ | _ := clause
  · unfold filterOne at h
    dsimp only at h
    split at h
    · rename_i l r
      cases boolean with
      | false => cases h
      | true =>
        -- The column stands on the left or on the right, and the other side is no column.
        have hLeft : ∀ {col}, l.column cols = some col → (r.column cols = none ∧ ∃ name,
            opname = some name ∧ term.Compiles cols ⟨col, name, r, true⟩) →
            ∃ c, (Restriction.op ⟨opname, [l, r], true⟩).comparison cols = some c ∧
              term.Compiles cols c := by
          rintro col hCol ⟨hBound, name, rfl, hCompiles⟩
          exact ⟨_, by simp only [Restriction.comparison, hCol, hBound], hCompiles⟩
        have hRight : ∀ {col}, r.column cols = some col → (l.column cols = none ∧ ∃ name,
            opname = some name ∧ term.Compiles cols ⟨col, name, l, false⟩) →
            ∃ c, (Restriction.op ⟨opname, [l, r], true⟩).comparison cols = some c ∧
              term.Compiles cols c := by
          rintro col hCol ⟨hBound, name, rfl, hCompiles⟩
          exact ⟨_, by simp only [Restriction.comparison, hCol, hBound], hCompiles⟩
        simp only [Bool.not_true, Bool.false_eq_true, if_false] at h
        split at h
        · rename_i hField
          obtain ⟨hCol, hIndex⟩ := filterNumericField_eq_some hField
          exact hLeft hCol (filterRangeTerm_compiles hIndex h)
        · rename_i hField
          obtain ⟨hCol, hIndex⟩ := filterNumericField_eq_some hField
          exact hRight hCol (filterRangeTerm_compiles hIndex h)
        · split at h
          · rename_i hField
            obtain ⟨hCol, hIndex⟩ := filterTagField_eq_some hField
            exact hLeft hCol (filterTagTerm_compiles hIndex h)
          · rename_i hField
            obtain ⟨hCol, hIndex⟩ := filterTagField_eq_some hField
            exact hRight hCol (filterTagTerm_compiles hIndex h)
          · cases h
    · cases h
  · cases h

end Compiled

/-! ## Ranges -/

section Ranges

variable [Values] {cols : List IndexColumn} {env : Operand → Option BoundDatum} {doc : Document}
  {c : Comparison} {term : FilterTerm}

/-- The number that a bound is printed as. -/
def PgNum.printed : PgNum → PgNum
  | .fin q => (Values.number (Values.float8out q)).getD .nan
  | x => x

/-- The search reads the texts of a query's bounds: an infinity as itself, and a finite
number as a finite one. -/
structure ReadsBack (env : Operand → Option BoundDatum) : Prop where
  posInf : Values.number (ascii "+inf") = some .posInf
  negInf : Values.number (ascii "-inf") = some .negInf
  fin : ∀ o v q, env o = some v → v.number = .fin q →
    ∃ p, Values.number (Values.float8out q) = some (.fin p)
  /-- The text of a finite number begins with no sign of an infinity. -/
  digits : ∀ o v q, env o = some v → v.number = .fin q → (Values.float8out q)[1]? ≠ some 105

omit [Values] in
/-- What lies between two ends. -/
def between (lo : RangeEnd) (l : PgNum) (hi : RangeEnd) (h x : PgNum) : Prop :=
  lo.above l x = true ∧ hi.below h x = true

theorem QueryTerm.range_selects (field : Bytes) (lo hi : RangeEnd) {l h : PgNum}
    (hlo : Values.number lo.text = some l) (hhi : Values.number hi.text = some h) :
    (QueryTerm.range field lo hi).selects doc = true ↔
      ∃ text x, doc field = some text ∧ Values.number text = some x ∧ between lo l hi h x := by
  simp only [selects, hlo, hhi, between]
  cases doc field with
  | none => simp
  | some text =>
    rw [Option.bind_some]
    cases hText : Values.number text with
    | none => simp [hText]
    | some x => simp [hText]

omit [Values] in
/-- A range from a bound up or down, or of the bound alone, leaves NaN out. -/
theorem between_iff (e : Bool) {v x : PgNum} {a b : Bytes} (hv : v ≠ .nan) :
    (between ⟨a, false⟩ v ⟨b, false⟩ v x ↔ x ≠ .nan ∧ x = v) ∧
    (between ⟨a, e⟩ v ⟨b, false⟩ .posInf x ↔
      x ≠ .nan ∧ (if e then v.lt x else !x.lt v) = true) ∧
    (between ⟨a, false⟩ .negInf ⟨b, e⟩ v x ↔
      x ≠ .nan ∧ (if e then x.lt v else !v.lt x) = true) := by
  have hNan : x = .nan → v.lt x = true := fun h => h ▸ PgNum.lt_nan.mpr hv
  have hBelow : PgNum.lt .posInf x = false ↔ x ≠ .nan := by
    rw [← Bool.not_eq_true, PgNum.posInf_lt]
  refine ⟨?_, ?_, ?_⟩
  · simp only [between, RangeEnd.above, RangeEnd.below, Bool.false_eq_true, if_false,
      Bool.not_eq_true', PgNum.eq_iff_not_lt]
    exact ⟨fun h => ⟨h ▸ hv, h⟩, And.right⟩
  · simp only [between, RangeEnd.above, RangeEnd.below, Bool.false_eq_true, if_false,
      Bool.not_eq_true', hBelow]
    exact and_comm
  · simp only [between, RangeEnd.above, RangeEnd.below, Bool.false_eq_true, if_false,
      PgNum.lt_negInf, Bool.not_false, true_and]
    refine ⟨fun h => ⟨fun hx => ?_, h⟩, And.right⟩
    cases e with
    | true => simp [hx, PgNum.nan_lt] at h
    | false => simp [hNan hx] at h

omit [Values] in
/-- The end of a range that an operator bounds is the operator. -/
theorem compares_of_opRange {lower exclusive both : Bool}
    (h : filterOpRange (some c.opname) c.varOnLeft = some (lower, exclusive, both)) (x v : PgNum) :
    c.compares x v = if both then decide (x = v)
      else if lower then (if exclusive then v.lt x else !x.lt v)
      else (if exclusive then x.lt v else !v.lt x) := by
  obtain ⟨col, opname, bound, varOnLeft⟩ := c
  dsimp only at h
  unfold Comparison.compares PgNum.compare
  unfold filterOpRange at h
  split at h
  · rename_i hName
    cases hName
    cases varOnLeft <;> cases h <;> simp [eq_comm]
  · rename_i hName
    cases hName
    cases varOnLeft <;> cases h <;> simp
  · rename_i hName
    cases hName
    cases varOnLeft <;> cases h <;> simp
  · rename_i hName
    cases hName
    cases varOnLeft <;> cases h <;> simp
  · rename_i hName
    cases hName
    cases varOnLeft <;> cases h <;> simp
  · cases h

/-- The range of a comparison holds the numbers that stand in its relation to the bound,
but for NaN. -/
theorem FilterTerm.Compiles.range_selects (h : term.Compiles cols c) (hTag : term.tag = false)
    {num : Bytes} {v : PgNum} (hv : v ≠ .nan) (hNum : Values.number num = some v)
    (hPos : Values.number (ascii "+inf") = some .posInf)
    (hNeg : Values.number (ascii "-inf") = some .negInf) :
    (term.range num).selects doc = true ↔ ∃ text x, doc c.col.field = some text ∧
      Values.number text = some x ∧ x ≠ .nan ∧ c.compares x v = true := by
  simp only [compares_of_opRange (h.numeric hTag).2.2, FilterTerm.range, h.field]
  by_cases hBoth : term.both = true
  · simp only [hBoth, if_true]
    refine (QueryTerm.range_selects _ ⟨num, false⟩ ⟨num, false⟩ hNum hNum).trans ?_
    simp only [(between_iff false hv).1, decide_eq_true_eq]
  · by_cases hLower : term.lower = true
    · simp only [hBoth, hLower, if_true, if_false, Bool.false_eq_true]
      refine (QueryTerm.range_selects _ ⟨num, _⟩ ⟨ascii "+inf", false⟩ hNum hPos).trans ?_
      simp only [(between_iff term.exclusive hv).2.1]
    · simp only [hBoth, hLower, if_false, Bool.false_eq_true]
      refine (QueryTerm.range_selects _ ⟨ascii "-inf", false⟩ ⟨num, _⟩ hNeg hNum).trans ?_
      simp only [(between_iff term.exclusive hv).2.2]

end Ranges

/-! ## What is lost -/

/-- The comparisons of the conditions, in order. -/
def comparisons (cols : List IndexColumn) (clauses : List Restriction) : List Comparison :=
  clauses.filterMap (Restriction.comparison cols)

/-- A range would have to begin or end at NaN. -/
def Comparison.AgainstNan (env : Operand → Option BoundDatum) (c : Comparison) : Prop :=
  c.col.indexType = some .numeric ∧ ∃ v, env c.bound = some v ∧ v.number = .nan

/-- A range would be the infinity alone, which is refused. -/
def Comparison.EqualsInfinity (env : Operand → Option BoundDatum) (c : Comparison) : Prop :=
  c.col.indexType = some .numeric ∧ c.opname = "=" ∧ ∃ v, env c.bound = some v ∧ v.number = .posInf

/-- An equality with the infinity comes before every NaN. -/
def InfinityFirst (env : Operand → Option BoundDatum) : List Comparison → Prop
  | [] => False
  | c :: cs => c.EqualsInfinity env ∨ ¬c.AgainstNan env ∧ InfinityFirst env cs

section Lost

variable [Values] {cols : List IndexColumn} {env : Operand → Option BoundDatum} {doc : Document}
  {c : Comparison} {term : FilterTerm}

/-- The stored text itself stands as the condition asks of the column: the number it
denotes is not NaN and has the relation to the bound as it is printed, the tag is matched
by it unless it cannot be spelled. -/
def Comparison.Agrees (env : Operand → Option BoundDatum) (doc : Document) (c : Comparison) : Prop :=
  ∀ v, env c.bound = some v → ∃ text, doc c.col.field = some text ∧
    (c.col.indexType = some .numeric →
      ∃ x, Values.number text = some x ∧ x ≠ .nan ∧ c.compares x v.number.printed = true) ∧
    (c.col.indexType = some .tag → tagIsSafe v.text = true → Values.tagged text v.text = true)

theorem Comparison.exists_of_holds (h : c.holds cols env doc = true) :
    ∃ v text, env c.bound = some v ∧ doc c.col.field = some text := by
  unfold holds at h
  split at h
  · rename_i v text hv hText
    exact ⟨v, text, hv, hText⟩
  · cases h

omit [Values] in
theorem both_iff_eq {opname : String} {varOnLeft lower exclusive both : Bool}
    (h : filterOpRange (some opname) varOnLeft = some (lower, exclusive, both)) :
    both = true ↔ opname = "=" := by
  unfold filterOpRange at h
  split at h <;> first
    | (rename_i hName
       cases hName
       cases h
       simp)
    | cases h

/-- The text of a bound that is not NaN, and when the rendering refuses it. -/
theorem ReadsBack.bound_text (hReads : ReadsBack env) {o : Operand} {v : BoundDatum}
    (hv : env o = some v) {type : PgType} (hType : filterTypeIsExact type = true)
    (hNan : v.number ≠ .nan) : ∃ num, filterBoundText v type = .ok (some num) ∧
      Values.number num = some v.number.printed ∧ v.number.printed ≠ .nan ∧
      ((num[0]? ≠ some 45 ∧ num[1]? = some 105) ↔ v.number = .posInf) := by
  unfold filterBoundText
  rw [if_pos hType]
  cases hNumber : v.number with
  | nan => exact absurd hNumber hNan
  | posInf => exact ⟨_, rfl, hReads.posInf, nofun, by decide⟩
  | negInf => exact ⟨_, rfl, hReads.negInf, nofun, by decide⟩
  | fin q =>
    obtain ⟨p, hp⟩ := hReads.fin o v q hv hNumber
    have hPrinted : (PgNum.fin q).printed = .fin p := by rw [PgNum.printed, hp, Option.getD_some]
    rw [hPrinted]
    refine ⟨_, rfl, hp, nofun, ?_⟩
    simp [hReads.digits o v q hv hNumber]

theorem FilterTerm.Compiles.render_tag (h : term.Compiles cols c) (hTag : term.tag = true)
    {v : BoundDatum} (hv : env c.bound = some v) {text : Bytes}
    (hText : doc c.col.field = some text) :
    (∀ t ∈ filterRenderTag term v, t.selects doc = true) ↔ c.Agrees env doc := by
  obtain ⟨hIndex, -⟩ := h.tag hTag
  have hAgrees : c.Agrees env doc ↔ (tagIsSafe v.text = true → Values.tagged text v.text = true) := by
    simp [Comparison.Agrees, hv, hText, hIndex]
  rw [hAgrees, filterRenderTag]
  split_ifs with hSafe
  · simp [QueryTerm.selects, h.field, hText, hSafe]
  · simp [hSafe]

/-- What one term is rendered to, for a document that satisfies its condition. -/
theorem FilterTerm.Compiles.render (h : term.Compiles cols c) (hReads : ReadsBack env)
    (hHolds : c.holds cols env doc = true) :
    (c.EqualsInfinity env ∧ ∃ e, filterRenderTerm cols term (env term.bound) = .error e) ∨
    (c.AgainstNan env ∧ ¬c.EqualsInfinity env ∧
      filterRenderTerm cols term (env term.bound) = .ok none) ∨
    (¬c.EqualsInfinity env ∧ ¬c.AgainstNan env ∧ ∃ query,
      filterRenderTerm cols term (env term.bound) = .ok (some query) ∧
        ((∀ t ∈ query, t.selects doc = true) ↔ c.Agrees env doc)) := by
  obtain ⟨v, text, hv, hText⟩ := Comparison.exists_of_holds hHolds
  rw [h.bound, hv]
  unfold filterRenderTerm
  dsimp only
  by_cases hTag : term.tag = true
  · obtain ⟨hIndex, -⟩ := h.tag hTag
    rw [if_pos hTag]
    refine .inr (.inr ⟨?_, ?_, _, rfl, h.render_tag hTag hv hText⟩)
    · simp [Comparison.EqualsInfinity, hIndex]
    · simp [Comparison.AgainstNan, hIndex]
  · rw [Bool.not_eq_true] at hTag
    obtain ⟨hIndex, hType, hRange⟩ := h.numeric hTag
    have hBoth := both_iff_eq hRange
    have hNan : c.AgainstNan env ↔ v.number = .nan := by simp [Comparison.AgainstNan, hIndex, hv]
    have hInfinity : c.EqualsInfinity env ↔ c.opname = "=" ∧ v.number = .posInf := by
      simp [Comparison.EqualsInfinity, hIndex, hv]
    rw [hNan, hInfinity, if_neg (by simp [hTag]), h.bound, filterRenderRange]
    by_cases hNumber : v.number = .nan
    · refine .inr (.inl ⟨hNumber, by simp [hNumber], ?_⟩)
      simp [filterBoundText, hType, hNumber]
    · obtain ⟨num, hBoundText, hNum, hPrinted, hSpelled⟩ := hReads.bound_text hv hType hNumber
      simp only [hBoundText, hBoth, hSpelled]
      by_cases hRefused : c.opname = "=" ∧ v.number = .posInf
      · exact .inl ⟨hRefused, .equalInfinity, if_pos hRefused⟩
      · refine .inr (.inr ⟨hRefused, hNumber, _, if_neg hRefused, ?_⟩)
        rw [List.forall_mem_singleton,
          h.range_selects hTag hPrinted hNum hReads.posInf hReads.negInf]
        simp [Comparison.Agrees, hv, hText, hIndex]

/-- The rendering of all terms, for a document that satisfies the conditions: it raises
where an infinity comes first, and keeps the document where nothing speaks against it. -/
theorem filterRender_keeps {cs : List Comparison} {terms : List FilterTerm}
    (h : List.Forall₂ (fun c term => term.Compiles cols c) cs terms) (hReads : ReadsBack env)
    (hHolds : ∀ c ∈ cs, c.holds cols env doc = true) :
    ((∃ e, filterRender cols env terms = .error e) ↔ InfinityFirst env cs) ∧
      (¬InfinityFirst env cs → (Keeps doc (filterRender cols env terms) ↔
        ∀ c ∈ cs, ¬c.AgainstNan env ∧ c.Agrees env doc)) := by
  induction h with
  | nil => simp [filterRender, InfinityFirst, Keeps]
  | @cons c term cs terms hCompiles _ ih =>
    rw [List.forall_mem_cons] at hHolds
    obtain ⟨hError, hKeeps⟩ := ih hHolds.2
    simp only [filterRender, InfinityFirst, List.forall_mem_cons]
    rcases hCompiles.render hReads hHolds.1 with
      ⟨hInfinity, e, hTerm⟩ | ⟨hNan, hFinite, hTerm⟩ | ⟨hFinite, hNan, query, hTerm, hSelects⟩
    · simp [hTerm, hInfinity]
    · simp [hTerm, hNan, hFinite, Keeps]
    · simp only [hTerm, hFinite, hNan, false_or, not_false_eq_true, true_and, ← hError, ← hSelects]
      rw [← hError] at hKeeps
      rcases hRest : filterRender cols env terms with e | _ | rest
      · simp [Except.map]
      · rw [hRest] at hKeeps
        simpa [Except.map, Keeps] using fun _ => hKeeps
      · rw [hRest] at hKeeps
        have hRestKeeps := hKeeps (by simp)
        simp only [Except.map, Keeps, Option.map_some, List.forall_mem_append] at hRestKeeps ⊢
        simp [hRestKeeps]

omit [Values] in
/-- Terms that were compiled come from the comparisons of the conditions, in order. -/
theorem filterCompile_ok {clauses : List Restriction} {terms : List FilterTerm}
    (h : filterCompile cols clauses = .ok terms) :
    clauses.map (Restriction.comparison cols) = (comparisons cols clauses).map some ∧
      List.Forall₂ (fun c term => term.Compiles cols c) (comparisons cols clauses) terms := by
  have hAll := Trace.mapM_ok.mp h
  clear h
  induction hAll with
  | nil => exact ⟨rfl, .nil⟩
  | @cons clause term clauses terms hOne _ ih =>
    have hTerm : filterOne cols clause = some term := by
      split at hOne
      · rename_i hSome
        cases hOne
        exact hSome
      · cases hOne
    obtain ⟨c, hComparison, hCompiles⟩ := filterOne_eq_some hTerm
    have hCons : comparisons cols (clause :: clauses) = c :: comparisons cols clauses :=
      List.filterMap_cons_some hComparison
    rw [hCons, List.map_cons, List.map_cons, hComparison, ih.1]
    exact ⟨rfl, .cons hCompiles ih.2⟩

/-- A document that satisfies the conditions is kept exactly where the query is refused
for an infinity, or no bound is NaN and the stored texts agree with the conditions. -/
theorem filter_loses_nothing_iff (cols : List IndexColumn) (clauses : List Restriction)
    (terms : List FilterTerm) (hCompile : filterCompile cols clauses = .ok terms)
    (env : Operand → Option BoundDatum) (hReads : ReadsBack env) (doc : Document) :
    (Satisfies cols env doc clauses → Keeps doc (filterRender cols env terms)) ↔
      (Satisfies cols env doc clauses → InfinityFirst env (comparisons cols clauses) ∨
        ∀ c ∈ comparisons cols clauses, ¬c.AgainstNan env ∧ c.Agrees env doc) := by
  obtain ⟨hMap, hTerms⟩ := filterCompile_ok hCompile
  refine imp_congr_right fun hSatisfies => ?_
  have hHolds : ∀ c ∈ comparisons cols clauses, c.holds cols env doc = true := by
    intro c hc
    obtain ⟨clause, hClause, hComparison⟩ := List.mem_filterMap.mp hc
    obtain ⟨c', hc', hHolds⟩ := hSatisfies clause hClause
    rw [hComparison] at hc'
    cases hc'
    exact hHolds
  obtain ⟨hError, hKeeps⟩ := filterRender_keeps hTerms hReads hHolds
  by_cases hInfinity : InfinityFirst env (comparisons cols clauses)
  · obtain ⟨e, he⟩ := hError.mpr hInfinity
    simp [he, hInfinity, Keeps]
  · rw [hKeeps hInfinity]
    simp [hInfinity]

/-- A column that reads a text as the number it denotes agrees with its condition. -/
theorem Comparison.agrees_of_input (hIndex : c.col.indexType = some .numeric)
    (hTypes : filterTypeIsExact c.col.typid = true ∧ filterTypeIsExact (c.bound.type cols) = true)
    (hInput : ∀ text, doc c.col.field = some text →
      Values.input c.col.typid text = Values.number text ∧ Values.number text ≠ some .nan)
    (hPrinted : ∀ v, env c.bound = some v → v.number.printed = v.number)
    (hHolds : c.holds cols env doc = true) : c.Agrees env doc := by
  intro v hv
  unfold holds at hHolds
  rw [hv] at hHolds
  cases hText : doc c.col.field with
  | none => simp [hText] at hHolds
  | some text =>
    obtain ⟨hSame, hNan⟩ := hInput text hText
    refine ⟨text, rfl, fun _ => ?_, by simp [hIndex]⟩
    simp only [hText, hTypes, Bool.and_self, if_true, hSame] at hHolds
    rw [hPrinted v hv]
    cases hNumber : Values.number text with
    | none => simp [hNumber] at hHolds
    | some x =>
      rw [hNumber] at hHolds hNan
      exact ⟨x, rfl, fun hx => hNan (hx ▸ rfl), hHolds⟩

end Lost

/-! ## Rows that are lost -/

/-- Some texts and the numbers they denote as doubles. -/
def sampleNumbers : List (Bytes × PgNum) :=
  [(ascii "5", .fin 5), (ascii "05", .fin 5),
    (ascii "0.1", .fin (3602879701896397 / 36028797018963968)),
    (ascii "0.10000000149011612", .fin (13421773 / 134217728)),
    (ascii "+inf", .posInf), (ascii "-inf", .negInf), (ascii "NaN", .nan)]

def sampleNumber (text : Bytes) : Option PgNum := (sampleNumbers.find? (·.1 = text)).map Prod.snd

/-- Readings of the sample texts: a `real` column rounds 0.1 to single precision. -/
@[reducible] def sampleValues : Values where
  float8out q := ((sampleNumbers.find? (·.2 = .fin q)).map Prod.fst).getD []
  number := sampleNumber
  input type text :=
    if type = .float4 ∧ text = ascii "0.1" then some (.fin (13421773 / 134217728))
    else sampleNumber text
  equal _ text v := sampleNumber text = some v.number
  tagged text tag := text = tag

/-- A `double precision`, a `real` and an integer column, the last one a tag. -/
def sampleColumns : List IndexColumn :=
  [⟨.field, some .numeric, .float8, ascii "n"⟩, ⟨.field, some .numeric, .float4, ascii "r"⟩,
    ⟨.field, some .tag, .int4, ascii "t"⟩]

/-- A condition on one of the columns. -/
def sampleClause (attno : Int) (opname : String) (type : PgType) : List Restriction :=
  [.op ⟨some opname, [.var attno, .expr 0 type false], true⟩]

/-- The value of every bound. -/
def sampleBound (number : PgNum) (text : Bytes) : Operand → Option BoundDatum :=
  fun _ => some ⟨number, text⟩

def sampleDoc (field text : Bytes) : Document := fun f => if f = field then some text else none

/-- A document that satisfies a condition and is not found. -/
def SampleLost (clauses : List Restriction) (number : PgNum) (text : Bytes) (doc : Document) :
    Prop :=
  letI := sampleValues
  ∃ terms, filterCompile sampleColumns clauses = .ok terms ∧
    Satisfies sampleColumns (sampleBound number text) doc clauses ∧
    ¬Keeps doc (filterRender sampleColumns (sampleBound number text) terms)

/-- Everything is at most NaN, but nothing is asked; a stored NaN is above 5, but not
matched; a `real` column reads 0.1 as the number it is compared with, an integer column
reads 05 as 5, and neither text is matched. -/
theorem filter_loses_rows :
    SampleLost (sampleClause 1 "<=" .float8) .nan (ascii "NaN") (sampleDoc (ascii "n") (ascii "5")) ∧
    SampleLost (sampleClause 1 ">" .float8) (.fin 5) (ascii "5")
      (sampleDoc (ascii "n") (ascii "NaN")) ∧
    SampleLost (sampleClause 2 "=" .float4) (.fin (13421773 / 134217728)) (ascii "0.1")
      (sampleDoc (ascii "r") (ascii "0.1")) ∧
    SampleLost (sampleClause 3 "=" .int4) (.fin 5) (ascii "5")
      (sampleDoc (ascii "t") (ascii "05")) := by
  refine ⟨⟨_, rfl, ?_, ?_⟩, ⟨_, rfl, ?_, ?_⟩, ⟨_, rfl, ?_, ?_⟩, ⟨_, rfl, ?_, ?_⟩⟩
  · exact List.forall_mem_singleton.mpr ⟨_, rfl, by decide +kernel⟩
  · decide +kernel
  · exact List.forall_mem_singleton.mpr ⟨_, rfl, by decide +kernel⟩
  · decide +kernel
  · exact List.forall_mem_singleton.mpr ⟨_, rfl, by decide +kernel⟩
  · decide +kernel
  · exact List.forall_mem_singleton.mpr ⟨_, rfl, by decide +kernel⟩
  · decide +kernel

theorem filter_loses_nothing_five :
    letI := sampleValues
    Satisfies sampleColumns (sampleBound (.fin 5) (ascii "5")) (sampleDoc (ascii "n") (ascii "05"))
        (sampleClause 1 ">=" .float8) ∧
      ∃ terms, filterCompile sampleColumns (sampleClause 1 ">=" .float8) = .ok terms ∧
        Keeps (sampleDoc (ascii "n") (ascii "05"))
          (filterRender sampleColumns (sampleBound (.fin 5) (ascii "5")) terms) := by
  let _ := sampleValues
  have hSatisfies : Satisfies sampleColumns (sampleBound (.fin 5) (ascii "5"))
      (sampleDoc (ascii "n") (ascii "05")) (sampleClause 1 ">=" .float8) :=
    List.forall_mem_singleton.mpr ⟨_, rfl, by decide +kernel⟩
  have hReads : ReadsBack (sampleBound (.fin 5) (ascii "5")) := by
    refine ⟨by decide +kernel, by decide +kernel, ?_, ?_⟩
    · rintro o v q hv hq
      cases hv
      cases hq
      exact ⟨5, by decide +kernel⟩
    · rintro o v q hv hq
      cases hv
      cases hq
      decide +kernel
  refine ⟨hSatisfies, _, rfl,
    (filter_loses_nothing_iff sampleColumns _ _ rfl _ hReads _).mpr (fun _ => .inr ?_) hSatisfies⟩
  refine List.forall_mem_singleton.mpr ⟨?_, ?_⟩
  · rintro ⟨-, v, hv, hNan⟩
    cases hv
    cases hNan
  · intro v hv
    cases hv
    exact ⟨ascii "05", rfl, fun _ => ⟨.fin 5, by decide +kernel⟩, nofun⟩

end ValkeyFdw
