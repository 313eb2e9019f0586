import ValkeyFdw.Script.Encode
import ValkeyFdw.Search.Filter
import ValkeyFdw.Table.Render

/-!
# The text of a search

The filter, the number of rows and the vector field go into one text that the search
module parses; only the vector itself travels beside it. Field names and tag values come
from users, so a value with the punctuation of the language in it could change the query.
The wrapper does not escape. It refuses the names and leaves out the values.

`readSearch` reads the fragment of the language that the wrapper writes, and the text reads
back as what it was made of, whatever the bounds evaluate to (`rendered_text_reads_back`).
-/

namespace ValkeyFdw

/-! ## Writing -/

/-- `VFDW_SEARCH_DIST_ALIAS`. -/
def searchDistAlias : Bytes := ascii "__vfdw_distance"

/-- The query of `FT.SEARCH`: the filter, or a star where there is none, and the search. -/
def searchText (query : List QueryTerm) (k : Nat) (field : Bytes) : Bytes :=
  let filter := query.flatMap QueryTerm.spell
  (if filter = [] then ascii "*" else filter) ++ ascii "=>[KNN " ++ decimal k ++ ascii " @" ++
    field ++ ascii " $q AS " ++ searchDistAlias ++ ascii "]"

/-! ## Reading -/

/-- What stands before a byte, and what after it. -/
def cutAt (d : UInt8) : Bytes → Option (Bytes × Bytes)
  | [] => none
  | b :: s => if b = d then some ([], s) else (cutAt d s).map fun (a, r) => (b :: a, r)

def expect (word s : Bytes) : Option Bytes :=
  if word.isPrefixOf s then some (s.drop word.length) else none

/-- An end of a range; a parenthesis excludes it. -/
def readEnd : Bytes → RangeEnd
  | 0x28 :: text => ⟨text, true⟩
  | text => ⟨text, false⟩

def readRange (field s : Bytes) : Option (QueryTerm × Bytes) := do
  let (lo, s) ← cutAt 0x20 s
  let (hi, s) ← cutAt 0x5d s
  let s ← expect (ascii " ") s
  return (.range field (readEnd lo) (readEnd hi), s)

def readTag (field s : Bytes) : Option (QueryTerm × Bytes) := do
  let (text, s) ← cutAt 0x7d s
  let s ← expect (ascii " ") s
  return (.tag field text, s)

def readTerm (s : Bytes) : Option (QueryTerm × Bytes) := do
  let s ← expect (ascii "@") s
  let (field, s) ← cutAt 0x3a s
  match s with
  | 0x5b :: s => readRange field s
  | 0x7b :: s => readTag field s
  | _ => none

/-- As many terms as there are. -/
def readTerms : Nat → Bytes → List QueryTerm × Bytes
  | 0, s => ([], s)
  | fuel + 1, s =>
    match readTerm s with
    | some (term, s) => ((readTerms fuel s).1.cons term, (readTerms fuel s).2)
    | none => ([], s)

/-- The filter is a star or at least one term. -/
def readFilter (s : Bytes) : Option (List QueryTerm × Bytes) :=
  match s with
  | 0x2a :: s => some ([], s)
  | s => if (readTerms s.length s).1 = [] then none else some (readTerms s.length s)

/-- What the search module makes of a text. -/
def readSearch (s : Bytes) : Option (List QueryTerm × Nat × Bytes) := do
  let (query, s) ← readFilter s
  let s ← expect (ascii "=>[KNN ") s
  let (number, s) ← cutAt 0x20 s
  let k ← readNat number
  let s ← expect (ascii "@") s
  let (field, s) ← cutAt 0x20 s
  let s ← expect (ascii "$q AS " ++ searchDistAlias ++ ascii "]") s
  if s = [] then some (query, k, field) else none

/-! ## Both ways -/

@[simp] theorem cutAt_append {d : UInt8} {a : Bytes} (h : d ∉ a) (r : Bytes) :
    cutAt d (a ++ d :: r) = some (a, r) := by
  induction a with
  | nil => simp [cutAt]
  | cons b a ih =>
    rw [List.mem_cons, not_or] at h
    rw [List.cons_append, cutAt, if_neg (Ne.symm h.1), ih h.2]
    rfl

@[simp] theorem expect_append (word r : Bytes) : expect word (word ++ r) = some r := by
  simp [expect]

/-- A text that can stand as the end of a range. -/
structure RangeEnd.Plain (e : RangeEnd) : Prop where
  space : (0x20 : UInt8) ∉ e.text
  bracket : (0x5d : UInt8) ∉ e.text
  parenthesis : (0x28 : UInt8) ∉ e.text

/-- A term whose parts hold none of the bytes that end them. -/
def QueryTerm.Plain : QueryTerm → Prop
  | .range field lo hi => filterNameIsSafe field = true ∧ lo.Plain ∧ hi.Plain
  | .tag field text => filterNameIsSafe field = true ∧ (0x7d : UInt8) ∉ text

theorem not_mem_of_all {p : UInt8 → Bool} {s : Bytes} (h : s.all p = true) {d : UInt8}
    (hd : p d = false) : d ∉ s := by
  intro hMem
  have hTrue := List.all_eq_true.mp h d hMem
  rw [hd] at hTrue
  cases hTrue

theorem not_mem_of_nameIsSafe {name : Bytes} (h : filterNameIsSafe name = true) {d : UInt8}
    (hd : safeByte d = false) : d ∉ name := by
  rw [filterNameIsSafe, Bool.and_eq_true] at h
  exact not_mem_of_all h.2 hd

section Ends

variable {e : RangeEnd}

theorem RangeEnd.Plain.readEnd_spell (h : e.Plain) : readEnd e.spell = e := by
  obtain ⟨text, exclusive⟩ := e
  cases exclusive with
  | true => rfl
  | false =>
    cases text with
    | nil => rfl
    | cons b text =>
      have hb : b ≠ 0x28 := by
        rintro rfl
        exact h.parenthesis List.mem_cons_self
      simp only [RangeEnd.spell, Bool.false_eq_true, if_false, List.nil_append]
      unfold readEnd
      split
      · rename_i hCons
        cases hCons
        exact absurd rfl hb
      · rfl

theorem RangeEnd.Plain.not_mem_spell (h : e.Plain) :
    (0x20 : UInt8) ∉ e.spell ∧ (0x5d : UInt8) ∉ e.spell := by
  have hOpen : ∀ d : UInt8, d ≠ 0x28 → d ∉ e.text → d ∉ e.spell := by
    intro d hd hText
    rw [RangeEnd.spell, List.mem_append, not_or]
    refine ⟨?_, hText⟩
    split
    · simpa [ascii] using hd
    · exact List.not_mem_nil
  exact ⟨hOpen _ (by decide) h.space, hOpen _ (by decide) h.bracket⟩

end Ends

theorem readTerm_spell {term : QueryTerm} (h : term.Plain) (r : Bytes) :
    readTerm (term.spell ++ r) = some (term, r) := by
  cases term with
  | range field lo hi =>
    obtain ⟨hField, hLo, hHi⟩ := h
    have hSpell : (QueryTerm.range field lo hi).spell ++ r = ascii "@" ++ (field ++ 0x3a ::
        0x5b :: (lo.spell ++ 0x20 :: (hi.spell ++ 0x5d :: (ascii " " ++ r)))) := by
      simp [QueryTerm.spell, ascii]
    have hName : (0x3a : UInt8) ∉ field := not_mem_of_nameIsSafe hField rfl
    simp only [hSpell, readTerm, readRange, expect_append, cutAt_append hName,
      cutAt_append hLo.not_mem_spell.1, cutAt_append hHi.not_mem_spell.2, hLo.readEnd_spell,
      hHi.readEnd_spell, Option.bind_eq_bind, Option.bind_some, Option.pure_def]
  | tag field text =>
    obtain ⟨hField, hText⟩ := h
    have hSpell : (QueryTerm.tag field text).spell ++ r = ascii "@" ++ (field ++ 0x3a ::
        0x7b :: (text ++ 0x7d :: (ascii " " ++ r))) := by
      simp [QueryTerm.spell, ascii]
    have hName : (0x3a : UInt8) ∉ field := not_mem_of_nameIsSafe hField rfl
    simp only [hSpell, readTerm, readTag, expect_append, cutAt_append hName, cutAt_append hText,
      Option.bind_eq_bind, Option.bind_some, Option.pure_def]

theorem readTerm_arrow (r : Bytes) : readTerm (ascii "=>[KNN " ++ r) = none := by
  simp [readTerm, expect, ascii]

variable {query : List QueryTerm} {cols : List IndexColumn} {col : IndexColumn}

theorem readTerms_spell (h : ∀ term ∈ query, term.Plain) {fuel : Nat} (hFuel : query.length < fuel)
    (r : Bytes) :
    readTerms fuel (query.flatMap QueryTerm.spell ++ (ascii "=>[KNN " ++ r)) =
      (query, ascii "=>[KNN " ++ r) := by
  induction query generalizing fuel with
  | nil =>
    obtain ⟨fuel, rfl⟩ := Nat.exists_eq_succ_of_ne_zero (Nat.ne_of_gt hFuel)
    rw [List.flatMap_nil, List.nil_append, readTerms, readTerm_arrow]
  | cons term query ih =>
    rw [List.forall_mem_cons] at h
    obtain ⟨fuel, rfl⟩ := Nat.exists_eq_succ_of_ne_zero (Nat.ne_zero_of_lt hFuel)
    rw [List.flatMap_cons, List.append_assoc, readTerms, readTerm_spell h.1]
    dsimp only
    rw [ih h.2 (by simpa using hFuel)]

theorem length_le_flatMap_spell (query : List QueryTerm) :
    query.length ≤ (query.flatMap QueryTerm.spell).length := by
  induction query with
  | nil => exact Nat.le_refl 0
  | cons term query ih =>
    have hSpell : 0 < term.spell.length := by
      cases term <;> simp [QueryTerm.spell, ascii]
    rw [List.flatMap_cons, List.length_append, List.length_cons]
    omega

theorem readFilter_spell (h : ∀ term ∈ query, term.Plain) (r : Bytes) :
    readFilter ((if query.flatMap QueryTerm.spell = [] then ascii "*"
      else query.flatMap QueryTerm.spell) ++ (ascii "=>[KNN " ++ r)) =
        some (query, ascii "=>[KNN " ++ r) := by
  cases query with
  | nil => rfl
  | cons term query =>
    obtain ⟨rest, hSpell⟩ : ∃ rest, term.spell = 0x40 :: rest := by
      cases term <;> exact ⟨_, rfl⟩
    have hSome : (term :: query).flatMap QueryTerm.spell ≠ [] := by
      simp [List.flatMap_cons, hSpell]
    have hFuel : (term :: query).length <
        ((term :: query).flatMap QueryTerm.spell ++ (ascii "=>[KNN " ++ r)).length := by
      have hLe := length_le_flatMap_spell (term :: query)
      have hArrow : (ascii "=>[KNN ").length = 7 := rfl
      rw [List.length_append, List.length_append, hArrow]
      omega
    rw [if_neg hSome]
    unfold readFilter
    split
    · rename_i hStar
      rw [List.flatMap_cons, hSpell] at hStar
      cases hStar
    · rw [readTerms_spell h hFuel, if_neg (by simp)]

theorem decimal_plain (n : Nat) {d : UInt8} (hd : isDigit d = false) : d ∉ decimal n := by
  intro hMem
  obtain ⟨c, hc, rfl⟩ := List.mem_map.mp hMem
  have hDigit := Nat.isDigit_of_mem_toDigits (by omega) (by omega) hc
  simp only [Char.isDigit, Bool.and_eq_true, decide_eq_true_eq] at hDigit
  have hLow : 48 ≤ c.toNat := UInt32.le_iff_toNat_le.mp hDigit.1
  have hHigh : c.toNat ≤ 57 := UInt32.le_iff_toNat_le.mp hDigit.2
  simp only [isDigit, Bool.and_eq_false_iff, decide_eq_false_iff_not, UInt8.le_iff_toNat_le,
    UInt8.toNat_ofNat', UInt8.reduceToNat] at hd
  omega

/-- What a search is made of is read from its text. -/
theorem readSearch_searchText (h : ∀ term ∈ query, term.Plain) (k : Nat) {field : Bytes}
    (hField : filterNameIsSafe field = true) :
    readSearch (searchText query k field) = some (query, k, field) := by
  have hText : searchText query k field =
      (if query.flatMap QueryTerm.spell = [] then ascii "*" else query.flatMap QueryTerm.spell) ++
        (ascii "=>[KNN " ++ (decimal k ++ 0x20 :: (ascii "@" ++ (field ++ 0x20 ::
          ((ascii "$q AS " ++ searchDistAlias ++ ascii "]") ++ []))))) := by
    simp [searchText, ascii]
  have hName : (0x20 : UInt8) ∉ field := not_mem_of_nameIsSafe hField rfl
  have hDecimal : (0x20 : UInt8) ∉ decimal k := decimal_plain k rfl
  simp only [hText, readSearch, readFilter_spell h, expect_append, cutAt_append hDecimal,
    readNat_decimal, cutAt_append hName, Option.bind_eq_bind, Option.bind_some, if_true]

/-! ## What the wrapper writes -/

/-- The bytes of a printed number. -/
def numberByte (b : UInt8) : Bool :=
  isDigit b || b = 0x2e || b = 0x65 || b = 0x2b || b = 0x2d

/-- A comparison is of the column that one side is, where the other side is none. -/
theorem comparison_column {opname : Option String} {l r : Operand} {boolean : Bool} {c : Comparison}
    (h : (Restriction.op ⟨opname, [l, r], boolean⟩).comparison cols = some c)
    (hSide : l.column cols = some col ∧ r.column cols = none ∨
      r.column cols = some col ∧ l.column cols = none) : c.col = col := by
  unfold Restriction.comparison at h
  split at h
  · rename_i hOp
    cases hOp
    rcases hSide with ⟨hCol, hNone⟩ | ⟨hCol, hNone⟩
    · simp only [hCol, hNone, Option.some.injEq] at h
      rw [← h]
    · simp only [hCol, hNone, Option.some.injEq] at h
      rw [← h]
  · cases h

/-- The column of a condition that compiles: its name is safe, and a number survives in it
if it is numeric. -/
def IndexColumn.Pushable (col : IndexColumn) : Prop :=
  filterNameIsSafe col.field = true ∧
    (col.indexType = some .numeric → filterTypeIsExact col.typid = true)

theorem pushable_of_numericField {o : Operand} (h : filterNumericField cols o = some col) :
    col.Pushable := by
  have hIs := (Option.filter_eq_some_iff.mp h).2
  simp only [Bool.and_eq_true] at hIs
  exact ⟨hIs.2, fun _ => hIs.1.2⟩

theorem pushable_of_tagField {o : Operand} (h : filterTagField cols o = some col) :
    col.Pushable := by
  have hIs := (Option.filter_eq_some_iff.mp h).2
  simp only [Bool.and_eq_true] at hIs
  refine ⟨hIs.2, fun hNumeric => ?_⟩
  simp [hNumeric] at hIs

theorem filterOne_pushable {clause : Restriction} {term : FilterTerm}
    (h : filterOne cols clause = some term) :
    ∃ c, clause.comparison cols = some c ∧ term.Compiles cols c ∧ c.col.Pushable := by
  obtain ⟨c, hc, hCompiles⟩ := filterOne_eq_some h
  refine ⟨c, hc, hCompiles, ?_⟩
  obtain ⟨opname, args, boolean⟩ | _ := clause
  · unfold filterOne at h
    dsimp only at h
    split at h
    · split at h
      · cases h
      · split at h
        · rename_i hField
          obtain ⟨hCol, hOf⟩ := filterNumericField_eq_some hField
          rw [comparison_column hc (.inl ⟨hCol, (filterRangeTerm_compiles hOf h).1⟩)]
          exact pushable_of_numericField hField
        · rename_i hField
          obtain ⟨hCol, hOf⟩ := filterNumericField_eq_some hField
          rw [comparison_column hc (.inr ⟨hCol, (filterRangeTerm_compiles hOf h).1⟩)]
          exact pushable_of_numericField hField
        · split at h
          · rename_i hField
            obtain ⟨hCol, hOf⟩ := filterTagField_eq_some hField
            have hNone := (@filterTagTerm_compiles cols _ _ _ _ true hOf h).1
            rw [comparison_column hc (.inl ⟨hCol, hNone⟩)]
            exact pushable_of_tagField hField
          · rename_i hField
            obtain ⟨hCol, hOf⟩ := filterTagField_eq_some hField
            have hNone := (@filterTagTerm_compiles cols _ _ _ _ false hOf h).1
            rw [comparison_column hc (.inr ⟨hCol, hNone⟩)]
            exact pushable_of_tagField hField
          · cases h
    · cases h
  · cases h

/-- Every condition of a query that compiles has such a column. -/
theorem filterCompile_mem {clauses : List Restriction} {terms : List FilterTerm}
    (h : filterCompile cols clauses = .ok terms) {c : Comparison}
    (hc : c ∈ comparisons cols clauses) :
    ∃ term : FilterTerm, term.Compiles cols c ∧ c.col.Pushable := by
  obtain ⟨clause, hClause, hComparison⟩ := List.mem_filterMap.mp hc
  obtain ⟨i, hi⟩ := List.mem_iff_getElem?.mp hClause
  obtain ⟨term, -, hOne⟩ := (Trace.mapM_ok_getElem?.mp h).2 i clause hi
  split at hOne
  · rename_i hTerm
    obtain ⟨c', hc', hCompiles⟩ := filterOne_pushable hTerm
    cases hComparison.symm.trans hc'
    exact ⟨_, hCompiles⟩
  · cases hOne

section Rendered

variable [Values]

/-- PostgreSQL prints a finite number with digits, a point, an exponent and signs. -/
def PrintsNumbers : Prop := ∀ q, (Values.float8out q).all numberByte = true

theorem filterBoundText_plain (hPrints : PrintsNumbers) {v : BoundDatum} {type : PgType}
    {num : Bytes} (h : filterBoundText v type = .ok (some num)) (exclusive : Bool) :
    (⟨num, exclusive⟩ : RangeEnd).Plain := by
  have hEnd : ∀ {text : Bytes}, ((0x20 : UInt8) ∉ text ∧ (0x5d : UInt8) ∉ text ∧
      (0x28 : UInt8) ∉ text) → (⟨text, exclusive⟩ : RangeEnd).Plain :=
    fun h => ⟨h.1, h.2.1, h.2.2⟩
  unfold filterBoundText at h
  split at h
  · split at h
    · cases h
    · cases h
      exact hEnd (by decide)
    · cases h
      exact hEnd (by decide)
    · rename_i q _
      cases h
      exact hEnd ⟨not_mem_of_all (hPrints q) rfl, not_mem_of_all (hPrints q) rfl,
        not_mem_of_all (hPrints q) rfl⟩
  · cases h

variable {cols : List IndexColumn}

theorem filterRenderTerm_plain (hPrints : PrintsNumbers) {term : FilterTerm}
    (hField : filterNameIsSafe term.field = true) {v : Option BoundDatum} {query : List QueryTerm}
    (h : filterRenderTerm cols term v = .ok (some query)) :
    ∀ t ∈ query, t.Plain := by
  cases v with
  | none => cases h
  | some v =>
    unfold filterRenderTerm at h
    dsimp only at h
    split at h
    · cases h
      unfold filterRenderTag
      split
      · rename_i hSafe
        exact List.forall_mem_singleton.mpr ⟨hField, not_mem_of_all hSafe rfl⟩
      · exact fun t ht => absurd ht List.not_mem_nil
    · unfold filterRenderRange at h
      split at h
      · cases h
      · cases h
      · rename_i num hText
        split at h
        · cases h
        · cases h
          have hInf : (⟨ascii "+inf", false⟩ : RangeEnd).Plain ∧
              (⟨ascii "-inf", false⟩ : RangeEnd).Plain := by
            constructor <;> constructor <;> decide
          have hNum := filterBoundText_plain hPrints hText
          refine List.forall_mem_singleton.mpr ?_
          unfold FilterTerm.range
          split
          · exact ⟨hField, hNum false, hNum false⟩
          · split
            · exact ⟨hField, hNum _, hInf.1⟩
            · exact ⟨hField, hInf.2, hNum _⟩

theorem filterRender_plain (hPrints : PrintsNumbers) {env : Operand → Option BoundDatum}
    {terms : List FilterTerm} (hFields : ∀ term ∈ terms, filterNameIsSafe term.field = true)
    {query : List QueryTerm} (h : filterRender cols env terms = .ok (some query)) :
    ∀ t ∈ query, t.Plain := by
  induction terms generalizing query with
  | nil =>
    cases h
    exact fun t ht => absurd ht List.not_mem_nil
  | cons term terms ih =>
    rw [List.forall_mem_cons] at hFields
    unfold filterRender at h
    split at h
    · cases h
    · cases h
    · rename_i first hFirst
      cases hRest : filterRender cols env terms with
      | error e =>
        rw [hRest] at h
        cases h
      | ok rest =>
        rw [hRest] at h
        cases rest with
        | none => cases h
        | some rest =>
          cases h
          exact List.forall_mem_append.mpr
            ⟨filterRenderTerm_plain hPrints hFields.1 hFirst, ih hFields.2 hRest⟩

omit [Values] in
theorem filterCompile_safe {clauses : List Restriction} {terms : List FilterTerm}
    (h : filterCompile cols clauses = .ok terms) :
    ∀ term ∈ terms, filterNameIsSafe term.field = true := by
  intro term hTerm
  obtain ⟨clause, -, hOne⟩ := Trace.exists_of_mapM_ok h hTerm
  split at hOne
  · rename_i hSome
    cases hOne
    obtain ⟨c, -, hCompiles, hPushable⟩ := filterOne_pushable hSome
    exact hCompiles.field ▸ hPushable.1
  · cases hOne

/-- Whatever the bounds evaluate to: the text of a search reads back as the terms that were
rendered, the number of rows and the field. -/
theorem rendered_text_reads_back (hPrints : PrintsNumbers) {cols : List IndexColumn}
    {clauses : List Restriction} {terms : List FilterTerm}
    (hCompile : filterCompile cols clauses = .ok terms) (env : Operand → Option BoundDatum)
    {query : List QueryTerm} (hRender : filterRender cols env terms = .ok (some query)) (k : Nat)
    {field : Bytes} (hField : filterNameIsSafe field = true) :
    readSearch (searchText query k field) = some (query, k, field) :=
  readSearch_searchText (filterRender_plain hPrints (filterCompile_safe hCompile) hRender) k hField

end Rendered

theorem sampleValues_prints : letI := sampleValues; PrintsNumbers := by
  let _ := sampleValues
  intro q
  change (((sampleNumbers.find? (·.2 = .fin q)).map Prod.fst).getD []).all numberByte = true
  cases hFind : sampleNumbers.find? (·.2 = .fin q) with
  | none => rfl
  | some x =>
    have hMem := List.mem_of_find?_eq_some hFind
    have hFin : x.2 = .fin q := by simpa using List.find?_some hFind
    simp only [sampleNumbers, List.mem_cons, List.not_mem_nil, or_false] at hMem
    rcases hMem with rfl | rfl | rfl | rfl | rfl | rfl | rfl
    · rfl
    · rfl
    · rfl
    · rfl
    · cases hFin
    · cases hFin
    · cases hFin

/-- A tag that would close its braces and add a range is left out. -/
theorem rendered_text_reads_back_braces :
    letI := sampleValues
    let clauses := sampleClause 3 "=" .text ++ sampleClause 1 ">=" .float8
    let env := sampleBound (.fin 5) (ascii "x\x7d @n:[-inf +inf")
    let query := [QueryTerm.range (ascii "n") ⟨ascii "5", false⟩ ⟨ascii "+inf", false⟩]
    (∃ terms, filterCompile sampleColumns clauses = .ok terms ∧
      filterRender sampleColumns env terms = .ok (some query)) ∧
      readSearch (searchText query 3 (ascii "v")) = some (query, 3, ascii "v") := by
  let _ := sampleValues
  refine ⟨⟨_, rfl, by decide +kernel⟩, ?_⟩
  have hCompile : filterCompile sampleColumns
      (sampleClause 3 "=" .text ++ sampleClause 1 ">=" .float8) = .ok _ := rfl
  exact rendered_text_reads_back sampleValues_prints hCompile
    (sampleBound (.fin 5) (ascii "x\x7d @n:[-inf +inf")) (by decide +kernel) 3 (by decide)

end ValkeyFdw
