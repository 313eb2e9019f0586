import Mathlib.Data.List.Infix

/-!
# Over-fetching a nearest-neighbour search

A search asks the server for `k` ranked documents. A filter that matches more than the
query's own conditions may leave too few rows, and the search is then issued again for
more of the same ranking, with the rows that were given out already skipped. `step` is
one turn of the loop, `drive` the whole scan.

* `knn_overfetch_exact`: the scan returns the first `k` documents of the ranking that
  the query wants, or gives up at the limit, after a bounded number of searches.
-/

namespace ValkeyFdw

/-! ## The scan -/

/-- `VFDW_SEARCH_MAX_K`. -/
def searchMaxK : Nat := 65536

/-- What the plan settled about a search, and what it meets when it runs. -/
structure KnnQuery (δ : Type) where
  k : Nat
  /-- The filter says what the conditions say. -/
  exact : Bool
  /-- The answer to `FT.SEARCH` for some number of rows, or none when a bound makes the
  query unsatisfiable and nothing is asked. -/
  search : Nat → Option (List δ)
  wanted : δ → Bool

/-- The state of a scan between two rows. -/
structure KnnState (δ : Type) where
  fetchedK : Nat := 0
  ran : Bool := false
  empty : Bool := false
  reply : List δ := []
  row : Nat := 0
  returned : Nat := 0
  emitted : Nat := 0
  passSurvivors : Nat := 0
  searches : Nat := 0

/-- What becomes of a row of the reply. -/
inductive RowFate where
  | skip
  | emit
  | done

/-- What a spent reply leads to: the end, the limit, or another search. -/
inductive Grown (δ : Type) where
  | spent
  | gaveUp (rows : Nat)
  | more (s : KnnState δ)

/-- How a turn ends. -/
inductive KnnStep (δ : Type) where
  | emit (doc : δ) (s : KnnState δ)
  | again (s : KnnState δ)
  | done
  | raised (rows : Nat)

namespace KnnState

variable {δ : Type} (Q : KnnQuery δ)

/-- Send the search, unless it has run. The first pass asks for `k` rows. -/
def run (s : KnnState δ) : KnnState δ :=
  if s.ran then s
  else
    let fetchedK := if s.fetchedK = 0 then Q.k else s.fetchedK
    match Q.search fetchedK with
    | none => { s with fetchedK := fetchedK, empty := true, ran := true }
    | some docs =>
      { s with
        fetchedK := fetchedK
        reply := docs
        row := 0
        ran := true
        returned := docs.length
        searches := s.searches + 1 }

/-- How many rows the next search asks for. -/
def nextK (s : KnnState δ) : Nat :=
  if s.fetchedK < searchMaxK / 2 then s.fetchedK * 2 else searchMaxK

/-- Ask again, for more rows, when the last answer had too few survivors. -/
def grow (s : KnnState δ) : Grown δ :=
  if Q.exact ∨ Q.k ≤ s.emitted then .spent
  else if s.returned < s.fetchedK then .spent
  else if searchMaxK ≤ s.fetchedK then .gaveUp s.fetchedK
  else
    .more (run Q { s with fetchedK := s.nextK, ran := false, row := 0, passSurvivors := 0 })

/-- What becomes of one row of the reply. -/
def takeRow (s : KnnState δ) (doc : δ) : RowFate × KnnState δ :=
  if !Q.wanted doc then (.skip, s)
  else
    let s := { s with passSurvivors := s.passSurvivors + 1 }
    -- given out by an earlier pass
    if s.passSurvivors ≤ s.emitted then (.skip, s)
    else if Q.k ≤ s.emitted then (.done, s)
    else (.emit, { s with emitted := s.emitted + 1 })

/-- The turn that meets a row of the reply. -/
def rowStep (s : KnnState δ) (doc : δ) : KnnStep δ :=
  match takeRow Q { s with row := s.row + 1 } doc with
  | (.skip, s) => .again s
  | (.emit, s) => .emit doc s
  | (.done, _) => .done

/-- The turn that finds the reply spent. -/
def spentStep (s : KnnState δ) : KnnStep δ :=
  match s.grow Q with
  | .spent => .done
  | .gaveUp rows => .raised rows
  | .more s => .again s

/-- One turn of the loop. The search at its head is sent in the first turn only, since
it does nothing once it has run. -/
def step (s : KnnState δ) : KnnStep δ :=
  let s := s.run Q
  if s.empty then .done
  else
    match s.reply[s.row]? with
    | none => s.spentStep Q
    | some doc => s.rowStep Q doc

/-- The rows of a scan, the limit if it gave up, and the searches it sent. -/
structure Result (δ : Type) where
  rows : List δ
  gaveUp : Option Nat
  searches : Nat

/-- The scan from a state on, if it ends within the fuel. -/
def drive : Nat → KnnState δ → Option (Result δ)
  | 0, _ => none
  | fuel + 1, s =>
    match s.step Q with
    | .emit doc s => (drive fuel s).map fun r => { r with rows := doc :: r.rows }
    | .again s => drive fuel s
    | .done => some ⟨[], none, (s.run Q).searches⟩
    | .raised rows => some ⟨[], some rows, (s.run Q).searches⟩

end KnnState

/-! ## What the server answers -/

/-- The server ranks the documents and answers with the first of those that match the
filter. The filter matches what the query wants, and only that if it is exact. -/
structure KnnQuery.Ranks {δ : Type} (Q : KnnQuery δ) (ranking : List δ)
    (filter : Option (δ → Bool)) : Prop where
  nodup : ranking.Nodup
  search : ∀ K, Q.search K = filter.map fun f => (ranking.filter f).take K
  unsatisfiable : filter = none → ∀ d ∈ ranking, Q.wanted d = false
  superset : ∀ f, filter = some f → ∀ d ∈ ranking, Q.wanted d = true → f d = true
  exact : Q.exact = true → ∀ f, filter = some f → ∀ d ∈ ranking, f d = true → Q.wanted d = true

namespace KnnState

variable {δ : Type} {Q : KnnQuery δ} {ranking : List δ} {f : δ → Bool} {s : KnnState δ}
  {out : List δ}

/-! ## The invariant -/

/-- What holds in every state of a scan that has given out `out`: they are the first
survivors of the ranking, and the current pass has not come past them. -/
structure Ranked (Q : KnnQuery δ) (ranking : List δ) (f : δ → Bool) (s : KnnState δ)
    (out : List δ) : Prop where
  ran : s.ran = true
  notEmpty : s.empty = false
  reply : s.reply = (ranking.filter f).take s.fetchedK
  returned : s.returned = s.reply.length
  survivors : s.passSurvivors = ((s.reply.take s.row).filter Q.wanted).length
  skipping : s.passSurvivors ≤ s.emitted
  seen : s.emitted ≤ (s.reply.filter Q.wanted).length
  limit : s.emitted ≤ Q.k
  out : out = (ranking.filter Q.wanted).take s.emitted
  fetched : Q.k ≤ s.fetchedK
  once : Q.exact = true → s.fetchedK = Q.k
  searches : s.searches + (searchMaxK - s.fetchedK) ≤ 1 + (searchMaxK - Q.k)

theorem run_of_ran (h : s.ran = true) : s.run Q = s := by
  rw [run, if_pos h]

theorem filter_wanted (h : Q.Ranks ranking (some f)) :
    (ranking.filter f).filter Q.wanted = ranking.filter Q.wanted := by
  rw [List.filter_filter]
  refine List.filter_congr fun d hd => ?_
  have hSuperset := h.superset f rfl d hd
  cases hWanted : Q.wanted d with
  | false => rfl
  | true => rw [hSuperset hWanted]; rfl

theorem Ranked.takes_run (h : s.Ranked Q ranking f out) (hRanks : Q.Ranks ranking (some f)) (i : Nat) :
    (s.reply.take i).filter Q.wanted <+: ranking.filter Q.wanted := by
  rw [← filter_wanted hRanks, h.reply, List.take_take]
  exact (List.take_prefix _ _).filter _

theorem Ranked.take_survivors (h : s.Ranked Q ranking f out) (hRanks : Q.Ranks ranking (some f))
    (i : Nat) : (s.reply.take i).filter Q.wanted =
      (ranking.filter Q.wanted).take ((s.reply.take i).filter Q.wanted).length :=
  List.prefix_iff_eq_take.mp (h.takes_run hRanks i)

theorem Ranked.out_of_limit (h : s.Ranked Q ranking f out) (hLimit : Q.k ≤ s.emitted) :
    out = (ranking.filter Q.wanted).take Q.k := by
  rw [h.out, Nat.le_antisymm h.limit hLimit]

/-! ## One turn -/

/-- The measure of a scan: the searches it may still send, and the rows it has left. -/
def Less (s' s : KnnState δ) : Prop :=
  Prod.Lex (· < ·) (· < ·) (searchMaxK - s'.fetchedK, s'.reply.length - s'.row)
    (searchMaxK - s.fetchedK, s.reply.length - s.row)

/-- What a turn leaves: the invariant with less to do, or an end. -/
def Turned (Q : KnnQuery δ) (ranking : List δ) (f : δ → Bool) (s : KnnState δ) (out : List δ) :
    KnnStep δ → Prop
  | .emit doc s' => s'.Ranked Q ranking f (out ++ [doc]) ∧ s'.Less s
  | .again s' => s'.Ranked Q ranking f out ∧ s'.Less s
  | .done => out = (ranking.filter Q.wanted).take Q.k
  | .raised rows => searchMaxK ≤ rows

variable (h : s.Ranked Q ranking f out)

include h

theorem Ranked.take (hRanks : Q.Ranks ranking (some f)) {doc : δ}
    (hDoc : s.reply[s.row]? = some doc) : Turned Q ranking f s out (s.rowStep Q doc) := by
  have hRow : s.row < s.reply.length := (List.getElem?_eq_some_iff.mp hDoc).1
  have hLess : ∀ p e, Less { s with row := s.row + 1, passSurvivors := p, emitted := e } s :=
    fun _ _ => .right _ (show s.reply.length - (s.row + 1) < s.reply.length - s.row by omega)
  have hTake : s.reply.take (s.row + 1) = s.reply.take s.row ++ [doc] := by
    rw [List.take_add_one, hDoc]
    rfl
  unfold rowStep takeRow
  by_cases hWanted : Q.wanted doc = true
  · have hSurvivors : s.passSurvivors + 1 = ((s.reply.take (s.row + 1)).filter Q.wanted).length := by
      rw [hTake, List.filter_append, List.length_append, ← h.survivors]
      simp [hWanted]
    have hSeen : s.passSurvivors + 1 ≤ (s.reply.filter Q.wanted).length := by
      rw [hSurvivors]
      exact ((List.take_sublist _ _).filter _).length_le
    simp only [hWanted, Bool.not_true, Bool.false_eq_true, if_false]
    split_ifs with hSkip hLimit
    · exact ⟨⟨h.ran, h.notEmpty, h.reply, h.returned, hSurvivors, hSkip, h.seen, h.limit, h.out,
        h.fetched, h.once, h.searches⟩, hLess _ _⟩
    · exact h.out_of_limit hLimit
    · have hSync : s.passSurvivors = s.emitted :=
        Nat.le_antisymm h.skipping (Nat.lt_succ_iff.mp (not_le.mp hSkip))
      rw [hSync] at hSurvivors hSeen
      refine ⟨⟨h.ran, h.notEmpty, h.reply, h.returned, hSync ▸ hSurvivors, by simp [hSync], hSeen,
        not_le.mp hLimit, ?_, h.fetched, h.once, h.searches⟩, hLess _ _⟩
      -- The row is the survivor that follows those given out.
      have hFirst := h.take_survivors hRanks s.row
      have hNext := h.take_survivors hRanks (s.row + 1)
      rw [← h.survivors, hSync] at hFirst
      rw [← hSurvivors, hTake, List.filter_append, hFirst, ← h.out] at hNext
      simpa [hWanted] using hNext
  · have hSame : (s.reply.take (s.row + 1)).filter Q.wanted =
        (s.reply.take s.row).filter Q.wanted := by
      rw [hTake, List.filter_append]
      simp [hWanted]
    simp only [hWanted, Bool.not_false, if_true]
    exact ⟨⟨h.ran, h.notEmpty, h.reply, h.returned, h.survivors.trans (congrArg _ hSame.symm),
      h.skipping, h.seen, h.limit, h.out, h.fetched, h.once, h.searches⟩, hLess _ _⟩

theorem Ranked.spent (hRow : s.reply[s.row]? = none) :
    s.emitted = (s.reply.filter Q.wanted).length := by
  refine Nat.le_antisymm h.seen ?_
  have hSurvivors := h.survivors
  rw [List.take_of_length_le (List.getElem?_eq_none_iff.mp hRow)] at hSurvivors
  rw [← hSurvivors]
  exact h.skipping

/-- With the whole filtered ranking seen, everything that is wanted was given out. -/
theorem Ranked.exhausted (hRanks : Q.Ranks ranking (some f)) (hRow : s.reply[s.row]? = none)
    (hShort : s.returned < s.fetchedK) :
    out = (ranking.filter Q.wanted).take Q.k := by
  have hAll : s.reply = ranking.filter f := by
    have hLength := congrArg List.length h.reply
    rw [List.length_take] at hLength
    rw [h.reply, List.take_of_length_le]
    have := h.returned
    omega
  have hEmitted := h.spent hRow
  rw [hAll, filter_wanted hRanks] at hEmitted
  rw [h.out, List.take_of_length_le hEmitted.ge,
    List.take_of_length_le (hEmitted ▸ h.limit)]

theorem Ranked.refill (hRanks : Q.Ranks ranking (some f)) (hRow : s.reply[s.row]? = none) :
    Turned Q ranking f s out (s.spentStep Q) := by
  have hEmitted := h.spent hRow
  unfold spentStep KnnState.grow
  split_ifs with hDone hShort hMax
  · rcases hDone with hExact | hLimit
    · -- An exact filter leaves no row of the reply out.
      by_cases hShort : s.returned < s.fetchedK
      · exact h.exhausted hRanks hRow hShort
      · have hAll : s.reply.filter Q.wanted = s.reply := by
          refine List.filter_eq_self.mpr fun d hd => ?_
          rw [h.reply] at hd
          obtain ⟨hMem, hf⟩ := List.mem_filter.mp (List.mem_of_mem_take hd)
          exact hRanks.exact hExact f rfl d hMem hf
        rw [hAll, ← h.returned] at hEmitted
        have hK := h.once hExact
        exact h.out_of_limit (by omega)
    · exact h.out_of_limit hLimit
  · exact h.exhausted hRanks hRow hShort
  · exact hMax
  · rw [not_or] at hDone
    have hPositive : 0 < s.fetchedK := by
      have := h.fetched
      omega
    have hMore : s.fetchedK < s.nextK ∧ s.nextK ≤ searchMaxK := by
      unfold nextK
      split_ifs <;> omega
    have hSearch := hRanks.search s.nextK
    simp only [run, Bool.false_eq_true, if_false, show s.nextK ≠ 0 by omega, hSearch, Option.map_some]
    refine ⟨⟨rfl, h.notEmpty, rfl, rfl, rfl, Nat.zero_le _, ?_, h.limit, h.out, ?_, ?_, ?_⟩, ?_⟩
    · refine h.seen.trans ?_
      rw [h.reply]
      exact ((List.take_prefix_take_left hMore.1.le).filter _).length_le
    · exact h.fetched.trans hMore.1.le
    · exact fun hExact => absurd hExact hDone.1
    · have := h.searches
      show s.searches + 1 + (searchMaxK - s.nextK) ≤ _
      omega
    · exact .left _ _ (show searchMaxK - s.nextK < searchMaxK - s.fetchedK by omega)

theorem Ranked.step (hRanks : Q.Ranks ranking (some f)) :
    Turned Q ranking f s out (s.step Q) := by
  unfold KnnState.step
  rw [run_of_ran h.ran]
  simp only [h.notEmpty, Bool.false_eq_true, if_false]
  cases hRow : s.reply[s.row]? with
  | none => exact h.refill hRanks hRow
  | some doc => exact h.take hRanks hRow

omit h

/-! ## The scan -/

/-- What a scan that has given out `out` comes to. -/
structure Delivers (Q : KnnQuery δ) (ranking : List δ) (out : List δ) (r : Result δ) : Prop where
  searches : r.searches ≤ 1 + (searchMaxK - Q.k)
  finished : r.gaveUp = none → out ++ r.rows = (ranking.filter Q.wanted).take Q.k
  limited : ∀ rows, r.gaveUp = some rows → searchMaxK ≤ rows

theorem Ranked.drive {s : KnnState δ} {out : List δ} (h : s.Ranked Q ranking f out)
    (hRanks : Q.Ranks ranking (some f)) :
    ∃ fuel r, drive Q fuel s = some r ∧ Delivers Q ranking out r := by
  have hTurn := h.step hRanks
  have hSearches : (s.run Q).searches ≤ 1 + (searchMaxK - Q.k) := by
    have := h.searches
    rw [run_of_ran h.ran]
    omega
  cases hStep : s.step Q with
  | emit doc s' =>
    rw [hStep] at hTurn
    obtain ⟨hRanked, hLess⟩ := hTurn
    obtain ⟨fuel, r, hDrive, hResult⟩ := hRanked.drive hRanks
    refine ⟨fuel + 1, { r with rows := doc :: r.rows }, ?_, hResult.searches, fun hNone => ?_,
      hResult.limited⟩
    · simp only [KnnState.drive, hStep, hDrive, Option.map_some]
    · simpa using hResult.finished hNone
  | again s' =>
    rw [hStep] at hTurn
    obtain ⟨hRanked, hLess⟩ := hTurn
    obtain ⟨fuel, r, hDrive, hResult⟩ := hRanked.drive hRanks
    exact ⟨fuel + 1, r, by simp only [KnnState.drive, hStep, hDrive], hResult⟩
  | done =>
    rw [hStep] at hTurn
    refine ⟨1, ⟨[], none, (s.run Q).searches⟩, by simp only [KnnState.drive, hStep], hSearches,
      fun _ => ?_, nofun⟩
    exact (List.append_nil out).trans hTurn
  | raised rows =>
    rw [hStep] at hTurn
    refine ⟨1, ⟨[], some rows, (s.run Q).searches⟩, by simp only [KnnState.drive, hStep], hSearches,
      nofun, ?_⟩
    rintro _ ⟨⟩
    exact hTurn
termination_by (searchMaxK - s.fetchedK, s.reply.length - s.row)
decreasing_by all_goals exact hLess

theorem run_run (s : KnnState δ) : (s.run Q).run Q = s.run Q := by
  refine run_of_ran ?_
  unfold run
  by_cases hRan : s.ran = true
  · rwa [if_pos hRan]
  · rw [if_neg hRan]
    dsimp only
    cases Q.search (if s.fetchedK = 0 then Q.k else s.fetchedK) <;> rfl

theorem drive_run (fuel : Nat) (s : KnnState δ) : drive Q fuel (s.run Q) = drive Q fuel s := by
  cases fuel with
  | zero => rfl
  | succ fuel =>
    have hStep : (s.run Q).step Q = s.step Q := by simp only [KnnState.step, run_run]
    simp only [KnnState.drive, hStep, run_run]

theorem drive_add {fuel : Nat} {s : KnnState δ} {r : Result δ} (h : drive Q fuel s = some r)
    (more : Nat) : drive Q (fuel + more) s = some r := by
  induction fuel generalizing s r with
  | zero => cases h
  | succ fuel ih =>
    rw [Nat.succ_add]
    simp only [KnnState.drive] at h ⊢
    cases hStep : s.step Q with
    | emit doc s' =>
      rw [hStep] at h
      obtain ⟨r', hDrive, rfl⟩ := Option.map_eq_some_iff.mp h
      exact Option.map_eq_some_iff.mpr ⟨r', ih hDrive, rfl⟩
    | again s' =>
      rw [hStep] at h
      exact ih h
    | done => rwa [hStep] at h
    | raised rows => rwa [hStep] at h

theorem ranked_start (hRanks : Q.Ranks ranking (some f)) :
    (run Q ({} : KnnState δ)).Ranked Q ranking f [] := by
  have hRun : run Q ({} : KnnState δ) =
      { fetchedK := Q.k, ran := true, reply := (ranking.filter f).take Q.k,
        returned := ((ranking.filter f).take Q.k).length, searches := 1 } := by
    simp [run, hRanks.search]
  rw [hRun]
  exact ⟨rfl, rfl, rfl, rfl, rfl, Nat.le_refl 0, Nat.zero_le _, Nat.zero_le _, rfl, Nat.le_refl _,
    fun _ => rfl, Nat.le_refl _⟩

end KnnState

open KnnState

/-- A scan ends after a bounded number of searches, whatever fuel is left. It has returned
the first `k` documents of the ranking that the query wants, in order and each once, or
it has given up at the limit. -/
theorem knn_overfetch_exact {δ : Type} (Q : KnnQuery δ) (ranking : List δ)
    (filter : Option (δ → Bool)) (h : Q.Ranks ranking filter) :
    ∃ r, (∃ fuel, ∀ more, drive Q (fuel + more) {} = some r) ∧
      r.searches ≤ 1 + (searchMaxK - Q.k) ∧
      ((r.gaveUp = none ∧ r.rows = (ranking.filter Q.wanted).take Q.k ∧ r.rows.Nodup) ∨
        ∃ rows, r.gaveUp = some rows ∧ searchMaxK ≤ rows) := by
  have hNodup : ((ranking.filter Q.wanted).take Q.k).Nodup := (h.nodup.filter _).take
  cases filter with
  | none =>
    -- Nothing is asked, and nothing is wanted.
    have hNone : ranking.filter Q.wanted = [] :=
      List.filter_eq_nil_iff.mpr fun d hd => by simp [h.unsatisfiable rfl d hd]
    have hDrive : drive Q 1 {} = some ⟨[], none, 0⟩ := by
      simp [drive, step, run, h.search]
    refine ⟨_, ⟨1, drive_add hDrive⟩, Nat.zero_le _, .inl ⟨rfl, ?_, List.nodup_nil⟩⟩
    rw [hNone, List.take_nil]
  | some f =>
    obtain ⟨fuel, r, hDrive, hResult⟩ := (ranked_start h).drive h
    rw [drive_run] at hDrive
    refine ⟨r, ⟨fuel, drive_add hDrive⟩, hResult.searches, ?_⟩
    cases hGaveUp : r.gaveUp with
    | none =>
      have hRows := hResult.finished hGaveUp
      rw [List.nil_append] at hRows
      exact .inl ⟨rfl, hRows, hRows ▸ hNodup⟩
    | some rows => exact .inr ⟨rows, rfl, hResult.limited rows hGaveUp⟩

/-- The two nearest even numbers, with a filter that matches every number. -/
def twoEven : KnnQuery Nat where
  k := 2
  exact := false
  search K := some ([1, 2, 3, 4, 5].take K)
  wanted n := n % 2 = 0

example : drive twoEven 20 {} = some ⟨[2, 4], none, 2⟩ := rfl

theorem knn_overfetch_exact_twoEven :
    ∃ r, (∃ fuel, ∀ more, drive twoEven (fuel + more) {} = some r) ∧
      r.searches ≤ 1 + (searchMaxK - 2) ∧
      ((r.gaveUp = none ∧ r.rows = [2, 4] ∧ r.rows.Nodup) ∨
        ∃ rows, r.gaveUp = some rows ∧ searchMaxK ≤ rows) :=
  knn_overfetch_exact twoEven [1, 2, 3, 4, 5] (some fun _ => true)
    ⟨by decide, fun _ => rfl, nofun, fun _ h _ _ _ => by cases h; rfl, nofun⟩

end ValkeyFdw
