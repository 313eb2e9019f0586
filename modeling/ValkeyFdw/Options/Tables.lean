import ValkeyFdw.Options.Readers

/-!
# Tables past the validator

The validator looks at a table's options for combinations that the map refuses too. It
reads them by their texts, the map by its own parsers, and the two readings have to agree:
`foldTableOptions_agrees` follows them over one list. What the validator then leaves to
the map's check is `checkTableOptions_of_checks`.
-/

namespace ValkeyFdw.Options

/-! ## Definitions from options -/

/-- An attribute of the relation. -/
structure Attribute where
  isDropped : Bool := false
  type : ColType := .other
  isDomain : Bool := false
  options : OptionList

/-- The column as its options define it; the map reads nothing of a dropped one. -/
def Attribute.columnDef (a : Attribute) : Except OptionError ColumnDef :=
  if a.isDropped then .ok { isDropped := true }
  else (foldColumnOptions a.options).map fun o =>
    { type := a.type, isDomain := a.isDomain, key := o.key, member := o.member, score := o.score,
      ttl := o.ttl, position := o.position, distance := o.distance, field := o.field }

/-- A foreign table as its options define it. -/
def tableDef (relid : Nat) (options : OptionList) (atts : List Attribute) :
    Except OptionError TableDef := do
  let t ← foldTableOptions options
  let columns ← atts.mapM Attribute.columnDef
  return { relid := relid, tabletype := t.tabletype, keyprefix := t.keyprefix,
           keyset := t.keyset, singletonKey := t.singletonKey, searchIndex := t.searchIndex,
           legacyValue := t.legacyValue, readonly := t.readonly, columns := columns }

/-! ## Two readings of one list -/

/-- The text that names a table type. -/
def typeText : TableType → Bytes
  | .string => ascii "string"
  | .hash => ascii "hash"
  | .list => ascii "list"
  | .set => ascii "set"
  | .zset => ascii "zset"
  | .vector => ascii "vector"

theorem typeText_tableTypeAt {i : Nat} {value : Bytes} (h : tabletypeValues[i]? = some value) :
    typeText (tableTypeAt i) = value := by
  obtain ⟨hi, rfl⟩ := List.getElem?_eq_some_iff.mp h
  have hAll : ∀ j (hj : j < tabletypeValues.length), typeText (tableTypeAt j) =
      tabletypeValues.get ⟨j, hj⟩ := by decide
  exact hAll i hi

/-- What the map has read, and what the validator gathered, of the options of these names. -/
structure TableOptions.Agrees (t : TableOptions) (s : Shape) (names : List Bytes) : Prop where
  tabletype : typeText t.tabletype = s.tabletype.getD (ascii "string")
  unnamed : s.tabletype = none → ascii "tabletype" ∉ names
  legacy : t.legacyValue = s.legacy
  indexed : t.searchIndex.isSome = s.indexed
  singletonKey : t.singletonKey.isSome → ascii "singleton_key" ∈ names
  keyprefix : t.keyprefix.isSome → ascii "keyprefix" ∈ names
  keyset : t.keyset.isSome → ascii "keyset" ∈ names

theorem TableOptions.Agrees.skip {t : TableOptions} {s : Shape} {names : List Bytes}
    (h : t.Agrees s names) {name : Bytes} (hName : name ≠ ascii "tabletype") :
    t.Agrees s (name :: names) where
  tabletype := h.tabletype
  unnamed hNone := List.not_mem_cons_of_ne_of_not_mem hName.symm (h.unnamed hNone)
  legacy := h.legacy
  indexed := h.indexed
  singletonKey hSome := List.mem_cons_of_mem _ (h.singletonKey hSome)
  keyprefix hSome := List.mem_cons_of_mem _ (h.keyprefix hSome)
  keyset hSome := List.mem_cons_of_mem _ (h.keyset hSome)

theorem applyTableOption_agrees {d : OptionDef} (hd : d ∈ tableDefs) {value : Bytes}
    (hValue : d.validateValue value = .ok ()) {t : TableOptions} {s s' : Shape}
    {names : List Bytes} (h : t.Agrees s names) (hAdd : s.add d.name value = .ok s') :
    ∃ t', applyTableOption d value t = .ok t' ∧ t'.Agrees s' (d.name :: names) := by
  simp only [tableDefs, List.mem_cons, List.not_mem_nil, or_false] at hd
  rcases hd with rfl | rfl | rfl | rfl | rfl | rfl | rfl | rfl
  · obtain ⟨n, hn, -⟩ := validateValue_int rfl hValue
    cases hAdd
    exact ⟨_, congrArg (Except.map _) hn, { h.skip (by decide) with }⟩
  · obtain ⟨i, hi, hAt⟩ := validateValue_enum rfl hValue
    cases hAdd
    refine ⟨_, congrArg (Except.map _) hi, ?_⟩
    exact { h with
      tabletype := typeText_tableTypeAt hAt
      unnamed := nofun
      singletonKey := fun hSome => List.mem_cons_of_mem _ (h.singletonKey hSome)
      keyprefix := fun hSome => List.mem_cons_of_mem _ (h.keyprefix hSome)
      keyset := fun hSome => List.mem_cons_of_mem _ (h.keyset hSome) }
  · cases hAdd
    exact ⟨_, rfl, { h.skip (by decide) with keyprefix := fun _ => List.mem_cons_self }⟩
  · cases hAdd
    exact ⟨_, rfl, { h.skip (by decide) with keyset := fun _ => List.mem_cons_self }⟩
  · cases hAdd
    exact ⟨_, rfl, { h.skip (by decide) with singletonKey := fun _ => List.mem_cons_self }⟩
  · cases hAdd
    exact ⟨_, rfl, { h.skip (by decide) with indexed := rfl }⟩
  · obtain ⟨b, hb⟩ := map_eq_ok hAdd
    cases hAdd.symm.trans (congrArg (Except.map _) hb)
    have hParsed : (OptionDef.ofBool .table "legacy_value" "false").parseBool value = .ok b := by
      rw [OptionDef.parseBool, parseBool_of_defGetBoolean hb]
    exact ⟨_, congrArg (Except.map _) hParsed, { h.skip (by decide) with legacy := rfl }⟩
  · obtain ⟨b, hb⟩ := validateValue_bool rfl hValue
    cases hAdd
    exact ⟨_, congrArg (Except.map _) hb, { h.skip (by decide) with }⟩

theorem readOptions_agrees {superuser : Bool} {rest : OptionList} {start s : Shape}
    {t : TableOptions} {names : List Bytes} (hValid : Validated superuser .table rest)
    (hGather : start.gather rest = .ok s) (hAgrees : t.Agrees start names) :
    ∃ t', readOptions .table applyTableOption rest t = .ok t' ∧
      t'.Agrees s ((rest.map Prod.fst).reverse ++ names) := by
  induction rest generalizing start t names with
  | nil =>
    cases hGather
    exact ⟨t, rfl, hAgrees⟩
  | cons x rest ih =>
    obtain ⟨s₁, hAdd, hGather⟩ := Trace.bind_ok.mp hGather
    obtain ⟨d, hFind, hOption⟩ := hValid.known x List.mem_cons_self
    rw [← (findOption_spec hFind).2.2] at hAdd
    obtain ⟨t₁, ht₁, hAgrees₁⟩ := applyTableOption_agrees (mem_defsOf hFind)
      (value_of_validateOption hOption) hAgrees hAdd
    rw [(findOption_spec hFind).2.2] at hAgrees₁
    obtain ⟨t', ht', hEnd⟩ := ih hValid.tail hGather hAgrees₁
    refine ⟨t', ?_, by simpa using hEnd⟩
    unfold readOptions
    simp only [hFind, ht₁]
    exact ht'

theorem foldTableOptions_agrees {superuser : Bool} {options : OptionList}
    (hValid : Validated superuser .table options) {s : Shape}
    (hGather : Shape.gather {} options = .ok s) :
    ∃ t, foldTableOptions options = .ok t ∧ t.Agrees s (options.map Prod.fst).reverse := by
  have hStart : TableOptions.Agrees {} {} [] :=
    ⟨rfl, fun _ => List.not_mem_nil, rfl, rfl, nofun, nofun, nofun⟩
  obtain ⟨t, ht, hAgrees⟩ := readOptions_agrees hValid hGather hStart
  rw [List.append_nil] at hAgrees
  exact ⟨t, ht, hAgrees⟩

/-! ## The map's check -/

/-- A list that the check of the key options passes names no two of them. -/
theorem not_both_of_checkKeyOptions {options : OptionList} (h : checkKeyOptions options = .ok ())
    {a b : Bytes} (ha : a ∈ exclusiveKeys) (hb : b ∈ exclusiveKeys) (hNe : a ≠ b) :
    ¬(a ∈ options.map Prod.fst ∧ b ∈ options.map Prod.fst) := by
  rintro ⟨haMem, hbMem⟩
  simp only [checkKeyOptions] at h
  split at h
  · cases h
  · rename_i hOne
    have hKept : [a, b] ⊆ (options.map Prod.fst).filter (· ∈ exclusiveKeys) :=
      List.cons_subset.mpr ⟨List.mem_filter.mpr ⟨haMem, by simpa using ha⟩,
        List.cons_subset.mpr ⟨List.mem_filter.mpr ⟨hbMem, by simpa using hb⟩, List.nil_subset _⟩⟩
    have hTwo := (List.subperm_of_subset (by simpa using hNe) hKept).length_le
    exact hOne hTwo

/-- The checks of the validator for a table leave the map one refusal of its own: a packed
string, where the type is left to its default. -/
theorem checkTableOptions_of_checks {superuser : Bool} {options : OptionList}
    (h : Validated superuser .table options) (hKeys : checkKeyOptions options = .ok ())
    (hShape : checkShapeOptions options = .ok ()) {relid : Nat} {atts : List Attribute}
    {t : TableDef} (hDef : tableDef relid options atts = .ok t) :
    t.checkTableOptions = .ok () ∨
      t.checkTableOptions = .error .packedString ∧ ascii "tabletype" ∉ options.map Prod.fst := by
  obtain ⟨o, ho, hDef⟩ := Trace.bind_ok.mp hDef
  obtain ⟨columns, -, hDef⟩ := Trace.bind_ok.mp hDef
  cases hDef
  obtain ⟨s, hs, hShape⟩ := Trace.bind_ok.mp hShape
  obtain ⟨o', ho', hAgrees⟩ := foldTableOptions_agrees h hs
  cases ho.symm.trans ho'
  have hText := hAgrees.tabletype
  have hVector : ¬(o.tabletype = .vector ∧ o.searchIndex = none) := by
    rintro ⟨hType, hIndex⟩
    have hNoIndex : s.indexed = false := by
      rw [← hAgrees.indexed, hIndex]
      rfl
    rw [hType] at hText
    cases hNamed : s.tabletype with
    | none =>
      rw [hNamed] at hText
      revert hText
      decide
    | some text =>
      rw [hNamed] at hText hShape
      rw [if_pos ⟨congrArg some hText.symm, hNoIndex⟩] at hShape
      cases hShape
  have hNotBoth : ∀ a ∈ exclusiveKeys, ∀ b ∈ exclusiveKeys, a ≠ b →
      a ∈ (options.map Prod.fst).reverse → b ∉ (options.map Prod.fst).reverse := by
    intro a ha b hb hNe haMem hbMem
    exact not_both_of_checkKeyOptions hKeys ha hb hNe
      ⟨List.mem_reverse.mp haMem, List.mem_reverse.mp hbMem⟩
  simp only [TableDef.checkTableOptions]
  rw [if_neg, if_neg, if_neg, if_neg hVector]
  · by_cases hPacked : o.legacyValue = true ∧ o.tabletype = .string
    · refine .inr ⟨if_pos hPacked, fun hMem => hAgrees.unnamed ?_ (List.mem_reverse.mpr hMem)⟩
      rw [hPacked.2] at hText
      cases hNamed : s.tabletype with
      | none => rfl
      | some text =>
        rw [hNamed] at hText
        have hIs : s.tabletype = some (ascii "string") := hNamed.trans (congrArg some hText.symm)
        rw [hIs, if_neg (fun hBoth => absurd hBoth.1 (by decide)),
          if_pos ⟨hAgrees.legacy ▸ hPacked.1, rfl⟩] at hShape
        cases hShape
    · exact .inl (if_neg hPacked)
  · rintro ⟨hPrefix, hSet⟩
    exact hNotBoth _ (by decide) _ (by decide) (by decide) (hAgrees.keyprefix hPrefix)
      (hAgrees.keyset hSet)
  · rintro ⟨hSingle, hSet⟩
    exact hNotBoth _ (by decide) _ (by decide) (by decide) (hAgrees.singletonKey hSingle)
      (hAgrees.keyset hSet)
  · rintro ⟨hSingle, hPrefix⟩
    exact hNotBoth _ (by decide) _ (by decide) (by decide) (hAgrees.singletonKey hSingle)
      (hAgrees.keyprefix hPrefix)

end ValkeyFdw.Options
