import ValkeyFdw.Ledger.Plan

/-!
# Table maps

A foreign table names, in its own options and in those of its columns, what each
column holds. `mapBuild` resolves these options into a `TableMap`, or refuses the
table. `mapBuild_valid` collects what every later stage may rely on.
-/

namespace ValkeyFdw

/-! ## What a table declares -/

/-- The declared type of a column, as far as the map looks at it. -/
inductive ColType where
  | integer
  | interval
  | textArray
  | byteaArray
  | other
deriving DecidableEq

/-- An attribute of the relation with its column options. -/
structure ColumnDef where
  isDropped : Bool := false
  type : ColType := .other
  isDomain : Bool := false
  key : Bool := false
  member : Bool := false
  score : Bool := false
  ttl : Bool := false
  position : Bool := false
  distance : Bool := false
  field : Option Bytes := none
deriving DecidableEq

/-- A foreign table with its options. -/
structure TableDef where
  relid : Nat
  tabletype : TableType := .string
  keyprefix : Option Bytes := none
  keyset : Option Bytes := none
  singletonKey : Option Bytes := none
  searchIndex : Option Bytes := none
  legacyValue : Bool := false
  readonly : Bool := false
  columns : List ColumnDef
deriving DecidableEq

/-! ## What a map says -/

/-- What a column is for. -/
inductive ColKind where
  /-- A dropped attribute and, until the defaults are assigned, an unclaimed one. -/
  | dropped
  | key
  | value
  | field
  | member
  | score
  | position
  | ttl
  | distance
  | legacyValue
deriving DecidableEq

/-- A column of the map. -/
structure Column where
  /-- Whether the attribute exists; a dropped one has no attribute number. -/
  live : Bool
  kind : ColKind
  fieldOption : Option Bytes
  type : ColType
  isDomain : Bool
deriving DecidableEq

/-- The hash field of a field or ttl column. -/
def Column.field (c : Column) : Bytes := c.fieldOption.getD []

/-- The map of a table. -/
structure TableMap where
  relid : Nat
  cols : List Column
  tabletype : TableType
  keyprefix : Option Bytes
  keyset : Option Bytes
  singletonKey : Option Bytes
  searchIndex : Option Bytes
  legacyValue : Bool
  readonly : Bool
deriving DecidableEq

/-- Why a column cannot mean anything for its table type. -/
inductive Conflict where
  | fieldTable
  | fieldName
  | scoreTable
  | memberTable
  | positionTable
  | positionType
  | ttlTable
  | ttlField
  | ttlType
  | distanceTable
  | valueTable
deriving DecidableEq

/-- The refusals of a table definition; a column is named by its place. -/
inductive MapError where
  | singletonWithPrefix
  | singletonWithKeyset
  | prefixWithKeyset
  | vectorWithoutIndex
  | packedString
  | columnOptions (col : Nat)
  | twoKeys (first second : Nat)
  | packedWidth (natts : Nat)
  | packedDropped
  | noKey
  | unsourced (cols : List Nat)
  | columnType (col : Nat) (why : Conflict)
  | packedDomain
  | packedElement
  | sameRole (first second : Nat)
deriving DecidableEq

/-! ## Reading the options -/

def TableDef.checkTableOptions (t : TableDef) : Except MapError Unit :=
  if t.singletonKey.isSome ∧ t.keyprefix.isSome then .error .singletonWithPrefix
  else if t.singletonKey.isSome ∧ t.keyset.isSome then .error .singletonWithKeyset
  else if t.keyprefix.isSome ∧ t.keyset.isSome then .error .prefixWithKeyset
  else if t.tabletype = .vector ∧ t.searchIndex = none then .error .vectorWithoutIndex
  else if t.legacyValue ∧ t.tabletype = .string then .error .packedString
  else .ok ()

/-- How many sources a column names; the field of a ttl column is not one of its own. -/
def ColumnDef.claims (c : ColumnDef) : Nat :=
  c.key.toNat + c.member.toNat + c.score.toNat + c.distance.toNat + c.ttl.toNat +
    c.position.toNat + (c.field.isSome && !c.ttl).toNat

/-- The kind the options ask for; `dropped` is provisional for an unclaimed column. -/
def ColumnDef.kind (c : ColumnDef) : ColKind :=
  if c.key then .key
  else if c.ttl then .ttl
  else if c.position then .position
  else if c.member then .member
  else if c.score then .score
  else if c.distance then .distance
  else if c.field.isSome then .field
  else .dropped

def ColumnDef.readOptions (c : ColumnDef) (i : Nat) : Except MapError Column :=
  if c.isDropped then .ok ⟨false, .dropped, none, .other, false⟩
  else if 1 < c.claims then .error (.columnOptions i)
  else .ok ⟨true, c.kind, c.field, c.type, c.isDomain⟩

def readColumns : Nat → List ColumnDef → Except MapError (List Column)
  | _, [] => .ok []
  | i, c :: cs => do
    let col ← c.readOptions i
    return col :: (← readColumns (i + 1) cs)

/-! ## Giving every attribute a source -/

/-- The places of the columns that satisfy `p`, in order. -/
def places (p : Column → Bool) (cols : List Column) : List Nat :=
  (List.range cols.length).filter fun i => cols[i]?.any p

def Column.isUnclaimed (c : Column) : Bool := c.live && c.kind = .dropped

def setKind (cols : List Column) (i : Nat) (kind : ColKind) : List Column :=
  cols.modify i fun c => { c with kind := kind }

/-- At most one column declares the key. -/
def survey (cols : List Column) : Except MapError Unit :=
  match places (·.kind = .key) cols with
  | i :: j :: _ => .error (.twoKeys i j)
  | _ => .ok ()

/-- The packed layout: the key and the array by position, no column options. -/
def assignLegacy (cols : List Column) : Except MapError (List Column) :=
  match cols with
  | [k, v] =>
    if k.live && v.live then .ok [{ k with kind := .key }, { v with kind := .legacyValue }]
    else .error .packedDropped
  | _ => .error (.packedWidth cols.length)

/-- With no declared key column the first unclaimed one is the key. -/
def assignKey (cols : List Column) : Except MapError (List Column) :=
  match places (·.kind = .key) cols, places Column.isUnclaimed cols with
  | [], [] => .error .noKey
  | [], i :: _ => .ok (setKind cols i .key)
  | _ :: _, _ => .ok cols

/-- The only meaning a table type leaves for a lone remaining column. -/
def TableType.defaultKind : TableType → ColKind
  | .string => .value
  | .list | .set => .member
  | .hash | .zset | .vector => .dropped

def assignRemaining (t : TableType) (cols : List Column) : List Column :=
  match places Column.isUnclaimed cols with
  | [i] => setKind cols i t.defaultKind
  | _ => cols

/-- A singleton table names its key in the table options: no column is taken for it. -/
def claimKey (t : TableDef) (cols : List Column) : Except MapError (List Column) :=
  if t.singletonKey = none then assignKey cols else .ok cols

def assignMapped (t : TableDef) (cols : List Column) : Except MapError (List Column) := do
  let cols ← claimKey t cols
  let cols := assignRemaining t.tabletype cols
  match places Column.isUnclaimed cols with
  | [] => return cols
  | rest => .error (.unsourced rest)

/-- The columns that no option claims. -/
def assignDefaults (t : TableDef) (cols : List Column) : Except MapError (List Column) := do
  survey cols
  if t.legacyValue then assignLegacy cols else assignMapped t cols

/-! ## What a table type leaves room for -/

/-- The bytes a field name of a vector table may hold: letters, digits, `_`, `-` and `.`. -/
def isNameByte (b : UInt8) : Bool :=
  (0x61 ≤ b && b ≤ 0x7a) || (0x41 ≤ b && b ≤ 0x5a) || (0x30 ≤ b && b ≤ 0x39) || b = 0x5f ||
    b = 0x2d || b = 0x2e

def columnConflict (t : TableType) (c : Column) : Option Conflict :=
  match c.kind with
  | .field =>
    if t ≠ .hash ∧ t ≠ .vector then some .fieldTable
    else if t = .vector ∧ ¬(c.field ≠ [] ∧ c.field.all isNameByte) then some .fieldName
    else none
  | .score => if t ≠ .zset then some .scoreTable else none
  | .member => if t ≠ .list ∧ t ≠ .set ∧ t ≠ .zset then some .memberTable else none
  | .position =>
    if t ≠ .list then some .positionTable
    else if c.type ≠ .integer then some .positionType
    else none
  | .ttl =>
    if t ≠ .hash then some .ttlTable
    else if c.fieldOption = none then some .ttlField
    else if c.type ≠ .interval then some .ttlType
    else none
  | .distance => if t ≠ .vector then some .distanceTable else none
  | .value => if t ≠ .string then some .valueTable else none
  | .dropped | .key | .legacyValue => none

def checkTypes (t : TableType) : Nat → List Column → Except MapError Unit
  | _, [] => .ok ()
  | i, c :: cs =>
    match columnConflict t c with
    | some why => .error (.columnType i why)
    | none => checkTypes t (i + 1) cs

/-- The array of a packed table holds text or bytes, and is not a domain. -/
def checkPacked (legacy : Bool) (cols : List Column) : Except MapError Unit :=
  match legacy, cols.getLast? with
  | true, some c =>
    if c.isDomain then .error .packedDomain
    else if c.type = .textArray ∨ c.type = .byteaArray then .ok ()
    else .error .packedElement
  | _, _ => .ok ()

/-- The roles besides the key that the write path addresses directly. -/
def ColKind.isRole (kind : ColKind) : Bool := kind = .member || kind = .score || kind = .value

/-- Record the place of each role; a second column for one is refused. -/
def indexRoles (slot : ColKind → Option Nat) : Nat → List Column → Except MapError Unit
  | _, [] => .ok ()
  | i, c :: cs =>
    if c.kind.isRole then
      match slot c.kind with
      | some j => .error (.sameRole j i)
      | none => indexRoles (Function.update slot c.kind (some i)) (i + 1) cs
    else indexRoles slot (i + 1) cs

/-- Resolve and validate the shape of a foreign table. -/
def mapBuild (t : TableDef) : Except MapError TableMap := do
  t.checkTableOptions
  let cols ← readColumns 0 t.columns
  let cols ← assignDefaults t cols
  checkTypes t.tabletype 0 cols
  checkPacked t.legacyValue cols
  indexRoles (fun _ => none) 0 cols
  return { relid := t.relid, cols := cols, tabletype := t.tabletype, keyprefix := t.keyprefix,
           keyset := t.keyset, singletonKey := t.singletonKey, searchIndex := t.searchIndex,
           legacyValue := t.legacyValue, readonly := t.readonly }

/-! ## What an accepted map guarantees -/

variable {cols cols' : List Column} {i : Nat} {kind : ColKind} {t : TableDef}

@[simp] theorem mem_places {p : Column → Bool} :
    i ∈ places p cols ↔ ∃ c, cols[i]? = some c ∧ p c = true := by
  simp only [places, List.mem_filter, List.mem_range, Option.any_eq_true]
  refine and_iff_right_of_imp ?_
  rintro ⟨c, hc, -⟩
  exact (List.getElem?_eq_some_iff.mp hc).1

theorem places_eq_nil {p : Column → Bool} :
    places p cols = [] ↔ ∀ c ∈ cols, p c = false := by
  rw [List.eq_nil_iff_forall_not_mem]
  constructor
  · intro h c hc
    obtain ⟨i, hi⟩ := List.mem_iff_getElem?.mp hc
    exact Bool.eq_false_iff.mpr fun hp => h i (mem_places.mpr ⟨c, hi, hp⟩)
  · intro h i hi
    obtain ⟨c, hc, hp⟩ := mem_places.mp hi
    simp [h c (List.mem_of_getElem? hc)] at hp

theorem Column.isUnclaimed_iff {c : Column} :
    c.isUnclaimed = true ↔ c.live = true ∧ c.kind = .dropped := by
  simp [isUnclaimed]

/-- At most one column has the kind. -/
def Sole (kind : ColKind) (cols : List Column) : Prop :=
  ∀ ⦃i j : Nat⦄ ⦃c d : Column⦄, cols[i]? = some c → cols[j]? = some d → c.kind = kind → d.kind = kind → i = j

theorem Sole.cons {c : Column} (h : Sole kind cols) (hc : c.kind ≠ kind) :
    Sole kind (c :: cols) := by
  rintro (_ | i) (_ | j) d e hd he hKind hKind'
  · rfl
  · exact absurd hKind (Option.some.inj hd ▸ hc)
  · exact absurd hKind' (Option.some.inj he ▸ hc)
  · rw [h hd he hKind hKind']

theorem sole_of_places (h : ∀ i j rest, places (·.kind = kind) cols ≠ i :: j :: rest) :
    Sole kind cols := by
  intro i j c d hc hd hKind hKind'
  have hi : i ∈ places (·.kind = kind) cols := mem_places.mpr ⟨c, hc, by simpa⟩
  have hj : j ∈ places (·.kind = kind) cols := mem_places.mpr ⟨d, hd, by simpa⟩
  match hPlaces : places (·.kind = kind) cols with
  | [] => simp [hPlaces] at hi
  | [n] =>
    rw [hPlaces, List.mem_singleton] at hi hj
    exact hi.trans hj.symm
  | a :: b :: rest => exact absurd hPlaces (h a b rest)

/-- What the stages keep of a column: only a dropped one has no attribute, and
a field column has a name. -/
structure Column.Sourced (c : Column) : Prop where
  dropped : c.live = false → c.kind = .dropped
  mapped : c.kind ≠ .legacyValue
  field : c.kind = .field → c.fieldOption.isSome

theorem ColumnDef.readOptions_sourced {c : ColumnDef} {col : Column} (h : c.readOptions i = .ok col)
    :
    col.Sourced := by
  unfold readOptions at h
  split at h
  · cases h
    exact ⟨fun _ => rfl, by simp, by simp⟩
  · split at h
    · cases h
    · cases h
      refine ⟨by simp, ?_, ?_⟩ <;> simp only [ColumnDef.kind] <;> grind

theorem readColumns_sourced {defs : List ColumnDef} (h : readColumns i defs = .ok cols) :
    ∀ c ∈ cols, c.Sourced := by
  induction defs generalizing i cols with
  | nil =>
    cases h
    simp
  | cons d ds ih =>
    simp only [readColumns, bind_ok] at h
    obtain ⟨c, hc, rest, hRest, hCols⟩ := h
    cases hCols
    exact List.forall_mem_cons.mpr ⟨d.readOptions_sourced hc, ih hRest⟩

theorem getElem?_setKind {j : Nat} {c : Column} (h : (setKind cols i kind)[j]? = some c) :
    (i ≠ j ∧ cols[j]? = some c) ∨ (i = j ∧ ∃ d, cols[i]? = some d ∧ c = { d with kind := kind }) := by
  rw [setKind, List.getElem?_modify] at h
  obtain ⟨d, hd, rfl⟩ := Option.map_eq_some_iff.mp h
  by_cases hij : i = j
  · exact .inr ⟨hij, d, hij ▸ hd, by simp [hij]⟩
  · exact .inl ⟨hij, by simpa [hij] using hd⟩

section SetKind

variable {cols : List Column} {i : Nat} {kind k : ColKind}

theorem setKind_sourced (hCols : ∀ c ∈ cols, c.Sourced) (hi : i ∈ places Column.isUnclaimed cols)
    (hKind : kind ≠ .legacyValue ∧ kind ≠ .field) : ∀ c ∈ setKind cols i kind, c.Sourced := by
  intro c hc
  obtain ⟨j, hj⟩ := List.mem_iff_getElem?.mp hc
  obtain ⟨-, hd⟩ | ⟨-, d, hd, rfl⟩ := getElem?_setKind hj
  · exact hCols c (List.mem_of_getElem? hd)
  · obtain ⟨d', hd', hUnclaimed⟩ := mem_places.mp hi
    obtain rfl : d = d' := Option.some.inj (hd.symm.trans hd')
    have hLive := (Column.isUnclaimed_iff.mp hUnclaimed).1
    exact ⟨fun h => by simp [hLive] at h, hKind.1, fun h => absurd h hKind.2⟩

theorem setKind_sole_other (hSole : Sole k cols) (hne : kind ≠ k) :
    Sole k (setKind cols i kind) := by
  intro a b c d hc hd hKind hKind'
  obtain ⟨-, hc⟩ | ⟨-, c', -, rfl⟩ := getElem?_setKind hc
  · obtain ⟨-, hd⟩ | ⟨-, d', -, rfl⟩ := getElem?_setKind hd
    · exact hSole hc hd hKind hKind'
    · exact absurd hKind' hne
  · exact absurd hKind hne

theorem setKind_sole (hNone : ∀ c ∈ cols, c.kind ≠ kind) : Sole kind (setKind cols i kind) := by
  intro a b c d hc hd hKind hKind'
  obtain ⟨-, hc⟩ | ⟨rfl, -⟩ := getElem?_setKind hc
  · exact absurd hKind (hNone c (List.mem_of_getElem? hc))
  · obtain ⟨-, hd⟩ | ⟨rfl, -⟩ := getElem?_setKind hd
    · exact absurd hKind' (hNone d (List.mem_of_getElem? hd))
    · rfl

theorem setKind_mem (hi : i ∈ places Column.isUnclaimed cols) :
    ∃ c ∈ setKind cols i kind, c.kind = kind := by
  obtain ⟨c, hc, -⟩ := mem_places.mp hi
  refine ⟨{ c with kind := kind }, List.mem_iff_getElem?.mpr ⟨i, ?_⟩, rfl⟩
  simp [setKind, hc]

theorem setKind_keeps (hi : i ∈ places Column.isUnclaimed cols) (hk : k ≠ .dropped)
    (h : ∃ c ∈ cols, c.kind = k) : ∃ c ∈ setKind cols i kind, c.kind = k := by
  obtain ⟨c, hc, hKind⟩ := h
  obtain ⟨j, hj⟩ := List.mem_iff_getElem?.mp hc
  refine ⟨c, List.mem_iff_getElem?.mpr ⟨j, ?_⟩, hKind⟩
  have hij : i ≠ j := by
    rintro rfl
    obtain ⟨d, hd, hUnclaimed⟩ := mem_places.mp hi
    obtain rfl : c = d := Option.some.inj (hj.symm.trans hd)
    exact hk (hKind.symm.trans (Column.isUnclaimed_iff.mp hUnclaimed).2)
  simp [setKind, hij, hj]

end SetKind

/-- The columns of a mapped table once every attribute has a source. -/
structure Assigned (singleton : Option Bytes) (cols : List Column) : Prop where
  sourced : ∀ c ∈ cols, c.Sourced
  key : Sole .key cols
  hasKey : singleton = none → ∃ c ∈ cols, c.kind = .key

theorem assignKey_spec {singleton : Option Bytes} (hCols : ∀ c ∈ cols, c.Sourced)
    (hSole : Sole .key cols) (h : assignKey cols = .ok cols') :
    Assigned singleton cols' := by
  unfold assignKey at h
  split at h
  · cases h
  · rename_i i rest hKeys hUnclaimed
    cases h
    have hi : i ∈ places Column.isUnclaimed cols := by simp [hUnclaimed]
    have hNone : ∀ c ∈ cols, c.kind ≠ .key := by simpa using places_eq_nil.mp hKeys
    exact ⟨setKind_sourced hCols hi (by simp), setKind_sole hNone, fun _ => setKind_mem hi⟩
  · rename_i _ _ i rest hKeys
    cases h
    have hi : i ∈ places (·.kind = .key) cols := by simp [hKeys]
    obtain ⟨c, hc, hKind⟩ := mem_places.mp hi
    exact ⟨hCols, hSole, fun _ => ⟨c, List.mem_of_getElem? hc, by simpa using hKind⟩⟩

theorem TableType.defaultKind_cases (t : TableType) :
    t.defaultKind = .value ∨ t.defaultKind = .member ∨ t.defaultKind = .dropped := by
  cases t <;> simp [defaultKind]

theorem assignRemaining_spec {singleton : Option Bytes} {t : TableType}
    (h : Assigned singleton cols) : Assigned singleton (assignRemaining t cols) := by
  unfold assignRemaining
  split
  · rename_i i hUnclaimed
    have hi : i ∈ places Column.isUnclaimed cols := by simp [hUnclaimed]
    have hKind := t.defaultKind_cases
    refine ⟨setKind_sourced h.sourced hi ?_, setKind_sole_other h.key ?_, fun hs => ?_⟩
    · rcases hKind with hKind | hKind | hKind <;> simp [hKind]
    · rcases hKind with hKind | hKind | hKind <;> simp [hKind]
    · exact setKind_keeps hi (by simp) (h.hasKey hs)
  · exact h

theorem survey_sole (h : survey cols = .ok ()) : Sole .key cols := by
  refine sole_of_places fun i j rest hPlaces => ?_
  simp [survey, hPlaces] at h

theorem assignLegacy_spec (h : assignLegacy cols = .ok cols') :
    ∃ k v, cols' = [k, v] ∧ (k.live = true ∧ k.kind = .key) ∧
      v.live = true ∧ v.kind = .legacyValue := by
  unfold assignLegacy at h
  split at h
  · split at h
    · rename_i k v hLive
      cases h
      rw [Bool.and_eq_true] at hLive
      exact ⟨_, _, rfl, ⟨hLive.1, rfl⟩, hLive.2, rfl⟩
    · cases h
  · cases h

theorem claimKey_spec (hCols : ∀ c ∈ cols, c.Sourced) (hSole : Sole .key cols)
    (h : claimKey t cols = .ok cols') : Assigned t.singletonKey cols' := by
  unfold claimKey at h
  split at h
  · exact assignKey_spec hCols hSole h
  · rename_i hSingleton
    cases h
    exact ⟨hCols, hSole, fun hNone => absurd hNone hSingleton⟩

theorem assignMapped_spec (hCols : ∀ c ∈ cols, c.Sourced) (hSole : Sole .key cols)
    (h : assignMapped t cols = .ok cols') :
    Assigned t.singletonKey cols' ∧ ∀ c ∈ cols', c.live = true → c.kind ≠ .dropped := by
  obtain ⟨cols₁, hKey, h⟩ := bind_ok.mp h
  dsimp only at h
  split at h
  · rename_i hRest
    cases h
    refine ⟨assignRemaining_spec (claimKey_spec hCols hSole hKey), fun c hc hLive hKind => ?_⟩
    have hUnclaimed := places_eq_nil.mp hRest c hc
    simp [Column.isUnclaimed, hLive, hKind] at hUnclaimed
  · cases h

theorem checkTypes_spec {t : TableType} (h : checkTypes t i cols = .ok ()) :
    ∀ c ∈ cols, columnConflict t c = none := by
  induction cols generalizing i with
  | nil => simp
  | cons c cs ih =>
    unfold checkTypes at h
    split at h
    · cases h
    · rename_i hNone
      exact List.forall_mem_cons.mpr ⟨hNone, ih h⟩

/-- A role that has a place already has no further column, and one that has none has one. -/
theorem indexRoles_spec {slot : ColKind → Option Nat} (h : indexRoles slot i cols = .ok ())
    (hRole : kind.isRole = true) :
    Sole kind cols ∧ (slot kind ≠ none → ∀ c ∈ cols, c.kind ≠ kind) := by
  induction cols generalizing slot i with
  | nil => exact ⟨fun _ _ _ _ hc => by simp at hc, by simp⟩
  | cons c cs ih =>
    unfold indexRoles at h
    split at h
    · split at h
      · cases h
      · rename_i hNone
        obtain ⟨hSole, hTaken⟩ := ih h
        by_cases hc : c.kind = kind
        · subst hc
          have hRest := hTaken (by simp)
          refine ⟨?_, fun hSome => absurd hNone hSome⟩
          rintro (_ | a) (_ | b) c₁ d hc₁ hd hKind hKind'
          · rfl
          · exact absurd hKind' (hRest d (List.mem_of_getElem? hd))
          · exact absurd hKind (hRest c₁ (List.mem_of_getElem? hc₁))
          · rw [hSole hc₁ hd hKind hKind']
        · have hTaken' : slot kind ≠ none → ∀ d ∈ cs, d.kind ≠ kind := by
            simpa [Function.update_of_ne (Ne.symm hc)] using hTaken
          exact ⟨hSole.cons hc, fun hSome => List.forall_mem_cons.mpr ⟨hc, hTaken' hSome⟩⟩
    · rename_i hOther
      have hc : c.kind ≠ kind := fun hc => hOther (hc ▸ hRole)
      obtain ⟨hSole, hTaken⟩ := ih h
      exact ⟨hSole.cons hc, fun hSome => List.forall_mem_cons.mpr ⟨hc, hTaken hSome⟩⟩

/-- What an accepted table map guarantees. -/
structure TableMap.Valid (m : TableMap) : Prop where
  singleton : m.singletonKey = none ∨ (m.keyprefix = none ∧ m.keyset = none)
  prefixOrKeyset : m.keyprefix = none ∨ m.keyset = none
  packed : m.legacyValue = true → m.tabletype ≠ .string ∧ ∃ k v, m.cols = [k, v] ∧
    (k.live = true ∧ k.kind = .key) ∧ v.live = true ∧ v.kind = .legacyValue
  mapped : m.legacyValue = false → Assigned m.singletonKey m.cols ∧
    ∀ c ∈ m.cols, c.live = true → c.kind ≠ .dropped
  types : ∀ c ∈ m.cols, columnConflict m.tabletype c = none
  roles : ∀ kind : ColKind, kind.isRole = true → Sole kind m.cols

theorem TableDef.checkTableOptions_ok (h : t.checkTableOptions = .ok ()) :
    (t.singletonKey = none ∨ (t.keyprefix = none ∧ t.keyset = none)) ∧
      (t.keyprefix = none ∨ t.keyset = none) ∧
      (t.legacyValue = true → t.tabletype ≠ .string) := by
  unfold checkTableOptions at h
  split_ifs at h with h₁ h₂ h₃ h₄ h₅
  simp only [not_and, Option.isSome_iff_ne_none, not_not] at h₁ h₂ h₃
  refine ⟨?_, ?_, fun hLegacy hString => h₅ ⟨hLegacy, hString⟩⟩
  · exact or_iff_not_imp_left.mpr fun hNe => ⟨h₁ hNe, h₂ hNe⟩
  · exact or_iff_not_imp_left.mpr h₃

theorem mapBuild_valid {m : TableMap} (h : mapBuild t = .ok m) : m.Valid := by
  simp only [mapBuild, bind_ok] at h
  obtain ⟨_, hOptions, cols, hRead, cols', hAssign, _, hTypes, _, -, _, hRoles, hMap⟩ := h
  cases hMap
  obtain ⟨hSingleton, hPrefix, hString⟩ := t.checkTableOptions_ok hOptions
  obtain ⟨_, hSurvey, hAssign⟩ := bind_ok.mp hAssign
  have hCols := readColumns_sourced hRead
  refine ⟨hSingleton, hPrefix, fun hLegacy => ?_, fun hMapped => ?_, checkTypes_spec hTypes,
    fun kind hRole => (indexRoles_spec hRoles hRole).1⟩
  · rw [if_pos hLegacy] at hAssign
    exact ⟨hString hLegacy, assignLegacy_spec hAssign⟩
  · rw [if_neg (by simpa using hMapped)] at hAssign
    exact assignMapped_spec hCols (survey_sole hSurvey) hAssign

theorem TableMap.Valid.soleKey {m : TableMap} (hValid : m.Valid) : Sole .key m.cols := by
  by_cases hLegacy : m.legacyValue = true
  · obtain ⟨-, k, v, hCols, -, -, hArray⟩ := hValid.packed hLegacy
    have hFirst : ∀ {i : Nat} {c : Column}, m.cols[i]? = some c → c.kind = .key → i = 0 := by
      intro i c hc hKind
      rw [hCols] at hc
      match i with
      | 0 => rfl
      | 1 => simp_all
      | i + 2 => simp at hc
    exact fun i j c d hc hd hKind hKind' => (hFirst hc hKind).trans (hFirst hd hKind').symm
  · exact (hValid.mapped (by simpa using hLegacy)).1.key

theorem TableMap.Valid.hasKey {m : TableMap} (hValid : m.Valid)
    (hSingleton : m.singletonKey = none) : ∃ c ∈ m.cols, c.kind = .key := by
  by_cases hLegacy : m.legacyValue = true
  · obtain ⟨-, k, v, hCols, ⟨-, hKind⟩, -⟩ := hValid.packed hLegacy
    exact ⟨k, by simp [hCols], hKind⟩
  · exact (hValid.mapped (by simpa using hLegacy)).1.hasKey hSingleton

/-! ## Writability -/

/-- How many of the three key options the table names. -/
def TableMap.keyOptions (m : TableMap) : Nat :=
  m.singletonKey.isSome.toNat + m.keyprefix.isSome.toNat + m.keyset.isSome.toNat

/-- The table accepts no write of any kind. The source reads this off the options of the table
and its columns; those of the columns of a packed table are not in the map, so that one
which asks for a distance there is not seen here. -/
def TableMap.writeBlock (m : TableMap) : Bool :=
  m.readonly || (m.legacyValue && m.tabletype = .zset) || m.tabletype = .vector ||
    m.searchIndex.isSome || 1 < m.keyOptions || m.cols.any (·.kind = .distance)

/-- Whether the table accepts operations of a kind: a row of a mapped list has
no identity an UPDATE could name. -/
def TableMap.writable (m : TableMap) (kind : OpKind) : Bool :=
  !m.writeBlock && !(m.tabletype = .list && !m.legacyValue && kind = .update)

end ValkeyFdw
