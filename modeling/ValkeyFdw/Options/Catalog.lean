import ValkeyFdw.Lib.History
import ValkeyFdw.Options.Tables
import ValkeyFdw.Pool.Lease

/-!
# Options over the life of a catalog

PostgreSQL merges what a statement says with the options an object has, and shows the
validator the merged list and the caller's privilege, never the change. So what holds of
an option list is what the last accepted statement about its object left, whoever ran the
statements before it.

* `catalog_options_read`: no list of a server or a user mapping makes its reader raise;
* `restricted_options_by_superuser`: restricted settings stand in a list only if the
  statement that left it was a superuser's;
* `alter_drops_restricted`: what a caller without privilege has to do to such a list;
* `passwordless_connection_by_superuser`: the same at the place where it matters;
* `catalog_table_checks`: what the map's check of a table can still refuse.
-/

namespace ValkeyFdw.Options

/-! ## Statements -/

/-- The objects that have options. -/
inductive ObjectId where
  | server (serverid : Nat)
  | userMapping (umid : Nat)
  | table (relid : Nat)
  | column (relid attnum : Nat)
deriving DecidableEq

def ObjectId.context : ObjectId → Context
  | .server _ => .server
  | .userMapping _ => .userMapping
  | .table _ => .table
  | .column _ _ => .column

/-- One element of an `OPTIONS` clause; without a verb it is an `ADD`. -/
inductive OptChange where
  | add (name value : Bytes)
  | set (name value : Bytes)
  | drop (name : Bytes)
deriving DecidableEq

/-- Why a statement is refused. -/
inductive DdlError where
  | objectExists
  | noObject
  | optionExists (name : Bytes)
  | noOption (name : Bytes)
  | refused (e : OptionError)

def named (name : Bytes) (x : Bytes × Bytes) : Bool := x.1 = name

def setValue (name value : Bytes) (options : OptionList) : OptionList :=
  options.map fun x => if x.1 = name then (name, value) else x

/-- PostgreSQL's `transformGenericOptions` before it calls the validator. -/
def OptChange.merge : OptChange → OptionList → Except DdlError OptionList
  | .add name value, options =>
    if options.any (named name) then .error (.optionExists name)
    else .ok (options ++ [(name, value)])
  | .set name value, options =>
    if options.any (named name) then .ok (setValue name value options)
    else .error (.noOption name)
  | .drop name, options =>
    if options.any (named name) then .ok (options.filter fun x => !named name x)
    else .error (.noOption name)

abbrev Catalog := ObjectId → Option OptionList

/-- What a statement does to its object. -/
inductive Action where
  | create (changes : List OptChange)
  | alter (changes : List OptChange)
  | drop

/-- A statement, and whether a superuser runs it. -/
structure Statement where
  superuser : Bool
  id : ObjectId
  action : Action

/-- The options that a statement leaves: the merged list, if the validator takes it. -/
def Statement.leaves (s : Statement) (old : OptionList) (changes : List OptChange) :
    Except DdlError (Option OptionList) := do
  let options ← Trace.run OptChange.merge changes old
  match validator s.superuser s.id.context options with
  | .ok () => return some options
  | .error e => .error (.refused e)

/-- The list that the object has afterwards. -/
def Statement.outcome (s : Statement) (c : Catalog) : Except DdlError (Option OptionList) :=
  match s.action, c s.id with
  | .create changes, none => s.leaves [] changes
  | .create _, some _ => .error .objectExists
  | .alter changes, some old => s.leaves old changes
  | .drop, some _ => .ok none
  | _, none => .error .noObject

/-- A statement that fails is rolled back. -/
def Catalog.exec (c : Catalog) (s : Statement) : Catalog :=
  match s.outcome c with
  | .ok entry => Function.update c s.id entry
  | .error _ => c

/-- The statements go over the catalog one after another. -/
def Catalog.run (statements : List Statement) : Catalog :=
  statements.foldl Catalog.exec fun _ => none

/-! ## Where a list comes from -/

variable {options : OptionList}

theorem Statement.outcome_validated {s : Statement} {c : Catalog}
    (h : s.outcome c = .ok (some options)) :
    validator s.superuser s.id.context options = .ok () := by
  have hLeaves : ∀ {old : OptionList} {changes : List OptChange},
      s.leaves old changes = .ok (some options) →
      validator s.superuser s.id.context options = .ok () := by
    intro old changes h
    obtain ⟨merged, -, h⟩ := Trace.bind_ok.mp h
    split at h
    · rename_i hValid
      cases h
      exact hValid
    · cases h
  unfold Statement.outcome at h
  split at h
  · exact hLeaves h
  · cases h
  · exact hLeaves h
  · cases h
  · cases h

/-- The statement that left the options an object has: the validator took them for its
caller, and no later statement has changed them. -/
structure LeftBy (statements : List Statement) (id : ObjectId) (options : OptionList)
    (s : Statement) : Prop where
  target : s.id = id
  validated : validator s.superuser id.context options = .ok ()
  last : ∃ before after, statements = before ++ s :: after ∧
    ∀ later, later <+: after → Catalog.run (before ++ s :: later) id = some options

theorem Catalog.exec_cases (c : Catalog) (s : Statement) (id : ObjectId) :
    c.exec s id = c id ∨ s.id = id ∧ s.outcome c = .ok (c.exec s id) := by
  cases hOutcome : s.outcome c with
  | error e =>
    refine .inl ?_
    rw [Catalog.exec, hOutcome]
  | ok entry =>
    rw [Catalog.exec, hOutcome]
    by_cases hId : s.id = id
    · refine .inr ⟨hId, ?_⟩
      simp [← hId]
    · exact .inl (Function.update_of_ne (Ne.symm hId) _ _)

/-- The statement is about the object, and what it leaves there was validated. -/
def Wrote (id : ObjectId) (s : Statement) (entry : Option OptionList) : Prop :=
  s.id = id ∧ ∀ options, entry = some options → validator s.superuser id.context options = .ok ()

theorem exists_leftBy {statements : List Statement} {id : ObjectId}
    (h : Catalog.run statements id = some options) : ∃ s, LeftBy statements id options s := by
  have hStep : ∀ (c : Catalog) (s : Statement),
      c.exec s id = c id ∨ Wrote id s (c.exec s id) := by
    intro c s
    refine (c.exec_cases s id).imp_right ?_
    rintro ⟨rfl, hOutcome⟩
    exact ⟨rfl, fun options hOptions => s.outcome_validated (hOptions ▸ hOutcome)⟩
  rcases History.exists_lastWriter (g := fun c : Catalog => c id) hStep (fun _ => none)
    statements with hInit | ⟨before, s, after, hSplit, ⟨hId, hValid⟩, hKept⟩
  · cases h.symm.trans hInit
  · exact ⟨s, hId, hValid options h, before, after, hSplit, fun later hLater =>
      (hKept later hLater).trans h⟩

theorem LeftBy.isValidated {statements : List Statement} {id : ObjectId} {s : Statement}
    (h : LeftBy statements id options s) :
    Validated s.superuser id.context options :=
  validated_of_validator h.validated

/-! ## What can be relied on -/

/-- Whatever statements were run by whomever: the options of every server and of every user
mapping in the catalog are read without an error, a server's numbers within their bounds. -/
theorem catalog_options_read (statements : List Statement) :
    (∀ serverid options, Catalog.run statements (.server serverid) = some options →
      ∃ o, readServerOptions options = .ok o ∧ o.InBounds) ∧
    ∀ umid options, Catalog.run statements (.userMapping umid) = some options →
      ∃ o, readUserOptions options = .ok o := by
  refine ⟨fun serverid options h => ?_, fun umid options h => ?_⟩
  · obtain ⟨s, hs⟩ := exists_leftBy h
    obtain ⟨o, ho, hBounds, -⟩ := readServerOptions_ok hs.isValidated
    exact ⟨o, ho, hBounds⟩
  · obtain ⟨s, hs⟩ := exists_leftBy h
    obtain ⟨o, ho, -⟩ := readUserOptions_ok hs.isValidated
    exact ⟨o, ho⟩

/-- A server with a file of its own, and a mapping without a password, both left by a
superuser; what comes after is someone else's, and only the table is accepted. -/
def tlsSetup : List Statement :=
  [⟨true, .server 1, .create [.add (ascii "port") (ascii " 6380"),
      .add (ascii "tls_ca_file") (ascii "/etc/ca.pem")]⟩,
    ⟨true, .userMapping 7, .create [.add (ascii "password_required") (ascii "off")]⟩,
    ⟨false, .server 1, .alter [.set (ascii "port") (ascii "6381")]⟩,
    ⟨false, .userMapping 7, .alter [.add (ascii "username") (ascii "app")]⟩,
    ⟨false, .table 16, .create [.add (ascii "tabletype") (ascii "list"),
      .add (ascii "legacy_value") (ascii "on")]⟩,
    ⟨false, .column 16 1, .create []⟩,
    ⟨false, .column 16 2, .create [.add (ascii "distance") (ascii "t")]⟩]

def tlsServer : OptionList :=
  [(ascii "port", ascii " 6380"), (ascii "tls_ca_file", ascii "/etc/ca.pem")]

theorem tlsSetup_server : Catalog.run tlsSetup (.server 1) = some tlsServer := by
  decide +kernel

theorem catalog_options_read_tls :
    (∃ o, readServerOptions tlsServer = .ok o ∧ o.InBounds) ∧
      ∃ o, readUserOptions [(ascii "password_required", ascii "off")] = .ok o :=
  ⟨(catalog_options_read tlsSetup).1 1 tlsServer tlsSetup_server,
    (catalog_options_read tlsSetup).2 7 _ (by decide +kernel)⟩

/-- The settings that only a superuser may make. -/
def Restricted (options : OptionList) : Context → Prop
  | .server => ∃ o, readServerOptions options = .ok o ∧ ¬o.NoFiles
  | .userMapping => ∃ o, readUserOptions options = .ok o ∧ o.passwordRequired = false
  | .table | .column => False

theorem Validated.superuser_of_restricted {superuser : Bool} {context : Context}
    (h : Validated superuser context options) (hRestricted : Restricted options context) :
    superuser = true := by
  cases context with
  | server =>
    obtain ⟨o, ho, -, hFiles⟩ := readServerOptions_ok h
    obtain ⟨o', ho', hSome⟩ := hRestricted
    cases ho.symm.trans ho'
    rw [← Bool.not_eq_false]
    exact fun hSuper => hSome (hFiles hSuper)
  | userMapping =>
    obtain ⟨o, ho, hOff⟩ := readUserOptions_ok h
    obtain ⟨o', ho', hRequired⟩ := hRestricted
    cases ho.symm.trans ho'
    exact hOff hRequired
  | table => cases hRestricted
  | column => cases hRestricted

/-- A restricted setting is in force only in a list that a superuser's statement left. -/
theorem restricted_options_by_superuser (statements : List Statement) (id : ObjectId)
    {options : OptionList} (h : Catalog.run statements id = some options)
    (hRestricted : Restricted options id.context) :
    ∃ s, LeftBy statements id options s ∧ s.superuser = true := by
  obtain ⟨s, hs⟩ := exists_leftBy h
  exact ⟨s, hs, hs.isValidated.superuser_of_restricted hRestricted⟩

theorem restricted_options_by_superuser_tls :
    ∃ s, LeftBy tlsSetup (.server 1) tlsServer s ∧ s.superuser = true :=
  restricted_options_by_superuser tlsSetup (.server 1) tlsSetup_server
    ⟨_, rfl, fun hNone => nomatch hNone.tlsCaFile⟩

/-! ## A caller without privilege -/

theorem OptChange.merge_keeps {change : OptChange} {merged : OptionList} {name : Bytes}
    (h : change.merge options = .ok merged) (hMem : name ∈ options.map Prod.fst)
    (hKept : change ≠ .drop name) : name ∈ merged.map Prod.fst := by
  obtain ⟨x, hx, rfl⟩ := List.mem_map.mp hMem
  cases change with
  | add other value =>
    rw [OptChange.merge] at h
    split_ifs at h
    cases h
    exact List.mem_map.mpr ⟨x, List.mem_append_left _ hx, rfl⟩
  | set other value =>
    rw [OptChange.merge] at h
    split_ifs at h
    cases h
    refine List.mem_map.mpr ⟨_, List.mem_map.mpr ⟨x, hx, rfl⟩, ?_⟩
    split_ifs with hName
    · exact hName.symm
    · rfl
  | drop other =>
    rw [OptChange.merge] at h
    split_ifs at h
    cases h
    refine List.mem_map.mpr ⟨x, List.mem_filter.mpr ⟨hx, ?_⟩, rfl⟩
    have hOther : x.1 ≠ other := fun hName => hKept (by rw [hName])
    simp [named, hOther]

theorem merges_keep {changes : List OptChange} {merged : OptionList} {name : Bytes}
    (h : Trace.run OptChange.merge changes options = .ok merged)
    (hMem : name ∈ options.map Prod.fst) (hKept : .drop name ∉ changes) :
    name ∈ merged.map Prod.fst := by
  induction changes generalizing options with
  | nil =>
    cases h
    exact hMem
  | cons change changes ih =>
    obtain ⟨next, hNext, h⟩ := Trace.run_cons_ok.mp h
    rw [List.mem_cons, not_or] at hKept
    exact ih h (OptChange.merge_keeps hNext hMem (Ne.symm hKept.1)) hKept.2

/-- A caller who is no superuser can change the options of an object that has superuser
options only by dropping each of these in the same statement. -/
theorem alter_drops_restricted {s : Statement} (hCaller : s.superuser = false)
    {changes : List OptChange} (hAlter : s.action = .alter changes) {c : Catalog}
    {old options : OptionList} (hOld : c s.id = some old)
    (hOutcome : s.outcome c = .ok (some options)) {d : OptionDef}
    (hFind : findOption d.name s.id.context = some d) (hPriv : d.priv = .superuser)
    (hNamed : d.name ∈ old.map Prod.fst) :
    .drop d.name ∈ changes ∧ d.name ∉ options.map Prod.fst := by
  have hGone : d.name ∉ options.map Prod.fst := by
    intro hMem
    obtain ⟨x, hx, hName⟩ := List.mem_map.mp hMem
    have hValid := validated_of_validator (s.outcome_validated hOutcome)
    obtain ⟨d', hFind', hOption⟩ := hValid.known x hx
    rw [hName] at hFind'
    cases hFind.symm.trans hFind'
    rw [hCaller] at hOption
    exact (priv_of_validateOption hOption).1 hPriv
  refine ⟨by_contra fun hKept => hGone ?_, hGone⟩
  simp only [Statement.outcome, hAlter, hOld] at hOutcome
  obtain ⟨merged, hMerge, hOutcome⟩ := Trace.bind_ok.mp hOutcome
  split at hOutcome
  · cases hOutcome
    exact merges_keep hMerge hNamed hKept
  · cases hOutcome

/-- The one who may not set the file may drop it. -/
theorem alter_drops_restricted_tls :
    OptChange.drop (ascii "tls_ca_file") ∈ [OptChange.drop (ascii "tls_ca_file")] ∧
      ascii "tls_ca_file" ∉ [(ascii "port", ascii " 6380")].map Prod.fst :=
  alter_drops_restricted
    (s := ⟨false, .server 1, .alter [.drop (ascii "tls_ca_file")]⟩) rfl rfl
    (c := Catalog.run tlsSetup) tlsSetup_server rfl
    (d := { name := ascii "tls_ca_file", context := .server, kind := .path, priv := .superuser })
    (by decide +kernel) rfl (by decide +kernel)

section Connections

variable [Pool.SysCache]

/-- Who is no superuser and has no password gets a connection only through a mapping that
a superuser's statement left. -/
theorem passwordless_connection_by_superuser (statements : List Statement) {umid : Nat}
    {options : OptionList} (h : Catalog.run statements (.userMapping umid) = some options)
    {o : Pool.UserOptions} (hRead : readUserOptions options = .ok o)
    (hPassword : o.password = none) (userid : Nat) (server : Pool.ForeignServer)
    (clusterAware : Bool) (node : Option Node) {w w' : Pool.World} {k : Pool.ConnKey}
    (hConn : Pool.getConnectionInternal server
      { umid := umid, userid := userid, superuser := false, options := o } clusterAware node w =
        .ok k w') :
    ∃ s, LeftBy statements (.userMapping umid) options s ∧ s.superuser = true := by
  obtain ⟨s, hs⟩ := exists_leftBy h
  refine ⟨s, hs, hs.isValidated.superuser_of_restricted ⟨o, hRead, ?_⟩⟩
  have hPasses := Raise.of_ok (Pool.wp_getConnectionInternal
    (Q := fun _ _ => Pool.refuses server
      { umid := umid, userid := userid, superuser := false, options := o } clusterAware = false)
    (E := fun _ => True) (fun _ => trivial) (fun _ _ _ _ => trivial)
    (fun _ _ _ hPasses _ => Raise.wp_of_forall (fun _ _ => hPasses) fun _ => trivial)
    fun _ _ _ hPasses _ => hPasses) hConn
  rw [Pool.refuses, Bool.or_eq_false_iff] at hPasses
  simpa [Pool.passwordMissing, hPassword] using hPasses.1

end Connections

theorem passwordless_connection_by_superuser_off :
    ∃ s, LeftBy tlsSetup (.userMapping 7) [(ascii "password_required", ascii "off")] s ∧
      s.superuser = true := by
  let _ := Pool.plainCache
  exact passwordless_connection_by_superuser tlsSetup (by decide +kernel) rfl rfl 10
    Pool.plainServer false none
    (w := ⟨Pool.plainResidue, Pool.topSubid, 0, fun _ => none, [], Pool.answered 9⟩) rfl

/-! ## Tables -/

/-- The attribute at a place: what the catalog has of its options, or a dropped one. -/
def Catalog.attribute (c : Catalog) (relid : Nat) (types : Nat → ColType × Bool) (i : Nat) :
    Attribute :=
  match c (.column relid (i + 1)) with
  | some options => ⟨false, (types i).1, (types i).2, options⟩
  | none => ⟨true, .other, false, []⟩

def Catalog.attributes (c : Catalog) (relid natts : Nat) (types : Nat → ColType × Bool) :
    List Attribute :=
  (List.range natts).map (c.attribute relid types)

theorem attributes_validated (statements : List Statement) (relid natts : Nat)
    (types : Nat → ColType × Bool) :
    ∀ a ∈ (Catalog.run statements).attributes relid natts types,
      ∃ superuser, Validated superuser .column a.options := by
  intro a ha
  obtain ⟨i, -, rfl⟩ := List.mem_map.mp ha
  unfold Catalog.attribute
  split
  · rename_i options hOptions
    obtain ⟨s, hs⟩ := exists_leftBy hOptions
    exact ⟨s.superuser, hs.isValidated⟩
  · exact ⟨true, by simp, by simp⟩

/-- A table of the catalog has a definition, and past the validator the map's check of its
options has one refusal left: a packed string, where the type is not named. -/
theorem catalog_table_checks (statements : List Statement) {relid : Nat} {options : OptionList}
    (h : Catalog.run statements (.table relid) = some options) (natts : Nat)
    (types : Nat → ColType × Bool) :
    ∃ t, tableDef relid options ((Catalog.run statements).attributes relid natts types) = .ok t ∧
      (t.checkTableOptions = .ok () ∨ t.checkTableOptions = .error .packedString ∧
        ascii "tabletype" ∉ options.map Prod.fst) := by
  obtain ⟨s, hs⟩ := exists_leftBy h
  have hValid := hs.isValidated
  obtain ⟨u, -, hChecks⟩ := Trace.bind_ok.mp hs.validated
  obtain ⟨u', hKeys, hShape⟩ := Trace.bind_ok.mp hChecks
  obtain ⟨gathered, hGathered, -⟩ := Trace.bind_ok.mp hShape
  obtain ⟨o, ho, -⟩ := foldTableOptions_agrees hValid hGathered
  obtain ⟨columns, hColumns⟩ := Trace.exists_mapM_ok (f := Attribute.columnDef) fun a ha => by
    obtain ⟨superuser, hColumn⟩ := attributes_validated statements relid natts types a ha
    obtain ⟨o, ho⟩ := foldColumnOptions_ok hColumn
    unfold Attribute.columnDef
    split
    · exact ⟨_, rfl⟩
    · exact ⟨_, congrArg (Except.map _) ho⟩
  obtain ⟨t, ht⟩ : ∃ t, tableDef relid options
      ((Catalog.run statements).attributes relid natts types) = .ok t := by
    unfold tableDef
    exact ⟨_, bind_ok.mpr ⟨o, ho, bind_ok.mpr ⟨columns, hColumns, rfl⟩⟩⟩
  exact ⟨t, ht, checkTableOptions_of_checks hValid hKeys hShape ht⟩

/-- The types of the columns of the packed table. -/
def packedTypes : Nat → ColType × Bool
  | 1 => (.textArray, false)
  | _ => (.other, false)

def packedTable : OptionList :=
  [(ascii "tabletype", ascii "list"), (ascii "legacy_value", ascii "on")]

theorem tlsSetup_table : Catalog.run tlsSetup (.table 16) = some packedTable := by
  decide +kernel

theorem catalog_table_checks_packed :
    ∃ t, tableDef 16 packedTable ((Catalog.run tlsSetup).attributes 16 2 packedTypes) = .ok t ∧
      (t.checkTableOptions = .ok () ∨ t.checkTableOptions = .error .packedString ∧
        ascii "tabletype" ∉ packedTable.map Prod.fst) :=
  catalog_table_checks tlsSetup tlsSetup_table 2 packedTypes

end ValkeyFdw.Options
