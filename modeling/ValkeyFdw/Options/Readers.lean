import ValkeyFdw.Options.Parse
import ValkeyFdw.Pool.Conn

/-!
# The validator and the readers

The validator sees the whole option list of one object, each value with the parser of
its row, and the caller's privilege; for a table it also looks at combinations. The
readers go over the same list later: unknown names are skipped, a name that the list
gives twice would count with its last value.

`Validated` is what the validator leaves to rely on: the readers take every such list
(`readServerOptions_ok` and so on). `secrets_not_told`: what its verdict does not depend on.
-/

namespace ValkeyFdw.Options

/-- The options of one object, as the catalog holds them. -/
abbrev OptionList := List (Bytes × Bytes)

/-! ## The validator -/

section Validator

variable (superuser : Bool)

/-- The text of an option by its kind. -/
def OptionDef.validateValue (d : OptionDef) (value : Bytes) : Except OptionError Unit :=
  match d.kind with
  | .string => .ok ()
  | .int _ _ => (d.parseInt value).map fun _ => ()
  | .bool => (d.parseBool value).map fun _ => ()
  | .enum _ => (d.parseEnum value).map fun _ => ()
  | .path => (d.parsePath value).map fun _ => ()

/-- What the caller's privilege allows. -/
def OptionDef.checkOptionPriv (d : OptionDef) (value : Bytes) : Except OptionError Unit :=
  match d.priv with
  | .none => .ok ()
  | .superuser => if superuser then .ok () else .error (.deniedSet d.name)
  | .superuserToDisable =>
    (d.parseBool value).bind fun b =>
      if b || superuser then .ok () else .error (.deniedDisable d.name)

/-- The value first, the privilege second. -/
def OptionDef.validateOption (d : OptionDef) (value : Bytes) : Except OptionError Unit :=
  (d.validateValue value).bind fun _ => d.checkOptionPriv superuser value

/-- Each option in turn: it is known here, not repeated, well formed and allowed. -/
def validateAll (context : Context) (seen : List Bytes) : OptionList → Except OptionError Unit
  | [] => .ok ()
  | (name, value) :: rest =>
    match findOption name context with
    | none => .error (.invalidName name context)
    | some d =>
      if name ∈ seen then .error (.duplicate name)
      else (d.validateOption superuser value).bind fun _ => validateAll context (name :: seen) rest

def exclusiveKeys : List Bytes := [ascii "singleton_key", ascii "keyprefix", ascii "keyset"]

/-- At most one of the options that say which keys the table has. -/
def checkKeyOptions (options : OptionList) : Except OptionError Unit :=
  let named := (options.map Prod.fst).filter (· ∈ exclusiveKeys)
  if 1 < named.length then .error (.keyOptions named) else .ok ()

/-- What the check of a table's shape gathers from its options. -/
structure Shape where
  tabletype : Option Bytes := none
  legacy : Bool := false
  indexed : Bool := false

/-- What one option says about the shape of a table. -/
def Shape.add (s : Shape) (name value : Bytes) : Except OptionError Shape :=
  if name = ascii "tabletype" then .ok { s with tabletype := some value }
  else if name = ascii "legacy_value" then
    (defGetBoolean name value).map fun b => { s with legacy := b }
  else if name = ascii "search_index" then .ok { s with indexed := true }
  else .ok s

/-- What a list of options says about it. -/
def Shape.gather (s : Shape) : OptionList → Except OptionError Shape
  | [] => .ok s
  | (name, value) :: rest => (s.add name value).bind fun s => s.gather rest

/-- The combinations of options that make no table. -/
def checkShapeOptions (options : OptionList) : Except OptionError Unit :=
  (Shape.gather {} options).bind fun s =>
    if s.tabletype = some (ascii "vector") ∧ s.indexed = false then .error .vectorWithoutIndex
    else if s.legacy ∧ s.tabletype = some (ascii "string") then .error .packedString
    else .ok ()

/-- The validator of the wrapper, called with the merged list. -/
def validator (context : Context) (options : OptionList) : Except OptionError Unit :=
  (validateAll superuser context [] options).bind fun _ =>
    if context = .table then (checkKeyOptions options).bind fun _ => checkShapeOptions options
    else .ok ()

end Validator

/-! ## The readers -/

/-- The options of a server, as they are used. -/
structure ServerOptions where
  host : Option Bytes := none
  port : Int := 0
  unixSocketPath : Option Bytes := none
  cluster : Bool := false
  preferReplica : Bool := false
  tls : Bool := false
  tlsCaFile : Option Bytes := none
  tlsCertFile : Option Bytes := none
  tlsKeyFile : Option Bytes := none
  tlsSni : Option Bytes := none
  tlsVerify : Nat := 0
  connectTimeoutMs : Int := 0
  commandTimeoutMs : Int := 0
  pipelineBatch : Int := 0
  scanCount : Int := 0
  maxReplyElements : Int := 0
  readerBufferBytes : Int := 0
  writeMaxOps : Int := 0
  writeMaxBytes : Int := 0
  writeRetryCount : Int := 0

/-- The default of an integer option of a server. Only a row without one gives 0, which
the source asserts does not happen. -/
def defaultInt (name : Bytes) : Except OptionError Int :=
  match findOption name .server with
  | some d =>
    match d.defval with
    | some text => d.parseInt text
    | none => .ok 0
  | none => .ok 0

/-- What a server has that names no option. -/
def serverDefaults : Except OptionError ServerOptions := do
  return {
    host := (findOption (ascii "host") .server).bind OptionDef.defval
    port := ← defaultInt (ascii "port")
    connectTimeoutMs := ← defaultInt (ascii "connect_timeout_ms")
    commandTimeoutMs := ← defaultInt (ascii "command_timeout_ms")
    pipelineBatch := ← defaultInt (ascii "pipeline_batch")
    scanCount := ← defaultInt (ascii "scan_count")
    maxReplyElements := ← defaultInt (ascii "max_reply_elements")
    readerBufferBytes := ← defaultInt (ascii "reader_buffer_bytes")
    writeMaxOps := ← defaultInt (ascii "write_max_ops")
    writeRetryCount := ← defaultInt (ascii "write_retry_count")
    writeMaxBytes := ← defaultInt (ascii "write_max_bytes")
    tlsVerify := 0 }

/-- One option of a server is read into its field. -/
def applyServerOption (d : OptionDef) (value : Bytes) (o : ServerOptions) :
    Except OptionError ServerOptions :=
  if d.name = ascii "host" then .ok { o with host := some value }
  else if d.name = ascii "port" then (d.parseInt value).map fun n => { o with port := n }
  else if d.name = ascii "unix_socket_path" then .ok { o with unixSocketPath := some value }
  else if d.name = ascii "cluster" then (d.parseBool value).map fun b => { o with cluster := b }
  else if d.name = ascii "prefer_replica" then
    (d.parseBool value).map fun b => { o with preferReplica := b }
  else if d.name = ascii "tls" then (d.parseBool value).map fun b => { o with tls := b }
  else if d.name = ascii "tls_ca_file" then
    (d.parsePath value).map fun p => { o with tlsCaFile := some p }
  else if d.name = ascii "tls_cert_file" then
    (d.parsePath value).map fun p => { o with tlsCertFile := some p }
  else if d.name = ascii "tls_key_file" then
    (d.parsePath value).map fun p => { o with tlsKeyFile := some p }
  else if d.name = ascii "tls_sni" then .ok { o with tlsSni := some value }
  else if d.name = ascii "tls_verify" then
    (d.parseEnum value).map fun i => { o with tlsVerify := i }
  else if d.name = ascii "connect_timeout_ms" then
    (d.parseInt value).map fun n => { o with connectTimeoutMs := n }
  else if d.name = ascii "command_timeout_ms" then
    (d.parseInt value).map fun n => { o with commandTimeoutMs := n }
  else if d.name = ascii "pipeline_batch" then
    (d.parseInt value).map fun n => { o with pipelineBatch := n }
  else if d.name = ascii "scan_count" then
    (d.parseInt value).map fun n => { o with scanCount := n }
  else if d.name = ascii "max_reply_elements" then
    (d.parseInt value).map fun n => { o with maxReplyElements := n }
  else if d.name = ascii "reader_buffer_bytes" then
    (d.parseInt value).map fun n => { o with readerBufferBytes := n }
  else if d.name = ascii "write_max_ops" then
    (d.parseInt value).map fun n => { o with writeMaxOps := n }
  else if d.name = ascii "write_retry_count" then
    (d.parseInt value).map fun n => { o with writeRetryCount := n }
  else if d.name = ascii "write_max_bytes" then
    (d.parseInt value).map fun n => { o with writeMaxBytes := n }
  else .ok o

/-- Apply the options of a context one after another; a name of another catalog is skipped. -/
def readOptions {σ : Type} (context : Context)
    (apply : OptionDef → Bytes → σ → Except OptionError σ) :
    OptionList → σ → Except OptionError σ
  | [], s => .ok s
  | (name, value) :: rest, s =>
    match findOption name context with
    | none => readOptions context apply rest s
    | some d => (apply d value s).bind (readOptions context apply rest)

/-- The reader of a server's options. -/
def readServerOptions (options : OptionList) : Except OptionError ServerOptions :=
  serverDefaults.bind (readOptions .server applyServerOption options)

/-- One option of a user mapping. -/
def applyUserOption (d : OptionDef) (value : Bytes) (o : Pool.UserOptions) :
    Except OptionError Pool.UserOptions :=
  if d.name = ascii "username" then .ok { o with username := some value }
  else if d.name = ascii "password" then .ok { o with password := some value }
  else if d.name = ascii "password_required" then
    (d.parseBool value).map fun b => { o with passwordRequired := b }
  else .ok o

/-- The reader of a user mapping's options. -/
def readUserOptions (options : OptionList) : Except OptionError Pool.UserOptions :=
  readOptions .userMapping applyUserOption options ⟨none, none, true⟩

/-- The options of a table, as the map takes them. -/
structure TableOptions where
  tabletype : TableType := .string
  database : Int := 0
  keyprefix : Option Bytes := none
  keyset : Option Bytes := none
  singletonKey : Option Bytes := none
  searchIndex : Option Bytes := none
  legacyValue : Bool := false
  readonly : Bool := false

/-- The table type by its place among the permitted texts. -/
def tableTypeAt : Nat → TableType
  | 0 => .string
  | 1 => .hash
  | 2 => .list
  | 3 => .set
  | 4 => .zset
  | _ => .vector

/-- One option of a table. -/
def applyTableOption (d : OptionDef) (value : Bytes) (o : TableOptions) :
    Except OptionError TableOptions :=
  if d.name = ascii "tabletype" then
    (d.parseEnum value).map fun i => { o with tabletype := tableTypeAt i }
  else if d.name = ascii "keyprefix" then .ok { o with keyprefix := some value }
  else if d.name = ascii "keyset" then .ok { o with keyset := some value }
  else if d.name = ascii "singleton_key" then .ok { o with singletonKey := some value }
  else if d.name = ascii "search_index" then .ok { o with searchIndex := some value }
  else if d.name = ascii "database" then (d.parseInt value).map fun n => { o with database := n }
  else if d.name = ascii "legacy_value" then
    (d.parseBool value).map fun b => { o with legacyValue := b }
  else if d.name = ascii "readonly" then
    (d.parseBool value).map fun b => { o with readonly := b }
  else .ok o

/-- The loop of `vfdw_map_read_table_options`. The check that follows it there is
`TableDef.checkTableOptions`, which `mapBuild` makes. -/
def foldTableOptions (options : OptionList) : Except OptionError TableOptions :=
  readOptions .table applyTableOption options {}

/-- How a column is indexed. -/
inductive IndexType where
  | tag
  | numeric
  | vector
deriving DecidableEq

/-- The options of a column. -/
structure ColumnOptions where
  key : Bool := false
  member : Bool := false
  score : Bool := false
  ttl : Bool := false
  position : Bool := false
  distance : Bool := false
  field : Option Bytes := none
  indexType : Option IndexType := none

/-- The parser runs for what it refuses; the text is told apart again. -/
def mapIndexType (d : OptionDef) (value : Bytes) : Except OptionError IndexType :=
  (d.parseEnum value).bind fun _ =>
    if value = ascii "tag" then .ok .tag
    else if value = ascii "numeric" then .ok .numeric
    else if value = ascii "vector" then .ok .vector
    else .error (.indexType value)

/-- One option of a column. -/
def applyColumnOption (d : OptionDef) (value : Bytes) (o : ColumnOptions) :
    Except OptionError ColumnOptions :=
  if d.name = ascii "key" then (d.parseBool value).map fun b => { o with key := b }
  else if d.name = ascii "field" then .ok { o with field := some value }
  else if d.name = ascii "member" then (d.parseBool value).map fun b => { o with member := b }
  else if d.name = ascii "score" then (d.parseBool value).map fun b => { o with score := b }
  else if d.name = ascii "ttl" then (d.parseBool value).map fun b => { o with ttl := b }
  else if d.name = ascii "position" then (d.parseBool value).map fun b => { o with position := b }
  else if d.name = ascii "distance" then (d.parseBool value).map fun b => { o with distance := b }
  else if d.name = ascii "index_type" then
    (mapIndexType d value).map fun t => { o with indexType := some t }
  else .ok o

/-- The loop of `vfdw_map_read_column_options`. The check for a single source that follows
it there is made by `ColumnDef.readOptions`. -/
def foldColumnOptions (options : OptionList) : Except OptionError ColumnOptions :=
  readOptions .column applyColumnOption options {}

/-! ## What the validator leaves to rely on -/

/-- Every option is known where it stands, its value passes, and it stands there once. -/
structure Validated (superuser : Bool) (context : Context) (options : OptionList) : Prop where
  known : ∀ x ∈ options, ∃ d, findOption x.1 context = some d ∧
    d.validateOption superuser x.2 = .ok ()
  nodup : (options.map Prod.fst).Nodup

variable {superuser : Bool} {context : Context} {options : OptionList} {d : OptionDef}

theorem Validated.tail {x : Bytes × Bytes} {rest : OptionList}
    (h : Validated superuser context (x :: rest)) :
    Validated superuser context rest where
  known y hy := h.known y (List.mem_cons_of_mem _ hy)
  nodup := (List.nodup_cons.mp h.nodup).2

theorem validateAll_ok {seen : List Bytes} (h : validateAll superuser context seen options = .ok ())
    :
    Validated superuser context options ∧ ∀ x ∈ options, x.1 ∉ seen := by
  induction options generalizing seen with
  | nil => exact ⟨⟨by simp, by simp⟩, by simp⟩
  | cons x rest ih =>
    obtain ⟨name, value⟩ := x
    unfold validateAll at h
    split at h
    · cases h
    · rename_i d hFind
      split at h
      · cases h
      · rename_i hSeen
        obtain ⟨u, hOption, hRest⟩ := Trace.bind_ok.mp h
        obtain ⟨hValid, hNew⟩ := ih hRest
        refine ⟨⟨?_, ?_⟩, ?_⟩
        · exact List.forall_mem_cons.mpr ⟨⟨d, hFind, hOption⟩, hValid.known⟩
        · refine List.nodup_cons.mpr ⟨fun hMem => ?_, hValid.nodup⟩
          obtain ⟨y, hy, hName⟩ := List.mem_map.mp hMem
          exact hNew y hy (hName ▸ List.mem_cons_self)
        · refine List.forall_mem_cons.mpr ⟨hSeen, fun y hy => ?_⟩
          exact fun hMem => hNew y hy (List.mem_cons_of_mem _ hMem)

theorem validated_of_validator (h : validator superuser context options = .ok ()) :
    Validated superuser context options := by
  obtain ⟨u, hAll, -⟩ := Trace.bind_ok.mp h
  exact (validateAll_ok hAll).1

theorem findOption_spec {name : Bytes} (h : findOption name context = some d) :
    d ∈ vfdwOptions ∧ d.context = context ∧ d.name = name := by
  have hFound := List.find?_some h
  simp only [Bool.and_eq_true, decide_eq_true_eq] at hFound
  exact ⟨List.mem_of_find?_eq_some h, hFound⟩

/-- The rows of one context. -/
def defsOf : Context → List OptionDef
  | .server => serverDefs
  | .userMapping => userMappingDefs
  | .table => tableDefs
  | .column => columnDefs

theorem mem_defsOf {name : Bytes} (h : findOption name context = some d) : d ∈ defsOf context := by
  obtain ⟨hMem, rfl, -⟩ := findOption_spec h
  have hAll : ∀ d ∈ vfdwOptions, d ∈ defsOf d.context := by decide
  exact hAll d hMem

section Values

variable {d : OptionDef} {value : Bytes} {superuser : Bool}

theorem value_of_validateOption (h : d.validateOption superuser value = .ok ()) :
    d.validateValue value = .ok () := by
  obtain ⟨u, hValue, -⟩ := Trace.bind_ok.mp h
  exact hValue

theorem map_eq_ok {α β : Type} {x : Except OptionError α} {f : α → β} {b : β}
    (h : x.map f = .ok b) : ∃ a, x = .ok a := by
  cases x with
  | error e => cases h
  | ok a => exact ⟨a, rfl⟩

theorem validateValue_int {lo hi : Int} (hKind : d.kind = .int lo hi)
    (h : d.validateValue value = .ok ()) : ∃ n, d.parseInt value = .ok n ∧ lo ≤ n ∧ n ≤ hi := by
  rw [OptionDef.validateValue, hKind] at h
  obtain ⟨n, hn⟩ := map_eq_ok h
  have hBounds := parseInt_bounds hn
  simp only [OptionDef.minval, OptionDef.maxval, hKind] at hBounds
  exact ⟨n, hn, hBounds⟩

theorem validateValue_bool (hKind : d.kind = .bool) (h : d.validateValue value = .ok ()) :
    ∃ b, d.parseBool value = .ok b := by
  rw [OptionDef.validateValue, hKind] at h
  exact map_eq_ok h

theorem validateValue_enum {values : List Bytes} (hKind : d.kind = .enum values)
    (h : d.validateValue value = .ok ()) :
    ∃ i, d.parseEnum value = .ok i ∧ values[i]? = some value := by
  rw [OptionDef.validateValue, hKind] at h
  obtain ⟨i, hi⟩ := map_eq_ok h
  refine ⟨i, hi, ?_⟩
  unfold OptionDef.parseEnum at hi
  split at hi
  · rename_i j hFind
    cases hi
    rw [OptionDef.values, hKind] at hFind
    obtain ⟨hLt, hAt, -⟩ := List.findIdx?_eq_some_iff_getElem.mp hFind
    rw [List.getElem?_eq_getElem hLt, of_decide_eq_true hAt]
  · cases hi

theorem validateValue_path (hKind : d.kind = .path) (h : d.validateValue value = .ok ()) :
    d.parsePath value = .ok value := by
  rw [OptionDef.validateValue, hKind] at h
  obtain ⟨p, hp⟩ := map_eq_ok h
  unfold OptionDef.parsePath at hp ⊢
  split at hp
  · cases hp
  · rename_i hNonempty
    rw [if_neg hNonempty]
    split at hp
    · cases hp
    · rename_i hAbsolute
      rw [if_neg hAbsolute]

end Values

theorem priv_of_validateOption {value : Bytes} (h : d.validateOption false value = .ok ()) :
    d.priv ≠ .superuser ∧ (d.priv = .superuserToDisable → d.parseBool value = .ok true) := by
  obtain ⟨u, -, hPriv⟩ := Trace.bind_ok.mp h
  unfold OptionDef.checkOptionPriv at hPriv
  split at hPriv
  · rename_i hNone
    simp [hNone]
  · cases hPriv
  · rename_i hDisable
    obtain ⟨b, hb, hPriv⟩ := Trace.bind_ok.mp hPriv
    cases b with
    | true => exact ⟨by simp [hDisable], fun _ => hb⟩
    | false => cases hPriv

/-- The rule for the readers: every option that stands there is read, and keeps `I`. -/
theorem readOptions_spec {σ : Type} {apply : OptionDef → Bytes → σ → Except OptionError σ}
    {I : σ → Prop} (hApply : ∀ x ∈ options, ∀ d, findOption x.1 context = some d → ∀ s, I s →
      ∃ s', apply d x.2 s = .ok s' ∧ I s') {s : σ} (hs : I s) :
    ∃ s', readOptions context apply options s = .ok s' ∧ I s' := by
  induction options generalizing s with
  | nil => exact ⟨s, rfl, hs⟩
  | cons x rest ih =>
    rw [List.forall_mem_cons] at hApply
    unfold readOptions
    split
    · exact ih hApply.2 hs
    · rename_i d hFind
      obtain ⟨s₁, hs₁, hI⟩ := hApply.1 d hFind s hs
      rw [hs₁]
      exact ih hApply.2 hI

/-! ## Servers -/

/-- Every number is within the bounds of its row. -/
structure ServerOptions.InBounds (o : ServerOptions) : Prop where
  port : 1 ≤ o.port ∧ o.port ≤ 65535
  tlsVerify : o.tlsVerify < 3
  connectTimeoutMs : 1 ≤ o.connectTimeoutMs ∧ o.connectTimeoutMs ≤ 3600000
  commandTimeoutMs : 1 ≤ o.commandTimeoutMs ∧ o.commandTimeoutMs ≤ 3600000
  pipelineBatch : 1 ≤ o.pipelineBatch ∧ o.pipelineBatch ≤ 100000
  scanCount : 1 ≤ o.scanCount ∧ o.scanCount ≤ 1000000
  maxReplyElements : 1 ≤ o.maxReplyElements ∧ o.maxReplyElements ≤ 1000000000
  readerBufferBytes : 1024 ≤ o.readerBufferBytes ∧ o.readerBufferBytes ≤ 1073741824
  writeMaxOps : 1 ≤ o.writeMaxOps ∧ o.writeMaxOps ≤ 1000000
  writeMaxBytes : 65536 ≤ o.writeMaxBytes ∧ o.writeMaxBytes ≤ 1073741824
  writeRetryCount : 0 ≤ o.writeRetryCount ∧ o.writeRetryCount ≤ 10

/-- The server process opens no file that the options name. -/
structure ServerOptions.NoFiles (o : ServerOptions) : Prop where
  tlsCaFile : o.tlsCaFile = none
  tlsCertFile : o.tlsCertFile = none
  tlsKeyFile : o.tlsKeyFile = none

theorem serverDefaults_ok : ∃ o, serverDefaults = .ok o ∧ o.InBounds ∧ o.NoFiles := by
  refine ⟨_, rfl, ?_, ⟨rfl, rfl, rfl⟩⟩
  constructor <;> decide

theorem applyServerOption_ok (hd : d ∈ serverDefs) {value : Bytes}
    (hValue : d.validateValue value = .ok ()) (o : ServerOptions) :
    ∃ o', applyServerOption d value o = .ok o' ∧ (o.InBounds → o'.InBounds) ∧
      (d.priv = .none → o.NoFiles → o'.NoFiles) := by
  simp only [serverDefs, List.mem_cons, List.not_mem_nil, or_false] at hd
  rcases hd with rfl | rfl | rfl | rfl | rfl | rfl | rfl | rfl | rfl | rfl | rfl | rfl | rfl |
    rfl | rfl | rfl | rfl | rfl | rfl | rfl
  · exact ⟨_, rfl, fun h => { h with }, fun _ h => { h with }⟩
  · obtain ⟨n, hn, hBounds⟩ := validateValue_int rfl hValue
    exact ⟨_, congrArg (Except.map _) hn, fun h => { h with port := hBounds },
      fun _ h => { h with }⟩
  · exact ⟨_, rfl, fun h => { h with }, fun _ h => { h with }⟩
  · obtain ⟨b, hb⟩ := validateValue_bool rfl hValue
    exact ⟨_, congrArg (Except.map _) hb, fun h => { h with }, fun _ h => { h with }⟩
  · obtain ⟨b, hb⟩ := validateValue_bool rfl hValue
    exact ⟨_, congrArg (Except.map _) hb, fun h => { h with }, fun _ h => { h with }⟩
  · obtain ⟨b, hb⟩ := validateValue_bool rfl hValue
    exact ⟨_, congrArg (Except.map _) hb, fun h => { h with }, fun _ h => { h with }⟩
  · have hp := validateValue_path rfl hValue
    exact ⟨_, congrArg (Except.map _) hp, fun h => { h with }, fun hPriv => by cases hPriv⟩
  · have hp := validateValue_path rfl hValue
    exact ⟨_, congrArg (Except.map _) hp, fun h => { h with }, fun hPriv => by cases hPriv⟩
  · have hp := validateValue_path rfl hValue
    exact ⟨_, congrArg (Except.map _) hp, fun h => { h with }, fun hPriv => by cases hPriv⟩
  · exact ⟨_, rfl, fun h => { h with }, fun _ h => { h with }⟩
  · obtain ⟨i, hi, hAt⟩ := validateValue_enum rfl hValue
    have hLt : i < 3 := (List.getElem?_eq_some_iff.mp hAt).1
    exact ⟨_, congrArg (Except.map _) hi, fun h => { h with tlsVerify := hLt },
      fun _ h => { h with }⟩
  all_goals obtain ⟨n, hn, hBounds⟩ := validateValue_int rfl hValue
  all_goals refine ⟨_, congrArg (Except.map _) hn, fun h => ?_, fun _ h => { h with }⟩
  · exact { h with connectTimeoutMs := hBounds }
  · exact { h with commandTimeoutMs := hBounds }
  · exact { h with pipelineBatch := hBounds }
  · exact { h with scanCount := hBounds }
  · exact { h with maxReplyElements := hBounds }
  · exact { h with readerBufferBytes := hBounds }
  · exact { h with writeMaxOps := hBounds }
  · exact { h with writeMaxBytes := hBounds }
  · exact { h with writeRetryCount := hBounds }

theorem readServerOptions_ok (h : Validated superuser .server options) :
    ∃ o, readServerOptions options = .ok o ∧ o.InBounds ∧ (superuser = false → o.NoFiles) := by
  obtain ⟨start, hStart, hBounds, hFiles⟩ := serverDefaults_ok
  rw [readServerOptions, hStart]
  refine readOptions_spec
    (I := fun o : ServerOptions => o.InBounds ∧ (superuser = false → o.NoFiles)) ?_
    ⟨hBounds, fun _ => hFiles⟩
  intro x hx d hFind o ho
  obtain ⟨d', hFind', hOption⟩ := h.known x hx
  cases hFind.symm.trans hFind'
  obtain ⟨o', ho', hIn, hNo⟩ := applyServerOption_ok (mem_defsOf hFind)
    (value_of_validateOption hOption) o
  refine ⟨o', ho', hIn ho.1, fun hSuper => hNo ?_ (ho.2 hSuper)⟩
  subst hSuper
  have hRows : ∀ d ∈ serverDefs, d.priv = .none ∨ d.priv = .superuser := by decide
  exact (hRows d (mem_defsOf hFind)).resolve_right (priv_of_validateOption hOption).1

/-! ## User mappings -/

theorem readUserOptions_ok (h : Validated superuser .userMapping options) :
    ∃ o, readUserOptions options = .ok o ∧ (o.passwordRequired = false → superuser = true) := by
  refine readOptions_spec
    (I := fun o : Pool.UserOptions => o.passwordRequired = false → superuser = true) ?_
    fun hOff => by cases hOff
  intro x hx d hFind o ho
  obtain ⟨d', hFind', hOption⟩ := h.known x hx
  cases hFind.symm.trans hFind'
  have hValue := value_of_validateOption hOption
  have hd := mem_defsOf hFind
  simp only [defsOf, userMappingDefs, List.mem_cons, List.not_mem_nil, or_false] at hd
  rcases hd with rfl | rfl | rfl
  · exact ⟨_, rfl, ho⟩
  · exact ⟨_, rfl, ho⟩
  · obtain ⟨b, hb⟩ := validateValue_bool rfl hValue
    refine ⟨_, congrArg (Except.map _) hb, fun hOff => ?_⟩
    cases superuser with
    | true => rfl
    | false =>
      cases hb.symm.trans ((priv_of_validateOption hOption).2 rfl)
      cases hOff

/-! ## Columns -/

theorem mapIndexType_ok (hKind : d.kind = .enum indexTypeValues) {value : Bytes}
    (hValue : d.validateValue value = .ok ()) : ∃ t, mapIndexType d value = .ok t := by
  obtain ⟨i, hi, hAt⟩ := validateValue_enum hKind hValue
  have hMem := List.mem_of_getElem? hAt
  simp only [indexTypeValues, List.mem_cons, List.not_mem_nil, or_false] at hMem
  rw [mapIndexType, hi]
  rcases hMem with rfl | rfl | rfl
  · exact ⟨.tag, rfl⟩
  · exact ⟨.numeric, rfl⟩
  · exact ⟨.vector, rfl⟩

theorem foldColumnOptions_ok (h : Validated superuser .column options) :
    ∃ o, foldColumnOptions options = .ok o := by
  have hApply : ∀ x ∈ options, ∀ d, findOption x.1 .column = some d → ∀ o : ColumnOptions, True →
      ∃ o', applyColumnOption d x.2 o = .ok o' ∧ True := by
    intro x hx d hFind o _
    obtain ⟨d', hFind', hOption⟩ := h.known x hx
    cases hFind.symm.trans hFind'
    have hValue := value_of_validateOption hOption
    have hd := mem_defsOf hFind
    simp only [defsOf, columnDefs, List.mem_cons, List.not_mem_nil, or_false] at hd
    rcases hd with rfl | rfl | rfl | rfl | rfl | rfl | rfl | rfl
    case inr.inl => exact ⟨_, rfl, trivial⟩
    case inr.inr.inr.inr.inr.inr.inr =>
      obtain ⟨t, ht⟩ := mapIndexType_ok rfl hValue
      exact ⟨_, congrArg (Except.map _) ht, trivial⟩
    all_goals
      obtain ⟨b, hb⟩ := validateValue_bool rfl hValue
      exact ⟨_, congrArg (Except.map _) hb, trivial⟩
  obtain ⟨o, ho, -⟩ := readOptions_spec hApply (s := {}) trivial
  exact ⟨o, ho⟩

/-! ## Secrets -/

/-- All that the verdict on a secret may depend on: whether it is there, and whether it
begins as a path. -/
def secretShape (value : Bytes) : Bool × Bool := (value = [], value.head? = some 0x2f)

/-- An option of the same name with the same value, or with another secret. -/
def SameButSecret (context : Context) (x y : Bytes × Bytes) : Prop :=
  x.1 = y.1 ∧ (x.2 = y.2 ∨ secretShape x.2 = secretShape y.2 ∧
    ∃ d, findOption x.1 context = some d ∧ d.sensitive = true)

theorem validateOption_secret (hd : d ∈ vfdwOptions) (hSecret : d.sensitive = true) {v w : Bytes}
    (hShape : secretShape v = secretShape w) (superuser : Bool) :
    d.validateOption superuser v = d.validateOption superuser w := by
  have hRows : ∀ d ∈ vfdwOptions, d.sensitive = true →
      (d.kind = .string ∨ d.kind = .path) ∧ d.priv ≠ .superuserToDisable := by decide
  obtain ⟨hKind, hPriv⟩ := hRows d hd hSecret
  have hValue : d.validateValue v = d.validateValue w := by
    simp only [secretShape, Prod.mk.injEq, decide_eq_decide] at hShape
    rcases hKind with hKind | hKind
    · simp only [OptionDef.validateValue, hKind]
    · simp only [OptionDef.validateValue, hKind, OptionDef.parsePath, OptionDef.reject, hSecret,
        hShape.1, ne_eq, hShape.2, if_true]
      split_ifs <;> rfl
  have hCheck : d.checkOptionPriv superuser v = d.checkOptionPriv superuser w := by
    unfold OptionDef.checkOptionPriv
    cases hIs : d.priv with
    | none => rfl
    | superuser => rfl
    | superuserToDisable => exact absurd hIs hPriv
  rw [OptionDef.validateOption, OptionDef.validateOption, hValue, hCheck]

/-- Whether a list is accepted, and the error if it is not, is the same for all secrets of
one shape: an error tells nothing of one but that it is empty or no absolute path. -/
theorem secrets_not_told (superuser : Bool) (context : Context) {xs ys : OptionList}
    (h : List.Forall₂ (SameButSecret context) xs ys) :
    validator superuser context xs = validator superuser context ys := by
  have hAll : ∀ seen, validateAll superuser context seen xs =
      validateAll superuser context seen ys := by
    induction h with
    | nil => exact fun _ => rfl
    | @cons x y xs ys hSame _ ih =>
      intro seen
      obtain ⟨name, v⟩ := x
      obtain ⟨_, w⟩ := y
      obtain ⟨rfl, hValue⟩ := hSame
      simp only [validateAll, ih]
      rcases hValue with rfl | ⟨hShape, d, hFind, hSecret⟩
      · rfl
      · rw [hFind]
        simp only [validateOption_secret (findOption_spec hFind).1 hSecret hShape superuser]
  by_cases hTable : context = .table
  · -- A table has no secrets.
    subst hTable
    have hOpen : ∀ d ∈ tableDefs, d.sensitive = false := by decide
    have hEq : xs = ys := by
      refine List.forall₂_eq_eq_eq ▸ h.imp fun x y hSame => ?_
      refine Prod.ext hSame.1 (hSame.2.resolve_right ?_)
      rintro ⟨-, d, hFind, hSecret⟩
      rw [hOpen d (mem_defsOf hFind)] at hSecret
      cases hSecret
    rw [hEq]
  · simp only [validator, hAll, if_neg hTable]

/-- The one key file is refused as the other is. -/
theorem secrets_not_told_key :
    validator true .server [(ascii "tls_key_file", ascii "key.pem")] =
      validator true .server [(ascii "tls_key_file", ascii "hunter2")] :=
  secrets_not_told true .server (.cons ⟨rfl, .inr ⟨rfl, _, rfl, rfl⟩⟩ .nil)

end ValkeyFdw.Options
