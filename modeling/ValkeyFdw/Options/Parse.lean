import ValkeyFdw.Search.Vector
import ValkeyFdw.Table.Render

/-!
# The option table and its parsers

Every option that a server, a user mapping, a table or a column may carry is one row of
`vfdwOptions`: where it may stand, how its text is read, within which bounds, its
documented default, and who may set it. The validator and the readers read a text with
the same parsers.

* `parseInt_bounds`: a number that was read is within the bounds of its row;
* `parseBool_of_defGetBoolean`: the two readings of a boolean agree where both have one.
-/

namespace ValkeyFdw.Options

open Vec (isSpace)

/-! ## The table -/

/-- The catalog an option may appear on. -/
inductive Context where
  | server
  | userMapping
  | table
  | column
deriving DecidableEq

/-- What the text of an option stands for. -/
inductive Kind where
  | string
  | int (minval maxval : Int)
  | bool
  | enum (values : List Bytes)
  | path
deriving DecidableEq

/-- Who may set an option. -/
inductive Priv where
  | none
  | superuser
  /-- Anyone may set it true. -/
  | superuserToDisable
deriving DecidableEq

/-- One row of the table of options. -/
structure OptionDef where
  name : Bytes
  context : Context
  kind : Kind
  defval : Option Bytes := .none
  sensitive : Bool := false
  priv : Priv := .none
deriving DecidableEq

def tabletypeValues : List Bytes :=
  [ascii "string", ascii "hash", ascii "list", ascii "set", ascii "zset", ascii "vector"]

def tlsVerifyValues : List Bytes := [ascii "full", ascii "ca", ascii "none"]

def indexTypeValues : List Bytes := [ascii "tag", ascii "numeric", ascii "vector"]

section Rows

variable (context : Context) (name : String)

def OptionDef.ofString : OptionDef := { name := ascii name, context := context, kind := .string }

def OptionDef.ofInt (minval maxval : Int) (defval : String) : OptionDef :=
  { name := ascii name, context := context, kind := .int minval maxval,
    defval := some (ascii defval) }

def OptionDef.ofBool (defval : String) : OptionDef :=
  { name := ascii name, context := context, kind := .bool, defval := some (ascii defval) }

def OptionDef.ofEnum (values : List Bytes) (defval : Option Bytes) : OptionDef :=
  { name := ascii name, context := context, kind := .enum values, defval := defval }

def OptionDef.ofPath : OptionDef :=
  { name := ascii name, context := context, kind := .path, priv := .superuser }

end Rows

open OptionDef

def serverDefs : List OptionDef :=
  [{ ofString .server "host" with defval := some (ascii "127.0.0.1") },
   ofInt .server "port" 1 65535 "6379",
   ofString .server "unix_socket_path",
   ofBool .server "cluster" "false",
   ofBool .server "prefer_replica" "false",
   ofBool .server "tls" "false",
   ofPath .server "tls_ca_file",
   ofPath .server "tls_cert_file",
   { ofPath .server "tls_key_file" with sensitive := true },
   ofString .server "tls_sni",
   ofEnum .server "tls_verify" tlsVerifyValues (ascii "full"),
   ofInt .server "connect_timeout_ms" 1 3600000 "5000",
   ofInt .server "command_timeout_ms" 1 3600000 "30000",
   ofInt .server "pipeline_batch" 1 100000 "256",
   ofInt .server "scan_count" 1 1000000 "1000",
   ofInt .server "max_reply_elements" 1 1000000000 "8388608",
   ofInt .server "reader_buffer_bytes" 1024 1073741824 "65536",
   ofInt .server "write_max_ops" 1 1000000 "10000",
   ofInt .server "write_max_bytes" 65536 1073741824 "67108864",
   ofInt .server "write_retry_count" 0 10 "3"]

def userMappingDefs : List OptionDef :=
  [ofString .userMapping "username",
   { ofString .userMapping "password" with sensitive := true },
   { ofBool .userMapping "password_required" "true" with priv := .superuserToDisable }]

def tableDefs : List OptionDef :=
  [ofInt .table "database" 0 15 "0",
   ofEnum .table "tabletype" tabletypeValues (ascii "string"),
   ofString .table "keyprefix",
   ofString .table "keyset",
   ofString .table "singleton_key",
   ofString .table "search_index",
   ofBool .table "legacy_value" "false",
   ofBool .table "readonly" "false"]

def columnDefs : List OptionDef :=
  [ofBool .column "key" "false",
   ofString .column "field",
   ofBool .column "member" "false",
   ofBool .column "score" "false",
   ofBool .column "ttl" "false",
   ofBool .column "position" "false",
   ofBool .column "distance" "false",
   ofEnum .column "index_type" indexTypeValues none]

/-- Every option that is accepted anywhere. -/
def vfdwOptions : List OptionDef := serverDefs ++ userMappingDefs ++ tableDefs ++ columnDefs

/-- The row of an option in a context. -/
def findOption (name : Bytes) (context : Context) : Option OptionDef :=
  vfdwOptions.find? fun d => d.context = context && d.name = name

/-! ## Refusals -/

/-- Why a text is no value of an option. -/
inductive Reason where
  | emptyInt
  | notInt
  | range (minval maxval : Int)
  | notBool
  | notEnum (values : List Bytes)
  | emptyPath
  | relativePath
deriving DecidableEq

/-- The refusals of an option. -/
inductive OptionError where
  /-- `shown` is the text that was refused, unless the option is sensitive. -/
  | invalidValue (name : Bytes) (reason : Reason) (shown : Option Bytes)
  | invalidName (name : Bytes) (context : Context)
  | duplicate (name : Bytes)
  | deniedSet (name : Bytes)
  | deniedDisable (name : Bytes)
  | requiresBoolean (name : Bytes)
  | keyOptions (named : List Bytes)
  | vectorWithoutIndex
  | packedString
  /-- A text that the parser took and the map does not know. -/
  | indexType (value : Bytes)
deriving DecidableEq

/-! ## Parsers -/

section Parsers

variable (d : OptionDef)

/-- A refused text is quoted back, except where the option is sensitive. -/
def OptionDef.reject {α : Type} (value : Bytes) (reason : Reason) : Except OptionError α :=
  .error (.invalidValue d.name reason (if d.sensitive then none else some value))

def OptionDef.minval : Int :=
  match d.kind with
  | .int lo _ => lo
  | _ => 0

def OptionDef.maxval : Int :=
  match d.kind with
  | .int _ hi => hi
  | _ => 0

def OptionDef.values : List Bytes :=
  match d.kind with
  | .enum values => values
  | _ => []

def digitsValue (digits : Bytes) : Nat := digits.foldl (fun n b => 10 * n + (b.toNat - 48)) 0

/-- A sign in front of the digits: whether it is a minus, and what follows. -/
def takeSign : Bytes → Bool × Bytes
  | b :: s => if b = 0x2d then (true, s) else if b = 0x2b then (false, s) else (false, b :: s)
  | [] => (false, [])

/-- `strtol` in base 10: the number, what follows it, and whether it was out of range.
A text without digits is 0 and is left as it is. -/
def strtol (s : Bytes) : Int × Bytes × Bool :=
  let (neg, t) := takeSign (s.dropWhile isSpace)
  let digits := t.takeWhile isDigit
  if digits = [] then (0, s, false)
  else
    let v : Int := if neg then -digitsValue digits else digitsValue digits
    (max (-2 ^ 63) (min v (2 ^ 63 - 1)), t.dropWhile isDigit, v < -2 ^ 63 || 2 ^ 63 ≤ v)

/-- A decimal number within its bounds. -/
def OptionDef.parseInt (value : Bytes) : Except OptionError Int :=
  if value = [] then d.reject value .emptyInt
  else
    let (result, endptr, erange) := strtol value
    if endptr.dropWhile isSpace ≠ [] then d.reject value .notInt
    else if erange || result < d.minval || d.maxval < result then
      d.reject value (.range d.minval d.maxval)
    else .ok result

def lower (b : UInt8) : UInt8 := if 0x41 ≤ b && b ≤ 0x5a then b + 0x20 else b

/-- PostgreSQL's `parse_bool`: an abbreviation of a word, in any case. -/
def parseBoolText (value : Bytes) : Option Bool :=
  let v := value.map lower
  match v with
  | 0x74 :: _ => if v.isPrefixOf (ascii "true") then some true else none
  | 0x66 :: _ => if v.isPrefixOf (ascii "false") then some false else none
  | 0x79 :: _ => if v.isPrefixOf (ascii "yes") then some true else none
  | 0x6e :: _ => if v.isPrefixOf (ascii "no") then some false else none
  | 0x6f :: _ =>
    if v = ascii "on" then some true
    else if 2 ≤ v.length && v.isPrefixOf (ascii "off") then some false
    else none
  | [0x31] => some true
  | [0x30] => some false
  | _ => none

def OptionDef.parseBool (value : Bytes) : Except OptionError Bool :=
  match parseBoolText value with
  | some b => .ok b
  | none => d.reject value .notBool

/-- The place of the text among the permitted ones. -/
def OptionDef.parseEnum (value : Bytes) : Except OptionError Nat :=
  match d.values.findIdx? (· = value) with
  | some i => .ok i
  | none => d.reject value (.notEnum d.values)

/-- A path is absolute. -/
def OptionDef.parsePath (value : Bytes) : Except OptionError Bytes :=
  if value = [] then d.reject value .emptyPath
  else if value.head? ≠ some 0x2f then d.reject value .relativePath
  else .ok value

/-- PostgreSQL's `defGetBoolean` on a text. -/
def defGetBoolean (name value : Bytes) : Except OptionError Bool :=
  let v := value.map lower
  if v = ascii "true" || v = ascii "on" then .ok true
  else if v = ascii "false" || v = ascii "off" then .ok false
  else .error (.requiresBoolean name)

end Parsers

/-! ## What the parsers accept -/

theorem parseInt_bounds {d : OptionDef} {value : Bytes} {n : Int} (h : d.parseInt value = .ok n) :
    d.minval ≤ n ∧ n ≤ d.maxval := by
  simp only [OptionDef.parseInt, OptionDef.reject] at h
  split_ifs at h with hEmpty hEnd hRange
  cases h
  simp only [Bool.or_eq_true, decide_eq_true_eq, not_or, not_lt] at hRange
  exact ⟨hRange.1.2, hRange.2⟩

/-- Where `defGetBoolean` has an answer, `parse_bool` has the same. -/
theorem parseBool_of_defGetBoolean {name value : Bytes} {b : Bool}
    (h : defGetBoolean name value = .ok b) : parseBoolText value = some b := by
  simp only [defGetBoolean, parseBoolText] at h ⊢
  split at h
  · rename_i hTrue
    cases h
    rcases Bool.or_eq_true _ _ ▸ hTrue with hTrue | hTrue
    · rw [of_decide_eq_true hTrue]
      rfl
    · rw [of_decide_eq_true hTrue]
      rfl
  · split at h
    · rename_i hFalse
      cases h
      rcases Bool.or_eq_true _ _ ▸ hFalse with hFalse | hFalse
      · rw [of_decide_eq_true hFalse]
        rfl
      · rw [of_decide_eq_true hFalse]
        rfl
    · cases h

end ValkeyFdw.Options
