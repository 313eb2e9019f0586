import Mathlib.Data.Finmap
import Mathlib.Data.Finset.Basic
import ValkeyFdw.Lib.Cell

/-!
# The values of a Valkey keyspace

A keyspace maps names to values. Valkey keeps no empty collection: a key whose
last field, member or element goes away is gone. Each collection is therefore
stored as a nonempty one, and the facets `hashes`, `lists`, `sets` and `zsets`
read an absent key as the empty collection and write the empty collection back
as an absent key.

The score of a sorted-set member is a double. It is represented by the text the
server prints for it; `Doubles.canon` is the server's own parser followed by its
printer. The key-level expiry is not represented: no write of this wrapper sets
or reads one.
-/

namespace ValkeyFdw

open Cell

abbrev Bytes := List UInt8

instance : LawfulBEq Bytes := inferInstanceAs (LawfulBEq (List UInt8))

def ascii (s : String) : Bytes := s.toList.map fun c => UInt8.ofNat c.toNat

def decimal (n : Nat) : Bytes := (Nat.toDigits 10 n).map fun c => UInt8.ofNat c.toNat

/-- How the server reads the text of a double: the text it prints for the number
read, or `none` when the text is not a number. -/
class Doubles where
  canon : Bytes → Option Bytes
  /-- Whether the C library reads the text without overflow or underflow. -/
  inRange : Bytes → Bool

/-- The scores that are decimal integers without leading zeros: each prints as
it is written. -/
@[reducible] def integerScores : Doubles where
  canon b :=
    if b ≠ [] ∧ (b.all fun c => 0x30 ≤ c ∧ c ≤ 0x39) ∧ (b.head? ≠ some 0x30 ∨ b = [0x30]) then
      some b
    else none
  inRange _ := true

/-- One field of a hash, with the moment it expires at if it has one. -/
structure HField where
  data : Bytes
  expireAt : Option Nat
deriving DecidableEq

abbrev Fields := Finmap fun _ : Bytes => HField

abbrev Scores := Finmap fun _ : Bytes => Bytes

/-- What a key holds. A stream stands for every type the wrapper never writes. -/
inductive Value where
  | string (data : Bytes)
  | hash (fields : {h : Fields // h ≠ ∅})
  | list (elems : {l : List Bytes // l ≠ []})
  | set (members : {s : Finset Bytes // s ≠ ∅})
  | zset (scores : {z : Scores // z ≠ ∅})
  | stream (raw : Bytes)
deriving DecidableEq

/-- The answers of `TYPE`, other than `none`. -/
inductive ValueType where
  | string
  | hash
  | list
  | set
  | zset
  | stream
deriving DecidableEq

def Value.type : Value → ValueType
  | .string _ => .string
  | .hash _ => .hash
  | .list _ => .list
  | .set _ => .set
  | .zset _ => .zset
  | .stream _ => .stream

/-- What the server holds under each name. -/
abbrev Keyspace := Bytes → Option Value

/-- The key is absent or of the given type. -/
def HoldsType (t : ValueType) (e : Option Value) : Prop :=
  ∀ v, e = some v → v.type = t

theorem holdsType_none (t : ValueType) : HoldsType t none := by
  simp [HoldsType]

theorem holdsType_some {t : ValueType} {v : Value} : HoldsType t (some v) ↔ v.type = t := by
  simp [HoldsType]

instance (t : ValueType) (e : Option Value) : Decidable (HoldsType t e) :=
  match e with
  | none => isTrue (holdsType_none t)
  | some _ => decidable_of_iff _ holdsType_some.symm

/-! ## Collections -/

/-- A facet that reads exactly the keys that are absent or of one type. -/
structure Collection (T : Type) extends Facet (Option Value) T where
  type : ValueType
  read_iff : ∀ e, (∃ t, read e = some t) ↔ HoldsType type e

/-- An edit of the collection under a key; a value of another type stays as it is. -/
def Collection.edit {T : Type} (C : Collection T) (f : T → T) (e : Option Value) : Option Value :=
  (C.read e).elim e fun t => C.write (f t)

/-- The collection of a constructor of `Value` that holds nonempty values. -/
def Collection.ofPrism {T : Type} [DecidableEq T] (type : ValueType) (empty : T)
    (P : Prism Value {t : T // t ≠ empty}) (hP : ∀ v, (P.get v).isSome ↔ v.type = type) :
    Collection T where
  toFacet := Facet.ofPrism empty P
  type := type
  read_iff
    | none => by simp [holdsType_none]
    | some v => by
      rw [holdsType_some, ← hP, Option.isSome_iff_exists]
      simp only [Facet.ofPrism, Option.map_eq_some_iff]
      exact ⟨fun ⟨_, a, ha, _⟩ => ⟨a, ha⟩, fun ⟨a, ha⟩ => ⟨a, a, ha, rfl⟩⟩

namespace Collection

variable {T : Type} (C : Collection T)

theorem holdsType_write (t : T) : HoldsType C.type (C.write t) :=
  (C.read_iff _).mp ⟨t, C.read_write t⟩

variable {C}

theorem modify_iff {ε : Type} {err : ε} {f : T → T} {e : Option Value} :
    (∃ e', C.modify err f e = .ok e') ↔ HoldsType C.type e := by
  rw [← C.read_iff]
  constructor
  · rintro ⟨e', he'⟩
    obtain ⟨t, ht, -⟩ := Facet.modify_ok.mp he'
    exact ⟨t, ht⟩
  · rintro ⟨t, ht⟩
    exact ⟨_, Facet.modify_ok.mpr ⟨t, ht, rfl⟩⟩

theorem holdsType_modify {ε : Type} {err : ε} {f : T → T} {e e' : Option Value}
    (h : C.modify err f e = .ok e') : HoldsType C.type e' := by
  obtain ⟨t, -, rfl⟩ := Facet.modify_ok.mp h
  exact C.holdsType_write _

end Collection

def hashes : Collection Fields :=
  .ofPrism .hash ∅
    { make := .hash
      get := fun | .hash h => some h | _ => none
      get_make := fun _ => rfl
      make_get := fun {u t} h => by cases u <;> simp_all }
    (by rintro (_ | _ | _ | _ | _ | _) <;> simp [Value.type])

def lists : Collection (List Bytes) :=
  .ofPrism .list []
    { make := .list
      get := fun | .list l => some l | _ => none
      get_make := fun _ => rfl
      make_get := fun {u t} h => by cases u <;> simp_all }
    (by rintro (_ | _ | _ | _ | _ | _) <;> simp [Value.type])

def sets : Collection (Finset Bytes) :=
  .ofPrism .set ∅
    { make := .set
      get := fun | .set s => some s | _ => none
      get_make := fun _ => rfl
      make_get := fun {u t} h => by cases u <;> simp_all }
    (by rintro (_ | _ | _ | _ | _ | _) <;> simp [Value.type])

def zsets : Collection Scores :=
  .ofPrism .zset ∅
    { make := .zset
      get := fun | .zset z => some z | _ => none
      get_make := fun _ => rfl
      make_get := fun {u t} h => by cases u <;> simp_all }
    (by rintro (_ | _ | _ | _ | _ | _) <;> simp [Value.type])

/-! ## What a key holds by name -/

theorem keys_ne_empty {β : Type} {t : Finmap fun _ : Bytes => β} (h : t ≠ ∅) : t.keys ≠ ∅ := by
  intro hEmpty
  refine h (Finmap.ext_lookup fun x => ?_)
  rw [Finmap.lookup_empty, Finmap.lookup_eq_none, ← Finmap.mem_keys, hEmpty]
  exact Finset.notMem_empty x

/-- Whether a key holds a field, member or element of the given name. -/
def holdsSub : Option Value → Bytes → Bool
  | some (.hash h), f => f ∈ h.1
  | some (.list l), v => v ∈ l.1
  | some (.set s), m => m ∈ s.1
  | some (.zset z), m => m ∈ z.1
  | _, _ => false

/-- How often a list holds a value. -/
def occurrences : Option Value → Bytes → Nat
  | some (.list l), v => l.1.count v
  | _, _ => 0

/-- The score of a member of a sorted set. -/
def scoreOf : Option Value → Bytes → Option Bytes
  | some (.zset z), m => z.1.lookup m
  | _, _ => none

/-- What a key holds under the name of a field or member: the data of a hash
field, the score of a sorted-set member, nothing further for a set member. -/
def subValue : Option Value → Bytes → Option Bytes
  | some (.hash h), f => (h.1.lookup f).map HField.data
  | some (.set s), m => if m ∈ s.1 then some [] else none
  | some (.zset z), m => z.1.lookup m
  | _, _ => none

variable {e : Option Value} {t : Finset Bytes}

theorem isSome_of_holdsSub {x : Bytes} (h : holdsSub e x = true) :
    e.isSome := by
  cases e with
  | none => simp [holdsSub] at h
  | some v => rfl

theorem holdsSub_of_hashes {t : Fields} (h : hashes.read e = some t) (f : Bytes) :
    holdsSub e f = true ↔ f ∈ t := by
  rcases e with _ | (_ | t' | _ | _ | _ | _) <;> cases h
  · simp [holdsSub, Finmap.notMem_empty]
  · simp [holdsSub]

theorem holdsSub_of_sets (h : sets.read e = some t) (m : Bytes) : holdsSub e m = true ↔ m ∈ t := by
  rcases e with _ | (_ | _ | _ | t' | _ | _) <;> cases h
  · simp [holdsSub]
  · simp [holdsSub]

theorem holdsSub_of_zsets {t : Scores} (h : zsets.read e = some t) (m : Bytes) :
    holdsSub e m = true ↔ m ∈ t := by
  rcases e with _ | (_ | _ | _ | _ | t' | _) <;> cases h
  · simp [holdsSub, Finmap.notMem_empty]
  · simp [holdsSub]

theorem scoreOf_of_zsets {t : Scores} (h : zsets.read e = some t) (m : Bytes) :
    scoreOf e m = t.lookup m := by
  rcases e with _ | (_ | _ | _ | _ | t' | _) <;> cases h
  · simp [scoreOf, Finmap.lookup_empty]
  · rfl

theorem scoreOf_of_sets (h : sets.read e = some t) (m : Bytes) : scoreOf e m = none := by
  rcases e with _ | (_ | _ | _ | t' | _ | _) <;> cases h <;> rfl

theorem occurrences_of_lists {t : List Bytes} (h : lists.read e = some t) (v : Bytes) :
    occurrences e v = t.count v := by
  rcases e with _ | (_ | _ | t' | _ | _ | _) <;> cases h
  · rfl
  · rfl

theorem holdsSub_of_lists {t : List Bytes} (h : lists.read e = some t) (v : Bytes) :
    holdsSub e v = true ↔ v ∈ t := by
  rcases e with _ | (_ | _ | t' | _ | _ | _) <;> cases h
  · simp [holdsSub]
  · simp [holdsSub]

theorem subValue_of_hashes {t : Fields} (h : hashes.read e = some t) (f : Bytes) :
    subValue e f = (t.lookup f).map HField.data := by
  rcases e with _ | (_ | t' | _ | _ | _ | _) <;> cases h
  · simp [subValue, Finmap.lookup_empty]
  · rfl

theorem subValue_of_sets (h : sets.read e = some t) (m : Bytes) :
    subValue e m = if m ∈ t then some [] else none := by
  rcases e with _ | (_ | _ | _ | t' | _ | _) <;> cases h
  · rfl
  · rfl

theorem subValue_of_zsets {t : Scores} (h : zsets.read e = some t) (m : Bytes) :
    subValue e m = t.lookup m := by
  rcases e with _ | (_ | _ | _ | _ | t' | _) <;> cases h
  · simp [subValue, Finmap.lookup_empty]
  · rfl

end ValkeyFdw
