import ValkeyFdw.Server.Value

/-!
# The Valkey commands the flush program issues

Each write command is a partial step on the keyspace; `now` is the server's
clock, which does not move while a script runs. Commands on one key are updates
of that key through the facet of its collection (`onCollection`), so that they
fail with `WRONGTYPE` exactly when the key holds another type.

* `localTo_onCollection`, `localTo_rename`: the names each command reads and
  changes;
* `sets_commute`: commuting edits of one set can be taken in either order.
-/

namespace ValkeyFdw

open Cell

/-- The error replies of the write commands. -/
inductive ServerError where
  | wrongType
  | noSuchKey
  | notFloat
  | invalidExpire
deriving DecidableEq

namespace Server

/-- A command changes the keyspace or fails and changes nothing. -/
abbrev Command := Keyspace → Except ServerError Keyspace

/-- The largest moment an expiry may name: the server keeps it in a signed 64-bit integer. -/
def maxExpire : Nat := 2 ^ 63 - 1

/-- A command on one key that edits a collection. -/
def onCollection {T : Type} (C : Collection T) (k : Bytes) (f : T → T) : Command :=
  updateAt k (C.modify .wrongType f)

def set (k v : Bytes) : Command := updateAt k fun _ => .ok (some (.string v))

def del (k : Bytes) : Command := updateAt k fun _ => .ok none

/-- `HSET` replaces the field, and with it any expiry the old one had. -/
def hset (k f v : Bytes) : Command := onCollection hashes k fun h => h.insert f ⟨v, none⟩

def hdel (k f : Bytes) : Command := onCollection hashes k fun h => h.erase f

/-- Give a field an expiry; a field that is not there is left alone. -/
def expireField (now : Nat) (f : Bytes) (ms : Nat) (h : Fields) : Fields :=
  match h.lookup f with
  | none => h
  | some x => if ms = 0 then h.erase f else h.insert f { x with expireAt := some (now + ms) }

def persistField (f : Bytes) (h : Fields) : Fields :=
  match h.lookup f with
  | none => h
  | some x => h.insert f { x with expireAt := none }

def hpexpire (now : Nat) (k f : Bytes) (ms : Nat) : Command := fun ks =>
  if now + ms ≤ maxExpire then onCollection hashes k (expireField now f ms) ks
  else .error .invalidExpire

def hpersist (k f : Bytes) : Command := onCollection hashes k (persistField f)

def sadd (k m : Bytes) : Command := onCollection sets k (insert m)

def srem (k m : Bytes) : Command := onCollection sets k fun s => s.erase m

/-- `ZADD` reads the score before it looks at the key. -/
def zadd [Doubles] (k score m : Bytes) : Command := fun ks =>
  match Doubles.canon score with
  | none => .error .notFloat
  | some x => onCollection zsets k (fun z => z.insert m x) ks

def zrem (k m : Bytes) : Command := onCollection zsets k fun z => z.erase m

def rpush (k v : Bytes) : Command := onCollection lists k fun l => l ++ [v]

/-- `LREM key 1 value`: the first occurrence from the head goes. -/
def lrem1 (k v : Bytes) : Command := onCollection lists k fun l => l.erase v

def rename (src dst : Bytes) : Command := fun ks =>
  match ks src with
  | none => .error .noSuchKey
  | some v => .ok (Function.update (Function.update ks src none) dst (some v))

/-! ## Inversion and locality -/

variable {ks ks' : Keyspace} {k : Bytes} {T : Type} {C : Collection T} {f : T → T}

theorem rename_ok {src dst : Bytes} :
    rename src dst ks = .ok ks' ↔ ∃ v, ks src = some v ∧
      ks' = Function.update (Function.update ks src none) dst (some v) := by
  unfold rename
  cases ks src with
  | none => simp
  | some v => simp [eq_comm]

theorem hpexpire_ok {now : Nat} {f : Bytes} {ms : Nat} :
    hpexpire now k f ms ks = .ok ks' ↔
      now + ms ≤ maxExpire ∧ onCollection hashes k (expireField now f ms) ks = .ok ks' := by
  unfold hpexpire
  split <;> simp_all

theorem zadd_ok [Doubles] {score m : Bytes} :
    zadd k score m ks = .ok ks' ↔ ∃ x, Doubles.canon score = some x ∧
      onCollection zsets k (fun z => z.insert m x) ks = .ok ks' := by
  unfold zadd
  split <;> simp_all

theorem onCollection_ok :
    onCollection C k f ks = .ok ks' ↔
      ∃ t, C.read (ks k) = some t ∧ ks' = Function.update ks k (C.write (f t)) := by
  simp only [onCollection, updateAt_ok, Facet.modify_ok]
  constructor
  · rintro ⟨_, ⟨t, ht, rfl⟩, rfl⟩
    exact ⟨t, ht, rfl⟩
  · rintro ⟨t, ht, rfl⟩
    exact ⟨_, ⟨t, ht, rfl⟩, rfl⟩

theorem onCollection_edit (h : onCollection C k f ks = .ok ks') : ks' k = C.edit f (ks k) := by
  obtain ⟨t, ht, rfl⟩ := onCollection_ok.mp h
  rw [Function.update_self, Collection.edit, ht]
  rfl

theorem onCollection_total (h : HoldsType C.type (ks k)) :
    ∃ ks', onCollection C k f ks = .ok ks' := by
  obtain ⟨e, he⟩ := Collection.modify_iff.mpr h
  exact ⟨_, updateAt_ok.mpr ⟨e, he, rfl⟩⟩

theorem onCollection_holdsType_before (h : onCollection C k f ks = .ok ks') :
    HoldsType C.type (ks k) := by
  obtain ⟨t, ht, -⟩ := onCollection_ok.mp h
  exact (C.read_iff _).mp ⟨t, ht⟩

theorem onCollection_holdsType (h : onCollection C k f ks = .ok ks') : HoldsType C.type (ks' k) :=
  Collection.holdsType_modify (updateAt_self h)

theorem localTo_onCollection (C : Collection T) (k : Bytes) (f : T → T) :
    LocalTo {k} (onCollection C k f) :=
  localTo_updateAt k _

theorem localTo_set (k v : Bytes) : LocalTo {k} (set k v) := localTo_updateAt k _

theorem localTo_del (k : Bytes) : LocalTo {k} (del k) := localTo_updateAt k _

theorem localTo_hpexpire (now : Nat) (k f : Bytes) (ms : Nat) :
    LocalTo {k} (hpexpire now k f ms) := by
  unfold hpexpire
  split
  · exact localTo_onCollection hashes k _
  · exact localTo_error _ _

theorem localTo_zadd [Doubles] (k score m : Bytes) : LocalTo {k} (zadd k score m) := by
  unfold zadd
  split
  · exact localTo_error _ _
  · exact localTo_onCollection zsets k _

theorem localTo_rename (src dst : Bytes) : LocalTo {src, dst} (rename src dst) where
  frame {ks ks'} h k hk := by
    obtain ⟨v, -, rfl⟩ := rename_ok.mp h
    simp only [Set.mem_insert_iff, Set.mem_singleton_iff, not_or] at hk
    rw [Function.update_of_ne hk.2, Function.update_of_ne hk.1]
  congr {ks ks₁ ks'} hs h := by
    obtain ⟨v, hv, rfl⟩ := rename_ok.mp h
    refine ⟨_, rename_ok.mpr ⟨v, (hs src (by simp)).trans hv, rfl⟩, ?_⟩
    rintro k (rfl | rfl)
    · by_cases hk : k = dst <;> simp [Function.update, hk]
    · simp

theorem sets_commute {f g : Finset Bytes → Finset Bytes} (hfg : ∀ s, f (g s) = g (f s)) :
    (onCollection sets k f ks).bind (onCollection sets k g) = .ok ks' ↔
      (onCollection sets k g ks).bind (onCollection sets k f) = .ok ks' :=
  updateAt_commute_facet hfg

end Server

end ValkeyFdw
