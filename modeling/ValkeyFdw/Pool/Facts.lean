import ValkeyFdw.Pool.Lease

/-!
# What is known of a connection

An entry of the pool records what was learned about the server at the other end of its
socket: the database that is selected, the protocol, whether the write program is loaded or
refused, and whether fields can expire. The socket is opened, closed and opened again to
another node, and the records stay in the entry.

This is the life of one entry, with the origin of each record beside it. Every step is the
entry's part of an operation of the pool, and `step_honest` says that no record changes
without its origin.
-/

namespace ValkeyFdw.Pool

open Raise Trace

/-! ## Records and their origins -/

/-- What an entry records of the server. -/
inductive Fact where
  | database
  | protocol
  | scriptLoaded
  | writeRefusal
  | fieldTtl
deriving DecidableEq

/-- Where a record comes from. -/
inductive Origin where
  /-- Whatever the memory held. -/
  | residue
  /-- It was set to the value of an entry that has no socket. -/
  | blank
  | learned (socket : Nat)
deriving DecidableEq

/-- The value that says of itself that the server has to be asked. Of the protocol and of the
refusal there is none: an entry that was not told reads as one that was told "no". -/
def Fact.asks : Fact → Bool
  | .database | .scriptLoaded | .fieldTtl => true
  | .protocol | .writeRefusal => false

/-- Closing sets every record back but that of the expiry of fields. -/
def wiped (o : Fact → Origin) (f : Fact) : Origin := if f = .fieldTtl then o f else .blank

def blanked (fact : Fact) (o : Fact → Origin) : Fact → Origin := Function.update o fact .blank

theorem blanked_self (fact : Fact) (o : Fact → Origin) : blanked fact o fact = .blank :=
  Function.update_self ..

theorem blanked_of_ne {f fact : Fact} (h : f ≠ fact) (o : Fact → Origin) :
    blanked fact o f = o f := Function.update_of_ne h ..

def learnedOn (socket : Nat) (facts : List Fact) (o : Fact → Origin) (f : Fact) : Origin :=
  if f ∈ facts then .learned socket else o f

/-- The entry with as many replies owed. -/
def Conn.owing (n : Nat) (e : Conn) : Conn :=
  { e with conn := e.conn.map fun sock => { sock with unread := n } }

def Conn.busy (n : Nat) (marked : Bool) (e : Conn) : Conn :=
  { e.owing n with inConversation := marked }

def Conn.learnProtocol (hello : Answer) (e : Conn) : Conn := { e with resp3 := hello.isMap }

def Conn.learnProgram (probe : Answer) (e : Conn) : Conn :=
  let refused := probe.isError && !probe.hasPrefix "LOADING" && !probe.hasPrefix "BUSY"
  { e with
    scriptLoaded := !probe.isError
    writeRefused := refused
    writeRefusal := if refused then probe.text.take maxWriteRefusal else [] }

def Conn.learnTtl (answer : Answer) (e : Conn) : Conn :=
  { e with fieldTtl := if ttlPresent answer then .present else .absent }

/-- The socket that is open, by its number. -/
def Conn.socket (e : Conn) : Option Nat := e.conn.map fun sock => sock.link.id

/-- An entry with the origin of its records. -/
structure Tracked where
  entry : Conn
  origin : Fact → Origin
  /-- A caller was given the connection. -/
  held : Bool

/-! ## The life of an entry -/

/-- How far the opening of a socket came. -/
inductive Opening where
  | unreached
  /-- The handshake, the authentication or `HELLO` failed. -/
  | broken (socket unread : Nat)
  /-- `HELLO` was answered, and the question about the program failed. -/
  | halfway (socket unread : Nat) (hello : Answer)
  | complete (socket unread : Nat) (hello probe : Answer)

/-- What a caller does with a connection that it was given. -/
inductive Use where
  | select (database : Int) (answered : Bool) (unread : Nat)
  | requireTtl (answer : Option Answer) (unread : Nat)
  | consult (fact : Fact)
  | setScriptLoaded (loaded : Bool)
  | talk (unread : Nat) (marked : Bool)
  | raise (unread : Nat) (marked : Bool)
  | release

/-- The operations of the pool on one entry. -/
inductive EntryOp where
  | acquire (server : ForeignServer) (user : UserMapping) (clusterAware : Bool) (node : Option Node)
      (subid : Nat) (opening : Opening)
  | use (use : Use)
  | xact (event : XactEvent)
  | subxact (mySubid : Nat)
  | inval (cacheid : CacheId) (hashvalue : Nat)

namespace Tracked

/-- A new entry: one record is not initialised. -/
def enter (residue : Conn) : Tracked :=
  ⟨connInitEntry residue, fun f => if f = .fieldTtl then .residue else .blank, false⟩

def claim (subid : Nat) (node : Option Node) (t : Tracked) : Tracked :=
  if connNodeMatches t.entry node then { t with entry := connLease subid t.entry }
  else { t with entry := connClaim subid node t.entry, origin := wiped t.origin }

/-- Open a socket. -/
def connect (user : UserOptions) (t : Tracked) : Opening → Tracked
  | .unreached => { t with held := false }
  | .broken id n =>
    { entry := (t.entry.opened id user).owing n
      origin := blanked .database t.origin
      held := false }
  | .halfway id n hello =>
    { entry := ((t.entry.opened id user).learnProtocol hello).owing n
      origin := learnedOn id [.protocol] (blanked .database t.origin)
      held := false }
  | .complete id n hello probe =>
    { entry := (((t.entry.opened id user).learnProtocol hello).learnProgram probe).busy n false
      origin := learnedOn id [.protocol, .scriptLoaded, .writeRefusal] (blanked .database t.origin)
      held := true }

section Acquire

variable [SysCache]

def record (server : ForeignServer) (user : UserMapping) (t : Tracked) : Tracked :=
  { t with
    entry := connRecord server user t.entry
    origin := if t.entry.invalidated then wiped t.origin else t.origin }

/-- The entry is chosen for a request. -/
def acquire (server : ForeignServer) (user : UserMapping) (clusterAware : Bool) (node : Option Node)
    (subid : Nat) (opening : Opening) (t : Tracked) : Tracked :=
  let t := (t.claim subid node).record server user
  if refuses server user clusterAware then { t with held := false }
  else if t.entry.conn = none then t.connect user.options opening
  else { t with held := true }

end Acquire

/-- Select a database, on the socket with this number. -/
def select (id : Nat) (database : Int) (answered : Bool) (unread : Nat) (t : Tracked) : Tracked :=
  if t.entry.database = database then t
  else if t.entry.opts.cluster then
    if database ≠ 0 then { t with held := false }
    else
      { t with
        entry := { t.entry with database := 0 }
        origin := learnedOn id [.database] t.origin }
  else if answered then
    { t with
      entry := { t.entry.owing unread with database := database }
      origin := learnedOn id [.database] t.origin }
  else
    { entry := { t.entry.busy unread true with database := -1 }
      origin := blanked .database t.origin
      held := false }

/-- Ask about the expiry of fields, unless the record says something. -/
def askTtl (id : Nat) (answer : Option Answer) (unread : Nat) (t : Tracked) : Tracked :=
  if t.entry.fieldTtl = .unknown then
    match answer with
    | some a =>
      { t with
        entry := (t.entry.owing unread).learnTtl a
        origin := learnedOn id [.fieldTtl] t.origin }
    | none => { t with entry := t.entry.owing unread, held := false }
  else t

def requireTtl (id : Nat) (answer : Option Answer) (unread : Nat) (t : Tracked) : Tracked :=
  let t := t.askTtl id answer unread
  if t.entry.fieldTtl = .absent then { t with held := false } else t

def use (id : Nat) (t : Tracked) : Use → Tracked
  | .select database answered unread => t.select id database answered unread
  | .requireTtl answer unread => t.requireTtl id answer unread
  | .consult _ => t
  | .setScriptLoaded loaded =>
    { t with
      entry := { t.entry with scriptLoaded := loaded }
      origin := learnedOn id [.scriptLoaded] t.origin }
  | .talk n marked => { t with entry := t.entry.busy n marked }
  | .raise n marked => { t with entry := t.entry.busy n marked, held := false }
  | .release => { t with entry := connRelease t.entry, held := false }

/-- Whether the end of a transaction closes the entry. -/
def swept (event : XactEvent) (e : Conn) : Bool :=
  event ≠ .prepare && e.conn.isSome && (e.inConversation || e.invalidated)

def xact (event : XactEvent) (t : Tracked) : Tracked :=
  { entry := connXact event t.entry
    origin := if swept event t.entry then wiped t.origin else t.origin
    held := false }

/-- The subtransaction that ends has the lease. -/
def givesBack (mySubid : Nat) (e : Conn) : Bool := e.leased && e.leaseSubid = mySubid

def subxact (mySubid : Nat) (t : Tracked) : Tracked :=
  let quiet := if t.entry.conn.isSome && t.entry.inConversation then wiped t.origin else t.origin
  { entry := connSubxact mySubid t.entry
    origin := if givesBack mySubid t.entry then blanked .scriptLoaded quiet else quiet
    held := t.held && !givesBack mySubid t.entry }

variable [SysCache]

/-- A step, where it can happen: an entry is chosen if it is not leased, and used by the
caller it was given to while its socket is open. -/
def step (op : EntryOp) (t : Tracked) : Except Unit Tracked :=
  match op with
  | .acquire server user clusterAware node subid opening =>
    if t.entry.leased then .error ()
    else .ok (t.acquire server user clusterAware node subid opening)
  | .use u =>
    match t.entry.socket with
    | some id => if t.held then .ok (t.use id u) else .error ()
    | none => .error ()
  | .xact event => .ok (t.xact event)
  | .subxact mySubid => .ok (t.subxact mySubid)
  | .inval cacheid hashvalue => .ok { t with entry := connInvalCallback cacheid hashvalue t.entry }

/-- What each operation does, where it can happen. -/
inductive Moves (t : Tracked) : EntryOp → Tracked → Prop
  | acquire (server : ForeignServer) (user : UserMapping) (clusterAware : Bool) (node : Option Node)
      (subid : Nat) (opening : Opening) (hFree : t.entry.leased = false) :
      Moves t (.acquire server user clusterAware node subid opening)
        (t.acquire server user clusterAware node subid opening)
  | use (id : Nat) (u : Use) (hSocket : t.entry.socket = some id) (hHeld : t.held = true) :
      Moves t (.use u) (t.use id u)
  | xact (event : XactEvent) : Moves t (.xact event) (t.xact event)
  | subxact (mySubid : Nat) : Moves t (.subxact mySubid) (t.subxact mySubid)
  | inval (cacheid : CacheId) (hashvalue : Nat) : Moves t (.inval cacheid hashvalue)
      { t with entry := connInvalCallback cacheid hashvalue t.entry }

theorem moves_of_step {op : EntryOp} {t t' : Tracked} (h : step op t = .ok t') :
    Moves t op t' := by
  cases op with
  | acquire server user clusterAware node subid opening =>
    simp only [step] at h
    split at h
    · cases h
    · rename_i hFree
      cases h
      exact .acquire server user clusterAware node subid opening (Bool.eq_false_iff.mpr hFree)
  | use u =>
    simp only [step] at h
    split at h
    · rename_i id hSocket
      split at h
      · rename_i hHeld
        cases h
        exact .use id u hSocket hHeld
      · cases h
    · cases h
  | xact event =>
    cases h
    exact .xact event
  | subxact mySubid =>
    cases h
    exact .subxact mySubid
  | inval cacheid hashvalue =>
    cases h
    exact .inval cacheid hashvalue

end Tracked

/-- The record that a step goes by. -/
def EntryOp.reads : EntryOp → Option Fact
  | .use (.select ..) => some .database
  | .use (.requireTtl ..) => some .fieldTtl
  | .use (.consult fact) => some fact
  | _ => none

/-! ## Sockets -/

section Sockets

variable {e : Conn}

@[simp] theorem Conn.socket_owing (n : Nat) : (e.owing n).socket = e.socket := by
  simp [socket, owing, Function.comp_def]

@[simp] theorem Conn.socket_busy (n : Nat) (marked : Bool) : (e.busy n marked).socket = e.socket :=
  e.socket_owing n

@[simp] theorem Conn.socket_opened (id : Nat) (user : UserOptions) :
    (e.opened id user).socket = some id := rfl

@[simp] theorem Conn.socket_learnProtocol (hello : Answer) :
    (e.learnProtocol hello).socket = e.socket := rfl

@[simp] theorem Conn.socket_learnProgram (probe : Answer) :
    (e.learnProgram probe).socket = e.socket := rfl

@[simp] theorem Conn.socket_learnTtl (a : Answer) : (e.learnTtl a).socket = e.socket := rfl

theorem Conn.socket_eq_none : e.socket = none ↔ e.conn = none := Option.map_eq_none_iff

theorem Conn.socket_of_conn {e' : Conn} (h : e'.conn = e.conn) : e'.socket = e.socket := by
  rw [socket, h, socket]

end Sockets

/-! ## No record changes without its origin -/

/-- The record of a fact is the same. -/
def Fact.Same (e e' : Conn) : Fact → Prop
  | .database => e'.database = e.database
  | .protocol => e'.resp3 = e.resp3
  | .scriptLoaded => e'.scriptLoaded = e.scriptLoaded
  | .writeRefusal => e'.writeRefused = e.writeRefused ∧ e'.writeRefusal = e.writeRefusal
  | .fieldTtl => e'.fieldTtl = e.fieldTtl

/-- The record of a fact is that of an entry without a socket. -/
def Fact.Unset (e : Conn) : Fact → Prop
  | .database => e.database = -1
  | .protocol => e.resp3 = false
  | .scriptLoaded => e.scriptLoaded = false
  | .writeRefusal => e.writeRefused = false ∧ e.writeRefusal = []
  | .fieldTtl => e.fieldTtl = .unknown

/-- The record was learned on the socket that is open, or it is that of an entry without a
socket and says that the server has to be asked. -/
def Tracked.Reliable (t : Tracked) (f : Fact) : Prop :=
  (∃ id, t.entry.socket = some id ∧ t.origin f = .learned id) ∨
    (f.asks = true ∧ t.origin f = .blank ∧ f.Unset t.entry)

namespace Tracked

/-- Every record is as it was, or was set back. -/
def Wipes (t t' : Tracked) : Prop :=
  ∀ f : Fact, (t'.origin f = t.origin f ∧ f.Same t.entry t'.entry) ∨
    (t'.origin f = .blank ∧ f.Unset t'.entry)

/-- Every record is as it was, or was set back, or was learned on the socket that is open. -/
def Honest (t t' : Tracked) : Prop :=
  ∀ f : Fact, (t'.origin f = t.origin f ∧ f.Same t.entry t'.entry) ∨
    (t'.origin f = .blank ∧ f.Unset t'.entry) ∨
    ∃ id, t'.entry.socket = some id ∧ t'.origin f = .learned id

variable {t t' t'' : Tracked}

theorem Wipes.honest (h : Wipes t t') : Honest t t' := fun f => (h f).imp_right .inl

theorem Wipes.of_same (hOrigin : t'.origin = t.origin) (h : ∀ f : Fact, f.Same t.entry t'.entry) :
    Wipes t t' := fun f => .inl ⟨by rw [hOrigin], h f⟩

theorem Wipes.of_closed (hOrigin : t'.origin = wiped t.origin)
    (hTtl : t'.entry.fieldTtl = t.entry.fieldTtl)
    (h : ∀ f : Fact, f ≠ .fieldTtl → f.Unset t'.entry) : Wipes t t' := by
  intro f
  rw [hOrigin]
  by_cases hf : f = .fieldTtl
  · subst hf
    exact .inl ⟨rfl, hTtl⟩
  · exact .inr ⟨if_neg hf, h f hf⟩

variable {f : Fact} {id : Nat} {facts : List Fact}

theorem same_trans {e e' e'' : Conn} (h : f.Same e e') (h' : f.Same e' e'') :
    f.Same e e'' := by
  cases f with
  | writeRefusal => exact ⟨h'.1.trans h.1, h'.2.trans h.2⟩
  | _ => exact Eq.trans h' h

theorem unset_of_same {e e' : Conn} (h : f.Unset e) (h' : f.Same e e') : f.Unset e' := by
  cases f with
  | writeRefusal => exact ⟨h'.1.trans h.1, h'.2.trans h.2⟩
  | _ => exact Eq.trans h' h

theorem Wipes.trans_honest (h : Wipes t t') (h' : Honest t' t'') : Honest t t'' := by
  intro f
  rcases h' f with ⟨hOrigin', hSame'⟩ | hLater
  · rcases h f with ⟨hOrigin, hSame⟩ | ⟨hOrigin, hUnset⟩
    · exact .inl ⟨hOrigin'.trans hOrigin, same_trans hSame hSame'⟩
    · exact .inr (.inl ⟨hOrigin'.trans hOrigin, unset_of_same hUnset hSame'⟩)
  · exact .inr hLater

theorem unset_close (hf : f ≠ .fieldTtl) (e : Conn) : f.Unset (connClose e) := by
  cases f with
  | writeRefusal => exact ⟨rfl, rfl⟩
  | fieldTtl => exact absurd rfl hf
  | _ => rfl

theorem same_refl (f : Fact) (e : Conn) : f.Same e e := by
  cases f with
  | writeRefusal => exact ⟨rfl, rfl⟩
  | _ => rfl

theorem same_of_ne_database (hf : f ≠ .database) (e : Conn) (conn : Option Socket) (marked : Bool)
    (database : Int) :
    f.Same e { e with conn := conn, inConversation := marked, database := database } := by
  cases f with
  | database => exact absurd rfl hf
  | writeRefusal => exact ⟨rfl, rfl⟩
  | _ => rfl

theorem wipes_claim (subid : Nat) (node : Option Node) (t : Tracked) :
    Wipes t (t.claim subid node) := by
  unfold claim
  split
  · exact .of_same rfl fun f => same_refl f t.entry
  · exact .of_closed rfl rfl fun f hf => unset_of_same (unset_close hf t.entry) (same_refl f _)

theorem Honest.of_same (hOrigin : t'.origin = t.origin) (h : ∀ f : Fact, f.Same t.entry t'.entry) :
    Honest t t' := (Wipes.of_same hOrigin h).honest

theorem Honest.of_learned (hSocket : t'.entry.socket = some id)
    (hOrigin : t'.origin = learnedOn id facts t.origin)
    (h : ∀ f : Fact, f ∉ facts → f.Same t.entry t'.entry) : Honest t t' := by
  intro f
  rw [hOrigin, learnedOn]
  by_cases hf : f ∈ facts
  · exact .inr (.inr ⟨id, hSocket, if_pos hf⟩)
  · exact .inl ⟨if_neg hf, h f hf⟩

theorem honest_connect (user : UserOptions) (opening : Opening) (t : Tracked) :
    Honest t (t.connect user opening) := by
  -- The database is set back, and some of the others are learned.
  have hOpened : ∀ (u : Tracked) (id : Nat) (facts : List Fact), u.entry.socket = some id →
      u.origin = learnedOn id facts (blanked .database t.origin) → u.entry.database = -1 →
      (∀ f : Fact, f ≠ .database → f ∉ facts → f.Same t.entry u.entry) → Honest t u := by
    intro u id facts hSocket hOrigin hDatabase hOthers f
    rw [hOrigin, learnedOn]
    by_cases hf : f ∈ facts
    · exact .inr (.inr ⟨id, hSocket, if_pos hf⟩)
    · rw [if_neg hf]
      by_cases hd : f = .database
      · subst hd
        exact .inr (.inl ⟨blanked_self _ _, hDatabase⟩)
      · exact .inl ⟨blanked_of_ne hd _, hOthers f hd hf⟩
  cases opening with
  | unreached => exact .of_same rfl fun f => same_refl f t.entry
  | broken id n =>
    refine hOpened _ id [] (by simp [connect]) ?_ rfl fun f hd _ => same_of_ne_database hd ..
    funext f
    simp [connect, learnedOn]
  | halfway id n hello =>
    refine hOpened _ id _ (by simp [connect]) rfl rfl fun f hd hf => ?_
    cases f with
    | writeRefusal => exact ⟨rfl, rfl⟩
    | database => exact absurd rfl hd
    | protocol => simp at hf
    | _ => rfl
  | complete id n hello probe =>
    refine hOpened _ id _ (by simp [connect]) rfl rfl fun f hd hf => ?_
    cases f with
    | database => exact absurd rfl hd
    | fieldTtl => rfl
    | _ => simp at hf

theorem same_busy (f : Fact) (n : Nat) (marked : Bool) (e : Conn) : f.Same e (e.busy n marked) := by
  cases f with
  | writeRefusal => exact ⟨rfl, rfl⟩
  | _ => rfl

theorem honest_select (hSocket : t.entry.socket = some id) (database : Int) (answered : Bool)
    (unread : Nat) : Honest t (t.select id database answered unread) := by
  have hOthers : ∀ {f : Fact}, f ∉ [Fact.database] → f ≠ .database := by simp
  unfold select
  split_ifs with hSame hCluster hZero hAnswered
  · exact .of_same rfl fun f => same_refl f t.entry
  · exact .of_same rfl fun f => same_refl f t.entry
  · exact .of_learned hSocket rfl fun f hf => same_of_ne_database (hOthers hf) ..
  · refine .of_learned ((Conn.socket_owing unread).trans hSocket) rfl fun f hf => ?_
    exact same_of_ne_database (hOthers hf) ..
  · intro f
    by_cases hd : f = .database
    · subst hd
      exact .inr (.inl ⟨blanked_self .database t.origin, rfl⟩)
    · exact .inl ⟨blanked_of_ne hd t.origin, same_of_ne_database hd ..⟩

theorem honest_askTtl (hSocket : t.entry.socket = some id) (answer : Option Answer) (unread : Nat) :
    Honest t (t.askTtl id answer unread) := by
  unfold askTtl
  split
  · split
    · refine .of_learned (((Conn.socket_learnTtl _).trans (Conn.socket_owing unread)).trans hSocket)
        rfl fun f hf => ?_
      cases f with
      | fieldTtl => simp at hf
      | writeRefusal => exact ⟨rfl, rfl⟩
      | _ => rfl
    · exact .of_same rfl fun f => same_busy f unread t.entry.inConversation t.entry
  · exact .of_same rfl fun f => same_refl f t.entry

theorem honest_use (hSocket : t.entry.socket = some id) (u : Use) :
    Honest t (t.use id u) := by
  cases u with
  | select database answered unread => exact honest_select hSocket database answered unread
  | requireTtl answer unread =>
    have hAsk := honest_askTtl hSocket answer unread
    unfold use requireTtl
    dsimp only
    split
    · exact hAsk
    · exact hAsk
  | consult fact => exact .of_same rfl fun f => same_refl f t.entry
  | setScriptLoaded loaded =>
    refine .of_learned hSocket rfl fun f hf => ?_
    cases f with
    | scriptLoaded => simp at hf
    | writeRefusal => exact ⟨rfl, rfl⟩
    | _ => rfl
  | talk n marked => exact .of_same rfl fun f => same_busy f n marked t.entry
  | raise n marked => exact .of_same rfl fun f => same_busy f n marked t.entry
  | release => exact .of_same rfl fun f => same_refl f t.entry

theorem wipes_xact (event : XactEvent) (t : Tracked) : Wipes t (t.xact event) := by
  unfold xact swept connXact connSweep
  cases event with
  | prepare => exact .of_same (by simp) fun f => same_refl f t.entry
  | commit | abort =>
    by_cases hClosed : t.entry.conn = none
    · refine .of_same (by simp [hClosed]) fun f => ?_
      simp only [hClosed, if_true]
      exact same_refl f t.entry
    · by_cases hStale : (t.entry.inConversation || t.entry.invalidated) = true
      · refine .of_closed ?_ ?_ fun f hf => ?_
        · simp [hStale, Option.isSome_iff_ne_none.mpr hClosed]
        · simp [hClosed, hStale, connClose]
        · simp only [hClosed, hStale, if_true, if_false]
          exact unset_of_same (unset_close hf t.entry) (same_refl f _)
      · refine .of_same ?_ fun f => ?_
        · simp [hStale]
        · simp only [hClosed, hStale, if_false]
          exact same_refl f t.entry

theorem wipes_subxact (mySubid : Nat) (t : Tracked) : Wipes t (t.subxact mySubid) := by
  have hQuiet : Wipes t ⟨connQuiet t.entry,
      if t.entry.conn.isSome && t.entry.inConversation then wiped t.origin else t.origin,
      t.held⟩ := by
    by_cases hMarked : t.entry.conn ≠ none ∧ t.entry.inConversation = true
    · refine .of_closed ?_ ?_ fun f hf => ?_
      · simp [Option.isSome_iff_ne_none.mpr hMarked.1, hMarked.2]
      · simp [connQuiet, hMarked, connClose]
      · simp only [connQuiet, if_pos hMarked]
        exact unset_close hf t.entry
    · refine .of_same ?_ fun f => ?_
      · rw [if_neg]
        simpa [Option.isSome_iff_ne_none] using hMarked
      · simp only [connQuiet, if_neg hMarked]
        exact same_refl f t.entry
  have hLease : givesBack mySubid t.entry = true ↔
      (connQuiet t.entry).leased = true ∧ (connQuiet t.entry).leaseSubid = mySubid := by
    rw [connQuiet_leased, connQuiet_leaseSubid]
    simp [givesBack]
  intro f
  unfold subxact connSubxact connGiveBack
  dsimp only
  by_cases hBack : givesBack mySubid t.entry = true
  · rw [if_pos hBack, if_pos (hLease.mp hBack)]
    by_cases hScript : f = .scriptLoaded
    · subst hScript
      exact .inr ⟨blanked_self _ _, rfl⟩
    · rw [blanked_of_ne hScript]
      rcases hQuiet f with ⟨hOrigin, hSame⟩ | ⟨hOrigin, hUnset⟩
      · exact .inl ⟨hOrigin, by cases f <;> first | exact absurd rfl hScript | exact hSame⟩
      · exact .inr ⟨hOrigin, by cases f <;> first | exact absurd rfl hScript | exact hUnset⟩
  · rw [if_neg hBack, if_neg fun h => hBack (hLease.mpr h)]
    exact hQuiet f

section Acquire

variable [SysCache]

theorem wipes_record (server : ForeignServer) (user : UserMapping) (t : Tracked) :
    Wipes t (t.record server user) := by
  unfold record connRecord connRevalidate
  by_cases hStale : t.entry.invalidated = true
  · refine .of_closed (by simp [hStale]) (by simp [hStale, connClose]) fun f hf => ?_
    simp only [hStale, if_true]
    exact unset_of_same (unset_close hf t.entry) (same_refl f _)
  · refine .of_same (by simp [hStale]) fun f => ?_
    simp only [hStale, Bool.false_eq_true, if_false]
    exact same_refl f t.entry

theorem honest_acquire (server : ForeignServer) (user : UserMapping) (clusterAware : Bool)
    (node : Option Node) (subid : Nat) (opening : Opening) (t : Tracked) :
    Honest t (t.acquire server user clusterAware node subid opening) := by
  refine (wipes_claim subid node t).trans_honest ?_
  refine (wipes_record server user _).trans_honest ?_
  unfold acquire
  dsimp only
  split_ifs
  · exact .of_same rfl fun f => same_refl f _
  · exact honest_connect _ opening _
  · exact .of_same rfl fun f => same_refl f _

/-- No record changes without its origin. -/
theorem step_honest {op : EntryOp} (h : step op t = .ok t') : Honest t t' := by
  cases moves_of_step h with
  | acquire server user clusterAware node subid opening _ =>
    exact honest_acquire server user clusterAware node subid opening t
  | use id u hSocket _ => exact honest_use hSocket u
  | xact event => exact (wipes_xact event t).honest
  | subxact mySubid => exact (wipes_subxact mySubid t).honest
  | inval cacheid hashvalue =>
    refine .of_same rfl fun f => ?_
    obtain ⟨stale, hMarked⟩ := connInvalCallback_eq cacheid hashvalue t.entry
    dsimp only
    rw [hMarked]
    exact same_refl f t.entry

end Acquire

/-- A record that is called blank has the value of an entry without a socket. -/
def Plain (t : Tracked) : Prop := ∀ f, t.origin f = .blank → f.Unset t.entry

theorem Plain.of_honest (h : t.Plain) (hHonest : Honest t t') : t'.Plain := by
  intro f hBlank
  rcases hHonest f with ⟨hOrigin, hSame⟩ | ⟨-, hUnset⟩ | ⟨id, -, hLearned⟩
  · exact unset_of_same (h f (hOrigin ▸ hBlank)) hSame
  · exact hUnset
  · rw [hLearned] at hBlank
    cases hBlank

theorem plain_enter (residue : Conn) : (enter residue).Plain := by
  intro f hBlank
  cases f with
  | writeRefusal => exact ⟨rfl, rfl⟩
  | fieldTtl => cases hBlank
  | _ => rfl

/-! ## Records and the socket that is open -/

/-- Every record but that of the expiry of fields is blank, or was learned on the socket that
is open. -/
def Current (t : Tracked) : Prop :=
  ∀ f, f ≠ .fieldTtl → t.origin f = .blank ∨
    ∃ id, t.entry.socket = some id ∧ t.origin f = .learned id

/-- The server was asked everything that is asked when a socket is opened. -/
def SetUp (t : Tracked) : Prop :=
  ∀ id, t.entry.socket = some id →
    t.origin .protocol = .learned id ∧ t.origin .writeRefusal = .learned id

/-- A socket that was not set up is that of an entry which is leased and marked, and which no
caller was given. -/
structure Sound (t : Tracked) : Prop where
  current : t.Current
  setUp : t.SetUp ∨ (t.entry.inConversation = true ∧ t.entry.leased = true ∧ t.held = false)

theorem Sound.of_closed (hClosed : t.entry.socket = none)
    (h : ∀ f, f ≠ .fieldTtl → t.origin f = .blank) : t.Sound :=
  ⟨fun f hf => .inl (h f hf), .inl fun id hid => by rw [hClosed] at hid; cases hid⟩

theorem Current.of_same (h : t.Current) (hSocket : t'.entry.socket = t.entry.socket)
    (hOrigin : t'.origin = t.origin) : t'.Current := by
  intro f hf
  rw [hOrigin, hSocket]
  exact h f hf

theorem SetUp.of_same (h : t.SetUp) (hSocket : t'.entry.socket = t.entry.socket)
    (hOrigin : t'.origin = t.origin) : t'.SetUp := by
  intro id hid
  rw [hOrigin]
  exact h id (hSocket ▸ hid)

theorem Current.blank (h : t.Current) (hClosed : t.entry.socket = none) (hf : f ≠ .fieldTtl) :
    t.origin f = .blank := by
  rcases h f hf with hBlank | ⟨id, hid, -⟩
  · exact hBlank
  · rw [hClosed] at hid
    cases hid

theorem wiped_blank (hf : f ≠ .fieldTtl) (o : Fact → Origin) : wiped o f = .blank :=
  if_neg hf

theorem Sound.setUp_of_free (h : t.Sound) (hFree : t.entry.leased = false) : t.SetUp := by
  rcases h.setUp with hSetUp | ⟨-, hLeased, -⟩
  · exact hSetUp
  · rw [hFree] at hLeased
    cases hLeased

theorem Sound.setUp_of_held (h : t.Sound) (hHeld : t.held = true) : t.SetUp := by
  rcases h.setUp with hSetUp | ⟨-, -, hNobody⟩
  · exact hSetUp
  · rw [hHeld] at hNobody
    cases hNobody

theorem Current.learned (h : t.Current) (hOpen : t.entry.socket = some id)
    (hSocket : t'.entry.socket = t.entry.socket) (hOrigin : t'.origin = learnedOn id facts t.origin)
    :
    t'.Current := by
  intro f hf
  rw [hOrigin, hSocket, learnedOn]
  by_cases hLearned : f ∈ facts
  · exact .inr ⟨id, hOpen, if_pos hLearned⟩
  · rw [if_neg hLearned]
    exact h f hf

theorem SetUp.learned (h : t.SetUp) (hProtocol : .protocol ∉ facts)
    (hRefusal : .writeRefusal ∉ facts) (hSocket : t'.entry.socket = t.entry.socket)
    (hOrigin : t'.origin = learnedOn id facts t.origin) : t'.SetUp := by
  intro id' hid
  rw [hOrigin, learnedOn, learnedOn, if_neg hProtocol, if_neg hRefusal]
  exact h id' (hSocket ▸ hid)

theorem Current.blanked (h : t.Current) (fact : Fact) (hSocket : t'.entry.socket = t.entry.socket)
    (hOrigin : t'.origin = Pool.blanked fact t.origin) : t'.Current := by
  intro f hf
  rw [hOrigin, hSocket]
  by_cases hFact : f = fact
  · subst hFact
    exact .inl (blanked_self f t.origin)
  · rw [blanked_of_ne hFact]
    exact h f hf

theorem SetUp.blanked {fact : Fact} (h : t.SetUp) (hProtocol : .protocol ≠ fact)
    (hRefusal : .writeRefusal ≠ fact) (hSocket : t'.entry.socket = t.entry.socket)
    (hOrigin : t'.origin = Pool.blanked fact t.origin) : t'.SetUp := by
  intro id hid
  rw [hOrigin, blanked_of_ne hProtocol, blanked_of_ne hRefusal]
  exact h id (hSocket ▸ hid)

theorem Sound.of_learned (h : t.Sound) (hSetUp : t.SetUp) (hOpen : t.entry.socket = some id)
    (hProtocol : .protocol ∉ facts) (hRefusal : .writeRefusal ∉ facts)
    (hSocket : t'.entry.socket = t.entry.socket) (hOrigin : t'.origin = learnedOn id facts t.origin)
    :
    t'.Sound :=
  ⟨h.current.learned hOpen hSocket hOrigin,
    .inl (hSetUp.learned hProtocol hRefusal hSocket hOrigin)⟩

theorem Sound.of_same (h : t.Sound) (hSetUp : t.SetUp)
    (hSocket : t'.entry.socket = t.entry.socket) (hOrigin : t'.origin = t.origin) : t'.Sound :=
  ⟨h.current.of_same hSocket hOrigin, .inl (hSetUp.of_same hSocket hOrigin)⟩

theorem Sound.use (h : t.Sound) (hHeld : t.held = true) (hOpen : t.entry.socket = some id) (u : Use)
    :
    (t.use id u).Sound := by
  have hSetUp := h.setUp_of_held hHeld
  cases u with
  | select database answered unread =>
    unfold Tracked.use select
    dsimp only
    split_ifs with hSame hCluster hZero hAnswered
    · exact h
    · exact h.of_same hSetUp rfl rfl
    · exact h.of_learned hSetUp hOpen (by decide) (by decide) rfl rfl
    · exact h.of_learned hSetUp hOpen (by decide) (by decide) (Conn.socket_owing unread) rfl
    · have hSocket := t.entry.socket_busy unread true
      exact ⟨h.current.blanked .database hSocket rfl,
        .inl (hSetUp.blanked (by decide) (by decide) hSocket rfl)⟩
  | requireTtl answer unread =>
    have hAsk : (t.askTtl id answer unread).Sound ∧ (t.askTtl id answer unread).SetUp := by
      unfold askTtl
      split
      · split
        · rename_i a
          have hSocket := (Conn.socket_learnTtl a).trans (t.entry.socket_owing unread)
          exact ⟨h.of_learned hSetUp hOpen (by decide) (by decide) hSocket rfl,
            hSetUp.learned (by decide) (by decide) hSocket rfl⟩
        · have hSocket := t.entry.socket_owing unread
          exact ⟨h.of_same hSetUp hSocket rfl, hSetUp.of_same hSocket rfl⟩
      · exact ⟨h, hSetUp⟩
    unfold Tracked.use requireTtl
    dsimp only
    split
    · exact hAsk.1.of_same hAsk.2 rfl rfl
    · exact hAsk.1
  | consult fact => exact h
  | setScriptLoaded loaded => exact h.of_learned hSetUp hOpen (by decide) (by decide) rfl rfl
  | talk n marked => exact h.of_same hSetUp (t.entry.socket_busy n marked) rfl
  | raise n marked => exact h.of_same hSetUp (t.entry.socket_busy n marked) rfl
  | release => exact h.of_same hSetUp rfl rfl

theorem sound_enter (residue : Conn) : (enter residue).Sound :=
  .of_closed rfl fun _ hf => if_neg hf

/-- A socket that was not set up is closed with its transaction. -/
theorem Sound.sweep (h : t.Sound) {event : XactEvent} (hEvent : event ≠ .prepare) :
    (t.xact event).Sound := by
  have hSweep : connXact event t.entry = connSweep t.entry := by
    cases event with
    | prepare => exact absurd rfl hEvent
    | commit | abort => rfl
  by_cases hClosed : t.entry.conn = none
  · have hNone : (t.xact event).entry.socket = none := by
      rw [Tracked.xact, hSweep, connSweep, if_pos hClosed]
      exact Conn.socket_eq_none.mpr hClosed
    refine .of_closed hNone fun f hf => ?_
    have hBlank := h.current.blank (Conn.socket_eq_none.mpr hClosed) hf
    simp [Tracked.xact, swept, hClosed, hBlank]
  · have hSwept : swept event t.entry = (t.entry.inConversation || t.entry.invalidated) := by
      simp [swept, hEvent, Option.isSome_iff_ne_none.mpr hClosed]
    rw [Tracked.xact, hSweep, hSwept, connSweep, if_neg hClosed]
    split_ifs with hStale
    · exact .of_closed rfl fun f hf => wiped_blank hf t.origin
    · have hSetUp : t.SetUp := by
        rcases h.setUp with hSetUp | ⟨hMarked, -⟩
        · exact hSetUp
        · simp [hMarked] at hStale
      exact h.of_same hSetUp rfl rfl

theorem Sound.xact (h : t.Sound) (event : XactEvent) : (t.xact event).Sound := by
  cases event with
  | prepare =>
    -- Nothing of the entry changes, and whoever had it is gone.
    refine ⟨h.current.of_same rfl (by simp [Tracked.xact, swept]), ?_⟩
    refine h.setUp.imp (fun hSetUp => hSetUp.of_same rfl (by simp [Tracked.xact, swept])) ?_
    exact fun ⟨hMarked, hLeased, _⟩ => ⟨hMarked, hLeased, rfl⟩
  | commit => exact h.sweep (by decide)
  | abort => exact h.sweep (by decide)

theorem Sound.subxact (h : t.Sound) (mySubid : Nat) : (t.subxact mySubid).Sound := by
  have hConn : (t.subxact mySubid).entry.conn =
      if t.entry.inConversation then none else t.entry.conn :=
    connSubxact_conn mySubid t.entry
  by_cases hOpen : t.entry.conn ≠ none ∧ t.entry.inConversation = false
  · -- The socket stays, and of the records that of the program is set back with the lease.
    have hSocket : (t.subxact mySubid).entry.socket = t.entry.socket :=
      Conn.socket_of_conn (by simpa [hOpen.2] using hConn)
    have hSetUp : t.SetUp := by
      rcases h.setUp with hSetUp | ⟨hMarked, -⟩
      · exact hSetUp
      · rw [hOpen.2] at hMarked
        cases hMarked
    by_cases hBack : givesBack mySubid t.entry = true
    · have hOrigin : (t.subxact mySubid).origin = Pool.blanked .scriptLoaded t.origin := by
        simp [Tracked.subxact, hBack, hOpen.2]
      exact ⟨h.current.blanked .scriptLoaded hSocket hOrigin,
        .inl (hSetUp.blanked (by decide) (by decide) hSocket hOrigin)⟩
    · exact h.of_same hSetUp hSocket (by simp [Tracked.subxact, hBack, hOpen.2])
  · -- Nothing is open afterwards, and every record is that of a closed entry.
    have hClosed : (t.subxact mySubid).entry.conn = none := by
      rw [hConn]
      split
      · rfl
      · rename_i hMarked
        by_contra hSome
        exact hOpen ⟨hSome, Bool.eq_false_iff.mpr hMarked⟩
    refine .of_closed (Conn.socket_eq_none.mpr hClosed) fun f hf => ?_
    have hQuiet : (if t.entry.conn.isSome && t.entry.inConversation then wiped t.origin
        else t.origin) f = .blank := by
      split
      · exact wiped_blank hf t.origin
      · rename_i hQuiet
        have hNone : t.entry.conn = none := by
          by_contra hSome
          refine hOpen ⟨hSome, ?_⟩
          simpa [Option.isSome_iff_ne_none.mpr hSome] using hQuiet
        exact h.current.blank (Conn.socket_eq_none.mpr hNone) hf
    simp only [Tracked.subxact]
    split
    · by_cases hScript : f = .scriptLoaded
      · subst hScript
        exact blanked_self _ _
      · rw [blanked_of_ne hScript]
        exact hQuiet
    · exact hQuiet

theorem Sound.inval (h : t.Sound) (cacheid : CacheId) (hashvalue : Nat) :
    { t with entry := connInvalCallback cacheid hashvalue t.entry }.Sound := by
  obtain ⟨stale, hMarked⟩ := connInvalCallback_eq cacheid hashvalue t.entry
  rw [hMarked]
  refine ⟨h.current.of_same rfl rfl, h.setUp.imp_left fun hSetUp => hSetUp.of_same rfl rfl⟩

/-- Opening a socket: it is set up, or nobody is given the connection. -/
theorem Sound.connect (h : t.Sound) (hClosed : t.entry.socket = none)
    (hLeased : t.entry.leased = true) (user : UserOptions) (opening : Opening) :
    (t.connect user opening).Sound := by
  have hBlank : ∀ f, f ≠ .fieldTtl → Pool.blanked .database t.origin f = .blank := by
    intro f hf
    by_cases hd : f = .database
    · subst hd
      exact blanked_self _ _
    · rw [blanked_of_ne hd]
      exact h.current.blank hClosed hf
  have hCurrent : ∀ (id : Nat) (facts : List Fact) (u : Tracked), u.entry.socket = some id →
      u.origin = learnedOn id facts (Pool.blanked .database t.origin) → u.Current := by
    intro id facts u hSocket hOrigin f hf
    rw [hOrigin, learnedOn]
    split
    · exact .inr ⟨id, hSocket, rfl⟩
    · exact .inl (hBlank f hf)
  cases opening with
  | unreached => exact .of_closed hClosed fun f hf => h.current.blank hClosed hf
  | broken id n =>
    refine ⟨fun f hf => .inl (hBlank f hf), .inr ⟨rfl, hLeased, rfl⟩⟩
  | halfway id n hello =>
    refine ⟨hCurrent id _ _ (by simp [Tracked.connect]) rfl, .inr ⟨rfl, hLeased, rfl⟩⟩
  | complete id n hello probe =>
    have hSocket : (t.connect user (.complete id n hello probe)).entry.socket = some id := by
      simp [Tracked.connect]
    refine ⟨hCurrent id _ _ hSocket rfl, .inl fun id' hid => ?_⟩
    obtain rfl := Option.some.inj (hSocket.symm.trans hid)
    exact ⟨rfl, rfl⟩

section Acquire

variable [SysCache]

theorem Sound.acquire (h : t.Sound) (hFree : t.entry.leased = false) (server : ForeignServer)
    (user : UserMapping) (clusterAware : Bool) (node : Option Node) (subid : Nat)
    (opening : Opening) : (t.acquire server user clusterAware node subid opening).Sound := by
  have hClaim : (t.claim subid node).Sound ∧ (t.claim subid node).SetUp ∧
      (t.claim subid node).entry.leased = true := by
    have hSetUp := h.setUp_of_free hFree
    unfold claim
    split
    · exact ⟨h.of_same hSetUp rfl rfl, hSetUp.of_same rfl rfl, rfl⟩
    · exact ⟨.of_closed rfl fun f hf => wiped_blank hf t.origin, fun id hid => (by cases hid), rfl⟩
  have hRecord : ((t.claim subid node).record server user).Sound ∧
      ((t.claim subid node).record server user).SetUp ∧
      ((t.claim subid node).record server user).entry.leased = true := by
    obtain ⟨hSound, hSetUp, hLeased⟩ := hClaim
    have hKept := (connRecord_kept server user (t.claim subid node).entry).1
    by_cases hStale : (t.claim subid node).entry.invalidated = true
    · have hClosed := Conn.socket_eq_none.mpr (connRecord_of_invalidated server user hStale).1
      refine ⟨.of_closed hClosed fun f hf => ?_, fun id hid => ?_, hKept.trans hLeased⟩
      · simp only [record, hStale, if_true]
        exact wiped_blank hf _
      · rw [record, hClosed] at hid
        cases hid
    · have hValid := connRecord_of_valid server user (Bool.eq_false_iff.mpr hStale)
      have hSocket := Conn.socket_of_conn hValid.1
      have hOrigin : ((t.claim subid node).record server user).origin =
          (t.claim subid node).origin :=
        if_neg hStale
      exact ⟨hSound.of_same hSetUp hSocket hOrigin, hSetUp.of_same hSocket hOrigin,
        hKept.trans hLeased⟩
  obtain ⟨hSound, hSetUp, hLeased⟩ := hRecord
  unfold Tracked.acquire
  dsimp only
  split_ifs with hRefuses hClosed
  · exact hSound.of_same hSetUp rfl rfl
  · exact hSound.connect (Conn.socket_eq_none.mpr hClosed) hLeased user.options opening
  · exact hSound.of_same hSetUp rfl rfl

theorem Sound.step {op : EntryOp} (h : t.Sound) (hStep : step op t = .ok t') : t'.Sound := by
  cases moves_of_step hStep with
  | acquire server user clusterAware node subid opening hFree =>
    exact h.acquire hFree server user clusterAware node subid opening
  | use id u hSocket hHeld => exact h.use hHeld hSocket u
  | xact event => exact h.xact event
  | subxact mySubid => exact h.subxact mySubid
  | inval cacheid hashvalue => exact h.inval cacheid hashvalue

end Acquire

/-! ## The record that is never set back -/

section Ttl

theorem connect_origin_ttl (user : UserOptions) (opening : Opening) :
    (t.connect user opening).origin .fieldTtl = t.origin .fieldTtl := by
  cases opening <;> rfl

theorem claim_origin_ttl (subid : Nat) (node : Option Node) :
    (t.claim subid node).origin .fieldTtl = t.origin .fieldTtl := by
  unfold claim
  split <;> rfl

theorem use_origin_ttl {u : Use} (hReads : (EntryOp.use u).reads ≠ some .fieldTtl) (id : Nat) :
    (t.use id u).origin .fieldTtl = t.origin .fieldTtl := by
  cases u with
  | select database answered unread =>
    simp only [Tracked.use, select]
    split_ifs <;> rfl
  | requireTtl answer unread => exact absurd rfl hReads
  | _ => rfl

variable [SysCache]

theorem acquire_origin_ttl (server : ForeignServer) (user : UserMapping) (clusterAware : Bool)
    (node : Option Node) (subid : Nat) (opening : Opening) :
    (t.acquire server user clusterAware node subid opening).origin .fieldTtl =
      t.origin .fieldTtl := by
  have hRecord : ((t.claim subid node).record server user).origin .fieldTtl =
      t.origin .fieldTtl := by
    simp only [record]
    split
    · exact claim_origin_ttl subid node
    · exact claim_origin_ttl subid node
  unfold Tracked.acquire
  dsimp only
  split_ifs
  · exact hRecord
  · exact (connect_origin_ttl user.options opening).trans hRecord
  · exact hRecord

theorem step_origin_ttl {op : EntryOp} (hStep : step op t = .ok t')
    (hReads : op.reads ≠ some .fieldTtl) : t'.origin .fieldTtl = t.origin .fieldTtl := by
  cases moves_of_step hStep with
  | acquire server user clusterAware node subid opening _ =>
    exact acquire_origin_ttl server user clusterAware node subid opening
  | use id u _ _ => exact use_origin_ttl hReads id
  | xact event =>
    simp only [Tracked.xact]
    split <;> rfl
  | subxact mySubid =>
    simp only [Tracked.subxact]
    split_ifs <;> rfl
  | inval cacheid hashvalue => rfl

end Ttl

/-! ## Every record that is acted on -/

variable [SysCache]

/-- The record that a step goes by can be relied on. -/
def Acts (t : Tracked) (op : EntryOp) : Prop :=
  ∀ f t', op.reads = some f → step op t = .ok t' → t.Reliable f

omit [SysCache] in
/-- Every record but that of the expiry of fields can be relied on by whoever was given the
connection. -/
theorem Sound.reliable (h : t.Sound) (hPlain : t.Plain) (hSocket : t.entry.socket = some id)
    (hHeld : t.held = true) (hf : f ≠ .fieldTtl) :
    t.Reliable f := by
  obtain ⟨hProtocol, hRefusal⟩ := h.setUp_of_held hHeld id hSocket
  rcases h.current f hf with hBlank | hLearned
  · cases f with
    | protocol => exact .inl ⟨id, hSocket, hProtocol⟩
    | writeRefusal => exact .inl ⟨id, hSocket, hRefusal⟩
    | fieldTtl => exact absurd rfl hf
    | database => exact .inr ⟨rfl, hBlank, hPlain _ hBlank⟩
    | scriptLoaded => exact .inr ⟨rfl, hBlank, hPlain _ hBlank⟩
  · exact .inl hLearned

theorem Sound.acts {op : EntryOp} (h : t.Sound) (hPlain : t.Plain)
    (hReads : op.reads ≠ some .fieldTtl) : t.Acts op := by
  intro f t' hf hStep
  have hNe : f ≠ .fieldTtl := by
    rintro rfl
    exact hReads hf
  cases moves_of_step hStep with
  | use id u hSocket hHeld => exact h.reliable hPlain hSocket hHeld hNe
  | _ => cases hf

/-- Where nobody asks about the expiry of fields, every record that is acted on can be relied
on. -/
theorem along_acts (residue : Conn) {ops : List EntryOp}
    (hReads : ∀ op ∈ ops, op.reads ≠ some .fieldTtl) :
    Along Tracked.step Acts ops (.enter residue) := by
  refine Along.of_invariant (I := fun u => u.Sound ∧ u.Plain) ?_ ?_
    ⟨sound_enter residue, plain_enter residue⟩
  · exact fun op _ u v h hStep => ⟨h.1.step hStep, h.2.of_honest (step_honest hStep)⟩
  · exact fun op hop u h => h.1.acts h.2 (hReads op hop)

theorem reads_ne_of_acts {op : EntryOp} (h : t.Acts op) (hStep : step op t = .ok t')
    (hResidue : t.origin .fieldTtl = .residue) : op.reads ≠ some .fieldTtl := by
  intro hReads
  rcases h .fieldTtl t' hReads hStep with ⟨id, -, hLearned⟩ | ⟨-, hBlank, -⟩
  · rw [hResidue] at hLearned
    cases hLearned
  · rw [hResidue] at hBlank
    cases hBlank

end Tracked

section Runs

variable [SysCache]

open Tracked

/-- In a run of the operations on an entry, every record that is acted on can be relied on if
and only if nobody asks about the expiry of fields: its record is not set where the entry is
made. -/
theorem facts_current_iff (residue : Conn) (ops : List EntryOp) {t : Tracked}
    (hRun : run Tracked.step ops (.enter residue) = .ok t) :
    Along Tracked.step Acts ops (.enter residue) ↔ ∀ op ∈ ops, op.reads ≠ some .fieldTtl := by
  constructor
  · intro hAlong
    have hResidue : (enter residue).origin .fieldTtl = .residue := rfl
    generalize enter residue = u at hRun hAlong hResidue
    induction ops generalizing u with
    | nil => exact fun op hop => by cases hop
    | cons op ops ih =>
      obtain ⟨v, hStep, hRest⟩ := run_cons_ok.mp hRun
      have hReads := reads_ne_of_acts hAlong.1 hStep hResidue
      refine List.forall_mem_cons.mpr ⟨hReads, ?_⟩
      exact ih v hRest (hAlong.2 v hStep) ((step_origin_ttl hStep hReads).trans hResidue)
  · exact along_acts residue

end Runs

/-- A request that finds the entry free and opens a socket. -/
def plainAcquire (socket : Nat) : EntryOp :=
  .acquire plainServer plainUser false none topSubid (.complete socket 0 (.map []) .other)

/-- A connection is taken, a database selected, the program found and the connection given
back; then the definitions change and it is opened again. -/
def plainRun : List EntryOp :=
  [plainAcquire 0, .use (.select 0 true 0), .use (.consult .scriptLoaded), .use .release,
    .inval .foreignServer 0, plainAcquire 1, .use (.select 0 true 0), .use (.consult .protocol),
    .xact .commit]

theorem facts_current_reopened :
    letI := plainCache
    Along Tracked.step Tracked.Acts plainRun (.enter (plainResidue plainKey)) := by
  let _ := plainCache
  exact (facts_current_iff (plainResidue plainKey) plainRun rfl).mpr (by decide)

/-- The answer of a server whose fields can expire. -/
def ttlKnown : Answer := .array (List.replicate 3 (.array [.other]))

/-- Memory that happens to read "absent" refuses a table that the server could serve, and
does not ask. Where it reads "unknown", what was learned of one server is believed of the next,
whatever that one would answer. -/
theorem ttl_record_outlives_socket :
    letI := plainCache
    let garbage : Conn := { plainResidue plainKey with fieldTtl := .absent }
    let ask : EntryOp := .use (.requireTtl (some ttlKnown) 0)
    (¬Along Tracked.step Tracked.Acts [plainAcquire 0, ask] (.enter garbage) ∧
      ∃ t, run Tracked.step [plainAcquire 0, ask] (.enter garbage) = .ok t ∧
        t.origin .fieldTtl = .residue ∧ t.held = false) ∧
    ∃ t, run Tracked.step [plainAcquire 0, ask, .use .release, .inval .foreignServer 0,
        plainAcquire 1] (.enter (plainResidue plainKey)) = .ok t ∧
      t.entry.socket = some 1 ∧ t.origin .fieldTtl = .learned 0 ∧
      ∀ answer unread, t.requireTtl 1 answer unread = t := by
  let _ := plainCache
  refine ⟨⟨fun hAlong => ?_, _, rfl, rfl, rfl⟩, _, rfl, rfl, rfl, fun answer unread => rfl⟩
  have hTaken := hAlong.2 _ rfl
  exact Tracked.reads_ne_of_acts hTaken.1 rfl rfl rfl

end ValkeyFdw.Pool
