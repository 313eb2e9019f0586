import ValkeyFdw.Cluster.Slots
import ValkeyFdw.Lib.Raise

/-!
# Pooled connections

The pool keeps up to 32 connections for every server and user. A caller takes one that
nobody holds, opens its socket if there is none, and gives it back. The socket is one
stream of replies: what was asked and not read would be the next caller's answer, so an
entry is marked as mid-conversation while replies may be outstanding, and nothing is
cleaned up on the way out of a failure. The end of a transaction, the end of a
subtransaction and a change of the catalog go over all entries.

The routines are programs that raise: a raise leaves the pool as it is at that moment.
What the network does at each wait is a list that they consume; a wait that is not
answered raises, be it a cancel, a timeout or an error.
-/

namespace ValkeyFdw.Pool

/-! ## Definitions that the catalog holds -/

structure ServerOptions where
  host : Bytes
  port : Nat
  unixSocketPath : Option Bytes
  tls : Bool
  cluster : Bool
  pipelineBatch : Nat
deriving DecidableEq

structure UserOptions where
  username : Option Bytes
  password : Option Bytes
  passwordRequired : Bool
deriving DecidableEq

structure ForeignServer where
  serverid : Nat
  options : ServerOptions

/-- The mapping that applies to a user, who need not be the one it was made for. -/
structure UserMapping where
  umid : Nat
  userid : Nat
  superuser : Bool
  options : UserOptions

inductive CacheId where
  | foreignServer
  | userMapping
deriving DecidableEq

/-- The hash that an invalidation carries for a row. -/
class SysCache where
  hashValue : CacheId → Nat → Nat

/-! ## Entries -/

def maxConnSlots : Nat := 32

def maxNodeHost : Nat := 256

def maxWriteRefusal : Nat := 256

def invalidSubid : Nat := 0

def topSubid : Nat := 1

/-- What is known of a capability. -/
inductive Cap where
  | unknown
  | present
  | absent
deriving DecidableEq

/-- Where a socket leads to; a path wins over host and port. -/
structure Endpoint where
  host : Bytes
  port : Nat
  unixPath : Option Bytes
deriving DecidableEq

def ServerOptions.endpoint (opts : ServerOptions) : Endpoint :=
  ⟨opts.host, opts.port, opts.unixSocketPath⟩

/-- What does not change about an open socket. -/
structure Link where
  id : Nat
  endpoint : Endpoint
  credentials : UserOptions
deriving DecidableEq

/-- A socket and what is outstanding on it. -/
structure Socket where
  link : Link
  /-- Commands that were handed over and whose replies were not read. -/
  unread : Nat
deriving DecidableEq

/-- The place of an entry: a slot of a server and user. -/
structure ConnKey where
  serverid : Nat
  userid : Nat
  slot : Nat
deriving DecidableEq

/-- An entry of the pool. -/
structure Conn where
  conn : Option Socket
  nodeHost : Bytes
  nodePort : Nat
  opts : ServerOptions
  resp3 : Bool
  database : Int
  inConversation : Bool
  invalidated : Bool
  leased : Bool
  scriptLoaded : Bool
  writeRefused : Bool
  writeRefusal : Bytes
  fieldTtl : Cap
  leaseSubid : Nat
  serverHashvalue : Nat
  mappingHashvalue : Nat
deriving DecidableEq

/-- A new entry: what is not set here is whatever the memory held. -/
def connInitEntry (residue : Conn) : Conn :=
  { residue with
    conn := none, resp3 := false, database := -1, inConversation := false, invalidated := false,
    leased := false, leaseSubid := invalidSubid, scriptLoaded := false, writeRefused := false,
    writeRefusal := [], nodeHost := [], nodePort := 0 }

/-- The socket is closed, and what was learned on it is forgotten. -/
def connClose (e : Conn) : Conn :=
  { e with
    conn := none, inConversation := false, resp3 := false, database := -1, scriptLoaded := false,
    writeRefused := false, writeRefusal := [] }

/-- Whether an entry points at the node that is asked for, the server's own endpoint if
none is. -/
def connNodeMatches (e : Conn) : Option Node → Bool
  | none => e.nodeHost = []
  | some n => e.nodePort = n.port && e.nodeHost.take maxNodeHost = n.host.take maxNodeHost

def connLease (subid : Nat) (e : Conn) : Conn := { e with leased := true, leaseSubid := subid }

/-- Point an entry at a node; the name is cut to fit. -/
def connClaim (subid : Nat) (node : Option Node) (e : Conn) : Conn :=
  connLease subid { connClose e with
    nodeHost := node.elim [] fun n => n.host.take (maxNodeHost - 1)
    nodePort := node.elim 0 Node.port }

/-- The first entry that points at the node; without one, the first with nothing open,
then the first with something open. The flag says whether it points at the node. -/
def freeSlotFrom (entry : Nat → Conn) (node : Option Node) :
    List Nat → Option Nat → Option Nat → Option (Nat × Bool)
  | [], virgin, victim => (virgin.or victim).map (·, false)
  | i :: slots, virgin, victim =>
    if (entry i).leased then freeSlotFrom entry node slots virgin victim
    else if connNodeMatches (entry i) node then some (i, true)
    else if (entry i).conn = none then freeSlotFrom entry node slots (virgin.or (some i)) victim
    else freeSlotFrom entry node slots virgin (victim.or (some i))

/-- An entry that the catalog made stale is closed before it is used again. -/
def connRevalidate (e : Conn) : Conn :=
  if e.invalidated then { connClose e with invalidated := false } else e

/-! ## Over all entries -/

/-- The end of a transaction. -/
inductive XactEvent where
  | commit
  | abort
  | prepare
deriving DecidableEq

/-- What the end of a transaction does to an entry: nothing if it has no socket. -/
def connSweep (e : Conn) : Conn :=
  if e.conn = none then e
  else { (if e.inConversation || e.invalidated then connClose e else e) with
    leased := false, leaseSubid := invalidSubid }

/-- The end of a transaction, for one entry. -/
def connXact : XactEvent → Conn → Conn
  | .prepare, e => e
  | _, e => connSweep e

/-- A connection caught in conversation cannot be handed to anyone. -/
def connQuiet (e : Conn) : Conn := if e.conn ≠ none ∧ e.inConversation = true then connClose e else e

def connGiveBack (mySubid : Nat) (e : Conn) : Conn :=
  if e.leased = true ∧ e.leaseSubid = mySubid then
    { e with leased := false, leaseSubid := invalidSubid, scriptLoaded := false }
  else e

/-- What the abort of a subtransaction does to an entry. -/
def connSubxact (mySubid : Nat) (e : Conn) : Conn := connGiveBack mySubid (connQuiet e)

/-- What an invalidation does to an entry; the hash 0 stands for every row. -/
def connInvalCallback (cacheid : CacheId) (hashvalue : Nat) (e : Conn) : Conn :=
  if e.conn = none then e
  else if hashvalue = 0 || (cacheid = .foreignServer && e.serverHashvalue = hashvalue) ||
      (cacheid = .userMapping && e.mappingHashvalue = hashvalue) then
    { e with invalidated := true }
  else e

/-! ## Programs -/

/-- A reply, as far as the code here looks at it. -/
inductive Answer where
  | error (text : Bytes)
  | array (elems : List Answer)
  | map (elems : List Answer)
  /-- The answer to `CLUSTER SHARDS`, read as the slot map that it describes. -/
  | shards (map : SlotMap)
  | other

namespace Answer

def isError : Answer → Bool
  | .error _ => true
  | _ => false

def isMap : Answer → Bool
  | .map _ => true
  | _ => false

/-- An error whose first word this is. -/
def hasPrefix (word : String) : Answer → Bool
  | .error text => (ascii word).isPrefixOf text &&
      (text.length = (ascii word).length || text[(ascii word).length]? = some 32)
  | _ => false

/-- The elements of a list of any kind. -/
def elems : Answer → List Answer
  | .array elems | .map elems => elems
  | _ => []

def text : Answer → Bytes
  | .error text => text
  | _ => []

end Answer

/-- What the network does at a wait. -/
inductive Wait where
  | answers (answer : Answer)
  | fails

/-- The errors of the pool. -/
inductive PoolError where
  | noSlots
  | passwordRequired
  | clusterUnsupported
  | io
  | refused (what : String)
  | databaseUnsupported (database : Int)
  | noFieldTtl
  | badSlotMap
  /-- The socket was freed under its user: the source goes on with a dangling pointer. -/
  | dangling

/-- What a backend keeps between statements. An entry that was never entered reads as a
new one. -/
structure World where
  pool : ConnKey → Conn
  subid : Nat
  opens : Nat
  maps : Nat × Nat → Option SlotMap
  sent : List Endpoint
  waits : List Wait

/-- A program that raises. -/
abbrev Proc := EStateM PoolError World

def World.setConn (w : World) (k : ConnKey) (e : Conn) : World :=
  { w with pool := Function.update w.pool k e }

def readConn (k : ConnKey) : Proc Conn := (fun w => w.pool k) <$> get

def modifyConn (k : ConnKey) (f : Conn → Conn) : Proc Unit :=
  modify fun w => w.setConn k (f (w.pool k))

def raiseIf (c : Bool) (e : PoolError) : Proc Unit := if c then throw e else pure ()

def await : Proc Answer := do
  let w ← get
  match w.waits with
  | .answers a :: rest => do
    set { w with waits := rest }
    pure a
  | .fails :: rest => do
    set { w with waits := rest }
    throw .io
  | [] => throw .io

/-- The socket of an entry, for a user who knows it as `ctx`. -/
def socketAt (k : ConnKey) (ctx : Option Nat) : Proc Socket := do
  let e ← readConn k
  match e.conn with
  | some sock => if ctx = some sock.link.id then pure sock else throw .dangling
  | none => throw .dangling

def World.hand (w : World) (k : ConnKey) (sock : Socket) : World :=
  { w.setConn k { w.pool k with conn := some { sock with unread := sock.unread + 1 } } with
    sent := w.sent ++ [sock.link.endpoint] }

/-- Hand a command over; it may be refused for want of memory. -/
def appendCommand (k : ConnKey) (ctx : Option Nat) : Proc Unit := do
  let _ ← await
  let sock ← socketAt k ctx
  modify fun w => w.hand k sock

def ioFlush : Proc Unit := do
  let _ ← await
  pure ()

def ioGetReply (k : ConnKey) (ctx : Option Nat) : Proc Answer := do
  let a ← await
  let sock ← socketAt k ctx
  modifyConn k fun e => { e with conn := some { sock with unread := sock.unread - 1 } }
  pure a

/-- Ask one thing and read the answer. -/
def roundTrip (k : ConnKey) : Proc Answer := do
  let e ← readConn k
  let ctx := e.conn.map fun sock => sock.link.id
  appendCommand k ctx
  ioFlush
  ioGetReply k ctx

/-! ## Opening -/

/-- One command and its reply, under the mark. -/
def connCommand (k : ConnKey) (what : String) : Proc Answer := do
  let e ← readConn k
  modifyConn k fun e => { e with inConversation := true }
  let a ← roundTrip k
  raiseIf a.isError (.refused what)
  modifyConn k fun e' => { e' with inConversation := e.inConversation }
  pure a

/-- Attach TLS, and complete the handshake with a round trip. -/
def connForceHandshake (k : ConnKey) : Proc Unit := do
  let e ← readConn k
  if e.opts.tls then do
    let _ ← await
    let _ ← connCommand k "TLS handshake with Valkey failed"
    pure ()
  else pure ()

def connAuthenticate (k : ConnKey) (user : UserOptions) : Proc Unit :=
  match user.password with
  | none => pure ()
  | some _ => do
    let _ ← connCommand k "authentication to Valkey failed"
    pure ()

def lowerByte (b : UInt8) : UInt8 := if 65 ≤ b ∧ b ≤ 90 then b + 32 else b

def resp3Declined (a : Answer) : Bool :=
  a.hasPrefix "NOPROTO" || (a.hasPrefix "ERR" &&
    a.text.tails.any fun t => (ascii "unknown command").isPrefixOf (t.map lowerByte))

def helloFailure (a : Answer) : String :=
  if a.hasPrefix "NOAUTH" || a.hasPrefix "WRONGPASS" || a.hasPrefix "NOPERM" then
    "authentication to Valkey failed"
  else "could not negotiate RESP3"

/-- `HELLO 3`; a server that does not know it stays with the old protocol. -/
def connNegotiateResp3 (k : ConnKey) : Proc Unit := do
  let a ← roundTrip k
  raiseIf (a.isError && !resp3Declined a) (.refused (helloFailure a))
  modifyConn k fun e => { e with resp3 := a.isMap }

/-- Whether the server will take the write program: a refusal is kept, unless it means
"not yet". -/
def connProbeScript (k : ConnKey) : Proc Unit := do
  let a ← roundTrip k
  let refused := a.isError && !a.hasPrefix "LOADING" && !a.hasPrefix "BUSY"
  modifyConn k fun e => { e with
    scriptLoaded := !a.isError
    writeRefused := refused
    writeRefusal := if refused then a.text.take maxWriteRefusal else [] }

/-- Where an entry's socket is to lead. -/
def Conn.target (e : Conn) : Endpoint :=
  if e.nodeHost = [] then e.opts.endpoint else ⟨e.nodeHost, e.nodePort, none⟩

def Conn.opened (e : Conn) (id : Nat) (user : UserOptions) : Conn :=
  { e with conn := some ⟨⟨id, e.target, user⟩, 0⟩, database := -1, inConversation := true }

/-- The entry owns its socket before any command can fail. -/
def World.open (w : World) (k : ConnKey) (user : UserOptions) : World :=
  { w.setConn k ((w.pool k).opened w.opens user) with opens := w.opens + 1 }

/-- A socket is opened, authenticated, and asked what the server can do. -/
def connOpen (k : ConnKey) (user : UserOptions) : Proc Unit := do
  let _ ← await
  modify fun w => w.open k user
  connForceHandshake k
  connAuthenticate k user
  connNegotiateResp3 k
  connProbeScript k
  modifyConn k fun e => { e with inConversation := false }

/-! ## Taking and giving back -/

/-- A slot that nobody holds, first one that points at the node. -/
def connTakeFreeSlot (serverid userid : Nat) (node : Option Node) : Proc ConnKey := do
  let w ← get
  match freeSlotFrom (fun i => w.pool ⟨serverid, userid, i⟩) node (List.range maxConnSlots)
      none none with
  | some (i, true) => do
    modifyConn ⟨serverid, userid, i⟩ (connLease w.subid)
    pure ⟨serverid, userid, i⟩
  | some (i, false) => do
    modifyConn ⟨serverid, userid, i⟩ (connClaim w.subid node)
    pure ⟨serverid, userid, i⟩
  | none => throw .noSlots

/-- A user without a password may not borrow the server's identity, unless a superuser. -/
def passwordMissing (user : UserMapping) : Bool :=
  user.options.passwordRequired && user.options.password = none && !user.superuser

/-- An entry with nothing open is opened. -/
def connEnsure (k : ConnKey) (user : UserOptions) : Proc Unit := do
  let e ← readConn k
  if e.conn = none then connOpen k user else pure ()

section Acquire

variable [SysCache]

/-- What an entry records about the definitions it is used with. -/
def connRecord (server : ForeignServer) (user : UserMapping) (e : Conn) : Conn :=
  { connRevalidate e with
    serverHashvalue := SysCache.hashValue .foreignServer server.serverid
    mappingHashvalue := SysCache.hashValue .userMapping user.umid
    opts := server.options }

/-- A connection is taken: its slot, its checks, its socket. -/
def getConnectionInternal (server : ForeignServer) (user : UserMapping) (clusterAware : Bool)
    (node : Option Node) : Proc ConnKey := do
  let k ← connTakeFreeSlot server.serverid user.userid node
  modifyConn k (connRecord server user)
  raiseIf (passwordMissing user) .passwordRequired
  raiseIf (server.options.cluster && !clusterAware) .clusterUnsupported
  connEnsure k user.options
  pure k

def getConnection (server : ForeignServer) (user : UserMapping) : Proc ConnKey :=
  getConnectionInternal server user false none

def getConnectionCluster (server : ForeignServer) (user : UserMapping) : Proc ConnKey :=
  getConnectionInternal server user true none

def getConnectionNode (server : ForeignServer) (user : UserMapping) (node : Node) : Proc ConnKey :=
  getConnectionInternal server user true (some node)

end Acquire

def connRelease (e : Conn) : Conn := { e with leased := false, leaseSubid := invalidSubid }

/-- The lease is given back. -/
def releaseConnection (k : ConnKey) : Proc Unit := modifyConn k connRelease

/-! ## Using -/

/-- The database is selected, unless it is known to be. -/
def connSelectDb (k : ConnKey) (database : Int) : Proc Unit := do
  let e ← readConn k
  if e.database = database then pure ()
  else if e.opts.cluster then do
    raiseIf (database ≠ 0) (.databaseUnsupported database)
    modifyConn k fun e => { e with database := 0 }
  else do
    modifyConn k fun e => { e with database := -1 }
    let _ ← connCommand k "could not select Valkey database"
    modifyConn k fun e => { e with database := database }

/-- The answer to `COMMAND INFO` about three commands: each is there. -/
def ttlPresent (a : Answer) : Bool :=
  3 ≤ a.elems.length && (a.elems.take 3).all fun entry => entry.elems ≠ []

/-- Ask whether the server has expiry of fields. The connection is not marked. -/
def ttlProbe (k : ConnKey) : Proc Unit := do
  let a ← roundTrip k
  modifyConn k fun e => { e with fieldTtl := if ttlPresent a then .present else .absent }

def ttlAsk (k : ConnKey) : Proc Unit := do
  let e ← readConn k
  if e.fieldTtl = .unknown then ttlProbe k else pure ()

/-- Fields must be able to expire; the server is asked where that is not known. -/
def ttlRequire (k : ConnKey) : Proc Unit := do
  ttlAsk k
  let e ← readConn k
  raiseIf (e.fieldTtl = .absent) .noFieldTtl

/-- A pipeline on a connection, which remembers the socket it began on. -/
structure Batch where
  key : ConnKey
  ctx : Option Nat
  maxInflight : Nat
  queued : Nat
  outstanding : Nat
deriving DecidableEq

def Batch.pending (b : Batch) : Nat := b.queued + b.outstanding

def batchBegin (k : ConnKey) : Proc Batch := do
  let e ← readConn k
  modifyConn k fun e => { e with inConversation := true }
  pure ⟨k, e.conn.map fun sock => sock.link.id, e.opts.pipelineBatch, 0, 0⟩

def batchFlush (b : Batch) : Proc Batch :=
  if b.queued = 0 then pure b
  else do
    ioFlush
    pure { b with outstanding := b.outstanding + b.queued, queued := 0 }

/-- A command joins the batch, which is sent when it is full. -/
def batchAdd (b : Batch) : Proc Batch := do
  appendCommand b.key b.ctx
  if b.maxInflight ≤ b.queued + 1 then batchFlush { b with queued := b.queued + 1 }
  else pure { b with queued := b.queued + 1 }

/-- The next reply, if one is owed. -/
def batchNext (b : Batch) : Proc (Batch × Option Answer) := do
  let b ← batchFlush b
  if b.outstanding = 0 then pure (b, none)
  else do
    let a ← ioGetReply b.key b.ctx
    pure ({ b with outstanding := b.outstanding - 1 }, some a)

/-- Read as many replies as this and drop them. -/
def batchDrain : Nat → Batch → Proc Batch
  | 0, b => pure b
  | n + 1, b => do
    let r ← batchNext b
    batchDrain n r.1

/-- Every reply takes one command off what is pending. -/
def batchEnd (b : Batch) : Proc Unit := do
  let b ← batchDrain b.pending b
  modifyConn b.key fun e => { e with inConversation := false }

/-! ## The slot map of a cluster -/

def clusterLoad (k : ConnKey) : Proc SlotMap := do
  let b ← batchBegin k
  let b ← batchAdd b
  let r ← batchNext b
  match r.2 with
  | some (.shards map) => do
    batchEnd r.1
    pure map
  | _ => throw .badSlotMap

def ConnKey.identity (k : ConnKey) : Nat × Nat := (k.serverid, k.userid)

/-- The slot map of the cache, or a new one. -/
def clusterMap (k : ConnKey) : Proc SlotMap := do
  let w ← get
  match w.maps k.identity with
  | some map => pure map
  | none => do
    let map ← clusterLoad k
    modify fun w => { w with maps := Function.update w.maps k.identity (some map) }
    pure map

/-- A redirect says that the map is stale: it is dropped. -/
def clusterInvalidate (serverid userid : Nat) (w : World) : World :=
  { w with maps := Function.update w.maps (serverid, userid) none }

end ValkeyFdw.Pool
