import ValkeyFdw.Lib.Trace
import ValkeyFdw.Pool.Use

/-!
# Sessions

A session is what one backend goes through: callers use the pool, transactions and
subtransactions begin and end around them, and the catalog changes. A caller is a scan, the
check of a write, an estimate or the flush of a transaction. It holds one connection at a
time and makes the calls of the pool in the order its kind of use allows. A scan stays open
between statements, so callers of several subtransactions can be there at once. A call that
raises is the end of its caller and, unless it is an estimate, of the subtransaction it is
made in. What a caller held stays leased.

Three histories run alongside: who answers for each lease, how often the definition of a
server changed, and the endpoints that each of the definitions led to.
-/

namespace ValkeyFdw.Pool

/-! ## Callers -/

/-- How a caller holds a connection. -/
inductive Hold where
  /-- Nothing is outstanding on it. -/
  | taken (k : ConnKey)
  | reading (b : Batch)
  /-- The slot map was asked for over the connection; the batch is about to end. -/
  | leaving (b : Batch)

def Hold.key : Hold → ConnKey
  | .taken k => k
  | .reading b | .leaving b => b.key

/-- Who uses the pool. -/
structure Caller where
  serverid : Nat
  owner : Nat
  /-- An estimate, which swallows its errors. -/
  soft : Bool
  hold : Option Hold
  maps : List SlotMap
  /-- How often the server's definition had changed when it began. -/
  start : Nat

/-- The calls of the pool. -/
inductive Call where
  | acquire (server : ForeignServer) (user : UserMapping) (clusterAware : Bool) (node : Option Node)
  | select (database : Int)
  | requireTtl
  | begin
  | add
  | next
  | finish
  | askMap
  | release

/-- What a call gives its caller: the connection it holds now, and a slot map. -/
structure Gain where
  hold : Option Hold
  map : Option SlotMap

def Gain.of (h : Hold) : Gain := ⟨some h, none⟩

section Calls

variable [SysCache]

/-- A call made by one who holds nothing. A node is one that a slot map named. -/
def Call.afresh (serverid : Nat) (maps : List SlotMap) : Call → Option (Proc Gain)
  | .acquire server user clusterAware node =>
    if server.serverid = serverid && node.all fun n => maps.any fun m => n ∈ m.nodes then
      some ((fun k => .of (.taken k)) <$> getConnectionInternal server user clusterAware node)
    else none
  | _ => none

omit [SysCache] in
/-- A call made on a connection. -/
def Call.on : Hold → Call → Option (Proc Gain)
  | .taken k, .select database => some ((fun _ => .of (.taken k)) <$> connSelectDb k database)
  | .taken k, .requireTtl => some ((fun _ => .of (.taken k)) <$> ttlRequire k)
  | .taken k, .begin => some ((fun b => .of (.reading b)) <$> batchBegin k)
  | .taken k, .askMap => some ((fun map => ⟨some (.taken k), some map⟩) <$> clusterMap k)
  | .taken k, .release => some ((fun _ => ⟨none, none⟩) <$> releaseConnection k)
  | .reading b, .add => some ((fun b => .of (.reading b)) <$> batchAdd b)
  | .reading b, .next => some ((fun r => .of (.reading r.1)) <$> batchNext b)
  | .reading b, .finish => some ((fun _ => .of (.taken b.key)) <$> batchEnd b)
  | .reading b, .askMap =>
    if b.pending = 0 then
      some ((fun map => ⟨some (.leaving b), some map⟩) <$> clusterMap b.key)
    else none
  | .leaving b, .finish => some ((fun _ => .of (.taken b.key)) <$> batchEnd b)
  | _, _ => none

def Caller.call (c : Caller) (call : Call) : Option (Proc Gain) :=
  match c.hold with
  | none => call.afresh c.serverid c.maps
  | some h => call.on h

end Calls

def Caller.gain (c : Caller) (g : Gain) : Caller :=
  { c with hold := g.hold, maps := g.map.toList ++ c.maps }

/-! ## Sessions -/

/-- The definitions that apply. A mapping is for a user, or for everyone who has none. -/
structure Catalog where
  servers : Nat → ServerOptions
  mappings : Nat → Option Nat → Option (Nat × UserOptions)

/-- The mapping that a user gets on a server. -/
def Catalog.resolve (cat : Catalog) (serverid userid : Nat) : Option (Nat × UserOptions) :=
  (cat.mappings serverid (some userid)).or (cat.mappings serverid none)

/-- A backend, its callers and the catalog as it sees it. -/
structure Session where
  world : World
  callers : Nat → Option Caller
  /-- The subtransactions around the current one, innermost first. -/
  subs : List Nat
  nextSub : Nat
  /-- A raise is on its way to where it is caught. -/
  failed : Bool
  catalog : Catalog
  owner : ConnKey → Nat
  epoch : Nat → Nat
  /-- The endpoints that the definitions of a server led to, with the number of the
  change they came after. -/
  origins : Nat → List (Nat × Endpoint)

/-- What happens in a session. -/
inductive Event where
  | enter (id serverid : Nat) (soft : Bool)
  | call (id : Nat) (call : Call) (waits : List Wait)
  | moved (serverid userid : Nat)
  | startSub
  | commitSub
  | abortSub
  | endTop (event : XactEvent)
  | inval (cacheid : CacheId) (hashvalue : Nat)
  | alterServer (serverid : Nat) (options : ServerOptions)
  | changeMapping (serverid : Nat) (who : Option Nat) (row : Option (Nat × UserOptions))

def World.overAll (f : Conn → Conn) (w : World) : World := { w with pool := fun k => f (w.pool k) }

def nodeEndpoint (n : Node) : Endpoint := ⟨n.host, n.port, none⟩

namespace Session

/-- A lease that is new is answered for by the current subtransaction. -/
def ownerAfter (s : Session) (w : World) (k : ConnKey) : Nat :=
  if (w.pool k).leased && !(s.world.pool k).leased then w.subid else s.owner k

/-- The nodes of a slot map that was loaded over a connection. -/
def loaded (s : Session) (c : Caller) (w : World) : List Node :=
  match c.hold with
  | none => []
  | some h =>
    if (s.world.maps h.key.identity).isNone then ((w.maps h.key.identity).map SlotMap.nodes).getD []
    else []

def originsAfter (s : Session) (c : Caller) (w : World) (serverid : Nat) : List (Nat × Endpoint) :=
  s.origins serverid ++
    if c.serverid = serverid then
      (s.loaded c w).map fun n => (s.epoch serverid, nodeEndpoint n)
    else []

/-- A call ended and left this world and, unless it raised, a gain. -/
def settle (s : Session) (id : Nat) (c : Caller) (w : World) (g : Option Gain) : Session :=
  { s with
    world := w
    callers := Function.update s.callers id (g.map c.gain)
    failed := g.isNone && !c.soft
    owner := s.ownerAfter w
    origins := s.originsAfter c w }

theorem settle_callers_self (s : Session) (id : Nat) (c : Caller) (w : World) (g : Option Gain) :
    (s.settle id c w g).callers id = g.map c.gain := Function.update_self ..

theorem settle_callers_of_ne (s : Session) {id id' : Nat} (c : Caller) (w : World)
    (g : Option Gain) (h : id' ≠ id) : (s.settle id c w g).callers id' = s.callers id' :=
  Function.update_of_ne h ..

/-- A caller begins. -/
def enter (s : Session) (id serverid : Nat) (soft : Bool) : Session :=
  { s with
    callers := Function.update s.callers id
      (some ⟨serverid, s.world.subid, soft, none, [], s.epoch serverid⟩) }

theorem enter_callers {s : Session} {id serverid : Nat} {soft : Bool} {id' : Nat} {c : Caller}
    (h : (s.enter id serverid soft).callers id' = some c) :
    c = ⟨serverid, s.world.subid, soft, none, [], s.epoch serverid⟩ ∨ s.callers id' = some c := by
  simp only [enter] at h
  by_cases hid : id' = id
  · subst hid
    rw [Function.update_self] at h
    exact .inl (Option.some.inj h).symm
  · rw [Function.update_of_ne hid] at h
    exact .inr h

def startSub (s : Session) : Session :=
  { s with
    world := { s.world with subid := s.nextSub }
    subs := s.world.subid :: s.subs
    nextSub := s.nextSub + 1 }

/-- The current subtransaction is released into the one around it. -/
def commitSub (s : Session) (parent : Nat) (subs : List Nat) : Session :=
  { s with
    world := { s.world with subid := parent }
    subs := subs
    callers := fun id => (s.callers id).map fun c =>
      if c.owner = s.world.subid then { c with owner := parent } else c
    owner := fun k => if s.owner k = s.world.subid then parent else s.owner k }

/-- The current subtransaction is rolled back, and its callers are no more. -/
def abortSub (s : Session) (parent : Nat) (subs : List Nat) : Session :=
  { s with
    world := { s.world.overAll (connSubxact s.world.subid) with subid := parent }
    subs := subs
    failed := false
    callers := fun id => (s.callers id).filter fun c => c.owner ≠ s.world.subid }

/-- The transaction ends, and its callers with it. -/
def endTop (s : Session) (event : XactEvent) : Session :=
  { s with
    world := { s.world.overAll (connXact event) with subid := topSubid }
    nextSub := topSubid + 1
    failed := false
    callers := fun _ => none
    owner := fun _ => invalidSubid }

def inval (s : Session) (cacheid : CacheId) (hashvalue : Nat) : Session :=
  { s with world := s.world.overAll (connInvalCallback cacheid hashvalue) }

def alterServer (s : Session) (serverid : Nat) (options : ServerOptions) : Session :=
  { s with
    catalog := { s.catalog with servers := Function.update s.catalog.servers serverid options }
    epoch := Function.update s.epoch serverid (s.epoch serverid + 1)
    origins := Function.update s.origins serverid
      (s.origins serverid ++ [(s.epoch serverid + 1, options.endpoint)]) }

def changeMapping (s : Session) (serverid : Nat) (who : Option Nat)
    (row : Option (Nat × UserOptions)) : Session :=
  { s with
    catalog := { s.catalog with
      mappings := Function.update s.catalog.mappings serverid
        (Function.update (s.catalog.mappings serverid) who row) } }

/-- The row that is created, altered or dropped; an altered one is the same row. -/
def changedRow (s : Session) (serverid : Nat) (who : Option Nat) (row : Option (Nat × UserOptions)) :
    Option Nat :=
  match s.catalog.mappings serverid who, row with
  | none, none => none
  | none, some created => some created.1
  | some dropped, none => some dropped.1
  | some old, some new => if new.1 = old.1 then some old.1 else none

/-- Whoever takes a connection looks its definitions up right before. -/
def resolved (s : Session) : Call → Bool
  | .acquire server user _ _ => server.options = s.catalog.servers server.serverid &&
      s.catalog.resolve server.serverid user.userid = some (user.umid, user.options)
  | _ => true

/-- A backend that has not used the pool, and the definitions it finds. -/
def start (residue : ConnKey → Conn) (catalog : Catalog) : Session where
  world := ⟨fun k => connInitEntry (residue k), topSubid, 0, fun _ => none, [], []⟩
  callers := fun _ => none
  subs := []
  nextSub := topSubid + 1
  failed := false
  catalog := catalog
  owner := fun _ => invalidSubid
  epoch := fun _ => 0
  origins := fun serverid => [(0, (catalog.servers serverid).endpoint)]

variable [SysCache]

/-- An event, where it can happen. -/
def step (event : Event) (s : Session) : Except Unit Session :=
  match event with
  | .enter id serverid soft =>
    if s.failed || (s.callers id).isSome then .error () else .ok (s.enter id serverid soft)
  | .call id call waits =>
    if s.failed || !s.resolved call then .error ()
    else
      match s.callers id with
      | none => .error ()
      | some c =>
        match c.call call with
        | none => .error ()
        | some prog =>
          match prog { s.world with waits } with
          | .ok g w => .ok (s.settle id c w (some g))
          | .error _ w => .ok (s.settle id c w none)
  | .moved serverid userid => .ok { s with world := clusterInvalidate serverid userid s.world }
  | .startSub => if s.failed then .error () else .ok s.startSub
  | .commitSub =>
    match s.subs with
    | [] => .error ()
    | parent :: subs => if s.failed then .error () else .ok (s.commitSub parent subs)
  | .abortSub =>
    match s.subs with
    | [] => .error ()
    | parent :: subs => .ok (s.abortSub parent subs)
  | .endTop event =>
    if s.subs ≠ [] || (event ≠ .abort && s.failed) then .error () else .ok (s.endTop event)
  | .inval cacheid hashvalue => .ok (s.inval cacheid hashvalue)
  | .alterServer serverid options =>
    .ok ((s.alterServer serverid options).inval .foreignServer
      (SysCache.hashValue .foreignServer serverid))
  | .changeMapping serverid who row =>
    match s.changedRow serverid who row with
    | none => .error ()
    | some umid =>
      .ok ((s.changeMapping serverid who row).inval .userMapping
        (SysCache.hashValue .userMapping umid))

/-! ## What a call does -/

/-- A call was made and ended in this world, with a gain unless it raised. -/
structure Called (s : Session) (id : Nat) (call : Call) (waits : List Wait) (c : Caller) (w : World)
    (g : Option Gain) : Prop where
  running : s.failed = false
  resolved : s.resolved call = true
  caller : s.callers id = some c
  made : ∃ prog, c.call call = some prog ∧ ∀ (Q : Gain → World → Prop) (E : World → Prop),
    Raise.wp prog Q E { s.world with waits } → g.elim (E w) fun g => Q g w

theorem step_call {s t : Session} {id : Nat} {call : Call} {waits : List Wait}
    (h : step (.call id call waits) s = .ok t) :
    ∃ c w g, t = s.settle id c w g ∧ Called s id call waits c w g := by
  simp only [step] at h
  split at h
  · cases h
  · rename_i hCan
    simp only [Bool.or_eq_true, not_or, Bool.not_eq_true, Bool.not_eq_false'] at hCan
    obtain ⟨hRunning, hResolved⟩ := hCan
    split at h
    · cases h
    · rename_i c hCaller
      split at h
      · cases h
      · rename_i prog hProg
        split at h
        · rename_i g w hEnds
          cases h
          exact ⟨c, w, some g, rfl, hRunning, hResolved, hCaller, prog, hProg,
            fun Q E h => Raise.of_ok h hEnds⟩
        · rename_i e w hEnds
          cases h
          exact ⟨c, w, none, rfl, hRunning, hResolved, hCaller, prog, hProg,
            fun Q E h => Raise.of_error h hEnds⟩

/-- What each event does, where it can happen. -/
inductive Moves (s : Session) : Event → Session → Prop
  | enter (id serverid : Nat) (soft : Bool) (hNew : s.callers id = none) :
      Moves s (.enter id serverid soft) (s.enter id serverid soft)
  | call (id : Nat) (call : Call) (waits : List Wait) (c : Caller) (w : World) (g : Option Gain)
      (hCalled : Called s id call waits c w g) :
      Moves s (.call id call waits) (s.settle id c w g)
  | moved (serverid userid : Nat) :
      Moves s (.moved serverid userid) { s with world := clusterInvalidate serverid userid s.world }
  | startSub (hRunning : s.failed = false) : Moves s .startSub s.startSub
  | commitSub (parent : Nat) (subs : List Nat) (hRunning : s.failed = false)
      (hSubs : s.subs = parent :: subs) : Moves s .commitSub (s.commitSub parent subs)
  | abortSub (parent : Nat) (subs : List Nat) (hSubs : s.subs = parent :: subs) :
      Moves s .abortSub (s.abortSub parent subs)
  | endTop (event : XactEvent) (hSubs : s.subs = []) : Moves s (.endTop event) (s.endTop event)
  | inval (cacheid : CacheId) (hashvalue : Nat) :
      Moves s (.inval cacheid hashvalue) (s.inval cacheid hashvalue)
  | alterServer (serverid : Nat) (options : ServerOptions) :
      Moves s (.alterServer serverid options) ((s.alterServer serverid options).inval
        .foreignServer (SysCache.hashValue .foreignServer serverid))
  | changeMapping (serverid : Nat) (who : Option Nat) (row : Option (Nat × UserOptions)) (umid : Nat)
      (hRow : s.changedRow serverid who row = some umid) :
      Moves s (.changeMapping serverid who row) ((s.changeMapping serverid who row).inval
        .userMapping (SysCache.hashValue .userMapping umid))

theorem moves_of_step {s t : Session} {event : Event} (h : step event s = .ok t) :
    Moves s event t := by
  cases event with
  | enter id serverid soft =>
    simp only [step] at h
    split at h
    · cases h
    · rename_i hCan
      simp only [Bool.or_eq_true, not_or, Bool.not_eq_true, Option.isSome_eq_false_iff,
        Option.isNone_iff_eq_none] at hCan
      cases h
      exact .enter id serverid soft hCan.2
  | call id call waits =>
    obtain ⟨c, w, g, rfl, hCalled⟩ := step_call h
    exact .call id call waits c w g hCalled
  | moved serverid userid =>
    cases h
    exact .moved serverid userid
  | startSub =>
    simp only [step] at h
    split at h
    · cases h
    · rename_i hRunning
      cases h
      exact .startSub (Bool.not_eq_true _ ▸ hRunning)
  | commitSub =>
    simp only [step] at h
    split at h
    · cases h
    · rename_i parent subs hSubs
      split at h
      · cases h
      · rename_i hRunning
        cases h
        exact .commitSub parent subs (Bool.not_eq_true _ ▸ hRunning) hSubs
  | abortSub =>
    simp only [step] at h
    split at h
    · cases h
    · rename_i parent subs hSubs
      cases h
      exact .abortSub parent subs hSubs
  | endTop event =>
    simp only [step] at h
    split at h
    · cases h
    · rename_i hCan
      simp only [Bool.or_eq_true, not_or, decide_eq_true_eq, not_not] at hCan
      cases h
      exact .endTop event hCan.1
  | inval cacheid hashvalue =>
    cases h
    exact .inval cacheid hashvalue
  | alterServer serverid options =>
    cases h
    exact .alterServer serverid options
  | changeMapping serverid who row =>
    simp only [step] at h
    split at h
    · cases h
    · rename_i umid hRow
      cases h
      exact .changeMapping serverid who row umid hRow

end Session

section Effects

variable {s : Session} {id : Nat} {call : Call} {waits : List Wait} {c : Caller}
  {w : World} {g : Option Gain}

/-- A slot map that was asked for is the one that was there, or a new one. -/
theorem clusterMap_uses (k : ConnKey) (w : World) :
    Raise.wp (clusterMap k)
      (fun map w' => (w.maps k.identity = some map ∧ w' = w) ∨ (w.maps k.identity = none ∧
        ∃ w₁, Uses k w w₁ ∧
          w' = { w₁ with maps := Function.update w₁.maps k.identity (some map) }))
      (Uses k w) w := by
  unfold clusterMap
  simp only [Raise.wp_bind, Raise.wp_get]
  split
  · rename_i map hMap
    exact .inl ⟨hMap, rfl⟩
  · rename_i hMap
    rw [Raise.wp_bind]
    refine Raise.wp_mono ((wired_uses k).keeps_clusterLoad w) (fun map w₁ hUses => ?_) fun _ => id
    simp only [Raise.wp_bind, Raise.wp_modify, Raise.wp_pure]
    exact .inr ⟨hMap, w₁, hUses, rfl⟩

/-- What a call that takes no connection does: the connection is used, given back, or used
to load a slot map. -/
inductive Effect (k : ConnKey) (w w' : World) : Option Gain → Prop
  | uses (g : Option Gain) (hUses : Uses k w w')
      (hGain : ∀ g' ∈ g, g'.map = none ∧ g'.hold.map Hold.key = some k) : Effect k w w' g
  | asked (map : SlotMap) (h : Hold) (hKey : h.key = k) (hMap : w.maps k.identity = some map)
      (hWorld : w' = w) : Effect k w w' (some ⟨some h, some map⟩)
  | loads (w₁ : World) (map : SlotMap) (h : Hold) (hKey : h.key = k) (hUses : Uses k w w₁)
      (hNone : w.maps k.identity = none)
      (hWorld : w' = { w₁ with maps := Function.update w₁.maps k.identity (some map) }) :
      Effect k w w' (some ⟨some h, some map⟩)
  | releases (hWorld : w' = w.setConn k (connRelease (w.pool k))) : Effect k w w' (some ⟨none, none⟩)

variable {k : ConnKey} {server : ForeignServer} {user : UserMapping} {clusterAware : Bool}
  {node : Option Node}

theorem Effect.others {k' : ConnKey} {w w' : World} (h : Effect k w w' g) (hk : k' ≠ k) :
    w'.pool k' = w.pool k' := by
  cases h with
  | uses _ hUses _ => exact hUses.others k' hk
  | asked map h hKey hMap hWorld => rw [hWorld]
  | loads w₁ map h hKey hUses hNone hWorld =>
    subst hWorld
    exact hUses.others k' hk
  | releases hWorld =>
    subst hWorld
    exact w.setConn_of_ne _ hk

/-- Who still holds a connection holds the same one, under the same lease. -/
theorem Effect.keeps {w w' : World} {g' : Gain} (h : Effect k w w' (some g')) {h' : Hold}
    (hHold : g'.hold = some h') :
    h'.key = k ∧ (w'.pool k).held = (w.pool k).held := by
  cases h with
  | uses _ hUses hGain =>
    have hKey := (hGain g' rfl).2
    rw [hHold] at hKey
    exact ⟨Option.some.inj hKey, hUses.held⟩
  | asked map h hKey hMap hWorld =>
    cases hHold
    exact ⟨hKey, by rw [hWorld]⟩
  | loads w₁ map h hKey hUses hNone hWorld =>
    cases hHold
    subst hWorld
    exact ⟨hKey, hUses.held⟩
  | releases hWorld => cases hHold

theorem Effect.fails {w w' : World} (h : Effect k w w' none) :
    (w'.pool k).held = (w.pool k).held := by
  cases h with
  | uses _ hUses _ => exact hUses.held

theorem effect_of_uses {α : Type} {prog : Proc α} {gain : α → Gain} {w : World}
    (hUses : Raise.wp prog
      (fun a w' => Uses k w w' ∧ (gain a).map = none ∧ (gain a).hold.map Hold.key = some k)
      (Uses k w) w) :
    Raise.wp (gain <$> prog) (fun g w' => Effect k w w' (some g)) (fun w' => Effect k w w' none) w := by
  rw [Raise.wp_map]
  refine Raise.wp_mono hUses (fun a w' h => ?_) fun w' h => ?_
  · refine .uses _ h.1 fun g hg => ?_
    cases hg
    exact h.2
  · exact .uses none h fun g hg => by cases hg

theorem effect_of_keeps {α : Type} {prog : Proc α} {h : Hold} (hKey : h.key = k)
    (hUses : Raise.Keeps (Uses k) prog) (w : World) :
    Raise.wp ((fun _ => Gain.of h) <$> prog) (fun g w' => Effect k w w' (some g))
      (fun w' => Effect k w w' none) w :=
  effect_of_uses (Raise.wp_mono (hUses w) (fun _ _ hUses => ⟨hUses, rfl, congrArg some hKey⟩)
    fun _ => id)

theorem effect_of_reading {α : Type} {prog : Proc α} {batch : α → Batch} {w : World}
    (hUses : Raise.wp prog (fun a w' => Uses k w w' ∧ (batch a).key = k) (Uses k w) w) :
    Raise.wp ((fun a => Gain.of (.reading (batch a))) <$> prog)
      (fun g w' => Effect k w w' (some g)) (fun w' => Effect k w w' none) w :=
  effect_of_uses (Raise.wp_mono hUses (fun _ _ h => ⟨h.1, rfl, congrArg some h.2⟩) fun _ => id)

theorem effect_of_clusterMap {h : Hold} (hKey : h.key = k) (w : World) :
    Raise.wp ((fun map => (⟨some h, some map⟩ : Gain)) <$> clusterMap k)
      (fun g w' => Effect k w w' (some g)) (fun w' => Effect k w w' none) w := by
  rw [Raise.wp_map]
  refine Raise.wp_mono (clusterMap_uses k w) (fun map w' hEnds => ?_) fun w' hUses => ?_
  · rcases hEnds with ⟨hMap, hWorld⟩ | ⟨hNone, w₁, hUses, hWorld⟩
    · exact .asked map h hKey hMap hWorld
    · exact .loads w₁ map h hKey hUses hNone hWorld
  · exact .uses none hUses fun g hg => by cases hg

theorem Call.on_effect {h : Hold} {prog : Proc Gain} (hProg : call.on h = some prog) (w : World) :
    Raise.wp prog (fun g w' => Effect h.key w w' (some g)) (fun w' => Effect h.key w w' none) w := by
  unfold Call.on at hProg
  split at hProg
  · cases hProg
    exact effect_of_keeps rfl (uses_connSelectDb _ _) w
  · cases hProg
    exact effect_of_keeps rfl (uses_ttlRequire _) w
  · cases hProg
    exact effect_of_reading ((wired_uses _).keeps_batchBegin w)
  · cases hProg
    exact effect_of_clusterMap rfl w
  · cases hProg
    exact .releases rfl
  · cases hProg
    exact effect_of_reading ((wired_uses _).keeps_batchAdd w)
  · cases hProg
    exact effect_of_reading ((wired_uses _).keeps_batchNext w)
  · cases hProg
    exact effect_of_keeps rfl ((wired_uses _).keeps_batchEnd) w
  · split at hProg
    · cases hProg
      exact effect_of_clusterMap rfl w
    · cases hProg
  · cases hProg
    exact effect_of_keeps rfl ((wired_uses _).keeps_batchEnd) w
  · cases hProg

variable [SysCache]

/-- How taking a connection ends. -/
inductive Taking (server : ForeignServer) (user : UserMapping) (clusterAware : Bool)
    (node : Option Node) (w w' : World) : Option Gain → Prop
  | noSlots (hPicks : picks server user node w = none) (hWorld : w' = w) :
      Taking server user clusterAware node w w' none
  | refused (k : ConnKey) (e : Conn) (hPicks : picks server user node w = some (k, e))
      (hRefuses : refuses server user clusterAware = true) (hWorld : w' = w.setConn k e) :
      Taking server user clusterAware node w w' none
  | unreached (k : ConnKey) (e : Conn) (rest : List Wait)
      (hPicks : picks server user node w = some (k, e)) (hClosed : e.conn = none)
      (hFails : ¬w.Answered) (hWorld : w' = { w.setConn k e with waits := rest }) :
      Taking server user clusterAware node w w' none
  | opened (k : ConnKey) (e : Conn) (g : Option Gain)
      (hPicks : picks server user node w = some (k, e)) (hClosed : e.conn = none)
      (hUses : Uses k ((w.setConn k e).open k user.options) w')
      (hGain : ∀ g' ∈ g, g' = .of (.taken k)) : Taking server user clusterAware node w w' g
  | reused (k : ConnKey) (e : Conn) (hPicks : picks server user node w = some (k, e))
      (hOpen : e.conn ≠ none) (hWorld : w' = w.setConn k e) :
      Taking server user clusterAware node w w' (some (.of (.taken k)))

theorem taking_of_acquire (server : ForeignServer) (user : UserMapping) (clusterAware : Bool)
    (node : Option Node) (w : World) :
    Raise.wp ((fun k => Gain.of (.taken k)) <$> getConnectionInternal server user clusterAware node)
      (fun g w' => Taking server user clusterAware node w w' (some g))
      (fun w' => Taking server user clusterAware node w w' none) w := by
  rw [Raise.wp_map]
  refine wp_getConnectionInternal ?_ ?_ ?_ ?_
  · exact fun hPicks => .noSlots hPicks rfl
  · exact fun k e hPicks hRefuses => .refused k e hPicks hRefuses rfl
  · intro k e hPicks _ hClosed
    refine Raise.wp_mono (connOpen_uses k user.options _) (fun _ w' hUses => ?_) fun w' hEnds => ?_
    · refine .opened k e _ hPicks hClosed hUses fun g hg => ?_
      cases hg
      rfl
    · rcases hEnds with ⟨hFails, rest, hWorld⟩ | hUses
      · exact .unreached k e rest hPicks hClosed hFails hWorld
      · exact .opened k e none hPicks hClosed hUses fun g hg => by cases hg
  · exact fun k e hPicks _ hOpen => .reused k e hPicks hOpen rfl

/-- No slot was free, or one entry is leased now and the others are as they were. -/
theorem Taking.picked {w w' : World} (h : Taking server user clusterAware node w w' g) :
    (w' = w ∧ g = none) ∨ ∃ k e, picks server user node w = some (k, e) ∧
      w'.subid = w.subid ∧ (∀ k', k' ≠ k → w'.pool k' = w.pool k') ∧
      (w'.pool k).leased = true ∧ (w'.pool k).leaseSubid = w.subid ∧
      ∀ g' ∈ g, g' = .of (.taken k) := by
  cases h with
  | noSlots hPicks hWorld => exact .inl ⟨hWorld, rfl⟩
  | refused k e hPicks hRefuses hWorld =>
    subst hWorld
    have hPicked := picked_of_picks hPicks
    refine .inr ⟨k, e, hPicks, rfl, fun _ => w.setConn_of_ne e, ?_, ?_, fun g' hg => by cases hg⟩
    · rw [w.setConn_self, hPicked.leased]
    · rw [w.setConn_self, hPicked.leaseSubid]
  | unreached k e rest hPicks hNone hFails hWorld =>
    subst hWorld
    have hPicked := picked_of_picks hPicks
    refine .inr ⟨k, e, hPicks, rfl, fun _ => w.setConn_of_ne e, ?_, ?_, fun g' hg => by cases hg⟩
    · exact (congrArg Conn.leased (w.setConn_self k e)).trans hPicked.leased
    · exact (congrArg Conn.leaseSubid (w.setConn_self k e)).trans hPicked.leaseSubid
  | opened k e _ hPicks hNone hUses hGain =>
    have hPicked := picked_of_picks hPicks
    refine .inr ⟨k, e, hPicks, hUses.subid, fun k' hk => ?_, ?_, ?_, hGain⟩
    · exact (hUses.others k' hk).trans
        (((w.setConn k e).setConn_of_ne _ hk).trans (w.setConn_of_ne e hk))
    · refine (congrArg Held.leased hUses.held).trans ?_
      simp [World.open, Conn.opened, Conn.held, hPicked.leased]
    · refine (congrArg Held.leaseSubid hUses.held).trans ?_
      simp [World.open, Conn.opened, Conn.held, hPicked.leaseSubid]
  | reused k e hPicks hOpen hWorld =>
    subst hWorld
    have hPicked := picked_of_picks hPicks
    refine .inr ⟨k, e, hPicks, rfl, fun _ => w.setConn_of_ne e, ?_, ?_, fun g' hg => ?_⟩
    · rw [w.setConn_self, hPicked.leased]
    · rw [w.setConn_self, hPicked.leaseSubid]
    · cases hg
      rfl

theorem Session.Called.ends_on (h : Session.Called s id call waits c w g) {h' : Hold}
    (hHold : c.hold = some h') {Q : Gain → World → Prop} {E : World → Prop}
    (hSpec : ∀ prog, call.on h' = some prog → Raise.wp prog Q E { s.world with waits }) :
    g.elim (E w) fun g => Q g w := by
  obtain ⟨prog, hProg, hEnds⟩ := h.made
  rw [Caller.call, hHold] at hProg
  exact hEnds Q E (hSpec prog hProg)

theorem Session.Called.ends_afresh
    (h : Session.Called s id (.acquire server user clusterAware node) waits c w g)
    (hHold : c.hold = none) {Q : Gain → World → Prop} {E : World → Prop} (hSpec : Raise.wp
      ((fun k => Gain.of (.taken k)) <$> getConnectionInternal server user clusterAware node) Q E
      { s.world with waits }) :
    g.elim (E w) fun g => Q g w := by
  obtain ⟨prog, hProg, hEnds⟩ := h.made
  rw [Caller.call, hHold] at hProg
  simp only [Call.afresh] at hProg
  split at hProg
  · cases hProg
    exact hEnds Q E hSpec
  · cases hProg

theorem Session.Called.taking
    (h : Session.Called s id (.acquire server user clusterAware node) waits c w g) :
    c.hold = none ∧ Taking server user clusterAware node { s.world with waits } w g := by
  have hHold : c.hold = none := by
    rw [Option.eq_none_iff_forall_ne_some]
    intro h' hHold
    obtain ⟨prog, hProg, -⟩ := h.made
    rw [Caller.call, hHold] at hProg
    cases h' <;> cases hProg
  refine ⟨hHold, ?_⟩
  have hTaking := h.ends_afresh hHold (taking_of_acquire server user clusterAware node _)
  cases g with
  | none => exact hTaking
  | some g => exact hTaking

/-- A call uses the connection that its caller holds, or takes one. -/
theorem Session.Called.cases (h : Session.Called s id call waits c w g) :
    (∃ h', c.hold = some h' ∧ Effect h'.key { s.world with waits } w g) ∨
    (∃ server user clusterAware node, call = .acquire server user clusterAware node ∧
      c.hold = none ∧ server.serverid = c.serverid ∧
      (∀ n, node = some n → ∃ m ∈ c.maps, n ∈ m.nodes) ∧
      Taking server user clusterAware node { s.world with waits } w g) := by
  cases hHold : c.hold with
  | none =>
    obtain ⟨prog, hProg, -⟩ := h.made
    rw [Caller.call, hHold] at hProg
    cases call with
    | acquire server user clusterAware node =>
      simp only [Call.afresh] at hProg
      split at hProg
      · rename_i hAllowed
        simp only [Bool.and_eq_true, decide_eq_true_eq] at hAllowed
        refine .inr ⟨server, user, clusterAware, node, rfl, rfl, hAllowed.1, ?_, h.taking.2⟩
        rintro n rfl
        simpa using hAllowed.2
      · cases hProg
    | _ => cases hProg
  | some h' =>
    refine .inl ⟨h', rfl, ?_⟩
    have hEffect := h.ends_on hHold fun prog hProg => Call.on_effect hProg _
    cases g with
    | none => exact hEffect
    | some g => exact hEffect

end Effects

end ValkeyFdw.Pool
