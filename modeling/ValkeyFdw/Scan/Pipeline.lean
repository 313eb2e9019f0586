import ValkeyFdw.Cluster.Rescan
import ValkeyFdw.Lib.Pipeline

/-!
# The questions of a page and their replies

A scan queues the questions about all keys of a page, and takes the replies key by key:
is it in the keyset, how many fields has it, when do they expire, and what is its value.
The questions are queued in one loop and taken in another, and what becomes of a key is
decided after its replies were taken: it is hidden or replaced by the transaction, skipped,
redirected, or unpacked member by member from the reply, which stays at hand for that long.

`turn` is one turn of the loop that takes them. What decides about its outcome and is not
the scan's own (the replies, the overlay's verdict, a reloaded slot map) is its `TurnInput`.
-/

namespace ValkeyFdw

open Pipeline

/-! ## Questions -/

/-- A command about one key. -/
inductive KeyCmd where
  | sismember (keyset key : Bytes)
  | hlen (key : Bytes)
  | hpttl (key : Bytes) (fields : List Bytes)
  | get (key : Bytes)
  | hmget (key : Bytes) (fields : List Bytes)
  | hgetall (key : Bytes)
  | lrange (key : Bytes)
  | smembers (key : Bytes)
  | zrange (key : Bytes) (withScores : Bool)
deriving DecidableEq

/-- A command of a scan, with the key it was queued for: the number of the page, and the
place in it. -/
inductive Question where
  | page (cursor : Bytes)
  | about (number place : Nat) (cmd : KeyCmd)
deriving DecidableEq

namespace TableMap

variable (m : TableMap)

/-- Whether a key's place in the keyset is asked: only when the plan named the key. -/
def asksMembership (strategy : Strategy) : Bool := m.keyset.isSome && strategy = .keys

def hashRequest (key : Bytes) : KeyCmd := if m.hmget then .hmget key m.requested else .hgetall key

def valueRequest (key : Bytes) : KeyCmd :=
  match m.tabletype with
  | .hash => m.hashRequest key
  | .list => .lrange key
  | .set => .smembers key
  | .zset => .zrange key !m.legacyValue
  | .string | .vector => .get key

/-- Queue the questions about one key. The value comes last: its reply has to outlive the
others. -/
def queueKey (strategy : Strategy) (number place : Nat) (key : Bytes) (p : Pipe Question) :
    Pipe Question :=
  let ask (cmd : KeyCmd) (p : Pipe Question) := p.add (.about number place cmd)
  let p := if m.asksMembership strategy then ask (.sismember (m.keyset.getD []) key) p else p
  let p := if m.hmget then ask (.hlen key) p else p
  let p := if m.ttlFields ≠ [] then ask (.hpttl key m.ttlFields) p else p
  ask (m.valueRequest key) p

/-- Queue the questions about the keys of a page, from a place on. -/
def queuePage (strategy : Strategy) (number : Nat) : Nat → List Bytes → Pipe Question → Pipe Question
  | _, [], p => p
  | i, key :: keys, p =>
    queuePage strategy number (i + 1) keys (m.queueKey strategy number i key p)

end TableMap

/-! ## Replies -/

/-- A reply: an error with its text, or data. -/
abbrev KeyReply := Except Bytes Resp

/-- Whether a text is an error of this code, alone or in front of a message. -/
def hasCode (code : String) (text : Bytes) : Bool :=
  (ascii code).isPrefixOf text &&
    (text.length = (ascii code).length || text[(ascii code).length]? = some 32)

/-- What a turn meets that the scan does not decide. -/
structure TurnInput where
  reply : Question → KeyReply
  /-- What the transaction has done to the key at hand. -/
  verdict : Verdict
  /-- The `pipeline_batch` of a connection that is taken. -/
  limit : Nat
  shards : Except ScanError SlotMap
  /-- What lies in memory behind the allocation of a copied key. -/
  beyond : Nat → UInt8

/-- What is copied out of the replies in front of the value's. -/
structure Facts where
  member : Option Bool
  hlen : Option Int
  ttls : List Int

section Taking

variable (m : TableMap) (strategy : Strategy) (input : TurnInput)

def batchNext : StateM (Reading Question) (Option (Question × KeyReply)) := read input.reply

def nextData : StateM (Reading Question) (Option Resp) :=
  (fun r => r.bind fun (_, reply) => reply.toOption) <$> batchNext input

/-- Take the reply to a question, if it was asked. -/
def takeIf {β : Type} (asked : Bool) (take : Option Resp → β) (unasked : β) :
    StateM (Reading Question) β :=
  if asked then take <$> nextData input else pure unasked

def takeFacts : StateM (Reading Question) Facts := do
  let member ← takeIf input (m.asksMembership strategy) (·.bind takeMember) none
  let hlen ← takeIf input m.hmget (·.bind takeLength) none
  let ttls ← takeIf input (m.ttlFields ≠ [])
    (fun r => takeTtls m.ttlFields.length (r.getD .nil)) []
  return ⟨member, hlen, ttls⟩

/-- Take all replies about the next key; that to the value is returned. -/
def takeReplies : StateM (Reading Question) (Facts × Option (Question × KeyReply)) := do
  let facts ← takeFacts m strategy input
  let value ← batchNext input
  return (facts, value)

end Taking

/-! ## The scan -/

/-- A collection that is being unpacked. -/
structure Held where
  /-- The command whose reply is pointed at. -/
  asked : Question
  reply : Resp
  key : Bytes
  elem : Nat

/-- A scan with its batch. What the machine has at hand itself, a page and rows, is kept
here instead. -/
structure PipedScan where
  scan : ScanState
  batch : Pipe Question
  page : List Bytes
  number : Nat
  nextKey : Nat
  curReply : Option Held
  ttlMs : List Int

/-- The errors in the reply to `SCAN` or `SSCAN`. -/
inductive PageError where
  | noReply
  | failed (text : Bytes)
  | notAnArray
  | elements (n : Nat)
  | cursorNotString
  | notAList
  | keyNotString
deriving DecidableEq

/-- The errors of a turn. -/
inductive FetchError where
  | scan (e : ScanError)
  | page (e : PageError)

/-- How a turn ends. -/
inductive Outcome where
  | row (row : Row) (s : PipedScan)
  | next (s : PipedScan)
  /-- The servers have no more keys; the rows of the transaction follow. -/
  | tail (s : PipedScan)
  | raised (e : FetchError)
  /-- There was no reply to the value of a key: the scan returns as if it were over. -/
  | missing
  /-- The reply that is being unpacked has been released. -/
  | dangling

/-- The cursor and the keys of a reply to `SCAN`. -/
def takePage : Resp → Except PageError (Bytes × List Bytes)
  | .array [.string cursor, .array keys] =>
    match keys.mapM Resp.str with
    | some keys => .ok (cursor, keys)
    | none => .error .keyNotString
  | .array [.string _, _] => .error .notAList
  | .array [_, _] => .error .cursorNotString
  | .array elems => .error (.elements elems.length)
  | _ => .error .notAnArray

namespace PipedScan

variable (m : TableMap) (input : TurnInput)

/-- A scan that has not begun. -/
def fresh (strategy : Strategy) (planKeys : List Bytes) (topology : Topology) (limit : Nat) :
    PipedScan :=
  ⟨.fresh strategy planKeys topology, .start limit, [], 0, 0, none, []⟩

/-- Go on with another connection, and a batch of its own. -/
def attach (s : PipedScan) (t : ScanState) : PipedScan :=
  { s with scan := t, batch := .start input.limit }

/-- Take the page that the machine has found, and queue its questions. -/
def takeKeys (s : PipedScan) (t : ScanState) : PipedScan :=
  { s with
    scan := { t with keys := [] }
    page := t.keys
    number := s.number + 1
    nextKey := 0
    batch := m.queuePage t.strategy (s.number + 1) 0 t.keys s.batch }

/-- One page of the keys the plan named, or none when every node has had its turn. -/
def keysPage (s : PipedScan) : Option PipedScan :=
  if s.scan.planKeys = [] then none
  else if s.scan.started = false then some (s.takeKeys m s.scan.takeKeys)
  else s.scan.advance.map fun t => (s.attach input t).takeKeys m t.takeKeys

/-- Begin a pass over the redirected keys, if any are owed one. -/
def retry (s : PipedScan) : Outcome :=
  if s.scan.redirected = [] then .tail s
  else if s.scan.redirectPasses = 0 then .raised (.scan (.gaveUp s.scan.redirected.length))
  else if s.scan.fanout = false then .next { s with scan := s.scan.owedPass }
  else match s.scan.cached with
    | some map => .next (s.attach input (s.scan.owedPass.repoint map))
    | none =>
      match input.shards with
      | .ok map => .next (s.attach input (s.scan.owedPass.repoint map))
      | .error e => .raised (.scan e)

/-- The reply to `SCAN`. -/
def expectPage : Option (Question × KeyReply) → Except PageError (Bytes × List Bytes)
  | none => .error .noReply
  | some (_, .error text) => .error (.failed text)
  | some (_, .ok r) => takePage r

/-- Ask for a page of keys. -/
def scanPage (s : PipedScan) : Outcome :=
  let r := batchNext input ⟨s.batch.add (.page s.scan.sent), []⟩
  match expectPage r.1 with
  | .error e => .raised (.page e)
  | .ok (cursor, keys) =>
    .next ({ s with batch := r.2.pipe }.takeKeys m { s.scan with
      started := true
      cursor := if cursor = cursorZero then none else some (cstr cursor)
      keys := keys })

/-- Make more replies available, or report that there are none left. -/
def refill (s : PipedScan) : Outcome :=
  if s.scan.retryPass = true ∨ s.scan.strategy ≠ .keyspace then
    match s.keysPage m input with
    | some s => .next s
    | none => s.retry input
  else if s.scan.started = true ∧ s.scan.cursor = none then
    match s.scan.advance with
    | some t => .next (s.attach input t)
    | none => s.retry input
  else s.scanPage m input

variable [Inputs]

/-- Emit the next member of the collection, if any remain. -/
def emitMember (s : PipedScan) (held : Held) : Outcome :=
  if s.batch.current ≠ some held.asked then .dangling
  else if held.reply.elems.length ≤ held.elem then .next { s with curReply := none }
  else
    match m.fill held.key s.ttlMs held.reply held.elem with
    | .error e => .raised (.scan (.read e))
    | .ok row => .row row { s with
        curReply := some { held with elem := held.elem + memberStride m.tabletype held.reply } }

/-- An error in reply to the value of a key. -/
def refused (s : PipedScan) (key : Bytes) (facts : Facts) (text : Bytes) : Outcome :=
  if isRedirect text then
    .next { s with scan := s.scan.noteRedirect input.beyond text key }
  else if facts.member = some false || hasCode "WRONGTYPE" text then .next s
  else .raised (.scan (.failed text))

/-- The value of a key. -/
def answered (s : PipedScan) (key : Bytes) (facts : Facts) (asked : Question) (r : Resp) : Outcome :=
  if m.producesNothing ⟨facts.member, facts.hlen, facts.ttls, r⟩ then .next s
  else
    match m.expectValue r with
    | .error e => .raised (.scan (.read e))
    | .ok () =>
      if m.isMultirow then .next { s with curReply := some ⟨asked, r, key, 0⟩ }
      else
        match m.fill key s.ttlMs r 0 with
        | .error e => .raised (.scan (.read e))
        | .ok row => .row row s

/-- What becomes of a key whose replies were taken. -/
def oneKey (s : PipedScan) (key : Bytes) (facts : Facts) (asked : Question) (reply : KeyReply) :
    Outcome :=
  match input.verdict with
  | .replace row => .row row s
  | .hide => .next s
  | .pass =>
    match reply with
    | .error text => s.refused input key facts text
    | .ok r => s.answered m key facts asked r

/-- Take the replies about a key, first and always. -/
def takeKey (s : PipedScan) (key : Bytes) : Outcome :=
  let r := takeReplies m s.scan.strategy input ⟨s.batch, []⟩
  let s := { s with nextKey := s.nextKey + 1, batch := r.2.pipe, ttlMs := r.1.1.ttls }
  match r.1.2 with
  | none => .missing
  | some (asked, reply) => s.oneKey m input key r.1.1 asked reply

/-- One turn of the loop that fetches rows. -/
def turn (s : PipedScan) : Outcome :=
  match s.curReply with
  | some held => s.emitMember m held
  | none =>
    match s.page[s.nextKey]? with
    | none => s.refill m input
    | some key => s.takeKey m input key

omit [Inputs] in
/-- Scan again: what is owed is read, and everything at hand is dropped. -/
def rescan (value : Option Bytes) (s : PipedScan) : PipedScan :=
  { s with
    scan := s.scan.rescan m value
    batch := s.batch.drain
    page := []
    nextKey := 0
    curReply := none }

end PipedScan

/-- The scan goes on. -/
def Outcome.state : Outcome → Option PipedScan
  | .row _ s | .next s | .tail s => some s
  | .raised _ | .missing | .dangling => none

namespace PipedScan

/-- The states a scan comes to, whatever it meets. -/
inductive Reach [Inputs] (m : TableMap) : PipedScan → Prop
  | start (strategy : Strategy) (planKeys : List Bytes) (topology : Topology) (limit : Nat) :
      Reach m (.fresh strategy planKeys topology limit)
  | turn {s s' : PipedScan} (input : TurnInput) :
      Reach m s → (s.turn m input).state = some s' → Reach m s'
  | rescan {s : PipedScan} (value : Option Bytes) : Reach m s → Reach m (s.rescan m value)

end PipedScan

/-! ## Queueing and taking agree -/

namespace TableMap

variable (m : TableMap) (strategy : Strategy)

/-- The questions about a key in front of that for its value. -/
def factCommands (key : Bytes) : List KeyCmd :=
  (if m.asksMembership strategy then [.sismember (m.keyset.getD []) key] else []) ++
    ((if m.hmget then [.hlen key] else []) ++
      if m.ttlFields ≠ [] then [.hpttl key m.ttlFields] else [])

/-- The questions about a key. -/
def keyCommands (key : Bytes) : List KeyCmd := m.factCommands strategy key ++ [m.valueRequest key]

/-- The questions about the keys of a page, from a place on. -/
def pageCommands (number : Nat) : Nat → List Bytes → List Question
  | _, [] => []
  | i, key :: keys =>
    (m.keyCommands strategy key).map (.about number i) ++ pageCommands number (i + 1) keys

variable {m strategy}

theorem queueKey_eq (number place : Nat) (key : Bytes) (p : Pipe Question) :
    m.queueKey strategy number place key p =
      ((m.keyCommands strategy key).map (.about number place)).foldl Pipe.add p := by
  rw [queueKey, keyCommands, factCommands]
  by_cases hMember : m.asksMembership strategy <;> by_cases hHmget : m.hmget <;>
    by_cases hTtl : m.ttlFields = [] <;> simp [hMember, hHmget, hTtl]

theorem queuePage_eq (number i : Nat) (keys : List Bytes) (p : Pipe Question) :
    m.queuePage strategy number i keys p =
      (m.pageCommands strategy number i keys).foldl Pipe.add p := by
  induction keys generalizing i p with
  | nil => rfl
  | cons key keys ih =>
    rw [queuePage, ih, queueKey_eq, pageCommands, List.foldl_append]

end TableMap

section Taking

variable {m : TableMap} {strategy : Strategy} {input : TurnInput}

theorem takes_nextData (a : Question) : Takes (nextData input) [a] :=
  (takes_read input.reply a).map _

theorem takes_takeIf {β : Type} (asked : Bool) (take : Option Resp → β) (unasked : β)
    (number place : Nat) (cmd : KeyCmd) : Takes (takeIf input asked take unasked)
      ((if asked then [cmd] else []).map (.about number place)) := by
  have hNext : Takes (nextData input) [.about number place cmd] := takes_nextData _
  rw [takeIf, apply_ite (List.map _)]
  exact (hNext.map take).ite unasked

theorem takes_takeFacts (number place : Nat) (key : Bytes) :
    Takes (takeFacts m strategy input)
      ((m.factCommands strategy key).map (.about number place)) := by
  rw [TableMap.factCommands, List.map_append, List.map_append]
  refine (takes_takeIf _ _ _ number place _).bind fun member =>
    (takes_takeIf _ _ _ number place _).bind fun hlen => ?_
  have hAsked : Takes (takeIf input (m.ttlFields ≠ [])
      (fun r => takeTtls m.ttlFields.length (r.getD .nil)) [])
      ((if decide (m.ttlFields ≠ []) then [.hpttl key m.ttlFields] else []).map
        (.about number place)) := takes_takeIf _ _ _ number place _
  have hTtls := hAsked.bind fun ttls => takes_pure (Facts.mk member hlen ttls)
  simpa only [List.append_nil, decide_eq_true_eq] using hTtls

/-- With the questions about a key at the head of the batch, its replies are taken. -/
theorem takeReplies_of_pending {p : Pipe Question} {rest : List Question} {number place : Nat}
    {key : Bytes}
    (h : p.pending = (m.keyCommands strategy key).map (.about number place) ++ rest) :
    let r := takeReplies m strategy input ⟨p, []⟩
    let asked := Question.about number place (m.valueRequest key)
    r.2.reads = (m.keyCommands strategy key).map (fun cmd => some (.about number place cmd)) ∧
      r.2.pipe.pending = rest ∧ r.1.2 = some (asked, input.reply asked) ∧
      r.2.pipe.current = some asked := by
  rw [TableMap.keyCommands, List.map_append, List.append_assoc] at h
  obtain ⟨hFacts, hLeft⟩ := takes_takeFacts number place key ⟨p, []⟩ _ h
  obtain ⟨hValue, hReads, hRest, hCurrent⟩ := read_of_pending input.reply hLeft
  refine ⟨?_, hRest, hValue, hCurrent⟩
  rw [TableMap.keyCommands, List.map_append]
  refine hReads.trans (congrArg (· ++ _) (hFacts.trans ?_))
  rw [List.map_map]
  rfl

end Taking

/-! ## Every state of a scan -/

namespace PipedScan

/-- What awaits a reply are the questions about the keys that were not taken, and a
collection is unpacked from the reply about the key that was taken last. -/
structure Paired (m : TableMap) (s : PipedScan) : Prop where
  pending : s.batch.pending =
    m.pageCommands s.scan.strategy s.number s.nextKey (s.page.drop s.nextKey)
  held : ∀ held, s.curReply = some held → s.batch.current = some held.asked ∧
    ∃ place, s.page[place]? = some held.key ∧
      held.asked = .about s.number place (m.valueRequest held.key)

variable {m : TableMap} {s s' : PipedScan} {input : TurnInput}

theorem Paired.idle (h : s.Paired m) (hTaken : s.page[s.nextKey]? = none) :
    s.batch.pending = [] := by
  rw [h.pending, List.drop_eq_nil_of_le (List.getElem?_eq_none_iff.mp hTaken)]
  rfl

theorem Paired.next (h : s.Paired m) {key : Bytes} (hKey : s.page[s.nextKey]? = some key) :
    s.batch.pending = (m.keyCommands s.scan.strategy key).map (.about s.number s.nextKey) ++
      m.pageCommands s.scan.strategy s.number (s.nextKey + 1) (s.page.drop (s.nextKey + 1)) := by
  rw [h.pending, List.drop_eq_getElem?_toList_append, hKey]
  rfl

theorem paired_takeKeys (hIdle : s.batch.pending = []) (hHeld : s.curReply = none) (t : ScanState) :
    (s.takeKeys m t).Paired m where
  pending := by
    change (m.queuePage t.strategy (s.number + 1) 0 t.keys s.batch).pending = _
    rw [TableMap.queuePage_eq, pending_adds, hIdle]
    rfl
  held held h := by
    change s.curReply = some held at h
    simp [hHeld] at h

/-- Nothing is owed, and nothing is at hand. -/
def Clear (s : PipedScan) : Prop :=
  s.batch.pending = [] ∧ s.page[s.nextKey]? = none ∧ s.curReply = none

variable (h : s.Clear)

include h

theorem Clear.paired : s.Paired m where
  pending := by
    rw [h.1, List.drop_eq_nil_of_le (List.getElem?_eq_none_iff.mp h.2.1)]
    rfl
  held held hHeld := by simp [h.2.2] at hHeld

theorem Clear.attach (t : ScanState) : (s.attach input t).Clear :=
  ⟨rfl, h.2.1, h.2.2⟩

theorem Clear.keysPage (hPage : s.keysPage m input = some s') : s'.Paired m := by
  unfold PipedScan.keysPage at hPage
  split_ifs at hPage with hNone hFirst
  · cases hPage
    exact paired_takeKeys h.1 h.2.2 _
  · obtain ⟨t, -, rfl⟩ := Option.map_eq_some_iff.mp hPage
    exact paired_takeKeys (s := s.attach input t) rfl h.2.2 _

theorem Clear.retry (hStep : (s.retry input).state = some s') : s'.Paired m := by
  unfold PipedScan.retry at hStep
  split_ifs at hStep with hNone hBudget hPlain
  · cases hStep
    exact h.paired
  · cases hStep
  · cases hStep
    exact (show Clear { s with scan := s.scan.owedPass } from h).paired
  · split at hStep
    · cases hStep
      exact (h.attach _).paired
    · split at hStep
      · cases hStep
        exact (h.attach _).paired
      · cases hStep

theorem Clear.scanPage (hStep : (s.scanPage m input).state = some s') :
    s'.Paired m := by
  have hAsked : (s.batch.add (.page s.scan.sent)).pending = [.page s.scan.sent] := by
    rw [Pipe.pending_add, h.1]
    rfl
  obtain ⟨-, -, hIdle, -⟩ := @read_of_pending _ _ input.reply
    ⟨s.batch.add (.page s.scan.sent), []⟩ _ _ hAsked
  unfold PipedScan.scanPage at hStep
  dsimp only at hStep
  split at hStep
  · cases hStep
  · cases hStep
    exact paired_takeKeys (s := { s with batch := _ }) hIdle h.2.2 _

theorem Clear.refill (hStep : (s.refill m input).state = some s') : s'.Paired m := by
  unfold PipedScan.refill at hStep
  split_ifs at hStep with hKeyed hEnd
  · split at hStep
    · rename_i hPage
      cases hStep
      exact h.keysPage hPage
    · exact h.retry hStep
  · split at hStep
    · cases hStep
      exact (h.attach _).paired
    · exact h.retry hStep
  · exact h.scanPage hStep

omit h

variable [Inputs]

/-- A key's replies have been taken, and it is at hand. -/
theorem paired_oneKey {key : Bytes} {place : Nat} (facts : Facts) (reply : KeyReply)
    (hPending : s.batch.pending =
      m.pageCommands s.scan.strategy s.number s.nextKey (s.page.drop s.nextKey))
    (hHeld : s.curReply = none) (hKey : s.page[place]? = some key)
    (hCurrent : s.batch.current = some (.about s.number place (m.valueRequest key)))
    (hStep : (s.oneKey m input key facts (.about s.number place (m.valueRequest key)) reply).state =
      some s') : s'.Paired m := by
  have hSame : s.Paired m := ⟨hPending, fun held h => by simp [hHeld] at h⟩
  unfold oneKey at hStep
  split at hStep
  · cases hStep
    exact hSame
  · cases hStep
    exact hSame
  · split at hStep
    · unfold refused at hStep
      split_ifs at hStep
      · cases hStep
        exact ⟨hPending, hSame.held⟩
      · cases hStep
        exact hSame
      · cases hStep
    · unfold answered at hStep
      split at hStep
      · cases hStep
        exact hSame
      · split at hStep
        · cases hStep
        · split at hStep
          · cases hStep
            refine ⟨hPending, fun held h => ?_⟩
            cases h
            exact ⟨hCurrent, place, hKey, rfl⟩
          · split at hStep
            · cases hStep
            · cases hStep
              exact hSame

theorem Paired.takeKey (h : s.Paired m) (hHeld : s.curReply = none) {key : Bytes}
    (hKey : s.page[s.nextKey]? = some key) (hStep : (s.takeKey m input key).state = some s') :
    s'.Paired m := by
  obtain ⟨-, hRest, hValue, hCurrent⟩ := @takeReplies_of_pending m s.scan.strategy input _ _ _ _ _
    (h.next hKey)
  unfold PipedScan.takeKey at hStep
  dsimp only at hStep
  rw [hValue] at hStep
  exact paired_oneKey (s := { s with nextKey := s.nextKey + 1, batch := _, ttlMs := _ }) _ _ hRest
    hHeld hKey hCurrent hStep

theorem Paired.emitMember (h : s.Paired m) {held : Held} (hHeld : s.curReply = some held)
    (hStep : (s.emitMember m held).state = some s') : s'.Paired m := by
  unfold PipedScan.emitMember at hStep
  split_ifs at hStep
  · cases hStep
  · cases hStep
    exact ⟨h.pending, nofun⟩
  · split at hStep
    · cases hStep
    · cases hStep
      refine ⟨h.pending, fun held' h' => ?_⟩
      cases h'
      exact h.held held hHeld

theorem Paired.turn (h : s.Paired m) (hStep : (s.turn m input).state = some s') : s'.Paired m := by
  unfold PipedScan.turn at hStep
  split at hStep
  · rename_i held hHeld
    exact h.emitMember hHeld hStep
  · rename_i hHeld
    split at hStep
    · rename_i hTaken
      exact Clear.refill ⟨h.idle hTaken, hTaken, hHeld⟩ hStep
    · rename_i key hKey
      exact h.takeKey hHeld hKey hStep

theorem Reach.paired (h : Reach m s) : s.Paired m := by
  induction h with
  | start => exact Clear.paired ⟨rfl, rfl, rfl⟩
  | turn input _ hStep ih => exact ih.turn hStep
  | rescan value _ ih => exact Clear.paired ⟨Pipe.pending_drain _, rfl, rfl⟩

theorem oneKey_replies {key : Bytes} (facts : Facts) (asked : Question) (reply : KeyReply) :
    s.oneKey m input key facts asked reply ≠ .missing ∧
      s.oneKey m input key facts asked reply ≠ .dangling := by
  unfold oneKey refused answered
  split
  · exact ⟨nofun, nofun⟩
  · exact ⟨nofun, nofun⟩
  · split
    · split_ifs <;> exact ⟨nofun, nofun⟩
    · repeat' split
      all_goals exact ⟨nofun, nofun⟩

omit [Inputs] in
theorem refill_replies : s.refill m input ≠ .missing ∧ s.refill m input ≠ .dangling := by
  have hRetry : s.retry input ≠ .missing ∧ s.retry input ≠ .dangling := by
    unfold retry
    repeat' split
    all_goals exact ⟨nofun, nofun⟩
  unfold refill scanPage
  dsimp only
  repeat' split
  all_goals first | exact hRetry | exact ⟨nofun, nofun⟩

/-- No turn is without its reply, or uses one that was released. -/
theorem Paired.replies (h : s.Paired m) (input : TurnInput) :
    s.turn m input ≠ .missing ∧ s.turn m input ≠ .dangling := by
  unfold PipedScan.turn
  split
  · rename_i held hHeld
    rw [PipedScan.emitMember, if_neg (not_not.mpr (h.held held hHeld).1)]
    repeat' split
    all_goals exact ⟨nofun, nofun⟩
  · split
    · exact refill_replies
    · rename_i key hKey
      obtain ⟨-, -, hValue, -⟩ := @takeReplies_of_pending m s.scan.strategy input _ _ _ _ _
        (h.next hKey)
      unfold PipedScan.takeKey
      dsimp only
      rw [hValue]
      exact oneKey_replies _ _ _

/-- A key that the transaction has deleted costs its replies like any other. -/
theorem Paired.turn_hide (h : s.Paired m) (hHeld : s.curReply = none) {key : Bytes}
    (hKey : s.page[s.nextKey]? = some key) (hHide : input.verdict = .hide) :
    ∃ s', (s.turn m input).state = some s' ∧ s'.scan = s.scan ∧ s'.page = s.page ∧
      s'.number = s.number ∧ s'.nextKey = s.nextKey + 1 := by
  obtain ⟨-, -, hValue, -⟩ := @takeReplies_of_pending m s.scan.strategy input _ _ _ _ _
    (h.next hKey)
  unfold PipedScan.turn
  rw [hHeld, hKey]
  dsimp only
  unfold PipedScan.takeKey
  dsimp only
  rw [hValue]
  simp only [oneKey, hHide]
  exact ⟨_, rfl, rfl, rfl, rfl, rfl⟩

/-- Replies stay paired with keys. In every state of every scan, the replies that are taken
for the next key of the page are those to the questions queued for it; when the page has
been taken nothing awaits a reply; a collection is unpacked from the reply to its own key's
question, which is still at hand; and no reply is ever missing. -/
theorem replies_paired (h : Reach m s) (input : TurnInput) :
    (∀ key, s.page[s.nextKey]? = some key →
      (takeReplies m s.scan.strategy input ⟨s.batch, []⟩).2.reads =
        (m.keyCommands s.scan.strategy key).map fun cmd => some (.about s.number s.nextKey cmd)) ∧
      (s.page.length ≤ s.nextKey → s.batch.pending = []) ∧
      (∀ held, s.curReply = some held → s.batch.current = some held.asked ∧
        ∃ place, s.page[place]? = some held.key ∧
          held.asked = .about s.number place (m.valueRequest held.key)) ∧
      s.turn m input ≠ .missing ∧ s.turn m input ≠ .dangling := by
  have hPaired := h.paired
  exact ⟨fun key hKey => (takeReplies_of_pending (hPaired.next hKey)).1,
    fun hTaken => hPaired.idle (List.getElem?_eq_none hTaken), hPaired.held,
    hPaired.replies input⟩

omit [Inputs] in
/-- Two named keys of a hash table with a keyset: the first is hidden by the transaction,
and the replies taken next are those about the second. -/
theorem replies_paired_named :
    letI := verbatim
    let m : TableMap := ⟨1, [⟨true, .key, none, .other, false⟩, ⟨true, .field, some [102], .other,
      false⟩], .hash, none, some [115], none, none, false, false⟩
    let input : TurnInput := ⟨fun _ => .ok (.integer 1), .hide, 1, .error (.failed []), fun _ => 0⟩
    ∃ s, Reach m s ∧ s.page = [[97], [98]] ∧ s.nextKey = 1 ∧
      (takeReplies m s.scan.strategy input ⟨s.batch, []⟩).2.reads =
        [some (.about 1 1 (.sismember [115] [98])), some (.about 1 1 (.hlen [98])),
          some (.about 1 1 (.hmget [98] [[102]]))] := by
  let _ := verbatim
  intro m input
  let s := PipedScan.fresh .keys [[97], [98]] (.plain ⟨[], 0⟩) 2
  have hStart : Reach m s := .start ..
  have hPage : Reach m (s.takeKeys m s.scan.takeKeys) := .turn input hStart rfl
  obtain ⟨s', hTurn, hScan, hKeys, hNumber, hNext⟩ :=
    @Paired.turn_hide m _ input _ hPage.paired rfl [97] rfl rfl
  have hReads := (replies_paired (.turn input hPage hTurn) input).1 [98] (by rw [hKeys, hNext]; rfl)
  rw [hNumber, hNext] at hReads
  refine ⟨s', .turn input hPage hTurn, hKeys, hNext, hReads.trans ?_⟩
  rw [hScan]
  rfl

end PipedScan

/-! ## How much is in flight -/

namespace TableMap

variable (m : TableMap) (strategy : Strategy)

/-- How many questions are asked about a key. -/
def asksPerKey : Nat :=
  (m.asksMembership strategy).toNat + m.hmget.toNat + (decide (m.ttlFields ≠ [])).toNat + 1

/-- The calls by which a page is fetched: its questions are queued, and then the replies
are taken. -/
def pageCalls (number : Nat) (keys : List Bytes) : List (Op Question) :=
  (m.pageCommands strategy number 0 keys).map .add ++
    List.replicate (m.pageCommands strategy number 0 keys).length .next

variable {m strategy}

theorem length_keyCommands (key : Bytes) :
    (m.keyCommands strategy key).length = m.asksPerKey strategy := by
  rw [keyCommands, factCommands, asksPerKey]
  by_cases hMember : m.asksMembership strategy <;> by_cases hHmget : m.hmget <;>
    by_cases hTtl : m.ttlFields = [] <;> simp [hMember, hHmget, hTtl]

theorem length_pageCommands (number i : Nat) (keys : List Bytes) :
    (m.pageCommands strategy number i keys).length = keys.length * m.asksPerKey strategy := by
  induction keys generalizing i with
  | nil => simp [pageCommands]
  | cons key keys ih =>
    rw [pageCommands, List.length_append, List.length_map, length_keyCommands, ih, List.length_cons,
      Nat.succ_mul, Nat.add_comm]

theorem bounded_pageCalls {p : Pipe Question} (hIdle : p.pending = []) (number : Nat)
    (keys : List Bytes) : Bounded (m.pageCalls strategy number keys) p ↔
      keys.length * m.asksPerKey strategy ≤ p.limit := by
  have hNone : p.count = 0 := by rw [p.count_eq, hIdle, List.length_nil]
  have hRoom : p.count ≤ p.limit := hNone ▸ Nat.zero_le _
  rw [bounded_iff_paced hRoom, pageCalls, paced_append, and_iff_left (paced_nexts _ _),
    paced_adds _ hRoom, hNone, Nat.zero_add, length_pageCommands]

end TableMap

/-- The bound on the commands in flight is kept by exactly those sequences of calls that
queue a command only while fewer than `pipeline_batch` await their replies, and so by
exactly those pages whose questions are no more than that. -/
theorem pipeline_bounded_iff (limit : Nat) (calls : List (Op Question)) (m : TableMap)
    (strategy : Strategy) (number : Nat) (keys : List Bytes) (p : Pipe Question)
    (hIdle : p.pending = []) :
    (Bounded calls (.start limit) ↔ Paced calls (.start limit)) ∧
      (Bounded (m.pageCalls strategy number keys) p ↔
        keys.length * m.asksPerKey strategy ≤ p.limit) :=
  ⟨bounded_iff_paced (Nat.zero_le limit), TableMap.bounded_pageCalls hIdle number keys⟩

theorem pipeline_bounded_iff_single :
    let m : TableMap := ⟨1, [], .string, none, none, none, none, false, false⟩
    Bounded (m.pageCalls .keyspace 1 [[97]]) (.start 1) := by
  intro m
  exact (pipeline_bounded_iff 1 [] m .keyspace 1 [[97]] (.start 1) rfl).2.mpr (by decide)

/-- A page of two strings with a `pipeline_batch` of one: both are in flight when the page
has been queued. -/
theorem pipeline_overfull :
    let m : TableMap := ⟨1, [], .string, none, none, none, none, false, false⟩
    (m.queuePage .keyspace 1 0 [[97], [98]] (.start 1)).count = 2 ∧
      ¬Bounded (m.pageCalls .keyspace 1 [[97], [98]]) (.start 1) := by
  intro m
  refine ⟨by decide, fun hBounded => ?_⟩
  have hLater := hBounded [.add (.about 1 0 (.get [97])), .add (.about 1 1 (.get [98]))] (by
    refine List.cons_prefix_cons.mpr ⟨rfl, List.cons_prefix_cons.mpr ⟨rfl, List.nil_prefix⟩⟩)
  revert hLater
  decide

end ValkeyFdw
