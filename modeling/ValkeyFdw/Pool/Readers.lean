import Mathlib.Data.Finset.Card
import ValkeyFdw.Pool.Served

/-!
# Readers and the connections they hold

A reader holds the connection it took until it gives it back, raises, or ends with its
subtransaction. A scan of a cluster goes from node to node: it gives one connection back and
takes the next when it is fetched from, so a cursor takes connections in subtransactions
that began after it did. The rollback of such a subtransaction gives the lease back while
the cursor lives on, and the next reader is handed the connection that it holds.

`readers_apart_iff` says which interleavings are safe, whatever acquisitions follow: those in
which no subtransaction is rolled back under whose number a reader around it holds a
connection.
-/

namespace ValkeyFdw.Pool

open Raise Trace

/-! ## Interleavings -/

/-- A reader that holds a connection. -/
structure Reader where
  hold : Hold
  /-- The subtransaction it ends with. -/
  home : Nat

def Reader.key (r : Reader) : ConnKey := r.hold.key

/-- The readers that hold a connection, and the transaction they are in. -/
structure Readers where
  world : World
  held : List Reader
  /-- The subtransactions around the current one, innermost first. -/
  subs : List Nat
  nextSub : Nat

/-- What readers do and what happens around them. -/
inductive Act where
  /-- For a reader of this home, which is an open subtransaction and need not be the current
  one. -/
  | acquire (home serverid : Nat) (user : UserMapping) (clusterAware : Bool) (node : Option Node)
      (waits : List Wait)
  /-- What a reader does with its connection, giving it back included. -/
  | call (reader : Nat) (call : Call) (waits : List Wait)
  | startSub
  | commitSub
  | abortSub
  | endTop (event : XactEvent)

def Act.isAcquire : Act → Bool
  | .acquire .. => true
  | _ => false

namespace Readers

/-- The subtransactions that are open, innermost first. -/
def live (s : Readers) : List Nat := s.world.subid :: s.subs

/-- The connections that are held. -/
def keys (s : Readers) : List ConnKey := s.held.map Reader.key

/-- The readers after a call of one of them. Who raised is not heard of again, and ends at the
latest with the subtransaction that it raised in. -/
def heldAfter (s : Readers) (i : Nat) (r : Reader) : Option Gain → List Reader
  | none => s.held.set i { r with home := s.world.subid }
  | some ⟨none, _⟩ => s.held.eraseIdx i
  | some ⟨some h, _⟩ => s.held.set i { r with hold := h }

def settle (s : Readers) (i : Nat) (r : Reader) (w : World) (g : Option Gain) : Readers :=
  { s with world := w, held := s.heldAfter i r g }

def startSub (s : Readers) : Readers :=
  { s with
    world := { s.world with subid := s.nextSub }
    subs := s.world.subid :: s.subs
    nextSub := s.nextSub + 1 }

/-- The current subtransaction is released into the one around it. -/
def commitSub (s : Readers) (parent : Nat) (subs : List Nat) : Readers :=
  { s with
    world := { s.world with subid := parent }
    held := s.held.map fun r => if r.home = s.world.subid then { r with home := parent } else r
    subs := subs }

/-- The current subtransaction is rolled back, and its readers are no more. -/
def abortSub (s : Readers) (parent : Nat) (subs : List Nat) : Readers :=
  { s with
    world := { s.world.overAll (connSubxact s.world.subid) with subid := parent }
    held := s.held.filter fun r => r.home ≠ s.world.subid
    subs := subs }

def endTop (s : Readers) (event : XactEvent) : Readers :=
  { s with
    world := { s.world.overAll (connXact event) with subid := topSubid }
    held := []
    nextSub := topSubid + 1 }

/-- A backend that has not used the pool. -/
def start (residue : ConnKey → Conn) : Readers where
  world := ⟨fun k => connInitEntry (residue k), topSubid, 0, fun _ => none, [], []⟩
  held := []
  subs := []
  nextSub := topSubid + 1

section Keys

variable {s t : Readers} {i : Nat} {r : Reader} {w : World} {g : Option Gain} {waits : List Wait}

theorem settle_keys_sublist (hReader : s.held[i]? = some r)
    (hEffect : Effect r.key { s.world with waits } w g) :
    (s.settle i r w g).keys.Sublist s.keys := by
  obtain ⟨hi, rfl⟩ := List.getElem?_eq_some_iff.mp hReader
  -- A reader is put in the place of one with the same key.
  have hSet : ∀ r' : Reader, r'.key = s.held[i].key →
      ((s.held.set i r').map Reader.key).Sublist s.keys := by
    intro r' hKey
    have hSame : (s.held.set i r').map Reader.key = s.keys := by
      rw [List.map_set, hKey, keys]
      apply List.ext_getElem (by simp)
      intro j hj hj'
      rw [List.getElem_set]
      split
      · rename_i hij
        subst hij
        simp
      · rfl
    rw [hSame]
  cases g with
  | none => exact hSet { s.held[i] with home := s.world.subid } rfl
  | some g =>
    obtain ⟨hold, map⟩ := g
    cases hold with
    | none => exact (List.eraseIdx_sublist ..).map Reader.key
    | some h => exact hSet { s.held[i] with hold := h } (hEffect.keeps rfl).1

/-- After a call a reader is another one, or the one that made it. -/
theorem mem_heldAfter (hNodup : s.keys.Nodup) (hReader : s.held[i]? = some r)
    (hEffect : Effect r.key { s.world with waits } w g) {r' : Reader}
    (hr' : r' ∈ s.heldAfter i r g) :
    (r' ∈ s.held ∧ r'.key ≠ r.key) ∨
      (r'.key = r.key ∧ (r'.home = r.home ∨ r'.home = s.world.subid) ∧
        (w.pool r.key).held = (s.world.pool r.key).held) := by
  obtain ⟨hi, rfl⟩ := List.getElem?_eq_some_iff.mp hReader
  have hOther : ∀ j (hj : j < s.held.length), j ≠ i → s.held[j].key ≠ s.held[i].key := by
    intro j hj hne hKey
    have hi' : i < s.keys.length := by rwa [keys, List.length_map]
    have hj' : j < s.keys.length := by rwa [keys, List.length_map]
    have hSame : s.keys[j] = s.keys[i] := by simpa [keys] using hKey
    exact hne (hNodup.getElem_inj_iff.mp hSame)
  have hSet : ∀ r₁ : Reader, r' ∈ s.held.set i r₁ →
      (r' ∈ s.held ∧ r'.key ≠ s.held[i].key) ∨ r' = r₁ := by
    intro r₁ hMem
    obtain ⟨j, hj, rfl⟩ := List.mem_iff_getElem.mp hMem
    rw [List.getElem_set]
    split
    · exact .inr rfl
    · rename_i hne
      rw [List.length_set] at hj
      exact .inl ⟨List.getElem_mem hj, hOther j hj (Ne.symm hne)⟩
  cases g with
  | none =>
    rcases hSet _ hr' with hOld | rfl
    · exact .inl hOld
    · exact .inr ⟨rfl, .inr rfl, hEffect.fails⟩
  | some g =>
    obtain ⟨hold, map⟩ := g
    cases hold with
    | none =>
      obtain ⟨j, hj, hne, rfl⟩ := List.mem_eraseIdx_iff_getElem.mp hr'
      exact .inl ⟨List.getElem_mem hj, hOther j hj hne⟩
    | some h =>
      obtain ⟨hKey, hHeld⟩ := hEffect.keeps rfl
      rcases hSet _ hr' with hOld | rfl
      · exact .inl hOld
      · exact .inr ⟨hKey, .inl rfl, hHeld⟩

theorem commitSub_keys (parent : Nat) (subs : List Nat) :
    (s.commitSub parent subs).keys = s.keys := by
  simp only [keys, commitSub, List.map_map]
  refine List.map_congr_left fun r _ => ?_
  simp only [Function.comp_apply]
  split <;> rfl

theorem abortSub_keys (parent : Nat) (subs : List Nat) :
    (s.abortSub parent subs).keys.Sublist s.keys := List.filter_sublist.map Reader.key

end Keys

variable [SysCache] (servers : Nat → ServerOptions)

/-- An act, where it can happen. -/
def step (act : Act) (s : Readers) : Except Unit Readers :=
  match act with
  | .acquire home serverid user clusterAware node waits =>
    if home ∈ s.live ∧ Fits node then
      match getConnectionInternal ⟨serverid, servers serverid⟩ user clusterAware node
          { s.world with waits } with
      | .ok k w => .ok { s with world := w, held := ⟨.taken k, home⟩ :: s.held }
      | .error _ w => .ok { s with world := w }
    else .error ()
  | .call i call waits =>
    match s.held[i]? with
    | none => .error ()
    | some r =>
      match call.on r.hold with
      | none => .error ()
      | some prog =>
        match prog { s.world with waits } with
        | .ok g w => .ok (s.settle i r w (some g))
        | .error _ w => .ok (s.settle i r w none)
  | .startSub => .ok s.startSub
  | .commitSub =>
    match s.subs with
    | [] => .error ()
    | parent :: subs => .ok (s.commitSub parent subs)
  | .abortSub =>
    match s.subs with
    | [] => .error ()
    | parent :: subs => .ok (s.abortSub parent subs)
  | .endTop event => if s.subs ≠ [] then .error () else .ok (s.endTop event)

/-- What each act does, where it can happen. -/
inductive Moves (s : Readers) : Act → Readers → Prop
  | acquired (home serverid : Nat) (user : UserMapping) (clusterAware : Bool) (node : Option Node)
      (waits : List Wait) (k : ConnKey) (w : World) (hHome : home ∈ s.live) (hFits : Fits node)
      (hTaking : Taking ⟨serverid, servers serverid⟩ user clusterAware node { s.world with waits } w
        (some (.of (.taken k)))) :
      Moves s (.acquire home serverid user clusterAware node waits)
        { s with world := w, held := ⟨.taken k, home⟩ :: s.held }
  | refused (home serverid : Nat) (user : UserMapping) (clusterAware : Bool) (node : Option Node)
      (waits : List Wait) (w : World)
      (hTaking : Taking ⟨serverid, servers serverid⟩ user clusterAware node { s.world with waits } w
        none) :
      Moves s (.acquire home serverid user clusterAware node waits) { s with world := w }
  | called (i : Nat) (call : Call) (waits : List Wait) (r : Reader) (w : World) (g : Option Gain)
      (hReader : s.held[i]? = some r) (hEffect : Effect r.key { s.world with waits } w g) :
      Moves s (.call i call waits) (s.settle i r w g)
  | startSub : Moves s .startSub s.startSub
  | commitSub (parent : Nat) (subs : List Nat) (hSubs : s.subs = parent :: subs) :
      Moves s .commitSub (s.commitSub parent subs)
  | abortSub (parent : Nat) (subs : List Nat) (hSubs : s.subs = parent :: subs) :
      Moves s .abortSub (s.abortSub parent subs)
  | endTop (event : XactEvent) (hSubs : s.subs = []) : Moves s (.endTop event) (s.endTop event)

variable {servers}

theorem moves_of_step {s t : Readers} {act : Act} (h : step servers act s = .ok t) :
    Moves servers s act t := by
  cases act with
  | acquire home serverid user aware node waits =>
    have hTaking := wp_map.mp (taking_of_acquire ⟨serverid, servers serverid⟩ user aware node
      { s.world with waits })
    simp only [step] at h
    split at h
    · rename_i hCan
      split at h
      · rename_i k w hEnds
        cases h
        exact .acquired home serverid user aware node waits k w hCan.1 hCan.2 (of_ok hTaking hEnds)
      · rename_i e w hEnds
        cases h
        exact .refused home serverid user aware node waits w (of_error hTaking hEnds)
    · cases h
  | call i call waits =>
    simp only [step] at h
    split at h
    · cases h
    · rename_i r hReader
      split at h
      · cases h
      · rename_i prog hProg
        have hEffect := Call.on_effect hProg { s.world with waits }
        split at h
        · rename_i g w hEnds
          cases h
          exact .called i call waits r w (some g) hReader (of_ok hEffect hEnds)
        · rename_i e w hEnds
          cases h
          exact .called i call waits r w none hReader (of_error hEffect hEnds)
  | startSub =>
    cases h
    exact .startSub
  | commitSub =>
    simp only [step] at h
    split at h
    · cases h
    · rename_i parent subs hSubs
      cases h
      exact .commitSub parent subs hSubs
  | abortSub =>
    simp only [step] at h
    split at h
    · cases h
    · rename_i parent subs hSubs
      cases h
      exact .abortSub parent subs hSubs
  | endTop event =>
    simp only [step] at h
    split at h
    · cases h
    · rename_i hSubs
      cases h
      exact .endTop event (not_not.mp hSubs)

/-! ## Where connections lead -/

variable {s t : Readers} {act : Act}

/-- Every connection that is held is in a slot. -/
def Slotted (s : Readers) : Prop := ∀ k ∈ s.keys, k.slot < maxConnSlots

theorem Slotted.step (hs : s.Slotted) (hStep : Readers.step servers act s = .ok t) : t.Slotted := by
  cases moves_of_step hStep with
  | acquired home serverid user aware node waits k w hHome hFits hTaking =>
    obtain ⟨e, hPicks, -⟩ := hTaking.took
    intro k' hk'
    rcases List.mem_cons.mp hk' with rfl | hk'
    · exact (picked_of_picks hPicks).slot
    · exact hs k' hk'
  | refused home serverid user aware node waits w hTaking => exact hs
  | called i call waits r w g hReader hEffect =>
    exact fun k hk => hs k ((settle_keys_sublist hReader hEffect).subset hk)
  | startSub => exact hs
  | commitSub parent subs hSubs => exact fun k hk => hs k (commitSub_keys parent subs ▸ hk)
  | abortSub parent subs hSubs => exact fun k hk => hs k ((abortSub_keys parent subs).subset hk)
  | endTop event hSubs => exact nofun

/-- Every open socket leads where its entry points to. -/
def Led (servers : Nat → ServerOptions) (s : Readers) : Prop :=
  ∀ k b, (s.world.pool k).bond = some b → b.link.endpoint = b.target (servers k.serverid)

variable {user : UserMapping} {node : Option Node} {waits : List Wait} {k : ConnKey}

theorem Led.taking {serverid : Nat} {clusterAware : Bool} {w : World} {g : Option Gain}
    (hs : s.Led servers)
    (hTaking : Taking ⟨serverid, servers serverid⟩ user clusterAware node { s.world with waits } w
      g) (k : ConnKey) (b : Bond) (hb : (w.pool k).bond = some b) :
    b.link.endpoint = b.target (servers k.serverid) := by
  rcases hTaking.bond hb with hBefore | ⟨⟨hServer, -⟩, hTaken⟩
  · exact hs k b hBefore
  · rw [hServer]
    refine hTaken.leads fun b₀ hb₀ => ?_
    rw [hs k b₀ hb₀, hServer]

theorem Led.step (hs : s.Led servers) (hStep : Readers.step servers act s = .ok t) :
    t.Led servers := by
  intro k b hb
  cases moves_of_step hStep with
  | acquired home serverid user aware node waits k' w hHome hFits hTaking =>
    exact hs.taking hTaking k b hb
  | refused home serverid user aware node waits w hTaking => exact hs.taking hTaking k b hb
  | called i call waits r w g hReader hEffect => exact hs k b (hEffect.bond hb)
  | startSub => exact hs k b hb
  | commitSub parent subs hSubs => exact hs k b hb
  | abortSub parent subs hSubs => exact hs k b (bond_of_connSubxact hb)
  | endTop event hSubs => exact hs k b (bond_of_connXact hb)

/-- What is handed over is the caller's own, and leads where it was asked to. -/
theorem Led.granted (hs : s.Led servers) {serverid : Nat} {clusterAware : Bool} {w : World}
    (hFits : Fits node)
    (hOk : getConnectionInternal ⟨serverid, servers serverid⟩ user clusterAware node
      { s.world with waits } = .ok k w) :
    k.serverid = serverid ∧ k.userid = user.userid ∧ k.slot < maxConnSlots ∧
      ∃ sock, (w.pool k).conn = some sock ∧
        sock.link.endpoint = requested (servers serverid) node := by
  have hTaking := of_ok (wp_map.mp (taking_of_acquire ⟨serverid, servers serverid⟩ user clusterAware
    node { s.world with waits })) hOk
  obtain ⟨e, hPicks, -⟩ := hTaking.took
  obtain ⟨k', b, hGain, ⟨hServer, hUser⟩, hBond, hTaken⟩ := hTaking.hands
  cases hGain
  have hLeads := hs.taking hTaking k b hBond
  rw [hServer] at hLeads
  obtain ⟨sock, hSock, rfl⟩ := Option.map_eq_some_iff.mp hBond
  refine ⟨hServer, hUser, (picked_of_picks hPicks).slot, sock, hSock, ?_⟩
  exact hTaken.requested hLeads hFits

/-! ## Readers apart -/

/-- What is held is leased, and by one reader. -/
structure Apart (s : Readers) : Prop where
  leased : ∀ k ∈ s.keys, (s.world.pool k).leased = true
  nodup : s.keys.Nodup

/-- No reader around the subtransaction that is rolled back holds a connection under its
number. -/
def Spares (s : Readers) : Act → Prop
  | .abortSub => ∀ r ∈ s.held, r.home ≠ s.world.subid →
      (s.world.pool r.key).leaseSubid ≠ s.world.subid
  | _ => True

omit [SysCache] in
instance (s : Readers) : ∀ act, Decidable (s.Spares act)
  | .abortSub => inferInstanceAs (Decidable (∀ r ∈ s.held, r.home ≠ s.world.subid →
      (s.world.pool r.key).leaseSubid ≠ s.world.subid))
  | .acquire .. | .call .. | .startSub | .commitSub | .endTop _ => isTrue trivial

omit [SysCache] in
theorem Apart.settle (hs : s.Apart) {i : Nat} {r : Reader} {w : World} {g : Option Gain}
    (hReader : s.held[i]? = some r) (hEffect : Effect r.key { s.world with waits } w g) :
    (s.settle i r w g).Apart := by
  refine ⟨fun k hk => ?_, hs.nodup.sublist (settle_keys_sublist hReader hEffect)⟩
  obtain ⟨r', hr', rfl⟩ := List.mem_map.mp hk
  rcases mem_heldAfter hs.nodup hReader hEffect hr' with ⟨hOld, hOther⟩ | ⟨hKey, -, hHeld⟩
  · have hSame := congrArg Conn.leased (hEffect.others hOther)
    exact hSame.trans (hs.leased _ (List.mem_map_of_mem hOld))
  · rw [hKey]
    have hSame := congrArg Held.leased hHeld
    exact hSame.trans (hs.leased _ (List.mem_map_of_mem (List.mem_of_getElem? hReader)))

theorem Apart.not_mem_of_picks (hs : s.Apart) {server : ForeignServer} {e : Conn}
    (hPicks : picks server user node { s.world with waits } = some (k, e)) : k ∉ s.keys := by
  intro hk
  exact absurd ((picked_of_picks hPicks).free.symm.trans (hs.leased k hk)) Bool.false_ne_true

theorem Apart.step (hs : s.Apart) (hSpares : s.Spares act)
    (hStep : Readers.step servers act s = .ok t) : t.Apart := by
  cases moves_of_step hStep with
  | acquired home serverid user aware node waits k w hHome hFits hTaking =>
    obtain ⟨e, hPicks, -, hOthers, hLeased, -⟩ := hTaking.took
    have hNew := hs.not_mem_of_picks hPicks
    refine ⟨fun k' hk' => ?_, List.nodup_cons.mpr ⟨hNew, hs.nodup⟩⟩
    rcases List.mem_cons.mp hk' with rfl | hk'
    · exact hLeased
    · exact (congrArg Conn.leased (hOthers k' (ne_of_mem_of_not_mem hk' hNew))).trans
        (hs.leased k' hk')
  | refused home serverid user aware node waits w hTaking =>
    refine ⟨fun k hk => ?_, hs.nodup⟩
    rcases hTaking.picked with ⟨rfl, -⟩ | ⟨k', e, hPicks, -, hOthers, hLeased, -, -⟩
    · exact hs.leased k hk
    · by_cases hne : k = k'
      · exact hne ▸ hLeased
      · exact (congrArg Conn.leased (hOthers k hne)).trans (hs.leased k hk)
  | called i call waits r w g hReader hEffect => exact hs.settle hReader hEffect
  | startSub => exact ⟨hs.leased, hs.nodup⟩
  | commitSub parent subs hSubs =>
    have hKeys := commitSub_keys (s := s) parent subs
    exact ⟨fun k hk => hs.leased k (hKeys ▸ hk), hKeys ▸ hs.nodup⟩
  | abortSub parent subs hSubs =>
    refine ⟨fun k hk => ?_, hs.nodup.sublist (abortSub_keys parent subs)⟩
    obtain ⟨r, hr, rfl⟩ := List.mem_map.mp hk
    obtain ⟨hr, hOuter⟩ := List.mem_filter.mp hr
    change (connSubxact s.world.subid (s.world.pool r.key)).leased = true
    rw [connSubxact_leased, Bool.and_eq_true, decide_eq_true_eq]
    exact ⟨hs.leased _ (List.mem_map_of_mem hr), hSpares r hr (of_decide_eq_true hOuter)⟩
  | endTop event hSubs => exact ⟨nofun, List.nodup_nil⟩

/-! ## Readers that share -/

/-- A user whom the checks let pass. -/
def asker (userid : Nat) : UserMapping := ⟨0, userid, true, ⟨none, none, false⟩⟩

/-- The slots of a server and user that are not leased. -/
def freeSlots (w : World) (serverid userid : Nat) : Finset Nat :=
  {i ∈ Finset.range maxConnSlots | (w.pool ⟨serverid, userid, i⟩).leased = false}

/-- While a slot is free, one more reader of its server and user finds one. -/
theorem step_acquire_free (servers : Nat → ServerOptions) (hSlot : k.slot < maxConnSlots)
    (hFree : (s.world.pool k).leased = false) :
    ∃ k' w, step servers (.acquire s.world.subid k.serverid (asker k.userid) true none
        (answered openWaits)) s =
        .ok { s with world := w, held := ⟨.taken k', s.world.subid⟩ :: s.held } ∧
      Taking ⟨k.serverid, servers k.serverid⟩ (asker k.userid) true none
        { s.world with waits := answered openWaits } w (some (.of (.taken k'))) := by
  have hSome : ¬AllLeased ⟨k.serverid, servers k.serverid⟩ (asker k.userid) s.world := by
    intro hAll
    exact absurd (hFree.symm.trans (hAll k.slot hSlot)) Bool.false_ne_true
  have hPasses : refuses ⟨k.serverid, servers k.serverid⟩ (asker k.userid) true = false := by
    simp [refuses, passwordMissing, asker]
  obtain ⟨k', w, hOk⟩ := getConnectionInternal_served none hSome hPasses
  refine ⟨k', w, ?_, of_ok (wp_map.mp (taking_of_acquire ..)) hOk⟩
  have hCan : s.world.subid ∈ s.live ∧ Fits none := ⟨List.mem_cons_self, fits_none⟩
  simp only [step, if_pos hCan, hOk]

omit [SysCache] in
/-- A slot that is taken is one less that is free. -/
theorem freeSlots_card_lt {w w' : World} (hSlot : k.slot < maxConnSlots)
    (hFree : (w.pool k).leased = false) (hLeased : (w'.pool k).leased = true)
    (hOthers : ∀ k', k' ≠ k → w'.pool k' = w.pool k') :
    (freeSlots w' k.serverid k.userid).card < (freeSlots w k.serverid k.userid).card := by
  have hSubset : freeSlots w' k.serverid k.userid ⊆ freeSlots w k.serverid k.userid := by
    intro i hi
    obtain ⟨hi, hStill⟩ := Finset.mem_filter.mp hi
    refine Finset.mem_filter.mpr ⟨hi, ?_⟩
    by_cases hTaken : (⟨k.serverid, k.userid, i⟩ : ConnKey) = k
    · rw [hTaken, hLeased] at hStill
      cases hStill
    · rwa [hOthers _ hTaken] at hStill
  apply Finset.card_lt_card
  apply (Finset.ssubset_iff_of_subset hSubset).mpr
  refine ⟨k.slot, Finset.mem_filter.mpr ⟨Finset.mem_range.mpr hSlot, hFree⟩, fun hMem => ?_⟩
  exact absurd (hLeased.symm.trans (Finset.mem_filter.mp hMem).2) nofun

/-- A reader whose connection is not leased comes to share it: every acquisition takes a
slot that is free, and there are only so many others. -/
theorem exists_shared (servers : Nat → ServerOptions) (hk : k ∈ s.keys)
    (hSlot : k.slot < maxConnSlots) (hFree : (s.world.pool k).leased = false) :
    ∃ asks t, (∀ a ∈ asks, a.isAcquire = true) ∧ run (step servers) asks s = .ok t ∧
      ¬t.keys.Nodup := by
  induction hn : (freeSlots s.world k.serverid k.userid).card using Nat.strong_induction_on
    generalizing s with
  | _ n ih =>
    obtain ⟨k', w, hStep, hTaking⟩ := step_acquire_free servers hSlot hFree
    obtain ⟨e, hPicks, -, hOthers, hLeased, -⟩ := hTaking.took
    by_cases hSame : k' = k
    · subst hSame
      refine ⟨[_], _, ?_, (run_singleton _ s).trans hStep, fun hNodup => ?_⟩
      · simp [Act.isAcquire]
      · exact (List.nodup_cons.mp hNodup).1 hk
    · have hPicked := picked_of_picks hPicks
      have hLess : (freeSlots w k.serverid k.userid).card < n := by
        have hLess := freeSlots_card_lt hPicked.slot hPicked.free hLeased hOthers
        rw [hPicked.serverid, hPicked.userid] at hLess
        exact hn ▸ hLess
      obtain ⟨asks, t, hAsks, hRun, hShared⟩ := ih _ hLess
        (s := { s with world := w, held := ⟨.taken k', s.world.subid⟩ :: s.held })
        (List.mem_cons_of_mem k' hk)
        ((congrArg Conn.leased (hOthers k (Ne.symm hSame))).trans hFree) rfl
      refine ⟨_ :: asks, t, ?_, run_cons_ok.mpr ⟨_, hStep, hRun⟩, hShared⟩
      exact List.forall_mem_cons.mpr ⟨rfl, hAsks⟩

/-- What the pool promises to readers. -/
structure Sound (servers : Nat → ServerOptions) (s : Readers) : Prop where
  apart : s.keys.Nodup
  /-- Who takes a connection gets one of its own server and user, with a socket to the
  endpoint that it asked for. -/
  granted : ∀ serverid user clusterAware node waits k w, Fits node →
    getConnectionInternal ⟨serverid, servers serverid⟩ user clusterAware node
      { s.world with waits } = .ok k w →
    k.serverid = serverid ∧ k.userid = user.userid ∧ k.slot < maxConnSlots ∧
      ∃ sock, (w.pool k).conn = some sock ∧
        sock.link.endpoint = requested (servers serverid) node
  /-- A slot is refused only when all are leased. -/
  refused : ∀ serverid user node,
    (∃ e w, connTakeFreeSlot serverid user.userid node s.world = .error e w) →
      AllLeased ⟨serverid, servers serverid⟩ user s.world
  /-- With one that is free, whoever passes the checks is served if the network answers. -/
  served : ∀ serverid user clusterAware node,
    ¬AllLeased ⟨serverid, servers serverid⟩ user s.world →
    refuses ⟨serverid, servers serverid⟩ user clusterAware = false →
    ∃ k w, getConnectionInternal ⟨serverid, servers serverid⟩ user clusterAware node
      { s.world with waits := answered openWaits } = .ok k w

theorem Led.sound (hs : s.Led servers) (hApart : s.keys.Nodup) : s.Sound servers where
  apart := hApart
  granted _ _ _ _ _ _ _ hFits hOk := hs.granted hFits hOk
  refused serverid user node :=
    (connTakeFreeSlot_refuses_iff ⟨serverid, servers serverid⟩ user node s.world).mp
  served _ _ _ node := getConnectionInternal_served node

omit [SysCache] in
theorem led_start (residue : ConnKey → Conn) : (start residue).Led servers := by
  intro k b hb
  cases hb

omit [SysCache] in
theorem apart_start (residue : ConnKey → Conn) : (start residue).Apart := ⟨nofun, List.nodup_nil⟩

theorem Apart.run_acquires (hs : s.Apart) {asks : List Act} (hAsks : ∀ a ∈ asks, a.isAcquire = true)
    (hRun : run (Readers.step servers) asks s = .ok t) : t.Apart := by
  refine Trace.run_invariant (fun a ha s t hs hStep => hs.step ?_ hStep) hs hRun
  cases a with
  | acquire home serverid user aware node waits => trivial
  | _ => exact absurd (hAsks _ ha) nofun

end Readers

/-- At every point of an interleaving, and whatever acquisitions follow there, readers hold
connections of their own that lead where they asked, and are turned away only when all slots
are leased, if and only if no subtransaction is rolled back under whose number a reader
around it holds a connection. -/
theorem readers_apart_iff [SysCache] (servers : Nat → ServerOptions) (residue : ConnKey → Conn)
    (acts : List Act) {s : Readers}
    (hRun : run (Readers.step servers) acts (.start residue) = .ok s) :
    (∀ pre asks t, pre <+: acts → (∀ a ∈ asks, a.isAcquire = true) →
      run (Readers.step servers) (pre ++ asks) (.start residue) = .ok t → t.Sound servers) ↔
    Along (Readers.step servers) Readers.Spares acts (.start residue) := by
  constructor
  · intro hSound
    refine along_iff.mpr fun pre act post u hSplit hPre => ?_
    cases act with
    | abortSub =>
      intro r hr hOuter hLease
      obtain ⟨u', hu', hRest⟩ := run_append_ok.mp (hSplit ▸ hRun)
      cases hPre.symm.trans hu'
      obtain ⟨v, hAbort, -⟩ := run_cons_ok.mp hRest
      have hSlotted : u.Slotted :=
        Trace.run_invariant (fun _ _ _ _ h hStep => h.step hStep) (I := Readers.Slotted)
          (s := .start residue) nofun hPre
      -- The reader is there after the rollback, and its lease is not.
      obtain ⟨hHeld, hFree⟩ : r ∈ v.held ∧ (v.world.pool r.key).leased = false := by
        cases Readers.moves_of_step hAbort with
        | abortSub parent subs hSubs =>
          refine ⟨List.mem_filter.mpr ⟨hr, decide_eq_true hOuter⟩, ?_⟩
          change (connSubxact u.world.subid (u.world.pool r.key)).leased = false
          rw [connSubxact_leased, hLease]
          simp
      have hKey : r.key ∈ v.keys := List.mem_map_of_mem hHeld
      obtain ⟨asks, t, hAsks, hMore, hShared⟩ := Readers.exists_shared servers hKey
        (hSlotted _ (List.mem_map_of_mem hr)) hFree
      refine hShared (hSound (pre ++ [.abortSub]) asks t ?_ hAsks ?_).apart
      · rw [hSplit]
        exact ⟨post, by simp⟩
      · rw [run_append_ok]
        refine ⟨v, run_append_ok.mpr ⟨u, hPre, ?_⟩, hMore⟩
        rw [run_singleton, hAbort]
    | _ => trivial
  · rintro hSpares pre asks t ⟨post, rfl⟩ hAsks hRun
    have hLed : t.Led servers := Trace.run_invariant (fun _ _ _ _ h hStep => h.step hStep)
      (Readers.led_start residue) hRun
    obtain ⟨u, hPre, hMore⟩ := run_append_ok.mp hRun
    have hApart : u.Apart := hSpares.of_append.run_invariant
      (fun _ _ _ _ h hSpares hStep => h.step hSpares hStep) (Readers.apart_start residue) hPre
    exact hLed.sound (hApart.run_acquires hAsks hMore).nodup

/-! ## A cursor that goes on in a savepoint -/

def firstNode : Node := ⟨ascii "a", 7000⟩

def nextNode : Node := ⟨ascii "b", 7000⟩

/-- A cursor at the top reads from one node. In a savepoint it is fetched from and goes on to the
next node, and the savepoint is rolled back. Another scan of that node begins. -/
def cursorInSavepoint : List Act :=
  [.acquire 1 1 plainUser true (some firstNode) (answered 7), .call 0 .begin [], .startSub,
    .call 0 .finish [], .call 0 .release [],
    .acquire 1 1 plainUser true (some nextNode) (answered 7), .call 0 .begin [], .abortSub,
    .acquire 1 1 plainUser true (some nextNode) (answered 7)]

/-- The two readers hold the same connection. -/
theorem cursor_shares_connection :
    letI := plainCache
    ∃ s, run (Readers.step fun _ => clusterOptions) cursorInSavepoint (.start plainResidue) =
        .ok s ∧
      s.keys = [⟨1, 3, 1⟩, ⟨1, 3, 1⟩] ∧ ¬s.Sound fun _ => clusterOptions := by
  let _ := plainCache
  have hKeys : ((run (Readers.step fun _ => clusterOptions) cursorInSavepoint
      (.start plainResidue)).toOption.map Readers.keys) = some [⟨1, 3, 1⟩, ⟨1, 3, 1⟩] := by
    decide +kernel
  obtain ⟨s, hRun, hs⟩ := ok_of_toOption_map hKeys
  refine ⟨s, hRun, hs, fun hSound => ?_⟩
  have hApart := hSound.apart
  rw [hs] at hApart
  exact (List.nodup_cons.mp hApart).1 List.mem_cons_self

/-- The same scans, with the second one in the savepoint. -/
def scanInSavepoint : List Act :=
  [.acquire 1 1 plainUser true (some firstNode) (answered 7), .startSub,
    .acquire 2 1 plainUser true (some nextNode) (answered 7), .abortSub]

theorem readers_apart_in_savepoint :
    letI := plainCache
    ∃ s, run (Readers.step fun _ => clusterOptions) scanInSavepoint (.start plainResidue) = .ok s ∧
      s.keys = [⟨1, 3, 0⟩] ∧ s.Sound fun _ => clusterOptions := by
  let _ := plainCache
  have hKeys : ((run (Readers.step fun _ => clusterOptions) scanInSavepoint
      (.start plainResidue)).toOption.map Readers.keys) = some [⟨1, 3, 0⟩] := by
    decide +kernel
  have hSpares : Along (Readers.step fun _ => clusterOptions) Readers.Spares scanInSavepoint
      (.start plainResidue) := by
    decide +kernel
  obtain ⟨s, hRun, hs⟩ := ok_of_toOption_map hKeys
  refine ⟨s, hRun, hs, ?_⟩
  have hSound := (readers_apart_iff (fun _ => clusterOptions) plainResidue scanInSavepoint
    hRun).mpr hSpares
  apply hSound scanInSavepoint [] s (List.prefix_refl _)
  · exact fun a ha => absurd ha List.not_mem_nil
  · rwa [List.append_nil]

end ValkeyFdw.Pool
