import ValkeyFdw.Pool.Bond

/-!
# Connections and the current credentials

A connection is authenticated when it is opened and used for the life of the backend, so a
change of the user mapping has to reach it. The change names the row that was created,
altered or dropped, and a connection remembers the hash of the row it was opened with. That
finds it when its own row changes, but not when a row is created that takes the place of its
own, as the mapping of a user takes that of the mapping for everyone.

`connections_are_current` says that this is the only way to get a connection whose
credentials are not the ones that apply.
-/

namespace ValkeyFdw.Pool

open Trace

section Credentials

variable [SysCache]

/-- A user gets a mapping of their own only where all connections of theirs are closed or
known to be stale. -/
def CredentialSafe (s : Session) : Event → Prop
  | .changeMapping serverid (some userid) (some _) =>
    s.catalog.mappings serverid (some userid) = none → ∀ k, k.serverid = serverid →
      k.userid = userid → (s.world.pool k).conn ≠ none → (s.world.pool k).invalidated = true
  | _ => True

/-- A bond is stale, or has the credentials that apply and the hash of their row. -/
def Catalog.Backs (cat : Catalog) (k : ConnKey) (b : Bond) : Prop :=
  b.invalidated = true ∨ ∃ umid, cat.resolve k.serverid k.userid = some (umid, b.link.credentials) ∧
    b.mappingHashvalue = SysCache.hashValue .userMapping umid

def Session.Authentic (s : Session) : Prop :=
  ∀ k b, (s.world.pool k).bond = some b → s.catalog.Backs k b

variable {s t : Session}

variable {serverid : Nat} {who : Option Nat} {row : Option (Nat × UserOptions)}

omit [SysCache] in
/-- Whose credentials a change of a mapping can touch: those of the user it is for, or of
one who has none of their own if it is for everyone. -/
theorem resolve_changeMapping {sid uid : Nat}
    (h : (s.changeMapping serverid who row).catalog.resolve sid uid ≠
      s.catalog.resolve sid uid) :
    sid = serverid ∧ (who = some uid ∨
      (who = none ∧ s.catalog.mappings serverid (some uid) = none)) := by
  by_cases hServer : sid = serverid
  · subst hServer
    refine ⟨rfl, ?_⟩
    by_cases hWho : who = some uid
    · exact .inl hWho
    · have hOwn : (s.changeMapping sid who row).catalog.mappings sid (some uid) =
          s.catalog.mappings sid (some uid) := by
        simp [Session.changeMapping, Function.update_of_ne (Ne.symm hWho)]
      cases hRow : s.catalog.mappings sid (some uid) with
      | some own =>
        refine absurd ?_ h
        simp [Catalog.resolve, hOwn, hRow]
      | none =>
        refine .inr ⟨?_, rfl⟩
        by_contra hSomeone
        refine h ?_
        have hPublic : (s.changeMapping sid who row).catalog.mappings sid none =
            s.catalog.mappings sid none := by
          simp [Session.changeMapping, Function.update_of_ne (Ne.symm hSomeone)]
        simp [Catalog.resolve, hOwn, hRow, hPublic]
  · refine absurd ?_ h
    simp [Catalog.resolve, Session.changeMapping, Function.update_of_ne hServer]

/-- A bond that the request makes or finds is authentic: the request looked up what
applies. -/
theorem Bond.Taken.authentic {server : ForeignServer} {user : UserMapping} {clusterAware : Bool}
    {node : Option Node} {k : ConnKey} {b : Bond} (hs : s.Authentic)
    (hResolved : s.resolved (.acquire server user clusterAware node) = true)
    (hKey : k.serverid = server.serverid ∧ k.userid = user.userid)
    (h : Bond.Taken server user node (s.world.pool k).bond b) :
    s.catalog.resolve k.serverid k.userid = some (user.umid, b.link.credentials) := by
  simp only [Session.resolved, Bool.and_eq_true, decide_eq_true_eq] at hResolved
  rw [← hKey.1, ← hKey.2] at hResolved
  rcases h.socket with ⟨hNew, -⟩ | ⟨b₀, hBefore, hValid, hLink, -⟩
  · rw [hNew]
    exact hResolved.2
  · rcases hs k b₀ hBefore with hStale | ⟨umid, hApplies, -⟩
    · exact absurd (hValid.symm.trans hStale) nofun
    · have hRow : user.umid = umid :=
        (Prod.mk.inj (Option.some.inj (hResolved.2.symm.trans hApplies))).1
      rw [hLink, hRow]
      exact hApplies

theorem Catalog.Backs.inval {cat : Catalog} {k : ConnKey} {b : Bond} (h : cat.Backs k b)
    (cacheid : CacheId) (hashvalue : Nat) : cat.Backs k (b.inval cacheid hashvalue) := by
  unfold Bond.inval
  split
  · exact .inl rfl
  · exact h

omit [SysCache] in
theorem changedRow_of_some {umid : Nat} {old : Nat × UserOptions}
    (hOld : s.catalog.mappings serverid who = some old)
    (hRow : s.changedRow serverid who row = some umid) : old.1 = umid := by
  cases row with
  | none =>
    simp only [Session.changedRow, hOld] at hRow
    exact Option.some.inj hRow
  | some new =>
    simp only [Session.changedRow, hOld] at hRow
    split at hRow
    · exact Option.some.inj hRow
    · cases hRow

/-- A change of a mapping finds the connections it touches, unless it creates the mapping of
a user. -/
theorem Session.Authentic.changeMapping (hs : s.Authentic) {umid : Nat}
    (hSafe : CredentialSafe s (.changeMapping serverid who row))
    (hRow : s.changedRow serverid who row = some umid) {k : ConnKey} {b : Bond}
    (hb : (s.world.pool k).bond = some b) :
    (s.changeMapping serverid who row).catalog.Backs k
      (b.inval .userMapping (SysCache.hashValue .userMapping umid)) := by
  rcases hs k b hb with hStale | ⟨m, hApplies, hHash⟩
  · exact Catalog.Backs.inval (.inl hStale) _ _
  · by_cases hSame : (s.changeMapping serverid who row).catalog.resolve k.serverid k.userid =
        s.catalog.resolve k.serverid k.userid
    · exact Catalog.Backs.inval (.inr ⟨m, hSame.trans hApplies, hHash⟩) _ _
    · -- The row that applied is the one that changes, so the connection is found by its hash.
      have hFound : ∀ old, s.catalog.mappings serverid who = some old →
          s.catalog.resolve k.serverid k.userid = some old →
          (s.changeMapping serverid who row).catalog.Backs k
            (b.inval .userMapping (SysCache.hashValue .userMapping umid)) := by
        intro old hOld hWas
        have hm : m = umid := by
          rw [← changedRow_of_some hOld hRow, ← Option.some.inj (hApplies.symm.trans hWas)]
        refine .inl ?_
        rw [Bond.inval, if_pos (by simp [hHash, hm])]
      obtain ⟨hServer, hWho⟩ := resolve_changeMapping hSame
      rcases hWho with rfl | ⟨rfl, hNone⟩
      · cases hOwn : s.catalog.mappings serverid (some k.userid) with
        | some own => exact hFound own hOwn (by rw [Catalog.resolve, hServer, hOwn, Option.some_or])
        | none =>
          cases row with
          | none =>
            simp only [Session.changedRow, hOwn] at hRow
            cases hRow
          | some created =>
            obtain ⟨sock, hSock, rfl⟩ := Option.map_eq_some_iff.mp hb
            have hStale := hSafe hOwn k hServer rfl (by simp [hSock])
            exact Catalog.Backs.inval (.inl hStale) _ _
      · have hPublic : s.catalog.resolve k.serverid k.userid = s.catalog.mappings serverid none := by
          rw [Catalog.resolve, hServer, hNone, Option.none_or]
        exact hFound _ (hPublic.symm.trans hApplies) hApplies

theorem resolve_of_step {event : Event} (hStep : Session.step event s = .ok t)
    (hOther : ∀ serverid who row, event ≠ .changeMapping serverid who row) :
    t.catalog.resolve = s.catalog.resolve := by
  cases Session.moves_of_step hStep with
  | changeMapping serverid who row umid hRow => exact absurd rfl (hOther serverid who row)
  | _ => rfl

theorem Session.Authentic.step {event : Event} (hs : s.Authentic) (hSafe : CredentialSafe s event)
    (hStep : Session.step event s = .ok t) : t.Authentic := by
  intro k b hb
  by_cases hOther : ∀ serverid who row, event ≠ .changeMapping serverid who row
  · unfold Catalog.Backs
    rw [resolve_of_step hStep hOther]
    cases bonds_of_step hStep hb with
    | kept hQuiet hBefore => exact hs k b hBefore
    | marked cacheid hashvalue b₀ hInval hBefore hMarked =>
      subst hMarked
      exact (hs k b₀ hBefore).inval cacheid hashvalue
    | taken id server user aware node waits hEvent hKey hResolved hTaken =>
      exact .inr ⟨user.umid, hTaken.authentic hs hResolved hKey, hTaken.mappingHashvalue⟩
  · push Not at hOther
    obtain ⟨serverid, who, row, rfl⟩ := hOther
    cases Session.moves_of_step hStep with
    | changeMapping _ _ _ umid hRow =>
      obtain ⟨b₀, hBefore, rfl⟩ := bond_of_inval hb
      exact hs.changeMapping hSafe hRow hBefore

theorem Session.authentic_start (residue : ConnKey → Conn) (catalog : Catalog) :
    (Session.start residue catalog).Authentic := by
  intro k b hb
  rw [bond_start] at hb
  cases hb

/-- In every run in which users get mappings of their own only before they have connections,
whoever takes a connection gets one with the credentials that apply. -/
theorem connections_are_current (residue : ConnKey → Conn) (catalog : Catalog)
    (events : List Event) (hSafe : Along Session.step CredentialSafe events (.start residue catalog))
    {s : Session} (hRun : run Session.step events (.start residue catalog) = .ok s)
    {id : Nat} {server : ForeignServer} {user : UserMapping} {clusterAware : Bool}
    {node : Option Node} {waits : List Wait} {t : Session}
    (hStep : Session.step (.call id (.acquire server user clusterAware node) waits) s = .ok t)
    {c : Caller} {h : Hold} (hCaller : t.callers id = some c) (hHold : c.hold = some h) :
    ∃ sock umid, (t.world.pool h.key).conn = some sock ∧
      t.catalog.resolve server.serverid user.userid = some (umid, sock.link.credentials) := by
  have hAuthentic : s.Authentic := hSafe.run_invariant
    (fun _ _ _ _ h hSafe hStep => h.step hSafe hStep) (Session.authentic_start residue catalog) hRun
  obtain ⟨c', w, g, rfl, hCalled⟩ := Session.step_call hStep
  rw [s.settle_callers_self] at hCaller
  obtain ⟨g', rfl, rfl⟩ := Option.map_eq_some_iff.mp hCaller
  obtain ⟨k, b, rfl, hKey, hb, hTaken⟩ := hCalled.taking.2.hands
  cases hHold
  obtain ⟨sock, hSock, rfl⟩ := Option.map_eq_some_iff.mp hb
  refine ⟨sock, user.umid, hSock, ?_⟩
  rw [← hKey.1, ← hKey.2]
  exact hTaken.authentic hAuthentic hCalled.resolved hKey

end Credentials

/-! ## A mapping of one's own -/

/-- Everyone has the same mapping. -/
def sharedCatalog : Catalog :=
  ⟨fun _ => plainOptions, fun _ who => if who = none then some (2, plainUser.options) else none⟩

def ownUser : UserMapping := ⟨9, 3, true, ⟨some (ascii "app"), some (ascii "secret"), true⟩⟩

/-- A user takes a connection and gives it back, then a mapping is written, and the user takes
a connection again. -/
def takeAgain (who : Option Nat) (row : Nat × UserOptions) : List Event :=
  [.enter 0 1 false, .call 0 (.acquire plainServer plainUser false none) (answered 7),
    .call 0 .release [], .changeMapping 1 who (some row), .enter 1 1 false]

/-- The user's own mapping is created, and the connection that is handed over is the one that
was opened with everyone's. -/
theorem own_mapping_gets_shared_connection :
    letI := plainCache
    ∃ s t sock, run Session.step (takeAgain (some 3) (9, ownUser.options))
        (.start plainResidue sharedCatalog) = .ok s ∧
      Session.step (.call 1 (.acquire plainServer ownUser false none) []) s = .ok t ∧
      ((t.callers 1).bind Caller.hold).map Hold.key = some plainKey ∧
      (t.world.pool plainKey).conn = some sock ∧
      t.catalog.resolve 1 3 = some (9, ownUser.options) ∧
      sock.link.credentials ≠ ownUser.options := by
  let _ := plainCache
  exact ⟨_, _, _, rfl, rfl, rfl, rfl, rfl, by decide⟩

/-- Everyone's mapping is altered instead: the connection is found by its hash, and opened
anew. -/
theorem connections_are_current_altered :
    letI := plainCache
    ∃ s t, run Session.step (takeAgain none (2, ownUser.options))
        (.start plainResidue sharedCatalog) = .ok s ∧
      Session.step (.call 1 (.acquire plainServer { ownUser with umid := 2 } false none)
        (answered 10)) s = .ok t ∧
      ∃ sock umid, (t.world.pool plainKey).conn = some sock ∧
        t.catalog.resolve 1 3 = some (umid, sock.link.credentials) := by
  let _ := plainCache
  refine ⟨_, _, rfl, rfl, ?_⟩
  refine @connections_are_current plainCache plainResidue sharedCatalog
    (takeAgain none (2, ownUser.options)) ?_ _ rfl 1 plainServer { ownUser with umid := 2 } false none
    (answered 10) _ rfl ⟨1, 1, false, some (.taken plainKey), [], 0⟩ (.taken plainKey) rfl rfl
  exact ⟨trivial, fun _ _ => ⟨trivial, fun _ _ => ⟨trivial, fun _ _ => ⟨trivial, fun _ _ =>
    ⟨trivial, fun _ _ => trivial⟩⟩⟩⟩⟩

end ValkeyFdw.Pool
