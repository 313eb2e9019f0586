import ValkeyFdw.Flush.Retry
import ValkeyFdw.Script.Encode

/-!
# The server's side of a flush

How a server takes the two commands of an attempt. It may refuse either of them
before it does anything, with an error of its own choice, and it runs an `EVALSHA`
only if it has the program. `ScriptHost.evalsha_honest` says that its answers are
those that the reports of the flush take for granted: no answer of a program that
ran starts with one of the prefixes that prove it did not.
-/

namespace ValkeyFdw

open Server Trace

section Host

variable [Lua]

/-- The keyspace, and whether the script cache holds the program. -/
structure ScriptHost where
  store : Keyspace
  cached : Bool

/-- An answer to an `EVALSHA`, with how the program ended if the server ran it. -/
structure Answer where
  ran : Option LuaEnd
  reply : Option FlushReply

/-- `SCRIPT LOAD`. The server refuses it with the text of the verdict. -/
def ScriptHost.scriptLoad (verdict : Option Bytes) (h : ScriptHost) : FlushReply × ScriptHost :=
  match verdict with
  | some str => (.error str, h)
  | none => (.other, { h with cached := true })

def noscript : Bytes := ascii "NOSCRIPT No matching script."

/-- `EVALSHA`. -/
def ScriptHost.evalsha [Doubles] (now : Nat) (KEYS ARGV : List Bytes) (verdict : Option Bytes)
    (h : ScriptHost) : Answer × ScriptHost :=
  match verdict with
  | some str => (⟨none, some (.error str)⟩, h)
  | none =>
    if h.cached then
      let (e, store) := runLua now KEYS ARGV h.store
      (⟨some e, e.reply⟩, { h with store := store })
    else (⟨none, some (.error noscript)⟩, h)

/-! ## The answers of a program -/

omit [Lua] in
theorem head_of_wordAt {str word : Bytes} (h : wordAt str 0 word = true) (hWord : word ≠ []) :
    str.head? = word.head? := by
  rw [wordAt, Bool.and_eq_true, List.drop_zero, List.isPrefixOf_iff_prefix] at h
  obtain ⟨rest, rfl⟩ := h.1
  exact List.head?_append_of_ne_nil _ hWord

omit [Lua] in
theorem not_proves_of_head {str : Bytes} (h : str.head? ∈ [some 86, some 87, some 69]) :
    provesNotApplied str = false := by
  have hHeads : ∀ word ∈ proofs, word ≠ [] ∧ word.head? ∉ [some 86, some 87, some 69] := by decide
  rw [provesNotApplied, List.any_eq_false]
  intro word hWord hAt
  obtain ⟨hNonempty, hHead⟩ := hHeads word hWord
  exact hHead (head_of_wordAt hAt hNonempty ▸ h)

/-- No answer of a program that ran proves that it did not. -/
theorem LuaEnd.reply_not_proves {e : LuaEnd} {str : Bytes} (h : e.reply = some (.error str)) :
    provesNotApplied str = false := by
  refine not_proves_of_head ?_
  cases e with
  | ok n => cases h
  | stopped stop =>
    cases stop with
    | fail code p key detail =>
      cases h
      have hMessage : message code p key detail = ascii "VFDW1 " ++ (code.text ++ ascii " " ++
          decimal p ++ ascii " " ++ key.getD (ascii "-") ++ ascii " " ++ detail) := by
        simp [message]
      rw [hMessage]
      obtain ⟨rest, hRest⟩ := Lua.errorReply_prefix
        (show ∀ b ∈ ascii "VFDW1 ", b ≠ 0 ∧ b ≠ 10 ∧ b ≠ 13 by simp [ascii])
      rw [← hRest]
      simp [ascii]
    | raised e =>
      have hCode : e.code = ascii "WRONGTYPE" ∨ e.code = ascii "ERR" := by
        unfold LuaError.code
        split <;> simp
      cases h
      rcases hCode with hCode | hCode <;> rw [hCode] <;> simp [ascii]
    | endless => cases h

theorem runLua_of_not_wrote [Doubles] {now : Nat} {KEYS ARGV : List Bytes} {ks ks' : Keyspace}
    {e : LuaEnd} (h : runLua now KEYS ARGV ks = (e, ks')) (hNot : ¬ e.Wrote) : ks' = ks := by
  rcases runLua_cases now KEYS ARGV ks with ⟨stop, -, hRun⟩ | ⟨plan, key, detail, ks₁, hRun⟩ |
    ⟨nplans, plans, ks₁, -, hRun, -⟩
  · rw [hRun] at h
    cases h
    rfl
  · rw [hRun] at h
    cases h
    exact absurd trivial hNot
  · rw [hRun] at h
    cases h
    exact absurd trivial hNot

/-! ## Honest answers -/

/-- An answer of a server: the program's own if it ran, and an error if not. -/
structure Answer.Honest (a : Answer) : Prop where
  ran : ∀ e, a.ran = some e → a.reply = e.reply
  refused : a.ran = none → ∃ str, a.reply = some (.error str)

/-- What an attempt sees of an answer that it reads. -/
def Answer.attempt (a : Answer) : Attempt where
  queue := none
  load := .ok none
  eval := .ok a.reply
  cached := true
  ran := a.ran

theorem Answer.Honest.attempt {a : Answer} (h : a.Honest) : a.attempt.Honest where
  whole hQueue := by cases hQueue
  cached _ := rfl
  rejected str hEval hProof := by
    cases hRan : a.ran with
    | none => exact hRan
    | some e =>
      have hReply := LuaEnd.reply_not_proves ((h.ran e hRan).symm.trans (Except.ok.inj hEval))
      rw [hReply] at hProof
      cases hProof
  answer e r hRan hEval := (h.ran e hRan).symm.trans (Except.ok.inj hEval)
  status str hEval := by
    cases hRan : a.ran with
    | none =>
      obtain ⟨text, hText⟩ := h.refused hRan
      cases hText.symm.trans (Except.ok.inj hEval)
    | some e => exact Option.isSome_iff_exists.mpr ⟨e, hRan⟩

theorem Answer.honest_refused (str : Bytes) : (⟨none, some (.error str)⟩ : Answer).Honest where
  ran e he := by cases he
  refused _ := ⟨str, rfl⟩

theorem Answer.honest_ran (e : LuaEnd) : (⟨some e, e.reply⟩ : Answer).Honest where
  ran e' he := by
    cases he
    rfl
  refused hNone := by cases hNone

theorem ScriptHost.evalsha_honest [Doubles] (now : Nat) (KEYS ARGV : List Bytes)
    (verdict : Option Bytes) (h : ScriptHost) : (h.evalsha now KEYS ARGV verdict).1.Honest := by
  unfold ScriptHost.evalsha
  split
  · exact Answer.honest_refused _
  · split
    · exact Answer.honest_ran _
    · exact Answer.honest_refused _

/-- What the flush makes of an honest answer. -/
inductive Answer.Read (nplans : Nat) (a : Answer) : Except Raised FlushOutcome → Prop where
  | applied (n : Lua.Num) (h : a.ran = some (.ok n)) : Read nplans a (.ok .applied)
  | retry (o : FlushOutcome) (ho : o ≠ .applied) (h : a.ran = none) : Read nplans a (.ok o)
  | unknown (e : SqlError) (h : ¬ e.SaysNoChanges) : Read nplans a (.error (.sent, e))
  | clean (e : SqlError) (h : ∀ r, a.ran = some r → ¬ r.Wrote) :
    Read nplans a (.error (.provenClean, e))

theorem LuaEnd.reply_status {e : LuaEnd} {str : Bytes} (h : e.reply = some (.status str)) :
    ∃ n, e = .ok n := by
  cases e with
  | ok n => exact ⟨n, rfl⟩
  | stopped stop => cases stop <;> cases h

theorem Answer.Honest.read {a : Answer} (h : a.Honest) (nplans : Nat) :
    a.Read nplans (classifyReply nplans a.reply) := by
  have hEvaluate : a.attempt.evaluate nplans = classifyReply nplans a.reply := rfl
  cases hRead : classifyReply nplans a.reply with
  | error r =>
    obtain ⟨phase, e⟩ := r
    rcases evaluate_raised h.attempt (hEvaluate.trans hRead) with ⟨rfl, hSays⟩ | ⟨rfl, hWrote⟩
    · exact .unknown e hSays
    · exact .clean e fun r hr hw => hWrote ⟨r, hr, hw⟩
  | ok o =>
    by_cases ho : o = .applied
    · subst ho
      obtain ⟨str, hEval, -⟩ := evaluate_applied.mp (hEvaluate.trans hRead)
      obtain ⟨e, hRan⟩ := Option.isSome_iff_exists.mp (h.attempt.status str hEval)
      obtain ⟨n, rfl⟩ := LuaEnd.reply_status (h.attempt.answer e _ hRan hEval)
      exact .applied n hRan
    · have hAttempt : a.attempt.attempt nplans false = .ok o := hEvaluate.trans hRead
      exact .retry o ho (attempt_retry h.attempt.honestRetry hAttempt ho)

end Host

end ValkeyFdw
