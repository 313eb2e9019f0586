import ValkeyFdw.Scan.Table

/-!
# The pattern of a keyspace scan

A scan of the keyspace asks for the keys under a literal prefix: that of the table,
or the one a `LIKE` on the key begins with, where it extends the table's. Two pattern
languages meet here. `LIKE` escapes with a backslash what would be a wildcard
(`likePrefix` reads it up to the first wildcard that is left), and the glob of `MATCH`
escapes with a backslash what would be a metacharacter of its own (`escapeGlob`).

What the server makes of a glob is a parameter, with the parts of its documentation
that the scan relies on as its laws (`Glob`).
-/

namespace ValkeyFdw

/-! ## Pattern characters -/

abbrev backslash : UInt8 := 0x5c

abbrev star : UInt8 := 0x2a

/-- The wildcards of `LIKE`: percent sign and underscore. -/
def likeWildcards : Bytes := [0x25, 0x5f]

/-- The characters that mean more than themselves in a glob. -/
def globSpecials : Bytes := [star, 0x3f, 0x5b, backslash]

/-- The characters that the planner escapes: those, and the closing bracket. -/
def globEscaped : Bytes := [star, 0x3f, 0x5b, 0x5d, backslash]

/-! ## The planner -/

/-- The literal text before the first wildcard. A trailing backslash has nothing to
escape and ends it. -/
def likeLiteral : Bytes → Bytes
  | [] => []
  | [c] => if c ∈ likeWildcards ∨ c = backslash then [] else [c]
  | c :: d :: patt =>
    if c ∈ likeWildcards then []
    else if c = backslash then d :: likeLiteral patt
    else c :: likeLiteral (d :: patt)

/-- The literal prefix a `LIKE` pattern requires, if it has one. -/
def likePrefix (patt : Bytes) : Option Bytes :=
  if likeLiteral patt = [] then none else some (likeLiteral patt)

def escapeGlob (str : Bytes) : Bytes :=
  str.flatMap fun c => if c ∈ globEscaped then [backslash, c] else [c]

/-- The `MATCH` pattern of a scan with the literal prefix of its `LIKE`, if it has one. -/
def TableMap.scanPattern (m : TableMap) (like : Option Bytes) : Option Bytes :=
  (m.scanPrefix like).map fun p => escapeGlob p ++ [star]

/-! ## Meanings -/

/-- The server's matcher of globs. -/
structure Glob where
  accepts : Bytes → Bytes → Bool
  /-- A character that means nothing else stands for itself. -/
  literal : ∀ c p s, c ∉ globSpecials →
    (accepts (c :: p) s = true ↔ ∃ rest, s = c :: rest ∧ accepts p rest = true)
  /-- A backslash makes the next character literal. -/
  escaped : ∀ c p s,
    accepts (backslash :: c :: p) s = true ↔ ∃ rest, s = c :: rest ∧ accepts p rest = true
  /-- A star at the end matches any rest. -/
  trailing : ∀ s, accepts [star] s = true

/-- The texts that satisfy a `LIKE` pattern, over the characters of the database's
encoding: an underscore stands for one of them and a percent sign for any number. A
pattern that ends in a lone backslash is satisfied by nothing. -/
inductive Like (chars : Set Bytes) : Bytes → Bytes → Prop where
  | done : Like chars [] []
  | many {patt text : Bytes} (cs : List Bytes) (hChars : ∀ c ∈ cs, c ∈ chars)
      (h : Like chars patt text) : Like chars (0x25 :: patt) (cs.flatten ++ text)
  | one {patt text c : Bytes} (hChar : c ∈ chars) (h : Like chars patt text) :
      Like chars (0x5f :: patt) (c ++ text)
  | escaped {patt text : Bytes} (c : UInt8) (h : Like chars patt text) :
      Like chars (backslash :: c :: patt) (c :: text)
  | literal {patt text : Bytes} {c : UInt8} (hWild : c ∉ likeWildcards) (hEsc : c ≠ backslash)
      (h : Like chars patt text) : Like chars (c :: patt) (c :: text)

/-! ## From `LIKE` to the glob -/

theorem likeLiteral_wildcard {c : UInt8} (h : c ∈ likeWildcards) (patt : Bytes) :
    likeLiteral (c :: patt) = [] := by
  cases patt with
  | nil => exact if_pos (.inl h)
  | cons d patt => exact if_pos h

theorem likeLiteral_escaped (c : UInt8) (patt : Bytes) :
    likeLiteral (backslash :: c :: patt) = c :: likeLiteral patt := by
  rw [likeLiteral, if_neg (by decide), if_pos rfl]

theorem likeLiteral_literal {c : UInt8} (hWild : c ∉ likeWildcards) (hEsc : c ≠ backslash)
    (patt : Bytes) : likeLiteral (c :: patt) = c :: likeLiteral patt := by
  cases patt with
  | nil => exact if_neg (not_or.mpr ⟨hWild, hEsc⟩)
  | cons d patt => rw [likeLiteral, if_neg hWild, if_neg hEsc]

/-- A text that satisfies the pattern begins with its literal part. -/
theorem Like.begins {chars : Set Bytes} {patt text : Bytes} (h : Like chars patt text) :
    likeLiteral patt <+: text := by
  induction h with
  | done => exact List.prefix_rfl
  | many cs _ _ _ =>
    rw [likeLiteral_wildcard (by decide)]
    exact List.nil_prefix
  | one _ _ _ =>
    rw [likeLiteral_wildcard (by decide)]
    exact List.nil_prefix
  | escaped c _ ih =>
    rw [likeLiteral_escaped]
    exact List.cons_prefix_cons.mpr ⟨rfl, ih⟩
  | literal hWild hEsc _ ih =>
    rw [likeLiteral_literal hWild hEsc]
    exact List.cons_prefix_cons.mpr ⟨rfl, ih⟩

theorem Like.begins_likePrefix {chars : Set Bytes} {patt text l : Bytes}
    (h : Like chars patt text) (hl : likePrefix patt = some l) : l <+: text := by
  unfold likePrefix at hl
  split at hl
  · cases hl
  · cases hl
    exact h.begins

theorem Glob.accepts_escape (G : Glob) (c : UInt8) (p s : Bytes) :
    G.accepts ((if c ∈ globEscaped then [backslash, c] else [c]) ++ p) s = true ↔
      ∃ rest, s = c :: rest ∧ G.accepts p rest = true := by
  split
  · exact G.escaped c p s
  · rename_i hNot
    have hSub : globSpecials ⊆ globEscaped := by decide
    exact G.literal c p s fun hMem => hNot (hSub hMem)

/-- The glob of a literal prefix matches what begins with it. -/
theorem Glob.accepts_escapeGlob (G : Glob) (str key : Bytes) :
    G.accepts (escapeGlob str ++ [star]) key = true ↔ str <+: key := by
  induction str generalizing key with
  | nil => exact iff_of_true (G.trailing key) List.nil_prefix
  | cons c str ih =>
    rw [escapeGlob, List.flatMap_cons, List.append_assoc, G.accepts_escape]
    constructor
    · rintro ⟨rest, rfl, hRest⟩
      exact List.cons_prefix_cons.mpr ⟨rfl, (ih rest).mp hRest⟩
    · rintro ⟨rest, rfl⟩
      exact ⟨str ++ rest, rfl, (ih _).mpr (List.prefix_append _ _)⟩

/-- The prefix of the scan is a prefix that keys of the table with the `LIKE` have. -/
theorem TableMap.scanPrefix_begins {m : TableMap} {like : Option Bytes} {l key : Bytes}
    (h : m.scanPrefix like = some l) (hTable : ∀ p ∈ m.keyprefix, p <+: key)
    (hLike : ∀ p ∈ like, p <+: key) : l <+: key := by
  unfold scanPrefix at h
  split at h
  · cases h
  · split at h
    · rename_i p q hPrefix
      split at h
      · exact hLike l h
      · exact hTable l (hPrefix.trans h)
    · exact hLike l h
    · exact hTable l h

/-- Whatever the prefix of the table and the pattern of the `LIKE`: the `MATCH` pattern
matches every key of the table's prefix that satisfies the `LIKE`, and no key without
the table's prefix. -/
theorem scan_pattern_exact (G : Glob) (chars : Set Bytes) (m : TableMap) (like : Option Bytes)
    (pattern key : Bytes) (h : m.scanPattern (like.bind likePrefix) = some pattern) :
    ((∀ p ∈ m.keyprefix, p <+: key) → (∀ patt ∈ like, Like chars patt key) →
      G.accepts pattern key = true) ∧
    (G.accepts pattern key = true → ∀ p ∈ m.keyprefix, p <+: key) := by
  obtain ⟨l, hl, rfl⟩ := Option.map_eq_some_iff.mp h
  rw [G.accepts_escapeGlob]
  constructor
  · intro hTable hLike
    refine TableMap.scanPrefix_begins hl hTable fun p hp => ?_
    obtain ⟨patt, hPatt, hPrefix⟩ := Option.bind_eq_some_iff.mp hp
    exact (hLike patt hPatt).begins_likePrefix hPrefix
  · intro hKey p hp
    have hKeyset : m.keyset = none := by
      by_contra hSome
      have hNone : m.scanPrefix (like.bind likePrefix) = none :=
        if_pos (Option.isSome_iff_ne_none.mpr hSome)
      rw [hNone] at hl
      cases hl
    have hPrefix : (m.scanPrefix (like.bind likePrefix)).all (fun p => p.isPrefixOf key) = true := by
      rw [hl]
      exact List.isPrefixOf_iff_prefix.mpr hKey
    have hTable := m.prefix_of_scanPrefix hKeyset hPrefix
    rw [hp] at hTable
    exact List.isPrefixOf_iff_prefix.mp hTable

/-- A matcher that knows the backslash and a star at the end, and nothing else. -/
def plainGlob : Bytes → Bytes → Bool
  | [], s => s.isEmpty
  | [c], s => c = star || s = [c]
  | c :: d :: p, s =>
    if c = backslash then s.head? = some d && plainGlob p s.tail
    else s.head? = some c && plainGlob (d :: p) s.tail

def Glob.plain : Glob where
  accepts := plainGlob
  literal c p s hc := by
    simp only [globSpecials, List.mem_cons, List.not_mem_nil, or_false, not_or] at hc
    cases s <;> cases p <;> simp [plainGlob, hc, and_assoc]
  escaped c p s := by
    cases s <;> simp [plainGlob, and_assoc]
  trailing s := by
    simp [plainGlob]

/-- The table of the keys under `a[b]:`, and the keys in it `LIKE 'a[b]:x\_%'`. -/
theorem scan_pattern_exact_bracket :
    let m : TableMap := ⟨1, [], .string, some (ascii "a[b]:"), none, none, none, false, false⟩
    let patt := ascii "a[b]:x\\_%"
    let key := ascii "a[b]:x_1"
    m.scanPattern (likePrefix patt) = some (ascii "a\\[b\\]:x_*") ∧
      Glob.plain.accepts (ascii "a\\[b\\]:x_*") key = true ∧ ascii "a[b]:" <+: key := by
  intro m patt key
  have hPattern : m.scanPattern (likePrefix patt) = some (ascii "a\\[b\\]:x_*") := by
    decide +kernel
  have hTable : ∀ p ∈ m.keyprefix, p <+: key := by
    intro p hp
    cases hp
    decide +kernel
  have hLike : Like {c | c.length = 1} patt key := by
    have hTail : Like {c | c.length = 1} (ascii "\\_%") (ascii "_1") :=
      .escaped 0x5f (.many [[0x31]] (by simp) .done)
    iterate 6 refine .literal (by decide) (by decide) ?_
    exact hTail
  have hExact := scan_pattern_exact Glob.plain {c | c.length = 1} m (some patt) _ key hPattern
  have hMatch := hExact.1 hTable (by rintro p ⟨⟩; exact hLike)
  exact ⟨hPattern, hMatch, hExact.2 hMatch _ rfl⟩

end ValkeyFdw
