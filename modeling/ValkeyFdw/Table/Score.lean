import Mathlib.Computability.Language
import Mathlib.Data.List.TakeWhile
import Mathlib.Order.Bounds.Basic
import ValkeyFdw.Table.Render

/-!
# The score grammar

A score is checked before it is sent: the text has to be a number by a grammar that
every server accepts, and the C library has to read it as a finite double. `Score.scan`
keeps the places that the source counts, `scoreScan` the text that is left; they agree
(`scoreScan_eq_scan`).

* `exists_of_scoreScan`, `scoreScan_append`: the scanner stops at the end of a sentence,
  and no sentence at the start of the text reaches further;
* `scan_longest`: so it finds the longest one, a text passes the grammar if it is a
  sentence as a whole, and the spellings of an infinity have a verdict of their own.
-/

namespace ValkeyFdw

namespace Score

open Computability

/-! ## The scanner -/

def isSign (b : UInt8) : Bool := b = 0x2b || b = 0x2d

theorem isSign_iff {b : UInt8} : isSign b = true ↔ b = 0x2b ∨ b = 0x2d := by simp [isSign]

/-- How many digits stand at a place. -/
def digitRun (s : Bytes) (i : Nat) : Nat := ((s.drop i).takeWhile isDigit).length

/-- The place after an optional sign. -/
def signAt (s : Bytes) (i : Nat) : Nat := if s[i]?.any isSign then i + 1 else i

/-- The place after an optional fraction, and how many digits it has. -/
def fractionAt (s : Bytes) (i : Nat) : Nat × Nat :=
  if s[i]? = some 0x2e then (i + 1 + digitRun s (i + 1), digitRun s (i + 1)) else (i, 0)

/-- The place after an exponent if a complete one follows. -/
def exponentAt (s : Bytes) (i : Nat) : Nat :=
  if s[i]? = some 0x65 ∨ s[i]? = some 0x45 then
    let j := signAt s (i + 1)
    let edigits := digitRun s j
    if 0 < edigits then j + edigits else i
  else i

/-- How far a valid score extends from the start of the text, in bytes. -/
def scan (s : Bytes) : Nat :=
  let i := signAt s 0
  let digits := digitRun s i
  let (i, frac) := fractionAt s (i + digits)
  if digits + frac = 0 then 0 else exponentAt s i

section Stages

variable (s : Bytes) (i : Nat)

theorem skipSign_eq (t : Bytes) : skipSign t = if t.head?.any isSign then t.tail else t := by
  cases t with
  | nil => rfl
  | cons b t => simp [skipSign, isSign]

theorem skipFraction_eq (t : Bytes) :
    skipFraction t = if t.head? = some 0x2e then
      (t.tail.dropWhile isDigit, t.tail.head?.any isDigit) else (t, false) := by
  cases t with
  | nil => rfl
  | cons b t => simp [skipFraction]

theorem skipExponent_eq (t : Bytes) :
    skipExponent t = if t.head? = some 0x65 ∨ t.head? = some 0x45 then
      (if (skipSign t.tail).head?.any isDigit then (skipSign t.tail).dropWhile isDigit else t)
      else t := by
  cases t with
  | nil => rfl
  | cons b t =>
    by_cases hb : b = 0x65 ∨ b = 0x45 <;>
      by_cases hd : (skipSign t).head?.any isDigit = true <;> simp [skipExponent, hb, hd]

theorem drop_signAt : s.drop (signAt s i) = skipSign (s.drop i) := by
  rw [skipSign_eq, List.head?_drop, List.tail_drop, signAt, apply_ite (s.drop ·)]

theorem drop_add_digitRun : s.drop (i + digitRun s i) = (s.drop i).dropWhile isDigit := by
  have hSplit : (s.drop i).takeWhile isDigit ++ (s.drop i).dropWhile isDigit = s.drop i :=
    List.takeWhile_append_dropWhile
  calc s.drop (i + digitRun s i) = (s.drop i).drop (digitRun s i) := List.drop_drop.symm
    _ = ((s.drop i).takeWhile isDigit ++ (s.drop i).dropWhile isDigit).drop (digitRun s i) := by
      rw [hSplit]
    _ = (s.drop i).dropWhile isDigit := List.drop_left

theorem digitRun_pos : 0 < digitRun s i ↔ (s.drop i).head?.any isDigit = true := by
  rw [digitRun]
  cases s.drop i with
  | nil => simp
  | cons b t => cases hb : isDigit b <;> simp [hb]

theorem skipFraction_drop :
    skipFraction (s.drop i) = (s.drop (fractionAt s i).1, decide (0 < (fractionAt s i).2)) := by
  rw [skipFraction_eq, List.head?_drop, List.tail_drop, fractionAt]
  split
  · simp only [drop_add_digitRun, digitRun_pos, Bool.decide_eq_true]
  · rfl

theorem skipExponent_drop : skipExponent (s.drop i) = s.drop (exponentAt s i) := by
  rw [skipExponent_eq, List.head?_drop, List.tail_drop, exponentAt, ← drop_signAt,
    ← drop_add_digitRun]
  simp only [← digitRun_pos]
  split
  · exact (apply_ite (s.drop ·) _ _ _).symm
  · rfl

theorem le_signAt : i ≤ signAt s i := by
  unfold signAt
  split <;> omega

theorem le_fractionAt : i + (fractionAt s i).2 ≤ (fractionAt s i).1 := by
  unfold fractionAt
  split <;> dsimp only <;> omega

theorem le_exponentAt : i ≤ exponentAt s i := by
  have hSign := le_signAt s (i + 1)
  unfold exponentAt
  dsimp only
  split
  · split <;> omega
  · omega

variable {i}

theorem signAt_le (h : i ≤ s.length) : signAt s i ≤ s.length := by
  unfold signAt
  split
  · rename_i hSign
    by_contra hLt
    rw [List.getElem?_eq_none (by omega)] at hSign
    cases hSign
  · exact h

theorem add_digitRun_le (h : i ≤ s.length) : i + digitRun s i ≤ s.length := by
  have hRun : digitRun s i ≤ (s.drop i).length := (List.takeWhile_prefix isDigit).length_le
  rw [List.length_drop] at hRun
  omega

theorem succ_le_of_getElem? {b : UInt8} (h : s[i]? = some b) : i + 1 ≤ s.length := by
  obtain ⟨hi, -⟩ := List.getElem?_eq_some_iff.mp h
  omega

theorem fractionAt_le (h : i ≤ s.length) : (fractionAt s i).1 ≤ s.length := by
  unfold fractionAt
  split
  · rename_i hPoint
    exact add_digitRun_le s (succ_le_of_getElem? s hPoint)
  · exact h

theorem exponentAt_le (h : i ≤ s.length) : exponentAt s i ≤ s.length := by
  unfold exponentAt
  dsimp only
  split
  · rename_i hMark
    have hNext : i + 1 ≤ s.length :=
      hMark.elim (succ_le_of_getElem? s) (succ_le_of_getElem? s)
    split
    · exact add_digitRun_le s (signAt_le s hNext)
    · exact h
  · exact h

end Stages

/-! ## The grammar -/

def letter (p : UInt8 → Bool) : Language UInt8 := {s | ∃ b, p b = true ∧ s = [b]}

def sign : Language UInt8 := letter isSign

def digit : Language UInt8 := letter isDigit

def point : Language UInt8 := letter (· = 0x2e)

def mark : Language UInt8 := letter fun b => b = 0x65 || b = 0x45

def digits : Language UInt8 := digit * digit∗

def mantissa : Language UInt8 := digits * (1 + point * digit∗) + point * digits

def exponent : Language UInt8 := mark * (1 + sign) * digits

/-- The scores: `[+-]? ( DIGIT+ ( '.' DIGIT* )? | '.' DIGIT+ ) ( [eE] [+-]? DIGIT+ )?`. -/
def score : Language UInt8 := (1 + sign) * mantissa * (1 + exponent)

section Membership

variable {s t : Bytes}

theorem mem_digit_kstar : s ∈ digit∗ ↔ ∀ b ∈ s, isDigit b = true := by
  rw [Language.mem_kstar]
  constructor
  · rintro ⟨L, rfl, hL⟩ b hb
    obtain ⟨y, hy, hby⟩ := List.mem_flatten.mp hb
    obtain ⟨c, hc, rfl⟩ := hL y hy
    rw [List.mem_singleton.mp hby]
    exact hc
  · intro h
    refine ⟨s.map fun b => [b], by rw [← List.flatMap_def, List.flatMap_singleton'], fun y hy => ?_⟩
    obtain ⟨b, hb, rfl⟩ := List.mem_map.mp hy
    exact ⟨b, h b hb, rfl⟩

theorem mem_digits : s ∈ digits ↔ s ≠ [] ∧ ∀ b ∈ s, isDigit b = true := by
  rw [digits, Language.mem_mul]
  constructor
  · rintro ⟨x, ⟨b, hb, rfl⟩, y, hy, rfl⟩
    rw [mem_digit_kstar] at hy
    exact ⟨by simp, by simpa using ⟨hb, hy⟩⟩
  · rintro ⟨hne, h⟩
    obtain ⟨b, t, rfl⟩ := List.exists_cons_of_ne_nil hne
    exact ⟨[b], ⟨b, h b (by simp), rfl⟩, t, mem_digit_kstar.mpr fun c hc => h c (by simp [hc]), rfl⟩

theorem mem_optional {l : Language UInt8} : s ∈ 1 + l ↔ s = [] ∨ s ∈ l := by
  rw [Language.mem_add, Language.mem_one]

end Membership

/-! ## What the scanner finds is a sentence -/

section Sound

variable (s : Bytes)

theorem exists_skipSign : ∃ p ∈ 1 + sign, s = p ++ skipSign s := by
  cases s with
  | nil => exact ⟨[], mem_optional.mpr (.inl rfl), rfl⟩
  | cons b t =>
    rw [skipSign]
    split
    · rename_i hb
      exact ⟨[b], mem_optional.mpr (.inr ⟨b, isSign_iff.mpr hb, rfl⟩), rfl⟩
    · exact ⟨[], mem_optional.mpr (.inl rfl), rfl⟩

theorem exists_dropWhile : ∃ p, s = p ++ s.dropWhile isDigit ∧
    (p = [] ∧ s.head?.any isDigit = false ∨ p ∈ digits) := by
  refine ⟨s.takeWhile isDigit, List.takeWhile_append_dropWhile.symm, ?_⟩
  cases s with
  | nil => exact .inl ⟨rfl, rfl⟩
  | cons b t =>
    cases hb : isDigit b with
    | false => exact .inl ⟨by simp [hb], by simp [hb]⟩
    | true =>
      refine .inr (mem_digits.mpr ⟨by simp [hb], fun c hc => ?_⟩)
      exact List.mem_takeWhile_imp hc

theorem exists_skipFraction : ∃ p ∈ 1 + point * digit∗, s = p ++ (skipFraction s).1 ∧
    ((skipFraction s).2 = true → p ∈ point * digits) := by
  cases s with
  | nil => exact ⟨[], mem_optional.mpr (.inl rfl), rfl, nofun⟩
  | cons b t =>
    rw [skipFraction]
    split
    · rename_i hb
      subst hb
      have hPoint : [0x2e] ∈ point := ⟨0x2e, rfl, rfl⟩
      obtain ⟨p, ht, hRun⟩ := exists_dropWhile t
      refine ⟨0x2e :: p, mem_optional.mpr (.inr ?_), congrArg (0x2e :: ·) ht, fun hAny => ?_⟩
      · have hp : p ∈ digit∗ := hRun.elim (fun h => h.1 ▸ mem_digit_kstar.mpr nofun)
          fun h => mem_digit_kstar.mpr (mem_digits.mp h).2
        exact Language.mem_mul.mpr ⟨[0x2e], hPoint, p, hp, rfl⟩
      · have hp : p ∈ digits := hRun.resolve_left fun h => by simp [h.2] at hAny
        exact Language.mem_mul.mpr ⟨[0x2e], hPoint, p, hp, rfl⟩
    · exact ⟨[], mem_optional.mpr (.inl rfl), rfl, nofun⟩

theorem exists_skipExponent : ∃ p ∈ 1 + exponent, s = p ++ skipExponent s := by
  cases s with
  | nil => exact ⟨[], mem_optional.mpr (.inl rfl), rfl⟩
  | cons b t =>
    rw [skipExponent]
    split
    · rename_i hb
      obtain ⟨p, hp, ht⟩ := exists_skipSign t
      obtain ⟨q, hq, hRun⟩ := exists_dropWhile (skipSign t)
      have hDigits : q ∈ digits := hRun.resolve_left fun h => by simp [h.2] at hb
      refine ⟨[b] ++ p ++ q, mem_optional.mpr (.inr ?_), ?_⟩
      · refine Language.mem_mul.mpr ⟨[b] ++ p, ?_, q, hDigits, rfl⟩
        exact Language.mem_mul.mpr ⟨[b], ⟨b, by simpa using hb.1, rfl⟩, p, hp, rfl⟩
      · rw [List.append_assoc, ← hq, List.append_assoc, ← ht]
        rfl
    · exact ⟨[], mem_optional.mpr (.inl rfl), rfl⟩

theorem exists_of_scoreScan {rest : Bytes} (h : scoreScan s = some rest) :
    ∃ p ∈ score, s = p ++ rest := by
  obtain ⟨a, ha, hs⟩ := exists_skipSign s
  obtain ⟨d, hWhole, hRun⟩ := exists_dropWhile (skipSign s)
  obtain ⟨f, hf, hFrac, hPoint⟩ := exists_skipFraction ((skipSign s).dropWhile isDigit)
  obtain ⟨e, he, hExp⟩ := exists_skipExponent (skipFraction ((skipSign s).dropWhile isDigit)).1
  unfold scoreScan at h
  dsimp only at h
  split at h
  · rename_i hAny
    cases h
    have hMantissa : d ++ f ∈ mantissa := by
      rw [mantissa, Language.mem_add]
      rcases hRun with ⟨rfl, hNone⟩ | hDigits
      · exact .inr (hPoint (by simpa [hNone] using hAny))
      · exact .inl (Language.mem_mul.mpr ⟨d, hDigits, f, hf, rfl⟩)
    refine ⟨a ++ (d ++ f) ++ e, ?_, ?_⟩
    · exact Language.mem_mul.mpr ⟨a ++ (d ++ f), Language.mem_mul.mpr ⟨a, ha, _, hMantissa, rfl⟩,
        e, he, rfl⟩
    · rw [List.append_assoc, ← hExp, List.append_assoc, List.append_assoc, ← hFrac, ← hWhole, ← hs]
  · cases h

end Sound

/-! ## No sentence reaches further -/

section Complete

variable {p q : Bytes} (r : Bytes)

theorem length_skipExponent_le (s : Bytes) : (skipExponent s).length ≤ s.length := by
  obtain ⟨p, -, h⟩ := exists_skipExponent s
  have hLength := congrArg List.length h
  rw [List.length_append] at hLength
  omega

theorem length_skipFraction_le (s : Bytes) : (skipFraction s).1.length ≤ s.length := by
  obtain ⟨p, -, h, -⟩ := exists_skipFraction s
  have hLength := congrArg List.length h
  rw [List.length_append] at hLength
  omega

theorem isDigit_of_isSign {b : UInt8} (h : isSign b = true) : isDigit b = false := by
  rcases isSign_iff.mp h with rfl | rfl <;> rfl

theorem dropWhile_digits (h : ∀ b ∈ p, isDigit b = true) :
    (p ++ r).dropWhile isDigit = r.dropWhile isDigit := List.dropWhile_append_of_pos h

theorem length_dropWhile_le (s : Bytes) : (s.dropWhile isDigit).length ≤ s.length :=
  (List.dropWhile_suffix isDigit).length_le

theorem skipSign_append (h : p ∈ 1 + sign) (hr : r.head?.any isSign = false) :
    skipSign (p ++ r) = r := by
  rcases mem_optional.mp h with rfl | ⟨b, hb, rfl⟩
  · cases r with
    | nil => rfl
    | cons b t =>
      have hb : ¬(b = 0x2b ∨ b = 0x2d) := by simpa [isSign] using hr
      exact if_neg hb
  · exact if_pos (isSign_iff.mp hb)

theorem head_digits (h : p ∈ digits) :
    (p ++ r).head?.any isDigit = true ∧ (p ++ r).head?.any isSign = false := by
  obtain ⟨hne, hAll⟩ := mem_digits.mp h
  obtain ⟨b, t, rfl⟩ := List.exists_cons_of_ne_nil hne
  have hb : isDigit b = true := hAll b List.mem_cons_self
  refine ⟨by simpa using hb, ?_⟩
  cases hs : isSign b with
  | false => simpa using hs
  | true => rw [isDigit_of_isSign hs] at hb; cases hb

/-- A complete exponent is read to its end, and begins with neither a digit nor a point. -/
theorem skipExponent_append (h : p ∈ exponent) :
    (p ++ r).dropWhile isDigit = p ++ r ∧ (skipFraction (p ++ r)).1 = p ++ r ∧
      skipExponent (p ++ r) = r.dropWhile isDigit := by
  obtain ⟨x, hx, d, hd, rfl⟩ := Language.mem_mul.mp h
  obtain ⟨y, ⟨b, hb, rfl⟩, a, ha, rfl⟩ := Language.mem_mul.mp hx
  have hMark : b = 0x65 ∨ b = 0x45 := by simpa using hb
  have hNot : isDigit b = false ∧ b ≠ 0x2e := by
    rcases hMark with rfl | rfl <;> exact ⟨rfl, by decide⟩
  have hSign : skipSign (a ++ (d ++ r)) = d ++ r := skipSign_append _ ha (head_digits r hd).2
  rw [List.append_assoc, List.append_assoc, List.cons_append, List.nil_append]
  refine ⟨by simp [hNot.1], by simp [skipFraction, hNot.2], ?_⟩
  rw [skipExponent, hSign, if_pos ⟨hMark, (head_digits r hd).1⟩]
  exact dropWhile_digits r (mem_digits.mp hd).2

theorem length_after_le (h : p ∈ 1 + exponent) :
    (skipExponent ((p ++ r).dropWhile isDigit)).length ≤ r.length ∧
      (skipExponent (skipFraction ((p ++ r).dropWhile isDigit)).1).length ≤ r.length := by
  rcases mem_optional.mp h with rfl | h
  · have hRun := length_dropWhile_le r
    have hFrac := length_skipFraction_le (r.dropWhile isDigit)
    exact ⟨(length_skipExponent_le _).trans hRun,
      (length_skipExponent_le _).trans (hFrac.trans hRun)⟩
  · obtain ⟨hDrop, hFrac, hExp⟩ := skipExponent_append r h
    rw [hDrop, hFrac, hExp]
    exact ⟨length_dropWhile_le r, length_dropWhile_le r⟩

theorem skipFraction_append (h : ∀ b ∈ p, isDigit b = true) :
    skipFraction ((0x2e :: (p ++ r)).dropWhile isDigit) =
      (r.dropWhile isDigit, (p ++ r).head?.any isDigit) := by
  rw [List.dropWhile_cons_of_neg (by decide), skipFraction, if_pos rfl, dropWhile_digits r h]

/-- A sentence at the start of a text is read to its end at least. -/
theorem scoreScan_append (h : p ∈ score) :
    ∃ rest, scoreScan (p ++ r) = some rest ∧ rest.length ≤ r.length := by
  obtain ⟨x, hx, e, he, rfl⟩ := Language.mem_mul.mp h
  obtain ⟨a, ha, m, hm, rfl⟩ := Language.mem_mul.mp hx
  rw [List.append_assoc, List.append_assoc]
  have hAfter := length_after_le r he
  rcases (Language.mem_add ..).mp hm with hm | hm
  · obtain ⟨d, hd, f, hf, rfl⟩ := Language.mem_mul.mp hm
    have hHead := head_digits (f ++ (e ++ r)) hd
    rw [List.append_assoc]
    unfold scoreScan
    dsimp only
    rw [skipSign_append _ ha hHead.2, hHead.1, dropWhile_digits _ (mem_digits.mp hd).2]
    refine ⟨_, rfl, ?_⟩
    rcases mem_optional.mp hf with rfl | hf
    · exact hAfter.2
    · obtain ⟨y, ⟨b, hb, rfl⟩, t, ht, rfl⟩ := Language.mem_mul.mp hf
      obtain rfl : b = 0x2e := by simpa using hb
      rw [List.append_assoc, List.cons_append, List.nil_append,
        skipFraction_append _ (mem_digit_kstar.mp ht)]
      exact hAfter.1
  · obtain ⟨y, ⟨b, hb, rfl⟩, t, ht, rfl⟩ := Language.mem_mul.mp hm
    obtain rfl : b = 0x2e := by simpa using hb
    have hHead := head_digits (e ++ r) ht
    rw [List.append_assoc, List.cons_append, List.nil_append]
    unfold scoreScan
    dsimp only
    rw [skipSign_append _ ha rfl, skipFraction_append _ (mem_digits.mp ht).2, hHead.1,
      Bool.or_true]
    exact ⟨_, rfl, hAfter.1⟩

end Complete

/-! ## The place where the scanner stops -/

section Longest

variable (s : Bytes)

/-- The text that `scoreScan` leaves is the one from the place where the source stops. -/
theorem scoreScan_eq_scan :
    scoreScan s = if scan s = 0 then none else some (s.drop (scan s)) := by
  have hSign : skipSign s = s.drop (signAt s 0) := by rw [drop_signAt, List.drop_zero]
  have hDigits := digitRun_pos s (signAt s 0)
  have hFrac := le_fractionAt s (signAt s 0 + digitRun s (signAt s 0))
  have hExp := le_exponentAt s (fractionAt s (signAt s 0 + digitRun s (signAt s 0))).1
  unfold scoreScan scan
  simp only [hSign, ← drop_add_digitRun, skipFraction_drop, skipExponent_drop, Bool.or_eq_true,
    ← hDigits, decide_eq_true_eq]
  by_cases hNone : digitRun s (signAt s 0) +
      (fractionAt s (signAt s 0 + digitRun s (signAt s 0))).2 = 0
  · rw [if_neg (by omega), if_pos hNone, if_pos rfl]
  · rw [if_pos (by omega), if_neg hNone, if_neg (by omega)]

theorem scan_le_length : scan s ≤ s.length := by
  unfold scan
  dsimp only
  split
  · exact Nat.zero_le _
  · exact exponentAt_le s (fractionAt_le s (add_digitRun_le s (signAt_le s (Nat.zero_le _))))

/-- The lengths of the prefixes that are sentences; where there is none it is zero. -/
theorem scan_isGreatest :
    IsGreatest {n | ∃ p, p <+: s ∧ (p = [] ∨ p ∈ score) ∧ p.length = n} (scan s) := by
  have hScan := scoreScan_eq_scan s
  constructor
  · by_cases hZero : scan s = 0
    · exact ⟨[], List.nil_prefix, .inl rfl, hZero.symm⟩
    · rw [if_neg hZero] at hScan
      obtain ⟨p, hp, hs⟩ := exists_of_scoreScan s hScan
      have hLength := congrArg List.length hs
      have hLe := scan_le_length s
      rw [List.length_append, List.length_drop] at hLength
      exact ⟨p, ⟨_, hs.symm⟩, .inr hp, by omega⟩
  · rintro n ⟨p, ⟨r, rfl⟩, hp, rfl⟩
    rcases hp with rfl | hp
    · exact Nat.zero_le _
    · obtain ⟨rest, hRest, hLength⟩ := scoreScan_append r hp
      rw [hRest] at hScan
      split at hScan
      · cases hScan
      · cases hScan
        rw [List.length_drop, List.length_append] at hLength
        omega

theorem ne_nil_of_mem_score {p : Bytes} (h : p ∈ score) : p ≠ [] := by
  rintro rfl
  obtain ⟨rest, hRest, -⟩ := scoreScan_append [] h
  cases hRest

theorem scan_eq_length_iff (hne : s ≠ []) : scan s = s.length ↔ s ∈ score := by
  have hLength : 0 < s.length := List.length_pos_iff.mpr hne
  obtain ⟨⟨p, hPrefix, hp, hScan⟩, hMax⟩ := scan_isGreatest s
  constructor
  · intro h
    have hWhole : p = s := hPrefix.eq_of_length (hScan.trans h)
    subst hWhole
    exact hp.resolve_left hne
  · intro h
    have hLe := hMax ⟨s, List.prefix_refl s, .inr h, rfl⟩
    exact le_antisymm (scan_le_length s) hLe

end Longest

/-! ## The spellings of an infinity -/

def infinity : Bytes := ascii "infinity"

def lower (c : UInt8) : UInt8 := if 0x41 ≤ c ∧ c ≤ 0x5a then c + 0x20 else c

def isInfinite (s : Bytes) : Bool :=
  let i := signAt s 0
  if s.length - i ≠ 3 ∧ s.length - i ≠ 8 then false
  else (List.range (s.length - i)).all fun j => s[i + j]?.map lower = infinity[j]?

/-- The two words, in either case. -/
def infinityWord : Language UInt8 :=
  {w : Bytes | w.map lower = ascii "inf" ∨ w.map lower = ascii "infinity"}

/-- The spellings of an infinity. -/
def infinities : Language UInt8 := (1 + sign) * infinityWord

section Infinity

variable {s : Bytes}

theorem range_all_iff {t : Bytes} :
    (List.range t.length).all (fun j => t[j]?.map lower = infinity[j]?) = true ↔
      t.map lower = infinity.take t.length ∧ t.length ≤ infinity.length := by
  simp only [List.all_eq_true, List.mem_range, decide_eq_true_eq]
  constructor
  · intro hAll
    have hLength : t.length ≤ infinity.length := by
      by_contra hLt
      have hLast := hAll infinity.length (by omega)
      rw [List.getElem?_eq_getElem (by omega), List.getElem?_eq_none (by omega)] at hLast
      cases hLast
    refine ⟨List.ext_getElem? fun j => ?_, hLength⟩
    rw [List.getElem?_map, List.getElem?_take]
    split
    · rename_i hj
      exact hAll j hj
    · rename_i hj
      rw [List.getElem?_eq_none (by omega), Option.map_none]
  · rintro ⟨hEq, -⟩ j hj
    rw [← List.getElem?_map, hEq, List.getElem?_take, if_pos hj]

theorem mem_infinityWord {t : Bytes} : t ∈ infinityWord ↔
    (t.length = 3 ∨ t.length = 8) ∧ t.map lower = infinity.take t.length := by
  constructor
  · rintro (h | h)
    · have hLength : t.length = 3 := by rw [← List.length_map lower, h]; rfl
      exact ⟨.inl hLength, by rw [h, hLength]; rfl⟩
    · have hLength : t.length = 8 := by rw [← List.length_map lower, h]; rfl
      exact ⟨.inr hLength, by rw [h, hLength]; rfl⟩
  · rintro ⟨hLength | hLength, h⟩
    · exact .inl (by rw [h, hLength]; rfl)
    · exact .inr (by rw [h, hLength]; rfl)

theorem eq_of_lower_eq {c : UInt8} (h : lower c = 0x69) : c = 0x49 ∨ c = 0x69 := by
  unfold lower at h
  split at h
  · exact .inl ((UInt8.add_sub_cancel c 0x20).symm.trans (congrArg (· - 0x20) h))
  · exact .inr h

theorem head_infinityWord {t : Bytes} (h : t ∈ infinityWord) :
    ∃ c, t.head? = some c ∧ (c = 0x49 ∨ c = 0x69) := by
  have hHead : t.head?.map lower = some 0x69 := by
    rw [← List.head?_map]
    rcases h with h | h <;> rw [h] <;> rfl
  obtain ⟨c, hc, hLower⟩ := Option.map_eq_some_iff.mp hHead
  exact ⟨c, hc, eq_of_lower_eq hLower⟩

theorem mem_infinities : s ∈ infinities ↔ skipSign s ∈ infinityWord := by
  constructor
  · intro h
    obtain ⟨a, ha, w, hw, rfl⟩ := Language.mem_mul.mp h
    have hHead : w.head?.any isSign = false := by
      obtain ⟨c, hc, rfl | rfl⟩ := head_infinityWord hw <;> rw [hc] <;> rfl
    rw [skipSign_append w ha hHead]
    exact hw
  · intro h
    obtain ⟨a, ha, hs⟩ := exists_skipSign s
    exact Language.mem_mul.mpr ⟨a, ha, skipSign s, h, hs.symm⟩

theorem isInfinite_iff : isInfinite s = true ↔ s ∈ infinities := by
  have hSign : s.drop (signAt s 0) = skipSign s := by rw [drop_signAt, List.drop_zero]
  have hLength : s.length - signAt s 0 = (skipSign s).length := by rw [← hSign, List.length_drop]
  unfold isInfinite
  simp only [hLength, ← List.getElem?_drop, hSign]
  rw [mem_infinities, mem_infinityWord]
  split
  · rename_i hNot
    exact ⟨nofun, fun h => absurd h.1 (by omega)⟩
  · rename_i hLen
    have hWord : infinity.length = 8 := rfl
    rw [range_all_iff]
    exact ⟨fun h => ⟨by omega, h.1⟩, fun h => ⟨h.2, by omega⟩⟩

end Infinity

/-! ## The verdict -/

/-- The verdicts on a score. -/
inductive Verdict where
  | ok
  | empty
  | notANumber
  | trailing
  | overflow
  | underflow
  | notFinite
deriving DecidableEq

/-- What a double may be, as far as the verdict asks. -/
inductive Magnitude where
  | zero
  | finite
  | infinite
  | nan
deriving DecidableEq

/-- What the C library reports for a text: where it stopped, whether the result was
out of range, and the result. -/
structure Strtod where
  used : Nat
  erange : Bool
  val : Magnitude
deriving DecidableEq

/-- The refusals of the grammar. -/
def grammarStage (s : Bytes) : Option Verdict :=
  if s = [] then some .empty
  else if scan s = 0 then some (if isInfinite s then .notFinite else .notANumber)
  else if scan s < s.length then some .trailing
  else none

def rangeStage (r : Strtod) (len : Nat) : Verdict :=
  if r.used ≠ len then .trailing
  else if r.erange ∧ r.val = .infinite then .overflow
  else if r.erange ∧ r.val = .zero then .underflow
  else if r.val = .infinite ∨ r.val = .nan then .notFinite
  else .ok

/-- The verdict on a text: the grammar first, then the C library. -/
def classify (strtod : Bytes → Strtod) (s : Bytes) : Verdict :=
  (grammarStage s).getD (rangeStage (strtod s) s.length)

/-- No number begins as an infinity does. -/
theorem scan_of_mem_infinities {s : Bytes} (h : s ∈ infinities) : scan s = 0 := by
  have hNone : scoreScan s = none := by
    obtain ⟨c, hc, hWord⟩ := head_infinityWord (mem_infinities.mp h)
    have hNot : isDigit c = false ∧ c ≠ 0x2e := by
      rcases hWord with rfl | rfl <;> exact ⟨rfl, by decide⟩
    unfold scoreScan
    cases hs : skipSign s with
    | nil => rw [hs] at hc; cases hc
    | cons b t =>
      obtain rfl : b = c := by simpa [hs] using hc
      simp [hNot, skipFraction]
  rw [scoreScan_eq_scan] at hNone
  by_contra hScan
  rw [if_neg hScan] at hNone
  cases hNone

theorem grammarStage_eq_none_iff (s : Bytes) : grammarStage s = none ↔ s ∈ score := by
  unfold grammarStage
  split
  · rename_i hNil
    exact ⟨nofun, fun h => absurd hNil (ne_nil_of_mem_score h)⟩
  · rename_i hne
    have hLe := scan_le_length s
    have hLength : 0 < s.length := List.length_pos_iff.mpr hne
    rw [← scan_eq_length_iff s hne]
    split
    · exact ⟨nofun, fun h => by omega⟩
    · split
      · exact ⟨nofun, fun h => by omega⟩
      · exact ⟨fun _ => by omega, fun _ => rfl⟩

theorem grammarStage_of_mem_infinities {s : Bytes} (h : s ∈ infinities) :
    grammarStage s = some .notFinite := by
  have hne : s ≠ [] := by
    rintro rfl
    rcases mem_infinities.mp h with hWord | hWord <;> cases hWord
  rw [grammarStage, if_neg hne, if_pos (scan_of_mem_infinities h), if_pos (isInfinite_iff.mpr h)]

/-- The scanner stops at the end of the longest sentence that the text begins with, a
text passes the grammar exactly when it is a sentence, and whatever spells an infinity
is reported as not finite. -/
theorem scan_longest (strtod : Bytes → Strtod) (s : Bytes) :
    IsGreatest {n | ∃ p, p <+: s ∧ (p = [] ∨ p ∈ score) ∧ p.length = n} (scan s) ∧
      (grammarStage s = none ↔ s ∈ score) ∧
      (s ∈ infinities → classify strtod s = .notFinite) := by
  refine ⟨scan_isGreatest s, grammarStage_eq_none_iff s, fun h => ?_⟩
  rw [classify, grammarStage_of_mem_infinities h, Option.getD_some]

theorem scan_longest_infinity :
    IsGreatest {n | ∃ p, p <+: ascii "-inf" ∧ (p = [] ∨ p ∈ score) ∧ p.length = n}
        (scan (ascii "-inf")) ∧
      ascii "-inf" ∈ infinities ∧
      classify (fun t => ⟨t.length, false, .finite⟩) (ascii "-inf") = .notFinite := by
  have hSpelt : ascii "-inf" ∈ infinities := isInfinite_iff.mp (by decide)
  have hAll := scan_longest (fun t => ⟨t.length, false, .finite⟩) (ascii "-inf")
  exact ⟨hAll.1, hSpelt, hAll.2.2 hSpelt⟩

example : scan (ascii "1e+") = 1 ∧ scan (ascii "-.5E7x") = 5 ∧ scan (ascii ".") = 0 := by decide

/-! ## The verdict that a write acts on -/

/-- The refusal of a verdict; the write path does not tell an overflow from an underflow. -/
def Verdict.refusal : Verdict → Option ScoreVerdict
  | .ok => none
  | .empty => some .empty
  | .notANumber => some .notANumber
  | .trailing => some .trailing
  | .overflow | .underflow => some .outOfRange
  | .notFinite => some .notFinite

theorem isInfinite_eq (s : Bytes) : ValkeyFdw.isInfinite s = isInfinite s := by
  rw [Bool.eq_iff_iff, isInfinite_iff, mem_infinities, ValkeyFdw.isInfinite, Bool.or_eq_true,
    decide_eq_true_eq, decide_eq_true_eq]
  rfl

/-- Where the C library reads every number to its end, the verdict of the source is the
one that rendering a row acts on. -/
theorem scoreClassify_eq_refusal [Doubles] {strtod : Bytes → Strtod}
    (hReads : ∀ s ∈ score, (rangeStage (strtod s) s.length).refusal =
      if Doubles.inRange s then none else some .outOfRange) (s : Bytes) :
    scoreClassify s = (classify strtod s).refusal := by
  by_cases hNil : s = []
  · subst hNil
    rfl
  have hLength := scan_le_length s
  have hDrop := List.length_drop (i := scan s) (l := s)
  unfold scoreClassify classify grammarStage
  rw [if_neg hNil, if_neg hNil, scoreScan_eq_scan]
  by_cases hZero : scan s = 0
  · rw [if_pos hZero, if_pos hZero, isInfinite_eq]
    cases isInfinite s <;> rfl
  rw [if_neg hZero, if_neg hZero]
  cases hRest : s.drop (scan s) with
  | nil =>
    rw [hRest, List.length_nil] at hDrop
    have hEnd : ¬scan s < s.length := by omega
    have hScore := (scan_eq_length_iff s hNil).mp (by omega)
    rw [if_neg hEnd, Option.getD_none, hReads s hScore]
  | cons b t =>
    rw [hRest, List.length_cons] at hDrop
    have hEnd : scan s < s.length := by omega
    rw [if_pos hEnd]
    rfl

end Score

end ValkeyFdw
