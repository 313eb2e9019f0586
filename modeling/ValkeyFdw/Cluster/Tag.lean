import Mathlib.Data.List.TakeWhile
import ValkeyFdw.Cluster.Slots
import ValkeyFdw.Lib.Gf2

/-!
# The slot rule of a cluster

The rule that every member of a cluster follows: the hashed part of a key is its
first tag, or the whole key where there is none, and the slot is a remainder of that
part over GF(2), cut down to fourteen bits. `slot` computes it with a shift register
and two searches for a byte.

* `crc16_remainder`: the register ends at the remainder of what it was fed;
* `hashtag_eq_iff`: the two searches find the hashed part;
* `slot_eq_remainder`: so the slot is that of the rule, and keys that carry one tag
  share it.
-/

namespace ValkeyFdw

open Polynomial Gf2

/-! ## The register -/

theorem crcBit_toBitVec (crc : UInt16) : (crcBit crc).toBitVec = feed 0x1021#16 crc.toBitVec := by
  have hHigh : crc &&& 0x8000 = 0 ↔ ¬crc.toBitVec.msb = true := by
    rw [← UInt16.toBitVec_inj, UInt16.toBitVec_and, BitVec.msb_eq_getLsbD_last]
    change crc.toBitVec &&& BitVec.twoPow 16 15 = 0 ↔ _
    rw [BitVec.and_twoPow]
    cases crc.toBitVec.getLsbD 15 <;> simp
  unfold crcBit feed
  simp only [ne_eq, hHigh, not_not]
  split <;> simp

theorem crcByte_toBitVec (crc : UInt16) (b : UInt8) :
    (crcByte crc b).toBitVec = feedWord 0x1021#16 crc.toBitVec b.toBitVec := by
  have hIter : ∀ k c, (crcBit^[k] c).toBitVec = (feed 0x1021#16)^[k] c.toBitVec := by
    intro k c
    exact Function.Semiconj.iterate_right crcBit_toBitVec k c
  rw [crcByte, hIter, feedWord]
  simp

theorem crc16_toBitVec (buf : Bytes) :
    (crc16 buf).toBitVec = (buf.map UInt8.toBitVec).foldl (feedWord 0x1021#16) 0 := by
  rw [crc16, List.foldl_map]
  exact (List.foldl_hom UInt16.toBitVec fun c b => (crcByte_toBitVec c b).symm).symm

theorem generator_crc : generator 0x1021#16 = X ^ 16 + X ^ 12 + X ^ 5 + 1 := by
  have hLow : toPoly 0x1021#16 = X ^ 12 + X ^ 5 + 1 := by
    simp [toPoly, Finset.sum_range_succ]
    ac_rfl
  rw [generator, hLow, ← add_assoc, ← add_assoc]

/-- The bytes as one polynomial, the first of them highest. -/
noncomputable def payload (buf : Bytes) : (ZMod 2)[X] := message (buf.map UInt8.toBitVec)

theorem crc16_remainder (buf : Bytes) :
    (crc16 buf).toNat = value ((payload buf * X ^ 16) %ₘ (X ^ 16 + X ^ 12 + X ^ 5 + 1)) := by
  rw [payload, ← generator_crc, ← toPoly_foldl_feedWord 0x1021#16 _ (by omega) (by omega),
    ← crc16_toBitVec, value_toPoly, UInt16.toNat_toBitVec]

/-! ## The hashed part -/

/-- The bytes between the first `\x7b` of a key and the first `\x7d` after it. -/
def Tagged (key tag : Bytes) : Prop :=
  ∃ p s, key = p ++ 0x7b :: (tag ++ 0x7d :: s) ∧ 0x7b ∉ p ∧ 0x7d ∉ tag ∧ tag ≠ []

/-- The part of a key that the rule hashes. -/
def Hashed (key part : Bytes) : Prop :=
  Tagged key part ∨ (∀ tag, ¬Tagged key tag) ∧ part = key

section FirstByte

variable {c : UInt8} {p l : Bytes}

theorem dropWhile_of_notMem (r : Bytes) (h : c ∉ p) :
    (p ++ c :: r).dropWhile (· ≠ c) = c :: r := by
  rw [List.dropWhile_append_of_pos, List.dropWhile_cons_of_neg (by simp)]
  intro a ha
  simpa using ne_of_mem_of_not_mem ha h

theorem takeWhile_of_notMem (r : Bytes) (h : c ∉ p) :
    (p ++ c :: r).takeWhile (· ≠ c) = p := by
  rw [List.takeWhile_append_of_pos, List.takeWhile_cons_of_neg (by simp), List.append_nil]
  intro a ha
  simpa using ne_of_mem_of_not_mem ha h

theorem notMem_takeWhile_ne : c ∉ l.takeWhile (· ≠ c) := by
  intro hMem
  simpa using List.mem_takeWhile_imp hMem

theorem exists_eq_takeWhile_append (h : c ∈ l) :
    ∃ r, l.dropWhile (· ≠ c) = c :: r ∧ l = l.takeWhile (· ≠ c) ++ c :: r := by
  obtain ⟨p, r, rfl, hp⟩ := List.eq_append_cons_of_mem h
  exact ⟨r, dropWhile_of_notMem r hp, by rw [takeWhile_of_notMem r hp]⟩

end FirstByte

theorem hashtag_of_tagged {key tag : Bytes} (h : Tagged key tag) : hashtag key = tag := by
  obtain ⟨p, s, rfl, hp, hTag, hne⟩ := h
  obtain ⟨a, t, rfl⟩ := List.exists_cons_of_ne_nil hne
  have ha : a ≠ 0x7d := fun e => hTag (e ▸ List.mem_cons_self)
  rw [hashtag, dropWhile_of_notMem _ hp]
  dsimp only
  rw [if_neg, takeWhile_of_notMem s hTag]
  rintro (hNone | hFirst)
  · exact hNone (by simp)
  · exact ha (by simpa using hFirst)

theorem tagged_of_hashtag_ne {key : Bytes} (h : hashtag key ≠ key) : Tagged key (hashtag key) := by
  have hOpen : 0x7b ∈ key := by
    by_contra hNone
    apply h
    rw [hashtag, List.dropWhile_eq_nil_iff.mpr]
    intro a ha
    simpa using ne_of_mem_of_not_mem ha hNone
  obtain ⟨after, hDrop, hKey⟩ := exists_eq_takeWhile_append hOpen
  unfold hashtag at h ⊢
  rw [hDrop] at h ⊢
  dsimp only at h ⊢
  by_cases hCond : 0x7d ∉ after ∨ after.head? = some 0x7d
  · exact absurd (if_pos hCond) h
  rw [if_neg hCond]
  push Not at hCond
  obtain ⟨s, -, hAfter⟩ := exists_eq_takeWhile_append hCond.1
  refine ⟨key.takeWhile (· ≠ 0x7b), s, ?_, notMem_takeWhile_ne, notMem_takeWhile_ne, ?_⟩
  · rw [← hAfter]
    exact hKey
  · intro hNil
    apply hCond.2
    rw [hAfter, hNil]
    rfl

theorem hashtag_eq_iff {key part : Bytes} : hashtag key = part ↔ Hashed key part := by
  constructor
  · rintro rfl
    by_cases hSelf : hashtag key = key
    · by_cases hTag : ∃ tag, Tagged key tag
      · obtain ⟨tag, hTag⟩ := hTag
        rw [← hashtag_of_tagged hTag] at hTag
        exact .inl hTag
      · exact .inr ⟨fun tag h => hTag ⟨tag, h⟩, hSelf⟩
    · exact .inl (tagged_of_hashtag_ne hSelf)
  · rintro (hTag | ⟨hNone, rfl⟩)
    · exact hashtag_of_tagged hTag
    · by_contra hne
      exact hNone _ (tagged_of_hashtag_ne hne)

theorem slot_eq_mod (key : Bytes) : (slot key : ℕ) = (crc16 (hashtag key)).toNat % 2 ^ 14 := by
  have hAnd : (crc16 (hashtag key) &&& 0x3FFF).toNat = (crc16 (hashtag key)).toNat % 2 ^ 14 := by
    rw [UInt16.toNat_and]
    exact Nat.and_two_pow_sub_one_eq_mod _ 14
  rw [slot, Fin.val_ofNat, hAnd]
  exact Nat.mod_mod _ _

/-- The slot of a key is what the rule says, the rule names one part of every key to be
hashed, and all the keys that carry a tag share one slot. -/
theorem slot_eq_remainder (key : Bytes) :
    (∃! part, Hashed key part) ∧
    (∀ part, Hashed key part → (slot key : ℕ) =
      value ((payload part * X ^ 16) %ₘ (X ^ 16 + X ^ 12 + X ^ 5 + 1)) % 2 ^ 14) ∧
    ∀ p tag s, 0x7b ∉ p → tag ≠ [] → 0x7d ∉ tag → Tagged key tag →
      slot (p ++ [0x7b] ++ tag ++ [0x7d] ++ s) = slot key := by
  refine ⟨⟨hashtag key, hashtag_eq_iff.mp rfl, fun part h => (hashtag_eq_iff.mpr h).symm⟩, ?_, ?_⟩
  · intro part h
    rw [slot_eq_mod, hashtag_eq_iff.mpr h, crc16_remainder]
  · intro p tag s hp hne hTag hKey
    have hOther : Tagged (p ++ [0x7b] ++ tag ++ [0x7d] ++ s) tag :=
      ⟨p, s, by simp, hp, hTag, hne⟩
    rw [slot, slot, hashtag_of_tagged hKey, hashtag_of_tagged hOther]

theorem slot_eq_remainder_user :
    Tagged (ascii "\x7bu1\x7d:name") (ascii "u1") ∧
    (slot (ascii "\x7bu1\x7d:name") : ℕ) =
      value ((payload (ascii "u1") * X ^ 16) %ₘ (X ^ 16 + X ^ 12 + X ^ 5 + 1)) % 2 ^ 14 ∧
    slot (ascii "mail:" ++ [0x7b] ++ ascii "u1" ++ [0x7d] ++ []) =
      slot (ascii "\x7bu1\x7d:name") := by
  have hTag : Tagged (ascii "\x7bu1\x7d:name") (ascii "u1") :=
    ⟨[], ascii ":name", by decide, by decide, by decide, by decide⟩
  have hRule := slot_eq_remainder (ascii "\x7bu1\x7d:name")
  refine ⟨hTag, hRule.2.1 _ (.inl hTag), ?_⟩
  exact hRule.2.2 (ascii "mail:") (ascii "u1") [] (by decide) (by decide) (by decide) hTag

end ValkeyFdw
