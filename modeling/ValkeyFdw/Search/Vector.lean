import Mathlib.Data.List.Flatten
import Mathlib.Data.List.TakeWhile
import ValkeyFdw.Lib.Trace
import ValkeyFdw.Server.Value

/-!
# The two forms of a vector

The server keeps a vector as little-endian `float4` elements, and PostgreSQL prints it as
a bracketed list. Both functions leave the digits to PostgreSQL: `float4out` writes an
element and `float4in` reads it.

* `fromElems_ok`: what the loop over the elements has read when it ends;
* `fromElems_join`: it reads back what `toText` writes;
* `fromText_toText`: the bytes come back, and a text is accepted only as one list.
-/

namespace ValkeyFdw

/-- The text form of a `float4`, told by its bits; `float4in` raises where it is `none`. -/
class Float4 where
  float4out : UInt32 → Bytes
  float4in : Bytes → Option UInt32
  /-- An empty text is no number. -/
  float4in_nil : float4in [] = none

namespace Vec

open Float4

/-! ## Elements -/

/-- Four bytes, the least significant first. -/
def getLe (p0 p1 p2 p3 : UInt8) : UInt32 :=
  p0.toUInt32 ||| (p1.toUInt32 <<< 8) ||| (p2.toUInt32 <<< 16) ||| (p3.toUInt32 <<< 24)

def putLe (bits : UInt32) : Bytes :=
  [(bits &&& 0xff).toUInt8, ((bits >>> 8) &&& 0xff).toUInt8, ((bits >>> 16) &&& 0xff).toUInt8,
    ((bits >>> 24) &&& 0xff).toUInt8]

def isNaN (bits : UInt32) : Bool :=
  bits &&& 0x7f800000 = 0x7f800000 && bits &&& 0x007fffff ≠ 0

/-- The elements of a vector, four bytes each. -/
def elements : Bytes → List UInt32
  | p0 :: p1 :: p2 :: p3 :: rest => getLe p0 p1 p2 p3 :: elements rest
  | _ => []

theorem eq_of_bits {x y : UInt8} (h : ∀ i < 8, x.toBitVec.getLsbD i = y.toBitVec.getLsbD i) :
    x = y := UInt8.toBitVec_inj.mp (BitVec.eq_of_getLsbD_eq h)

theorem putLe_getLe (p0 p1 p2 p3 : UInt8) : putLe (getLe p0 p1 p2 p3) = [p0, p1, p2, p3] := by
  have hMask : ∀ i < 8, (255#8).getLsbD i = true := by decide
  have hAbove : ∀ (x : UInt8) (j : ℕ), 8 ≤ j → x.toBitVec.getLsbD j = false :=
    fun x j hj => BitVec.getLsbD_of_ge x.toBitVec j hj
  simp only [putLe, getLe, List.cons.injEq, and_true]
  -- bit by bit: the shifts put the four bytes where they do not overlap
  refine ⟨eq_of_bits ?_, eq_of_bits ?_, eq_of_bits ?_, eq_of_bits ?_⟩
  all_goals
    intro i hi
    simp
    grind

theorem length_putLe (bits : UInt32) : (putLe bits).length = 4 := rfl

theorem flatMap_putLe_elements (bytes : Bytes) (h : bytes.length % 4 = 0) :
    (elements bytes).flatMap putLe = bytes := by
  induction bytes using elements.induct with
  | case1 p0 p1 p2 p3 rest ih =>
    have hRest : rest.length % 4 = 0 := by
      simp only [List.length_cons] at h
      omega
    rw [elements, List.flatMap_cons, putLe_getLe, ih hRest]
    rfl
  | case2 bytes hShort =>
    match bytes, hShort, h with
    | [], _, _ => rfl
    | p0 :: p1 :: p2 :: p3 :: rest, hShort, _ => exact absurd rfl (hShort p0 p1 p2 p3 rest)

theorem elements_ne_nil {bytes : Bytes} (hne : bytes ≠ []) (hWhole : bytes.length % 4 = 0) :
    elements bytes ≠ [] := by
  intro hNil
  apply hne
  rw [← flatMap_putLe_elements bytes hWhole, hNil]
  rfl

theorem length_flatMap_putLe (vals : List UInt32) :
    (vals.flatMap putLe).length = 4 * vals.length := by
  rw [List.length_flatMap]
  simp [length_putLe, Nat.mul_comm]

/-! ## The functions -/

/-- The refusals of a vector. -/
inductive VecError where
  | noBytes (what : String)
  | notWhole (what : String) (len : Nat)
  | badForm (what : String) (text : Bytes) (why : String)
  | emptyVector (what : String)
  | notANumber (elem : Bytes)
deriving DecidableEq

section Functions

variable [Float4]

def toText (bytes : Bytes) (what : String) : Except VecError Bytes :=
  if bytes = [] then .error (.noBytes what)
  else if bytes.length % 4 ≠ 0 then .error (.notWhole what bytes.length)
  else .ok (0x5b :: List.intercalate [0x2c] ((elements bytes).map float4out) ++ [0x5d])

def isSpace (b : UInt8) : Bool := b = 0x20 || (0x09 ≤ b && b ≤ 0x0d)

/-- The bytes at which an element ends. -/
def isDelim (b : UInt8) : Bool := b = 0x2c || b = 0x5d

/-- The loop over the elements: what has been put into the buffer, and the text after
the closing bracket. -/
def fromElems (text : Bytes) (what : String) (p buf : Bytes) : Except VecError (Bytes × Bytes) :=
  let p' := p.dropWhile isSpace
  if p'.head? = some 0x5d ∧ buf = [] then .error (.emptyVector what)
  else
    match _hEnd : p'.dropWhile (!isDelim ·) with
    | [] => .error (.badForm what text "The list is not closed")
    | delim :: rest =>
      match float4in (p'.takeWhile (!isDelim ·)) with
      | none => .error (.notANumber (p'.takeWhile (!isDelim ·)))
      | some bits =>
        if delim = 0x5d then .ok (buf ++ putLe bits, rest)
        else fromElems text what rest (buf ++ putLe bits)
termination_by p.length
decreasing_by
  have hShort := (List.dropWhile_suffix (l := p.dropWhile isSpace) (!isDelim ·)).length_le
  have hSpaces := (List.dropWhile_suffix (l := p) isSpace).length_le
  simp only [p'] at _hEnd
  rw [_hEnd, List.length_cons] at hShort
  omega

/-- A text without its terminator, read into the bytes of a vector. -/
def fromText (text : Bytes) (what : String) : Except VecError Bytes :=
  let p := text.dropWhile isSpace
  if p.head? ≠ some 0x5b then
    .error (.badForm what text "Not a bracketed list of numbers such as \"[1,0.5,-2]\"")
  else do
    let (buf, rest) ← fromElems text what p.tail []
    if rest.dropWhile isSpace ≠ [] then
      .error (.badForm what text "There is text after the closing bracket")
    else return buf

end Functions

/-! ## The loop -/

theorem isDelim_iff {b : UInt8} : isDelim b = true ↔ b = 0x2c ∨ b = 0x5d := by simp [isDelim]

theorem not_isDelim_of_isSpace {b : UInt8} (h : isSpace b = true) : isDelim b = false := by
  cases hDelim : isDelim b with
  | false => rfl
  | true =>
    rcases isDelim_iff.mp hDelim with rfl | rfl <;> cases h

theorem dropWhile_dropWhile (p : Bytes) :
    (p.dropWhile isSpace).dropWhile (!isDelim ·) = p.dropWhile (!isDelim ·) := by
  induction p with
  | nil => rfl
  | cons b p ih =>
    cases hb : isSpace b with
    | false => simp [hb]
    | true => simp [hb, not_isDelim_of_isSpace hb, ih]

theorem takeWhile_dropWhile (p : Bytes) :
    (p.dropWhile isSpace).takeWhile (!isDelim ·) =
      (p.takeWhile (!isDelim ·)).dropWhile isSpace := by
  induction p with
  | nil => rfl
  | cons b p ih =>
    cases hb : isSpace b with
    | false => cases hDelim : isDelim b <;> simp [hb, hDelim]
    | true => simp [hb, not_isDelim_of_isSpace hb, ih]

theorem exists_delim {p rest : Bytes} {delim : UInt8}
    (h : p.dropWhile (!isDelim ·) = delim :: rest) :
    p = p.takeWhile (!isDelim ·) ++ delim :: rest ∧ (delim = 0x2c ∨ delim = 0x5d) ∧
      ∀ b ∈ p.takeWhile (!isDelim ·), isDelim b = false := by
  refine ⟨by rw [← h, List.takeWhile_append_dropWhile], ?_, fun b hb => ?_⟩
  · have hHead := List.head?_dropWhile_not (!isDelim ·) p
    rw [h] at hHead
    exact isDelim_iff.mp (by simpa using hHead)
  · simpa using List.mem_takeWhile_imp hb

section Loop

variable [Float4] {text p buf out rest : Bytes} {what : String}

/-- One turn of the loop, by the element as it stands in the text. -/
theorem fromElems_eq (p buf : Bytes) : fromElems text what p buf =
    if (p.dropWhile isSpace).head? = some 0x5d ∧ buf = [] then .error (.emptyVector what)
    else
      match p.dropWhile (!isDelim ·) with
      | [] => .error (.badForm what text "The list is not closed")
      | delim :: rest =>
        match float4in ((p.takeWhile (!isDelim ·)).dropWhile isSpace) with
        | none => .error (.notANumber ((p.takeWhile (!isDelim ·)).dropWhile isSpace))
        | some bits =>
          if delim = 0x5d then .ok (buf ++ putLe bits, rest)
          else fromElems text what rest (buf ++ putLe bits) := by
  rw [fromElems, ← takeWhile_dropWhile p, ← dropWhile_dropWhile p]
  split
  · rfl
  · split <;> rename_i hEnd <;> rw [hEnd]

/-- A text up to a closing bracket: elements with commas between them, each read by
`float4in` once the spaces before it are gone. -/
structure Listed (p rest : Bytes) (elems : List Bytes) (vals : List UInt32) : Prop where
  nonempty : elems ≠ []
  text : p = List.intercalate [0x2c] elems ++ 0x5d :: rest
  apart : ∀ e ∈ elems, ∀ b ∈ e, isDelim b = false
  read : elems.map (fun e => float4in (e.dropWhile isSpace)) = vals.map some

theorem fromElems_ok (h : fromElems text what p buf = .ok (out, rest)) :
    ∃ elems vals, Listed p rest elems vals ∧ out = buf ++ vals.flatMap putLe := by
  -- on the length of what is left: every turn but the last passes a comma
  induction hn : p.length using Nat.strongRecOn generalizing p buf with
  | ind n ih =>
    rw [fromElems_eq] at h
    split at h
    · cases h
    split at h
    · cases h
    rename_i delim rest' hEnd
    obtain ⟨hp, hDelim, hApart⟩ := exists_delim hEnd
    split at h
    · cases h
    rename_i bits hBits
    split at h
    · rename_i hClose
      cases h
      refine ⟨[p.takeWhile (!isDelim ·)], [bits], ⟨by simp, ?_, by simpa using hApart, ?_⟩, ?_⟩
      · rw [List.intercalate_singleton, ← hClose]
        exact hp
      · simp [hBits]
      · simp
    · rename_i hOpen
      have hComma : delim = 0x2c := hDelim.resolve_right hOpen
      have hLess : rest'.length < n := by
        have hLength := congrArg List.length hp
        rw [List.length_append, List.length_cons] at hLength
        omega
      obtain ⟨elems, vals, hList, hOut⟩ := ih _ hLess h rfl
      refine ⟨p.takeWhile (!isDelim ·) :: elems, bits :: vals, ⟨by simp, ?_, ?_, ?_⟩, ?_⟩
      · rw [List.intercalate_cons_of_ne_nil hList.nonempty, List.append_assoc, ← hList.text,
          List.append_assoc, List.singleton_append, ← hComma]
        exact hp
      · exact List.forall_mem_cons.mpr ⟨hApart, hList.apart⟩
      · rw [List.map_cons, List.map_cons, hBits, hList.read]
      · rw [hOut, List.flatMap_cons, List.append_assoc]

/-- One element that `float4in` reads, with neither a delimiter nor a space in it. -/
theorem fromElems_elem {e : Bytes} {bits : UInt32} {delim : UInt8} (hRead : float4in e = some bits)
    (hApart : ∀ b ∈ e, isDelim b = false ∧ isSpace b = false)
    (hDelim : delim = 0x2c ∨ delim = 0x5d) (q buf : Bytes) :
    fromElems text what (e ++ delim :: q) buf =
      if delim = 0x5d then .ok (buf ++ putLe bits, q)
      else fromElems text what q (buf ++ putLe bits) := by
  have hne : e ≠ [] := by
    rintro rfl
    rw [float4in_nil] at hRead
    cases hRead
  obtain ⟨c, t, rfl⟩ := List.exists_cons_of_ne_nil hne
  have hc := hApart c List.mem_cons_self
  have hTake : (c :: t ++ delim :: q).takeWhile (!isDelim ·) = c :: t := by
    rw [List.takeWhile_append_of_pos (fun b hb => by simp [(hApart b hb).1]),
      List.takeWhile_cons_of_neg (by simp [isDelim_iff.mpr hDelim]), List.append_nil]
  have hDrop : (c :: t ++ delim :: q).dropWhile (!isDelim ·) = delim :: q := by
    rw [List.dropWhile_append_of_pos (fun b hb => by simp [(hApart b hb).1]),
      List.dropWhile_cons_of_neg (by simp [isDelim_iff.mpr hDelim])]
  have hSpace : (c :: t).dropWhile isSpace = c :: t := List.dropWhile_cons_of_neg (by simp [hc.2])
  have hFirst : ¬(((c :: t ++ delim :: q).dropWhile isSpace).head? = some 0x5d ∧ buf = []) := by
    rw [List.cons_append, List.dropWhile_cons_of_neg (by simp [hc.2])]
    rintro ⟨hHead, -⟩
    cases hHead
    cases hc.1
  rw [fromElems_eq, if_neg hFirst, hDrop, hTake, hSpace, hRead]

/-- The loop reads back what was printed. -/
theorem fromElems_join {vals : List UInt32} (hne : vals ≠ [])
    (hRead : ∀ v ∈ vals, float4in (float4out v) = some v)
    (hApart : ∀ v ∈ vals, ∀ b ∈ float4out v, isDelim b = false ∧ isSpace b = false)
    (buf : Bytes) :
    fromElems text what (List.intercalate [0x2c] (vals.map float4out) ++ 0x5d :: rest) buf =
      .ok (buf ++ vals.flatMap putLe, rest) := by
  induction vals generalizing buf with
  | nil => exact absurd rfl hne
  | cons v vals ih =>
    have hFirst := hRead v List.mem_cons_self
    have hClean := hApart v List.mem_cons_self
    cases vals with
    | nil =>
      rw [List.map_cons, List.map_nil, List.intercalate_singleton,
        fromElems_elem hFirst hClean (.inr rfl), if_pos rfl]
      simp
    | cons w vals =>
      rw [List.map_cons, List.intercalate_cons_of_ne_nil (by simp), List.append_assoc,
        List.append_assoc, List.singleton_append, fromElems_elem hFirst hClean (.inl rfl),
        if_neg (by decide),
        ih (by simp) (fun u hu => hRead u (List.mem_cons_of_mem v hu))
          (fun u hu => hApart u (List.mem_cons_of_mem v hu)), List.append_assoc]
      rfl

end Loop

/-! ## Both ways -/

section Both

variable [Float4]

theorem fromText_ok {text bytes : Bytes} {what : String} (h : fromText text what = .ok bytes) :
    ∃ before p after elems vals, text = before ++ 0x5b :: p ∧
      (∀ b ∈ before, isSpace b = true) ∧ Listed p after elems vals ∧
      (∀ b ∈ after, isSpace b = true) ∧ bytes = vals.flatMap putLe := by
  unfold fromText at h
  dsimp only at h
  split at h
  · cases h
  rename_i hOpen
  obtain ⟨⟨buf, after⟩, hLoop, h⟩ := Trace.bind_ok.mp h
  dsimp only at h
  split at h
  · cases h
  rename_i hAfter
  cases h
  obtain ⟨elems, vals, hList, hOut⟩ := fromElems_ok hLoop
  have hHead : text.dropWhile isSpace = 0x5b :: (text.dropWhile isSpace).tail :=
    List.eq_cons_of_mem_head? (not_not.mp hOpen)
  have hText : text = text.takeWhile isSpace ++ 0x5b :: (text.dropWhile isSpace).tail := by
    rw [← hHead, List.takeWhile_append_dropWhile]
  refine ⟨_, _, after, elems, vals, hText, fun b hb => List.mem_takeWhile_imp hb, hList, ?_,
    by simpa using hOut⟩
  exact List.dropWhile_eq_nil_iff.mp (not_not.mp hAfter)

theorem Listed.length_eq {p rest : Bytes} {elems : List Bytes} {vals : List UInt32}
    (h : Listed p rest elems vals) : vals.length = elems.length := by
  simpa using (congrArg List.length h.read).symm

theorem fromText_bracket {p buf : Bytes} {what : String}
    (h : fromElems (0x5b :: p) what p [] = .ok (buf, [])) :
    fromText (0x5b :: p) what = .ok buf := by
  have hOpen : (0x5b :: p).dropWhile isSpace = 0x5b :: p := List.dropWhile_cons_of_neg (by decide)
  rw [fromText, hOpen]
  dsimp only
  rw [if_neg (not_not.mpr List.head?_cons), List.tail_cons, h]
  rfl

/-- The bytes of a vector come back from its text, and a text is read only where it is
one bracketed list with nothing but spaces around it, four bytes for an element. -/
theorem fromText_toText
    (hInverse : ∀ bits, isNaN bits = false → float4in (float4out bits) = some bits)
    (hClean : ∀ bits, ∀ b ∈ float4out bits,
      b ≠ 0x2c ∧ b ≠ 0x5b ∧ b ≠ 0x5d ∧ isSpace b = false) :
    (∀ bytes what what', bytes ≠ [] → bytes.length % 4 = 0 →
      (∀ bits ∈ elements bytes, isNaN bits = false) →
      ∃ text, toText bytes what = .ok text ∧ fromText text what' = .ok bytes) ∧
    ∀ text what bytes, fromText text what = .ok bytes →
      ∃ before p after elems vals, text = before ++ 0x5b :: p ∧
        (∀ b ∈ before, isSpace b = true) ∧ Listed p after elems vals ∧
        (∀ b ∈ after, isSpace b = true) ∧ bytes = vals.flatMap putLe ∧
        bytes.length = 4 * elems.length := by
  constructor
  · intro bytes what what' hne hWhole hNaN
    refine ⟨_, (if_neg hne).trans (if_neg (not_not.mpr hWhole)), fromText_bracket ?_⟩
    have hApart : ∀ v ∈ elements bytes, ∀ b ∈ float4out v,
        isDelim b = false ∧ isSpace b = false := by
      intro v _ b hb
      obtain ⟨hComma, -, hClose, hSpace⟩ := hClean v b hb
      refine ⟨?_, hSpace⟩
      by_contra hDelim
      exact (isDelim_iff.mp (by simpa using hDelim)).elim hComma hClose
    conv_rhs => rw [← flatMap_putLe_elements bytes hWhole]
    exact fromElems_join (elements_ne_nil hne hWhole) (fun v hv => hInverse v (hNaN v hv)) hApart []
  · intro text what bytes h
    obtain ⟨before, p, after, elems, vals, hText, hBefore, hList, hAfter, rfl⟩ := fromText_ok h
    exact ⟨before, p, after, elems, vals, hText, hBefore, hList, hAfter, rfl,
      by rw [length_flatMap_putLe, hList.length_eq]⟩

end Both

/-- Zero and one print as themselves; any other element as a longer row of ones. -/
@[reducible] def unitFloats : Float4 where
  float4out bits :=
    if bits = 0 then [0x30] else if bits = 0x3f800000 then [0x31]
    else List.replicate (bits.toNat + 1) 0x31
  float4in t :=
    if t = [] then none else if t = [0x30] then some 0 else if t = [0x31] then some 0x3f800000
    else some (UInt32.ofNat (t.length - 1))
  float4in_nil := if_pos rfl

/-- The vector `[1,0]`. -/
theorem fromText_toText_unit : letI := unitFloats
    toText [0, 0, 128, 63, 0, 0, 0, 0] "the column" = .ok [0x5b, 0x31, 0x2c, 0x30, 0x5d] ∧
      ∃ text, toText [0, 0, 128, 63, 0, 0, 0, 0] "the column" = .ok text ∧
        fromText text "the column" = .ok [0, 0, 128, 63, 0, 0, 0, 0] := by
  let _ := unitFloats
  have hInverse : ∀ bits, isNaN bits = false → float4in (float4out bits) = some bits := by
    intro bits _
    by_cases hZero : bits = 0
    · subst hZero
      rfl
    by_cases hOne : bits = 0x3f800000
    · subst hOne
      rfl
    have hOut : float4out bits = List.replicate (bits.toNat + 1) 0x31 :=
      (if_neg hZero).trans (if_neg hOne)
    have hPos : 0 < bits.toNat := Nat.pos_of_ne_zero fun h => hZero (UInt32.toNat_inj.mp h)
    -- a row of two or more is none of the texts read as themselves
    have hLong {t : Bytes} (ht : t.length ≤ 1) : float4out bits ≠ t := by
      rintro rfl
      rw [hOut, List.length_replicate] at ht
      omega
    refine (if_neg (hLong (by simp))).trans ((if_neg (hLong (by simp))).trans
      ((if_neg (hLong (by simp))).trans ?_))
    rw [hOut, List.length_replicate, Nat.add_sub_cancel, UInt32.ofNat_toNat]
  have hClean : ∀ bits, ∀ b ∈ float4out bits,
      b ≠ 0x2c ∧ b ≠ 0x5b ∧ b ≠ 0x5d ∧ isSpace b = false := by
    intro bits b hb
    have hDigit : b = 0x30 ∨ b = 0x31 := by
      change b ∈ ite _ _ (ite _ _ _) at hb
      split_ifs at hb
      · exact .inl (List.mem_singleton.mp hb)
      · exact .inr (List.mem_singleton.mp hb)
      · exact .inr (List.eq_of_mem_replicate hb)
    rcases hDigit with rfl | rfl <;> decide
  have hNumbers : ∀ bits ∈ elements [0, 0, 128, 63, 0, 0, 0, 0], isNaN bits = false := by
    intro bits hBits
    rcases List.mem_pair.mp hBits with rfl | rfl <;> decide
  exact ⟨by decide, (fromText_toText hInverse hClean).1 [0, 0, 128, 63, 0, 0, 0, 0] "the column"
    "the column" nofun rfl hNumbers⟩

end Vec

end ValkeyFdw
