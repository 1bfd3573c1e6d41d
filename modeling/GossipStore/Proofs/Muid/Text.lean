import GossipStore.Data.Except
import GossipStore.Muid.Text

set_option autoImplicit false

/-! # Which addresses survive their text form

A number that is shown in padded digits is read back whatever its width (`Hex.readNat_padZeros`), so
a field that does not fit into its digits does no harm. What does is the row of `F`s: it stands for
all negative values at once, and the one non-negative value whose digits it is (`rowOfFs`) is taken
for them (`Muid.readField_fieldChars`). All other addresses are read back as they were
(`Muid.text_readsBack`).
-/

namespace GossipStore

/-! ## Numbers -/

namespace Hex

theorem readDigits_append (limit value : Nat) (ds more : List Char) :
    readDigits limit value (ds ++ more)
      = (readDigits limit value ds).bind fun v => readDigits limit v more := by
  induction ds generalizing value with
  | nil => rfl
  | cons c rest ih =>
      rw [List.cons_append, readDigits, readDigits]
      cases digitValue? c with
      | none => rfl
      | some d =>
          by_cases hle : value * 16 + d ≤ limit
          · simp only [if_pos hle, ih]
          · simp only [if_neg hle]
            rfl

theorem readDigits_upperDigits {limit n : Nat} (h : n ≤ limit) :
    readDigits limit 0 (upperDigits n) = .ok n := by
  -- the digits before the last one are those of a sixteenth
  fun_induction upperDigits n with
  | case1 n hn => simp [readDigits, digitValue?_upperDigit n hn, h]
  | case2 n hn ih =>
      have hlast : n / 16 * 16 + n % 16 = n := by omega
      rw [readDigits_append, ih (by omega)]
      simp [Except.bind, readDigits, digitValue?_upperDigit (n % 16) (by omega), hlast, h]

theorem readDigits_zeros_append (limit k : Nat) (ds : List Char) :
    readDigits limit 0 (List.replicate k '0' ++ ds) = readDigits limit 0 ds := by
  have hzero : digitValue? '0' = some 0 := rfl
  induction k with
  | zero => rfl
  | succ k ih =>
      rw [List.replicate_succ, List.cons_append, readDigits, hzero]
      simpa using ih

theorem isSome_digitValue?_of_mem_upperDigits {n : Nat} {c : Char} (h : c ∈ upperDigits n) :
    (digitValue? c).isSome = true := by
  fun_induction upperDigits n with
  | case1 n hn =>
      rw [List.mem_singleton.mp h, digitValue?_upperDigit n hn]
      rfl
  | case2 n hn ih =>
      rcases List.mem_append.mp h with h | h
      · exact ih h
      · rw [List.mem_singleton.mp h, digitValue?_upperDigit (n % 16) (by omega)]
        rfl

theorem isSome_digitValue?_of_mem_padZeros {width n : Nat} {c : Char}
    (h : c ∈ padZeros width (upperDigits n)) : (digitValue? c).isSome = true := by
  rcases List.mem_append.mp h with h | h
  · rw [(List.mem_replicate.mp h).2]
    rfl
  · exact isSome_digitValue?_of_mem_upperDigits h

theorem upperDigits_ne_nil (n : Nat) : upperDigits n ≠ [] := by
  rw [upperDigits]
  split <;> simp

/-- A list of digits alone has no sign to be looked at. -/
theorem readNat_eq_readDigits (limit : Nat) {ds : List Char} (hne : ds ≠ [])
    (hdigits : ∀ c ∈ ds, (digitValue? c).isSome = true) :
    readNat limit ds = readDigits limit 0 ds := by
  have hplus : '+' ∉ ds := fun hmem => absurd (hdigits _ hmem) (by decide)
  unfold readNat
  split
  · exact absurd rfl hne
  · exact absurd List.mem_cons_self hplus
  · exact absurd List.mem_cons_self hplus
  · rfl

/-- **A number is read back from its padded digits**, also where it has more of them. -/
theorem readNat_padZeros {limit n : Nat} (width : Nat) (h : n ≤ limit) :
    readNat limit (padZeros width (upperDigits n)) = .ok n := by
  have hne : padZeros width (upperDigits n) ≠ [] := by
    simp [padZeros, upperDigits_ne_nil]
  rw [readNat_eq_readDigits limit hne fun c hc => isSome_digitValue?_of_mem_padZeros hc, padZeros,
    readDigits_zeros_append, readDigits_upperDigits h]

/-! ## Rows of `F`s -/

/-- The number whose digits are a row of `F`s. -/
def rowOfFs : (width : Nat) → Nat
  | 0 => 0
  | width + 1 => rowOfFs width * 16 + 15

/-- Whether a character is an `F` of either case. -/
def isF (c : Char) : Bool := c = 'F' || c = 'f'

theorem upperDigits_rowOfFs (width : Nat) :
    upperDigits (rowOfFs (width + 1)) = List.replicate (width + 1) 'F' := by
  induction width with
  | zero =>
      rw [upperDigits]
      rfl
  | succ width ih =>
      have hge : ¬ rowOfFs (width + 1 + 1) < 16 := by
        simp only [rowOfFs]
        omega
      have hdiv : rowOfFs (width + 1 + 1) / 16 = rowOfFs (width + 1) := by
        rw [rowOfFs]
        omega
      have hmod : rowOfFs (width + 1 + 1) % 16 = 15 := by
        rw [rowOfFs]
        omega
      have hlast : upperDigit 15 = 'F' := rfl
      rw [upperDigits, if_neg hge, hdiv, hmod, ih, hlast, ← List.replicate_succ']

theorem eq_of_isF_upperDigit : ∀ n, n < 16 → isF (upperDigit n) = true → n = 15 := by decide

theorem eq_rowOfFs_of_all_upperDigits {n : Nat} (h : (upperDigits n).all isF = true) :
    n = rowOfFs (upperDigits n).length := by
  fun_induction upperDigits n with
  | case1 n hn =>
      have hlast : isF (upperDigit n) = true := by simpa using h
      exact eq_of_isF_upperDigit n hn hlast
  | case2 n hn ih =>
      rw [List.all_append, Bool.and_eq_true] at h
      have hlast : isF (upperDigit (n % 16)) = true := by simpa using h.2
      have hmod := eq_of_isF_upperDigit (n % 16) (by omega) hlast
      have hdiv := ih h.1
      rw [List.length_append, List.length_singleton, rowOfFs, ← hdiv]
      omega

/-- Padded digits are a full row of `F`s for one number only. -/
theorem padZeros_eq_row_iff (width n : Nat) :
    (padZeros (width + 1) (upperDigits n)).length = width + 1
        ∧ (padZeros (width + 1) (upperDigits n)).all isF = true
      ↔ n = rowOfFs (width + 1) := by
  constructor
  · rintro ⟨hlength, hall⟩
    rw [padZeros, List.all_append, Bool.and_eq_true] at hall
    -- a zero in front would be no `F`
    have hfull : width + 1 - (upperDigits n).length = 0 := by
      refine Nat.eq_zero_of_not_pos fun hpad => ?_
      have hzero : '0' ∈ List.replicate (width + 1 - (upperDigits n).length) '0' :=
        List.mem_replicate.mpr ⟨by omega, rfl⟩
      exact absurd (List.all_eq_true.mp hall.1 _ hzero) (by decide)
    rw [padZeros, hfull, List.replicate_zero, List.nil_append] at hlength
    have hrow := eq_rowOfFs_of_all_upperDigits hall.2
    rwa [hlength] at hrow
  · rintro rfl
    have hF : isF 'F' = true := rfl
    rw [upperDigits_rowOfFs]
    simp [padZeros, hF]

end Hex

/-! ## Fields -/

namespace Muid

open Hex (rowOfFs isF padZeros upperDigits)

theorem ofNat_toNat_toInt {n : Int64} (h : ¬ n < 0) : Int64.ofNat n.toInt.toNat = n := by
  have hnonneg : 0 ≤ n.toInt := by
    rw [Int64.lt_iff_toInt_lt, Int64.toInt_zero] at h
    omega
  rw [← Int64.ofInt_eq_ofNat, Int.toNat_of_nonneg hnonneg, Int64.ofInt_toInt]

theorem readPart_padZeros {limit n : Nat} (width : Nat) (h : n ≤ limit) :
    readPart limit (padZeros width (upperDigits n)) = .ok n := by
  rw [readPart, Hex.readNat_padZeros width h, mapError_ok]

/-- What a signed field of some digits is read as. -/
def readAs (width : Nat) (value : Int64) : Int64 :=
  if value < 0 ∨ value.toInt = rowOfFs width then -1 else value

theorem readField_fieldChars (width : Nat) (value : Int64) :
    readField (width + 1) (fieldChars (width + 1) value) = .ok (readAs (width + 1) value) := by
  have hF : isF 'F' = true := rfl
  rw [fieldChars, readAs]
  by_cases hneg : value < 0
  · have hrow : (List.replicate (width + 1) 'F').length = width + 1
        ∧ (List.replicate (width + 1) 'F').all isF = true := by simp [hF]
    rw [if_pos hneg, if_pos (.inl hneg)]
    exact if_pos hrow
  · have hread : readPart 0x7fffffffffffffff
        (padZeros (width + 1) (upperDigits value.toInt.toNat)) = .ok value.toInt.toNat := by
      have hmax := value.toInt_lt
      exact readPart_padZeros (width + 1) (by omega)
    have hiff := Hex.padZeros_eq_row_iff width value.toInt.toNat
    rw [if_neg hneg]
    by_cases hrow : value.toInt = rowOfFs (width + 1)
    · rw [if_pos (.inr hrow)]
      exact if_pos (hiff.mpr (by omega))
    · have hnonneg : ¬ value.toInt < 0 := by
        rwa [Int64.lt_iff_toInt_lt, Int64.toInt_zero] at hneg
      have hnot : ¬ (value < 0 ∨ value.toInt = rowOfFs (width + 1)) := fun h => h.elim hneg hrow
      rw [if_neg hnot]
      refine (if_neg fun h => hrow ?_).trans ?_
      · have := hiff.mp h
        omega
      · rw [hread]
        exact congrArg Except.ok (ofNat_toNat_toInt hneg)

/-! ## Addresses -/

theorem splitDashes_of_not_mem {cs : List Char} (h : '-' ∉ cs) : splitDashes cs = [cs] := by
  induction cs with
  | nil => rfl
  | cons c rest ih =>
      obtain ⟨hc, hrest⟩ := not_or.mp (mt List.mem_cons.mpr h)
      rw [splitDashes, if_neg (Ne.symm hc), ih hrest]

theorem splitDashes_append {cs more : List Char} (h : '-' ∉ cs) :
    splitDashes (cs ++ '-' :: more) = cs :: splitDashes more := by
  induction cs with
  | nil => rfl
  | cons c rest ih =>
      obtain ⟨hc, hrest⟩ := not_or.mp (mt List.mem_cons.mpr h)
      rw [List.cons_append, splitDashes, if_neg (Ne.symm hc), ih hrest]

theorem dash_not_mem_padZeros (width n : Nat) : '-' ∉ padZeros width (upperDigits n) :=
  fun h => absurd (Hex.isSome_digitValue?_of_mem_padZeros h) (by decide)

theorem dash_not_mem_fieldChars (width : Nat) (value : Int64) :
    '-' ∉ fieldChars width value := by
  rw [fieldChars]
  split
  · exact fun h => absurd (List.mem_replicate.mp h).2 (by decide)
  · exact dash_not_mem_padZeros width _

theorem splitDashes_chars (m : Muid) : splitDashes m.chars =
    [fieldChars timestampDigits m.timestamp, fieldChars medallionDigits m.medallion,
      padZeros offsetDigits (upperDigits m.offset.toNat)] := by
  rw [chars, List.append_assoc, List.cons_append, splitDashes_append (dash_not_mem_fieldChars _ _),
    splitDashes_append (dash_not_mem_fieldChars _ _),
    splitDashes_of_not_mem (dash_not_mem_padZeros _ _)]

/-- What an address is read as: a field that is negative, or whose digits are a row of `F`s, comes
back as minus one. -/
def asRead (m : Muid) : Muid where
  timestamp := if m.timestamp < 0 ∨ m.timestamp = 0xfffffffffffff then -1 else m.timestamp
  medallion := if m.medallion < 0 ∨ m.medallion = 0xfffffffffff then -1 else m.medallion
  offset := m.offset

/-- Whether the text form of an address tells it from all others: each signed field is minus one,
or it is not negative and not a row of `F`s. -/
def Legible (m : Muid) : Prop :=
  (m.timestamp = -1 ∨ 0 ≤ m.timestamp ∧ m.timestamp ≠ 0xfffffffffffff)
    ∧ (m.medallion = -1 ∨ 0 ≤ m.medallion ∧ m.medallion ≠ 0xfffffffffff)

instance (m : Muid) : Decidable m.Legible := inferInstanceAs (Decidable (_ ∧ _))

theorem readAs_eq {width : Nat} {row : Int64} (hrow : row.toInt = rowOfFs width) (value : Int64) :
    readAs width value = if value < 0 ∨ value = row then -1 else value := by
  have hiff : value.toInt = rowOfFs width ↔ value = row := by rw [← hrow, Int64.toInt_inj]
  simp only [readAs, hiff]

/-- The text form of an address is read, if not always as that address. -/
theorem parse_text (m : Muid) : parse m.text = .ok m.asRead := by
  have hoffset : readPart 0xffffffff (padZeros offsetDigits (upperDigits m.offset.toNat))
      = .ok m.offset.toNat := by
    have hmax := m.offset.toNat_lt
    exact readPart_padZeros offsetDigits (by omega)
  have htimestamp : readField timestampDigits (fieldChars timestampDigits m.timestamp)
      = .ok m.asRead.timestamp :=
    (readField_fieldChars 12 m.timestamp).trans (congrArg _ (readAs_eq rfl m.timestamp))
  have hmedallion : readField medallionDigits (fieldChars medallionDigits m.medallion)
      = .ok m.asRead.medallion :=
    (readField_fieldChars 10 m.medallion).trans (congrArg _ (readAs_eq rfl m.medallion))
  rw [parse, text, String.toList_ofList, parseChars, splitDashes_chars]
  simp only [hoffset, htimestamp, hmedallion, bind, Except.bind, pure, Except.pure,
    UInt32.ofNat_toNat]
  rfl

theorem asRead_eq_self_iff {m : Muid} : m.asRead = m ↔ m.Legible := by
  have hfield (value row : Int64) : (if value < 0 ∨ value = row then -1 else value) = value
      ↔ value = -1 ∨ 0 ≤ value ∧ value ≠ row := by
    by_cases hrow : value < 0 ∨ value = row
    · have hnot : ¬ (0 ≤ value ∧ value ≠ row) := fun ⟨hnonneg, hne⟩ =>
        hrow.elim (fun hneg => absurd hneg (Std.not_lt.mpr hnonneg)) hne
      rw [if_pos hrow]
      exact ⟨fun h => .inl h.symm, fun h => (h.resolve_right hnot).symm⟩
    · obtain ⟨hneg, hne⟩ := not_or.mp hrow
      rw [if_neg hrow]
      exact iff_of_true rfl (.inr ⟨Std.not_lt.mp hneg, hne⟩)
  rw [Legible, ← hfield, ← hfield]
  cases m
  simp [asRead]

/-- **Which addresses survive their text form.** The text of every address is read, as the address
in which minus one has taken the place of a negative timestamp and medallion and of those that are
written as rows of `F`s; numbers that are wider than their fields stay as they are. So exactly the
legible addresses are read back, and no two of them share a text. -/
theorem text_readsBack : (∀ m : Muid, parse m.text = .ok m.asRead)
    ∧ (∀ m : Muid, parse m.text = .ok m ↔ m.Legible)
    ∧ ∀ m n : Muid, m.Legible → n.Legible → m.text = n.text → m = n := by
  have hback (m : Muid) : parse m.text = .ok m ↔ m.Legible := by
    rw [parse_text, Except.ok.injEq, asRead_eq_self_iff]
  refine ⟨parse_text, hback, fun m n hm hn htext => ?_⟩
  have hparse := (hback m).mpr hm
  rw [htext, (hback n).mpr hn] at hparse
  exact (Except.ok.inj hparse).symm

/-- The last values of all three fields, which are wider than the first two, and the neighbours of
the rows of `F`s. -/
theorem text_readsBack_atEdges :
    let widest : Muid := ⟨0x7fffffffffffffff, 0x7fffffffffffffff, 0xffffffff⟩
    let beside : Muid := ⟨0xffffffffffffe, 0x100000000000, 0⟩
    (widest.Legible ∧ beside.Legible ∧ widest ≠ beside) ∧ parse widest.text = .ok widest
      ∧ parse beside.text = .ok beside ∧ widest.text ≠ beside.text := by
  intro widest beside
  have hwidest : widest.Legible := by decide
  have hbeside : beside.Legible := by decide
  have hne : widest ≠ beside := by decide
  exact ⟨⟨hwidest, hbeside, hne⟩, (text_readsBack.2.1 widest).mpr hwidest,
    (text_readsBack.2.1 beside).mpr hbeside,
    fun htext => hne (text_readsBack.2.2 widest beside hwidest hbeside htext)⟩

end Muid

end GossipStore
