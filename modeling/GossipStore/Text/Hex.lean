import GossipStore.Bytes

set_option autoImplicit false

/-! # Hexadecimal text

Byte strings are shown as two lower-case digits a byte and read in either case
(`Hex.decode?_encode`). Numbers are shown in upper-case digits padded with zeros, and read by
`Hex.readNat`, which also takes unpadded digits, either case and a leading plus sign. -/

namespace GossipStore

namespace Hex

/-! ## Digits -/

/-- The lower-case digit of a value below sixteen. -/
def lowerDigit (n : Nat) : Char := Char.ofNat (if n < 10 then 48 + n else 87 + n)

/-- The upper-case digit of a value below sixteen. -/
def upperDigit (n : Nat) : Char := Char.ofNat (if n < 10 then 48 + n else 55 + n)

/-- The value of a digit of either case. -/
def digitValue? (c : Char) : Option Nat :=
  if '0' ≤ c ∧ c ≤ '9' then some (c.toNat - 48)
  else if 'a' ≤ c ∧ c ≤ 'f' then some (c.toNat - 87)
  else if 'A' ≤ c ∧ c ≤ 'F' then some (c.toNat - 55)
  else none

theorem digitValue?_lowerDigit : ∀ n, n < 16 → digitValue? (lowerDigit n) = some n := by decide

theorem digitValue?_upperDigit : ∀ n, n < 16 → digitValue? (upperDigit n) = some n := by decide

/-! ## Byte strings -/

/-- The digits of a byte string, two a byte. -/
def encodeChars (b : Bytes) : List Char :=
  b.flatMap fun byte => [lowerDigit (byte.toNat / 16), lowerDigit (byte.toNat % 16)]

/-- The lower-case hexadecimal text of a byte string. -/
def encode (b : Bytes) : String := String.ofList (encodeChars b)

/-- Reads digits of either case, two a byte. -/
def decodeChars? : List Char → Option Bytes
  | [] => some []
  | [_] => none
  | hi :: lo :: rest =>
    match digitValue? hi, digitValue? lo, decodeChars? rest with
    | some h, some l, some b => some (UInt8.ofNat (16 * h + l) :: b)
    | _, _, _ => none

/-- The byte string that a hexadecimal text shows. -/
def decode? (s : String) : Option Bytes := decodeChars? s.toList

theorem decodeChars?_encodeChars (b : Bytes) : decodeChars? (encodeChars b) = some b := by
  induction b with
  | nil => rfl
  | cons byte rest ih =>
    have hb := byte.toNat_lt
    have h := digitValue?_lowerDigit (byte.toNat / 16) (by omega)
    have l := digitValue?_lowerDigit (byte.toNat % 16) (by omega)
    have hrest : encodeChars (byte :: rest) =
        lowerDigit (byte.toNat / 16) :: lowerDigit (byte.toNat % 16) :: encodeChars rest := rfl
    rw [hrest, decodeChars?, h, l, ih]
    simp [show 16 * (byte.toNat / 16) + byte.toNat % 16 = byte.toNat by omega]

/-- The text of a byte string reads back as that byte string. -/
theorem decode?_encode (b : Bytes) : decode? (encode b) = some b := by
  simp [decode?, encode, decodeChars?_encodeChars]

/-! ## Numbers -/

/-- The upper-case digits of a number, most significant first and without leading zeros. -/
def upperDigits (n : Nat) : List Char :=
  if n < 16 then [upperDigit n] else upperDigits (n / 16) ++ [upperDigit (n % 16)]
termination_by n

/-- Fills up with zeros on the left to at least `width` characters. -/
def padZeros (width : Nat) (cs : List Char) : List Char :=
  List.replicate (width - cs.length) '0' ++ cs

/-- The lower-case digits of a word, all sixteen of them. -/
def ofUInt64 (n : UInt64) : String := encode (Bytes.ofNat 8 n.toNat)

/-- Why a text is not a number. -/
inductive NumberError where
  | empty
  | invalidDigit
  | tooLarge
deriving DecidableEq, Repr

/-- The wording of a number error. -/
def NumberError.message : NumberError → String
  | .empty => "cannot parse integer from empty string"
  | .invalidDigit => "invalid digit found in string"
  | .tooLarge => "number too large to fit in target type"

/-- Reads digits from left to right on top of the value so far. The first character that is no
digit or carries the value over the limit decides the error. -/
def readDigits (limit : Nat) : Nat → List Char → Except NumberError Nat
  | value, [] => .ok value
  | value, c :: rest =>
    match digitValue? c with
    | none => .error .invalidDigit
    | some d => if value * 16 + d ≤ limit then readDigits limit (value * 16 + d) rest
      else .error .tooLarge

/-- Reads one number up to a limit: an optional plus sign and then at least one digit. -/
def readNat (limit : Nat) : List Char → Except NumberError Nat
  | [] => .error .empty
  | ['+'] => .error .invalidDigit
  | '+' :: digits => readDigits limit 0 digits
  | digits => readDigits limit 0 digits

end Hex

end GossipStore
