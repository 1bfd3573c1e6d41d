import GossipStore.Muid
import GossipStore.Text.Hex
import GossipStore.Text.Quoted

set_option autoImplicit false

/-! # The text form of an address

An address is written as three hexadecimal fields joined by dashes: thirteen digits of timestamp,
eleven of medallion and eight of offset, all in upper case. A negative field is written as a row
of `F`s, and a full row of `F`s, in either case, is read as minus one. -/

namespace GossipStore

namespace Muid

/-- Digits of the timestamp field. -/
def timestampDigits : Nat := 13

/-- Digits of the medallion field. -/
def medallionDigits : Nat := 11

/-- Digits of the offset field. -/
def offsetDigits : Nat := 8

/-! ## Writing -/

/-- A signed field, which all negative values share one form of. -/
def fieldChars (width : Nat) (value : Int64) : List Char :=
  if value < 0 then List.replicate width 'F'
  else Hex.padZeros width (Hex.upperDigits value.toInt.toNat)

/-- The characters of an address. -/
def chars (m : Muid) : List Char :=
  fieldChars timestampDigits m.timestamp ++ '-' :: fieldChars medallionDigits m.medallion
    ++ '-' :: Hex.padZeros offsetDigits (Hex.upperDigits m.offset.toNat)

/-- The text form of an address. -/
def text (m : Muid) : String := String.ofList m.chars

/-- The text form together with the name of the type. -/
def debugText (m : Muid) : String := s!"Muid({m.text})"

/-! ## Reading -/

/-- Why a text is not an address. -/
inductive ParseError where
  /-- The text does not have three parts. -/
  | partCount (text : String)
  /-- A part is not a number of its field. -/
  | badPart (part : String) (cause : Hex.NumberError)
deriving DecidableEq, Repr

/-- The wording of a parse error. -/
def ParseError.message : ParseError → String
  | .partCount text => s!"expected 3 parts in {Quoted.encode text}"
  | .badPart part cause => s!"{part}: {cause.message}"

/-- Cuts a text at every dash. -/
def splitDashes : List Char → List (List Char)
  | [] => [[]]
  | c :: rest =>
    if c = '-' then [] :: splitDashes rest
    else match splitDashes rest with
      | [] => [[c]]
      | first :: others => (c :: first) :: others

/-- Reads one part as a number up to a limit. -/
def readPart (limit : Nat) (part : List Char) : Except ParseError Nat :=
  (Hex.readNat limit part).mapError (.badPart (String.ofList part))

/-- Reads a signed field: a full row of `F`s is minus one. -/
def readField (width : Nat) (part : List Char) : Except ParseError Int64 :=
  if part.length = width ∧ part.all (fun c => c = 'F' || c = 'f') then .ok (-1)
  else (readPart 0x7fffffffffffffff part).map Int64.ofNat

/-- Reads the characters of an address, the offset first. -/
def parseChars (cs : List Char) : Except ParseError Muid :=
  match splitDashes cs with
  | [timestamp, medallion, offset] => do
    let offset ← readPart 0xffffffff offset
    let timestamp ← readField timestampDigits timestamp
    let medallion ← readField medallionDigits medallion
    return ⟨timestamp, medallion, UInt32.ofNat offset⟩
  | _ => .error (.partCount (String.ofList cs))

/-- Reads the text form of an address. -/
def parse (s : String) : Except ParseError Muid := parseChars s.toList

end Muid

end GossipStore
