import GossipStore.Cbor.Value

set_option autoImplicit false

/-! # Reading items

`readItem` reads the first item of a byte string and returns the bytes after it. It takes every
form the format allows, not only the canonical one: long heads, strings, arrays and maps of
indefinite length, floating point numbers and tags. Nesting is bounded by a budget, on which the
reader recurses; a loop up to a break mark takes at most one step a byte. An error names the fault
that comes first; in a long text, bytes that are no text come before bytes that are missing. -/

namespace GossipStore.Cbor

/-- Why a byte string does not begin with an item. -/
inductive ReadError where
  /-- The bytes end inside the item. -/
  | truncated
  /-- The bytes break the rules of the format. -/
  | illFormed
  /-- A mark or value stands where none is expected. -/
  | unexpected
  /-- Arrays, maps and tags are nested too deeply. -/
  | tooDeep
deriving DecidableEq, Repr

/-- The name of the class of a read error. -/
def ReadError.category : ReadError → String
  | .truncated => "Io"
  | .illFormed => "Syntax"
  | .unexpected => "Semantic"
  | .tooDeep => "RecursionLimitExceeded"

/-- A step that takes a value off the front of the input. -/
abbrev Reader (α : Type) := Bytes → Except ReadError (α × Bytes)

/-! ## Heads -/

/-- The argument of a head. -/
inductive Argument where
  | value (n : Nat)
  | indefinite
deriving DecidableEq, Repr

/-- The head of an item: major type, additional information and argument. -/
structure Head where
  major : Nat
  info : Nat
  argument : Argument
deriving DecidableEq, Repr

/-- Takes a given number of bytes. -/
def takeBytes (n : Nat) : Reader Bytes := fun input =>
  if n ≤ input.length then .ok (input.take n, input.drop n) else .error .truncated

/-- The number of bytes that the argument takes after a head with this additional information. -/
def argumentWidth? : (info : Nat) → Option Nat
  | 24 => some 1
  | 25 => some 2
  | 26 => some 4
  | 27 => some 8
  | _ => none

/-- Reads a head. -/
def readHead : Reader Head
  | [] => .error .truncated
  | byte :: rest =>
    let major := byte.toNat / 32
    let info := byte.toNat % 32
    if info < 24 then .ok (⟨major, info, .value info⟩, rest)
    else if info = 31 then
      if major = unsignedType ∨ major = negativeType ∨ major = tagType then .error .illFormed
      else .ok (⟨major, info, .indefinite⟩, rest)
    else match argumentWidth? info with
      | none => .error .illFormed
      | some width => do
        let (digits, rest) ← takeBytes width rest
        return (⟨major, info, .value (Bytes.toNat digits)⟩, rest)

/-! ## Strings -/

/-- The most bytes of a text that are looked at together. -/
def textBlock : Nat := 4096

/-- The bytes left over after the longest text at the front of some bytes, if there are at most
three of them: so many may belong to a character that goes on after the bytes. -/
def textRemainder? (b : Bytes) : Option Bytes :=
  ([0, 1, 2, 3].find? fun k => (Bytes.toText? (b.take (b.length - k))).isSome).map fun k =>
    b.drop (b.length - k)

/-- Whether the complete blocks at the front of some bytes may begin a text. A block begins with
what the block before it has left over. The budget is one block a byte. -/
def beginsText : (budget : Nat) → (leftOver input : Bytes) → Bool
  | 0, _, _ => true
  | budget + 1, leftOver, input =>
    let fresh := textBlock - leftOver.length
    if input.length < fresh then true
    else match textRemainder? (leftOver ++ input.take fresh) with
      | none => false
      | some leftOver => beginsText budget leftOver (input.drop fresh)

/-- Reads a text of a given number of bytes. Of a text that is cut off, the complete blocks are
looked at before the missing bytes are noticed. -/
def readPlainText (n : Nat) : Reader String := fun input =>
  if n ≤ input.length then
    match Bytes.toText? (input.take n) with
    | none => .error .illFormed
    | some s => .ok (s, input.drop n)
  else .error (if beginsText input.length [] input then .truncated else .illFormed)

/-- Reads the pieces of a string of indefinite length up to its break mark. Pieces may be of
indefinite length themselves; `level` counts the open ones. The budget is one step a byte. -/
def readPieces {α : Type} (major : Nat) (piece : Nat → Reader α) :
    (budget level : Nat) → Reader (List α)
  | 0, _, _ => .error .truncated
  | budget + 1, level, input => do
    let (head, rest) ← readHead input
    match head.argument with
    | .indefinite =>
      -- A break mark ends the innermost open string.
      if head.major = simpleType then
        match level with
        | 0 => return ([], rest)
        | level + 1 => readPieces major piece budget level rest
      else if head.major = major then readPieces major piece budget (level + 1) rest
      else .error .illFormed
    | .value n =>
      if head.major = major then
        let (p, rest) ← piece n rest
        let (ps, rest) ← readPieces major piece budget level rest
        return (p :: ps, rest)
      else .error .illFormed

/-- Reads a byte string after its head. -/
def readByteString : Argument → Reader Bytes
  | .value n, input => takeBytes n input
  | .indefinite, input => do
    let (pieces, rest) ← readPieces bytesType takeBytes input.length 0 input
    return (pieces.flatten, rest)

/-- Reads a text after its head. Each piece of a text must be a text. -/
def readText : Argument → Reader String
  | .value n, input => readPlainText n input
  | .indefinite, input => do
    let (pieces, rest) ← readPieces textType readPlainText input.length 0 input
    return (String.join pieces, rest)

/-! ## Sequences -/

/-- Reads a given number of values. -/
def readMany {α : Type} (read : Reader α) : Nat → Reader (List α)
  | 0, input => .ok ([], input)
  | n + 1, input => do
    let (x, rest) ← read input
    let (xs, rest) ← readMany read n rest
    return (x :: xs, rest)

/-- Reads values up to a break mark. The budget is one value a byte. -/
def readUntilBreak {α : Type} (read : Reader α) : (budget : Nat) → Reader (List α)
  | 0, _ => .error .truncated
  | budget + 1, input =>
    match input with
    | [] => .error .truncated
    | byte :: rest =>
      if byte = breakByte then .ok ([], rest)
      else do
        let (x, rest) ← read input
        let (xs, rest) ← readUntilBreak read budget rest
        return (x :: xs, rest)

/-- Reads the members of an array or map after its head. -/
def readMembers {α : Type} (read : Reader α) : Argument → Reader (List α)
  | .value n, input => readMany read n input
  | .indefinite, input => readUntilBreak read input.length input

/-- Reads a key and a value. -/
def readPair {α : Type} (read : Reader α) : Reader (α × α) := fun input => do
  let (k, rest) ← read input
  let (v, rest) ← read rest
  return ((k, v), rest)

/-! ## Items -/

/-- The tag of a big natural number. -/
def bigNatTag : Nat := 2

/-- The tag of a big negative number. -/
def bigNegTag : Nat := 3

/-- The most bytes of a big number that is read as a number. -/
def bigWidth : Nat := 16

/-- The least natural number that is too big for a big negative number. -/
def bigNegLimit : Nat := 0x80000000000000000000000000000000

/-- The item for a tagged big number given by its bytes: an integer if it is in range. -/
def bigNumber (tag : Nat) (b : Bytes) : Except ReadError Value :=
  let n := Bytes.toNat b
  if tag = bigNegTag ∧ bigNegLimit ≤ n then .error .unexpected
  else if n < 0x10000000000000000 then
    .ok (if tag = bigNatTag then .unsigned (UInt64.ofNat n) else .negative (UInt64.ofNat n))
  else .ok (.tag (UInt64.ofNat tag) (.bytes b))

/-- Reads what follows the head of a tag. The next head is read first: a short byte string after
the tag of a big number is a number, and anything else is a nested item. -/
def readTagged (nested : Option (Reader Value)) (tag : Nat) : Reader Value := fun input => do
  let (next, rest) ← readHead input
  let plain : Except ReadError (Value × Bytes) :=
    match nested with
    | none => .error .tooDeep
    | some read => do
      let (content, rest) ← read input
      return (.tag (UInt64.ofNat tag) content, rest)
  match next.argument with
  | .value n =>
    if next.major = bytesType ∧ n ≤ bigWidth ∧ (tag = bigNatTag ∨ tag = bigNegTag) then do
      let (b, rest) ← takeBytes n rest
      return (← bigNumber tag b, rest)
    else plain
  | .indefinite => plain

/-- The simple value of a number. -/
def simpleValue : Nat → Except ReadError Value
  | 20 => .ok (.bool false)
  | 21 => .ok (.bool true)
  | 22 => .ok .null
  | 23 => .ok .null
  | _ => .error .unexpected

/-- Reads what follows a head, with the reader for nested items if the budget allows any. -/
def readBody (nested : Option (Reader Value)) (head : Head) : Reader Value := fun input =>
  match head.major, head.argument with
  | 0, .value n => .ok (.unsigned (UInt64.ofNat n), input)
  | 1, .value n => .ok (.negative (UInt64.ofNat n), input)
  | 2, argument => do
    let (b, rest) ← readByteString argument input
    return (.bytes b, rest)
  | 3, argument => do
    let (s, rest) ← readText argument input
    return (.text s, rest)
  | 4, argument =>
    match nested with
    | none => .error .tooDeep
    | some read => do
      let (items, rest) ← readMembers read argument input
      return (.array items, rest)
  | 5, argument =>
    match nested with
    | none => .error .tooDeep
    | some read => do
      let (entries, rest) ← readMembers (readPair read) argument input
      return (.map entries, rest)
  | 6, .value tag => readTagged nested tag input
  | 7, .value n =>
    -- From twenty-five on the argument is a floating point number.
    if head.info ≤ 24 then return (← simpleValue n, input)
    else .ok (.float (Bytes.ofNat ((argumentWidth? head.info).getD 0) n), input)
  | _, _ => .error .unexpected

/-- Reads an item in which arrays, maps and tags are nested at most `depth` deep. -/
def readItem : (depth : Nat) → Reader Value
  | 0, input => do
    let (head, rest) ← readHead input
    readBody none head rest
  | depth + 1, input => do
    let (head, rest) ← readHead input
    readBody (some (readItem depth)) head rest

/-- How deep arrays, maps and tags may be nested. -/
def maxDepth : Nat := 256

/-- The first item of a byte string. What follows it is not looked at. -/
def read (input : Bytes) : Except ReadError Value :=
  (readItem maxDepth input).map Prod.fst

end GossipStore.Cbor
