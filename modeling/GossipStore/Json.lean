import GossipStore.Text.Hex

set_option autoImplicit false

/-! # JSON texts

A reader for JSON. Natural numbers keep their value, and all other numbers are only known to be
numbers. A text may hold half of a surrogate pair, which stands for no character: such a text is
well formed but has no value. Values nest as deeply as the input is long, which bounds the
recursion. -/

namespace GossipStore

/-- A JSON value. -/
inductive Json where
  | null
  | bool (b : Bool)
  /-- A number, with its value if it is written as a natural number. -/
  | number (n : Option Nat)
  /-- A text, with its value if it has one. -/
  | string (s : Option String)
  | array (items : List Json)
  | object (fields : List (Option String × Json))
deriving Repr

namespace Json

/-- What is left of the input after a value. -/
abbrev Rest := List Char

/-- Drops white space. -/
def skipBlank (cs : List Char) : List Char :=
  cs.dropWhile fun c => c = ' ' || c = '\n' || c = '\t' || c = '\r'

/-- Drops an expected word. -/
def dropWord? : (word : List Char) → List Char → Option Rest
  | [], cs => some cs
  | w :: word, c :: cs => if w = c then dropWord? word cs else none
  | _ :: _, [] => none

/-! ## Numbers -/

/-- Splits off the digits at the front. -/
def digits (cs : List Char) : List Char × Rest :=
  (cs.takeWhile Char.isDigit, cs.dropWhile Char.isDigit)

/-- The value of a row of digits. -/
def digitsValue (ds : List Char) : Nat := ds.foldl (fun n d => n * 10 + (d.toNat - 48)) 0

/-- Drops the decimals after a point, and tells whether there were any. -/
def dropFraction? : List Char → Option (Bool × Rest)
  | '.' :: cs =>
    match digits cs with
    | ([], _) => none
    | (_, rest) => some (true, rest)
  | cs => some (false, cs)

/-- Drops a plus or minus sign. -/
def dropSign : List Char → List Char
  | '+' :: cs => cs
  | '-' :: cs => cs
  | cs => cs

/-- Drops an exponent, and tells whether there was one. -/
def dropExponent? : List Char → Option (Bool × Rest)
  | [] => some (false, [])
  | c :: cs =>
    if c = 'e' || c = 'E' then
      match digits (dropSign cs) with
      | ([], _) => none
      | (_, rest) => some (true, rest)
    else some (false, c :: cs)

/-- Reads a number. A leading zero stands alone before the point. -/
def readNumber (cs : List Char) : Option (Json × Rest) := do
  let negative := cs.head? == some '-'
  let (whole, rest) := digits (if negative then cs.drop 1 else cs)
  if whole.isEmpty || (whole.head? == some '0' && whole.length > 1) then none
  else
    let (fraction, rest) ← dropFraction? rest
    let (exponent, rest) ← dropExponent? rest
    let plain := !negative && !fraction && !exponent
    return (.number (if plain then some (digitsValue whole) else none), rest)

/-! ## Texts -/

/-- A piece of a text: a character or half of a surrogate pair. -/
inductive Unit16 where
  | char (c : Char)
  | high (n : Nat)
  | low (n : Nat)
deriving Repr

/-- The piece that an escape by number stands for. -/
def unitOfCode (n : Nat) : Unit16 :=
  if 0xd800 ≤ n ∧ n ≤ 0xdbff then .high (n - 0xd800)
  else if 0xdc00 ≤ n ∧ n ≤ 0xdfff then .low (n - 0xdc00)
  else .char (Char.ofNat n)

/-- The value of four hexadecimal digits. -/
def fourDigits? (a b c d : Char) : Option Nat := do
  return ((((← Hex.digitValue? a) * 16 + (← Hex.digitValue? b)) * 16
    + (← Hex.digitValue? c)) * 16) + (← Hex.digitValue? d)

/-- The character that a one-letter escape stands for. -/
def shortEscape? : Char → Option Char
  | '"' => some '"'
  | '\\' => some '\\'
  | '/' => some '/'
  | 'b' => some '\x08'
  | 'f' => some '\x0c'
  | 'n' => some '\n'
  | 'r' => some '\r'
  | 't' => some '\t'
  | _ => none

/-- Reads the pieces of a text up to its closing quote. -/
def readUnits : List Char → Option (List Unit16 × Rest)
  | [] => none
  | '"' :: rest => some ([], rest)
  | '\\' :: 'u' :: a :: b :: c :: d :: rest => do
    let n ← fourDigits? a b c d
    let (us, rest) ← readUnits rest
    return (unitOfCode n :: us, rest)
  | '\\' :: e :: rest => do
    let c ← shortEscape? e
    let (us, rest) ← readUnits rest
    return (.char c :: us, rest)
  | c :: rest => do
    if c.toNat < 0x20 then none
    let (us, rest) ← readUnits rest
    return (.char c :: us, rest)

/-- The characters of some pieces, where every surrogate has its partner. -/
def joinUnits? : List Unit16 → Option (List Char)
  | [] => some []
  | .char c :: rest => (joinUnits? rest).map (c :: ·)
  | .high h :: .low l :: rest =>
    (joinUnits? rest).map (Char.ofNat (0x10000 + h * 0x400 + l) :: ·)
  | .high _ :: _ => none
  | .low _ :: _ => none

/-- Reads a text after its opening quote. -/
def readString (cs : List Char) : Option (Option String × Rest) := do
  let (us, rest) ← readUnits cs
  return ((joinUnits? us).map String.ofList, rest)

/-! ## Values -/

mutual

/-- Reads a value, nested at most as deeply as the budget allows. -/
def readValue : (budget : Nat) → List Char → Option (Json × Rest)
  | 0, _ => none
  | budget + 1, cs =>
    match skipBlank cs with
    | 'n' :: rest => (dropWord? "ull".toList rest).map fun rest => (.null, rest)
    | 't' :: rest => (dropWord? "rue".toList rest).map fun rest => (.bool true, rest)
    | 'f' :: rest => (dropWord? "alse".toList rest).map fun rest => (.bool false, rest)
    | '"' :: rest => (readString rest).map fun r => (.string r.1, r.2)
    | '[' :: rest =>
      match skipBlank rest with
      | ']' :: rest => some (.array [], rest)
      | rest => (readItems budget rest).map fun r => (.array r.1, r.2)
    | '\x7b' :: rest =>
      match skipBlank rest with
      | '\x7d' :: rest => some (.object [], rest)
      | rest => (readFields budget rest).map fun r => (.object r.1, r.2)
    | rest => readNumber rest

/-- Reads the items of an array up to its closing bracket. -/
def readItems : (budget : Nat) → List Char → Option (List Json × Rest)
  | 0, _ => none
  | budget + 1, cs => do
    let (v, rest) ← readValue budget cs
    match skipBlank rest with
    | ',' :: rest =>
      let (vs, rest) ← readItems budget rest
      return (v :: vs, rest)
    | ']' :: rest => return ([v], rest)
    | _ => none

/-- Reads the fields of an object up to its closing brace. -/
def readFields : (budget : Nat) → List Char → Option (List (Option String × Json) × Rest)
  | 0, _ => none
  | budget + 1, cs =>
    match skipBlank cs with
    | '"' :: rest => do
      let (name, rest) ← readString rest
      match skipBlank rest with
      | ':' :: rest =>
        let (v, rest) ← readValue budget rest
        match skipBlank rest with
        | ',' :: rest =>
          let (fs, rest) ← readFields budget rest
          return ((name, v) :: fs, rest)
        | '\x7d' :: rest => return ([(name, v)], rest)
        | _ => none
      | _ => none
    | _ => none

end

/-- The value of a whole text, with white space around it allowed. -/
def parse (s : String) : Option Json :=
  match readValue (s.length + 1) s.toList with
  | some (v, rest) => if (skipBlank rest).isEmpty then some v else none
  | none => none

end Json

end GossipStore
