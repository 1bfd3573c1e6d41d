import GossipStore.Text.Hex

set_option autoImplicit false

/-! # Offers and tokens

A client offers the name of the protocol and, if it has one, its token. The token travels as an
offer of its own, in hexadecimal and marked as such, so that any text can be sent in a list that
allows few characters. -/

namespace GossipStore

namespace AuthToken

/-- The name of the protocol. -/
def protocolName : String := "gink"

/-- What every token begins with. -/
def mark : List Char := "token ".toList

/-- What a hexadecimal offer begins with. -/
def hexMark : List Char := "0x".toList

/-- What is left of a list behind a beginning that it has. -/
def dropMark? (mark cs : List Char) : Option (List Char) :=
  if mark.isPrefixOf cs then some (cs.drop mark.length) else none

/-- The token with its mark, which is added unless it is there. -/
def marked (token : String) : String :=
  if mark.isPrefixOf token.toList then token else String.ofList (mark ++ token.toList)

/-- The offer that carries a token. -/
def offer (token : String) : String :=
  String.ofList (hexMark ++ (Hex.encode (Bytes.ofText (marked token))).toList)

/-- All that a client offers. -/
def offers : Option String → List String
  | none => [protocolName]
  | some token => [protocolName, offer token]

/-- The token that an offer carries, without its mark. -/
def ofOffer? (s : String) : Option String := do
  let digits ← dropMark? hexMark s.toList
  let bytes ← Hex.decodeChars? digits
  let text ← Bytes.toText? bytes
  return String.ofList (← dropMark? mark text.toList)

/-- The token of the first offer that carries one. -/
def ofOffers? (offers : List String) : Option String := offers.findSome? ofOffer?

end AuthToken

end GossipStore
