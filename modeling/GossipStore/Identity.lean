set_option autoImplicit false

/-! # Identities

A chain carries the name of its writer, by default a user at a host. -/

namespace GossipStore

/-- What the environment says about the user and the host. -/
structure Environment where
  user : Option String
  /-- A second place for the name of the user. -/
  username : Option String
  hostname : Option String
deriving DecidableEq, Repr

/-- The default name of a writer. A host without a name is the local one. -/
def Environment.identity (e : Environment) : String :=
  let user := (e.user <|> e.username).getD "unknown"
  let host := (e.hostname.filter (· ≠ "")).getD "localhost"
  s!"{user}@{host}"

end GossipStore
