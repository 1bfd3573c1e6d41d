set_option autoImplicit false

/-! # Durations

Spans of time are counted in whole milliseconds and shown in the largest unit that fits: `0ns`,
milliseconds below one second, and seconds with at most three decimals from there on. -/

namespace GossipStore

namespace Duration

/-- Three decimals without trailing zeros, given as thousandths. -/
def decimals (thousandths : Nat) : String :=
  let digits := [thousandths / 100 % 10, thousandths / 10 % 10, thousandths % 10]
  match (digits.reverse.dropWhile (· == 0)).reverse with
  | [] => ""
  | kept => "." ++ String.ofList (kept.map Nat.digitChar)

/-- The text of a span of whole milliseconds. -/
def text (ms : Nat) : String :=
  if ms = 0 then "0ns"
  else if ms < 1000 then s!"{ms}ms"
  else s!"{ms / 1000}{decimals (ms % 1000)}s"

end Duration

end GossipStore
