import GossipStore.Muid

set_option autoImplicit false

/-! # Issuing timestamps

The timestamps of a chain must rise strictly even if the clock stalls or is set back. A
timestamp source remembers the last timestamp it issued: it follows the clock while the clock is
ahead and steps on from the last timestamp otherwise. -/

namespace GossipStore

/-- A source of timestamps, by the last one it issued. -/
structure TimestampSource where
  last : Timestamp
deriving DecidableEq, Repr

namespace TimestampSource

/-- How far to step on when the clock is not ahead of the last timestamp. -/
def step : Timestamp := 20

/-- A source that has issued nothing. -/
def new : TimestampSource := ⟨0⟩

/-- The number after a timestamp, which for the greatest one is itself. -/
def after (t : Timestamp) : Timestamp := if t = Int64.maxValue then t else t + 1

/-- The timestamp to issue at a clock reading for a chain that has reached a floor. -/
def issue (s : TimestampSource) (now floor : Timestamp) : Timestamp :=
  let candidate := max now (after floor)
  if candidate ≤ s.last then s.last + step else candidate

/-- Replaces the last timestamp by one made from it, and gives the replaced one. -/
def update (s : TimestampSource) (make : Timestamp → Timestamp) : TimestampSource × Timestamp :=
  (⟨make s.last⟩, s.last)

/-- Issues a timestamp above a floor. What has been remembered is worked out again from the
timestamp that it replaced. -/
def nextAfter (s : TimestampSource) (now floor : Timestamp) : TimestampSource × Timestamp :=
  let advance (last : Timestamp) := issue ⟨last⟩ now floor
  let (s, previous) := s.update advance
  (s, advance previous)

/-- What is issued is what is remembered. -/
theorem nextAfter_eq (s : TimestampSource) (now floor : Timestamp) :
    s.nextAfter now floor = (⟨s.issue now floor⟩, s.issue now floor) := rfl

/-- Issues a timestamp. -/
def next (s : TimestampSource) (now : Timestamp) : TimestampSource × Timestamp :=
  s.nextAfter now Int64.minValue

/-- The text form of a source. -/
def text (s : TimestampSource) : String := s!"TimestampGenerator \x7b last: {s.last}, .. \x7d"

end TimestampSource

end GossipStore
