import Mathlib.Data.List.Forall2
import GossipStore.Clock

set_option autoImplicit false

/-! # Issued timestamps rise

A source of timestamps is asked again and again, at clock readings that may stall or go back and
for floors that may be anywhere. What it answers rises strictly all the same (`issued_rise`). Two
facts do the work:

* a timestamp is later than the last one: either it is ahead of it, or the source steps on from the
  last one, and then the last one was not below the clock or above the floor to begin with
  (`issue_rises`);
* what is answered is what is remembered, so the next answer is later than this one.

An addition that overflowed would turn a late timestamp into a negative one. `HasRoom` says which
additions there are. That there is room for some calls can be seen beforehand, because a timestamp
is at most one step ahead of the clock, of its floor or of the last one (`hasRoomForAll_of_far`).
-/

namespace GossipStore.TimestampSource

/-! ## Calls -/

/-- What a source can be asked for. -/
inductive Call where
  | next
  | nextAfter (floor : Timestamp)
deriving DecidableEq, Repr

/-- What the answer to a call must exceed. -/
def Call.floor : Call → Timestamp
  | .next => Int64.minValue
  | .nextAfter floor => floor

/-- The answer to a call at a clock reading. -/
def answer (source : TimestampSource) (now : Timestamp) : Call → TimestampSource × Timestamp
  | .next => source.next now
  | .nextAfter floor => source.nextAfter now floor

/-- The answers to calls one after another, each at its clock reading. -/
def answers (source : TimestampSource) :
    List (Timestamp × Call) → List (TimestampSource × Timestamp)
  | [] => []
  | (now, call) :: rest =>
    source.answer now call :: (source.answer now call).1.answers rest

/-! ## Sums of timestamps -/

/-- The greatest timestamp. -/
def ceiling : Int := 0x7fffffffffffffff

theorem toInt_add_of_le {t d : Timestamp} (hd : 0 ≤ d.toInt) (h : t.toInt + d.toInt ≤ ceiling) :
    (t + d).toInt = t.toInt + d.toInt := by
  have hlow : (-0x8000000000000000 : Int) ≤ t.toInt := t.le_toInt
  rw [Int64.toInt_add]
  unfold ceiling at h
  exact Int.bmod_eq_of_le (by omega) (by omega)

theorem toInt_after {t : Timestamp} (h : t.toInt < ceiling) : (after t).toInt = t.toInt + 1 := by
  have hne : t ≠ Int64.maxValue := by
    rintro rfl
    exact absurd h (by decide)
  rw [after, if_neg hne]
  exact toInt_add_of_le (by decide) h

/-! ## One timestamp -/

variable {source : TimestampSource} {now floor : Timestamp} {level : Int}

/-- No addition overflows when a timestamp is issued: the floor has a successor, and the step, which
is taken only from a last timestamp that neither the clock nor the floor has passed, stays below the
greatest timestamp. -/
structure HasRoom (source : TimestampSource) (now floor : Timestamp) : Prop where
  successor : floor.toInt < ceiling
  step : now ≤ source.last → floor < source.last →
    source.last.toInt + step.toInt ≤ ceiling

/-- What is issued, by whether the clock or the floor has passed the last timestamp. -/
theorem toInt_issue (h : source.HasRoom now floor) :
    (source.issue now floor).toInt =
      if max now.toInt (floor.toInt + 1) ≤ source.last.toInt then source.last.toInt + 20
      else max now.toInt (floor.toInt + 1) := by
  have hafter : (after floor).toInt = floor.toInt + 1 := toInt_after h.successor
  have hcandidate : (max now (after floor)).toInt = max now.toInt (floor.toInt + 1) := by
    show (if now ≤ after floor then after floor else now).toInt = _
    split
    · rename_i hle
      rw [Int64.le_iff_toInt_le] at hle
      omega
    · rename_i hlt
      rw [Int64.le_iff_toInt_le] at hlt
      omega
  unfold issue
  simp only [Int64.le_iff_toInt_le, hcandidate]
  split
  · rename_i hle
    have hnow : now ≤ source.last := by
      rw [Int64.le_iff_toInt_le]
      omega
    have hfloor : floor < source.last := by
      rw [Int64.lt_iff_toInt_lt]
      omega
    exact toInt_add_of_le (by decide) (h.step hnow hfloor)
  · exact hcandidate

/-- **A timestamp is later than the last one and than its floor**, whatever the clock shows, and the
clock does not show a later one. -/
theorem issue_rises (h : source.HasRoom now floor) :
    source.last < source.issue now floor ∧ floor < source.issue now floor
      ∧ now ≤ source.issue now floor := by
  have hissue := toInt_issue h
  rw [Int64.lt_iff_toInt_lt, Int64.lt_iff_toInt_lt, Int64.le_iff_toInt_le]
  split at hissue
  · omega
  · omega

/-- A timestamp is at most one step ahead of the clock, of its floor or of the last one. -/
theorem toInt_issue_le (h : source.HasRoom now floor) (hlast : source.last.toInt ≤ level)
    (hnow : now.toInt ≤ level) (hfloor : floor.toInt ≤ level) :
    (source.issue now floor).toInt ≤ level + 20 := by
  have hissue := toInt_issue h
  split at hissue
  · omega
  · omega

theorem hasRoom_of_far (hlast : source.last.toInt ≤ level) (hfloor : floor.toInt ≤ level)
    (hfar : level + 20 ≤ ceiling) : source.HasRoom now floor := by
  have hstep : step.toInt = 20 := rfl
  exact ⟨by omega, fun _ _ => by omega⟩

/-- **A source that is far from the greatest timestamp goes on**, and comes nearer by at most one
step. -/
theorem issue_spec {source : TimestampSource} {now floor : Timestamp} {level : Int}
    (hlast : source.last.toInt ≤ level) (hnow : now.toInt ≤ level) (hfloor : floor.toInt ≤ level)
    (hfar : level + 20 ≤ ceiling) :
    source.last < source.issue now floor ∧ floor < source.issue now floor
      ∧ (source.issue now floor).toInt ≤ level + 20 := by
  have hroom : source.HasRoom now floor := hasRoom_of_far hlast hfloor hfar
  obtain ⟨hrises, habove, -⟩ := issue_rises hroom
  exact ⟨hrises, habove, toInt_issue_le hroom hlast hnow hfloor⟩

/-! ## One timestamp after another -/

/-- There is room for each of some calls when its turn comes. -/
def HasRoomForAll (source : TimestampSource) : List (Timestamp × Call) → Prop
  | [] => True
  | (now, call) :: rest =>
    source.HasRoom now call.floor ∧ (source.answer now call).1.HasRoomForAll rest

theorem answer_eq (source : TimestampSource) (now : Timestamp) (call : Call) :
    source.answer now call = (⟨source.issue now call.floor⟩, source.issue now call.floor) := by
  cases call with
  | next => rfl
  | nextAfter floor => rfl

/-- There is room for calls if the clock, the floors and the last timestamp are as many steps from
the greatest timestamp as there are calls. -/
theorem hasRoomForAll_of_far {calls : List (Timestamp × Call)}
    (hlast : source.last.toInt ≤ level)
    (hcalls : ∀ c ∈ calls, c.1.toInt ≤ level ∧ c.2.floor.toInt ≤ level)
    (hfar : level + 20 * calls.length ≤ ceiling) : source.HasRoomForAll calls := by
  induction calls generalizing source level with
  | nil => exact trivial
  | cons c rest ih =>
      obtain ⟨now, call⟩ := c
      obtain ⟨hnow, hfloor⟩ := hcalls (now, call) List.mem_cons_self
      rw [List.length_cons] at hfar
      have hroom : source.HasRoom now call.floor := hasRoom_of_far hlast hfloor (by omega)
      -- the answer has come one step nearer at most
      have hnear : (source.answer now call).1.last.toInt ≤ level + 20 := by
        rw [answer_eq]
        exact toInt_issue_le hroom hlast hnow hfloor
      refine ⟨hroom, ih hnear ?_ (by omega)⟩
      intro c hc
      obtain ⟨hnow, hfloor⟩ := hcalls c (List.mem_cons_of_mem _ hc)
      exact ⟨by omega, by omega⟩

/-- All that is answered is later than what the source remembers. -/
theorem last_lt_answers {calls : List (Timestamp × Call)} (h : source.HasRoomForAll calls) :
    ∀ a ∈ source.answers calls, source.last < a.2 := by
  induction calls generalizing source with
  | nil =>
      intro a ha
      exact absurd ha List.not_mem_nil
  | cons c rest ih =>
      obtain ⟨now, call⟩ := c
      obtain ⟨hroom, hrest⟩ := h
      have hrises : source.last < (source.answer now call).2 := by
        rw [answer_eq]
        exact (issue_rises hroom).1
      have hremembers : (source.answer now call).1.last = (source.answer now call).2 := by
        rw [answer_eq]
      intro a ha
      rcases List.mem_cons.mp ha with rfl | ha
      · exact hrises
      · calc source.last
            < (source.answer now call).1.last := by rwa [hremembers]
          _ < a.2 := ih hrest a ha

theorem answers_ascend {calls : List (Timestamp × Call)} (h : source.HasRoomForAll calls) :
    (source.answers calls).Pairwise fun a b => a.2 < b.2 := by
  induction calls generalizing source with
  | nil => exact List.Pairwise.nil
  | cons c rest ih =>
      obtain ⟨now, call⟩ := c
      obtain ⟨-, hrest⟩ := h
      refine List.pairwise_cons.mpr ⟨fun a ha => ?_, ih hrest⟩
      -- what comes later exceeds what the source remembers by then, and that is this answer
      have hlater := last_lt_answers hrest a ha
      rwa [answer_eq] at hlater ⊢

theorem answers_meet {calls : List (Timestamp × Call)} (h : source.HasRoomForAll calls) :
    List.Forall₂ (fun c a => c.2.floor < a.2 ∧ c.1 ≤ a.2 ∧ a.1.last = a.2) calls
      (source.answers calls) := by
  induction calls generalizing source with
  | nil => exact .nil
  | cons c rest ih =>
      obtain ⟨now, call⟩ := c
      obtain ⟨hroom, hrest⟩ := h
      refine .cons ?_ (ih hrest)
      obtain ⟨-, habove, hclock⟩ := issue_rises hroom
      rw [answer_eq]
      exact ⟨habove, hclock, rfl⟩

/-- **Issued timestamps rise.** Whatever the clock shows and whatever floors are asked for, the
timestamps that a new source issues are positive and each is later than all before it, later than
its floor and not before the clock reading it was made at, and the source remembers each as its
last. -/
theorem issued_rise {calls : List (Timestamp × Call)} (h : new.HasRoomForAll calls) :
    (∀ a ∈ new.answers calls, 0 < a.2)
      ∧ (new.answers calls).Pairwise (fun a b => a.2 < b.2)
      ∧ List.Forall₂ (fun c a => c.2.floor < a.2 ∧ c.1 ≤ a.2 ∧ a.1.last = a.2) calls
        (new.answers calls) :=
  ⟨last_lt_answers h, answers_ascend h, answers_meet h⟩

/-- The clock stalls, goes back and shows times before its own beginning, and floors lie below and
far ahead. -/
theorem issued_rise_clockGoesBack :
    let calls : List (Timestamp × Call) := [(1000, .next), (1000, .next), (500, .next),
      (-7, .nextAfter Int64.minValue), (-7, .nextAfter 5000), (1000, .nextAfter 5000)]
    new.HasRoomForAll calls
      ∧ (new.answers calls).map Prod.snd = [1000, 1020, 1040, 1060, 5001, 5021]
      ∧ (∀ a ∈ new.answers calls, 0 < a.2)
      ∧ (new.answers calls).Pairwise fun a b => a.2 < b.2 := by
  intro calls
  have hstart : new.last.toInt ≤ 5000 := by decide
  have hroom : new.HasRoomForAll calls := hasRoomForAll_of_far hstart (by decide) (by decide)
  obtain ⟨hpositive, hascend, -⟩ := issued_rise hroom
  exact ⟨hroom, by decide, hpositive, hascend⟩

end GossipStore.TimestampSource
