/-!
# Seeds from the time

All times within one slot share a seed: the nanoseconds since the epoch, rounded down to a multiple
of the slot. Times before the epoch count as the epoch itself. The rounding is exact; only its
result is cut to 64 bits.
-/

namespace ChoiceGrammar.TimeSlot

/-- The default slot, five minutes in nanoseconds. -/
def fiveMinutes : Nat := 300_000_000_000

/-- The largest multiple of `slot` up to `time`; the time itself if the slot is empty. -/
def roundDown (time slot : Nat) : Nat := if slot = 0 then time else time - time % slot

/-- The seed for a time in nanoseconds since the epoch. -/
def seed (time : Int) (slot : Nat) : UInt64 := .ofNat (roundDown time.toNat slot)

end ChoiceGrammar.TimeSlot
