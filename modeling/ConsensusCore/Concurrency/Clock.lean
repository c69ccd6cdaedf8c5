import ConsensusCore.Duration

/-!
# Moments

A moment is the time since the start of a clock, in nanoseconds. Timers end at
whole milliseconds: one that is due between two of them ends at the later.

* `ceilMillis_le_iff`: a moment is over at a whole millisecond exactly if that is
  not before the one at which its timer ends.

Of the delays that are too long to matter, those of sleeps and of alarms are cut
short (`wake`, `alarm`), each in its own way.
-/

namespace ConsensusCore.Moment

/-- Nanoseconds in a millisecond. -/
def nanosPerMilli : Nat := 1000000

/-- The moment so many milliseconds after the start. -/
def ofMillis (ms : Nat) : Nat := ms * nanosPerMilli

/-- The first whole millisecond that is not before a moment. -/
def ceilMillis (m : Nat) : Nat := (m + (nanosPerMilli - 1)) / nanosPerMilli

theorem ceilMillis_le_iff (m ms : Nat) : ceilMillis m ≤ ms ↔ m ≤ ofMillis ms := by
  simp only [ceilMillis, ofMillis, nanosPerMilli]
  omega

theorem ceilMillis_ofMillis (ms : Nat) : ceilMillis (ofMillis ms) = ms := by
  simp only [ceilMillis, ofMillis, nanosPerMilli]
  omega

/-- The moment that is a delay after `now`: when the limit of a wait is over. -/
def after (now : Nat) (delay : Duration) : Nat := now + delay.toNanos

/-- Thirty years of 365 days. -/
def farFuture : Nat := 86400 * 365 * 30 * nanosPerSecond

/-- When a sleep that begins `now` is over. None is longer than thirty years. -/
def wake (now : Nat) (span : Duration) : Nat := now + min span.toNanos farFuture

/-- The end of the clock, which counts seconds in 63 bits, and has been running for
    a day when it is first looked at. -/
def horizon : Nat := (UInt64.size / 2 - 86400) * nanosPerSecond

/-- When an alarm that is set `now` goes off. A delay that leads beyond the end of
    the clock stands for thirty years. -/
def alarm (now : Nat) (delay : Duration) : Nat :=
  if now + delay.toNanos < horizon then now + delay.toNanos else now + farFuture

end ConsensusCore.Moment
