/-!
# Durations

A span of time: whole seconds, counted in 64 bits, and less than a second in
nanoseconds. In text (`Duration.toText`) it is a number in the largest of the
units s, ms, µs and ns of which it holds at least one, with as many decimals as
are not trailing zeros.
-/

namespace ConsensusCore

/-- Nanoseconds in a second. -/
def nanosPerSecond : Nat := 1000000000

/-- A span of time. -/
structure Duration where
  secs : UInt64
  nanos : UInt32
  nanos_lt : nanos.toNat < nanosPerSecond
deriving DecidableEq

namespace Duration

/-- The length of the span in nanoseconds. -/
def toNanos (d : Duration) : Nat := d.secs.toNat * nanosPerSecond + d.nanos.toNat

/-- Seconds and any number of nanoseconds, whole seconds of which are carried
    over; `none` if they are too many. -/
def ofParts? (secs : UInt64) (nanos : UInt32) : Option Duration :=
  let total := secs.toNat + nanos.toNat / nanosPerSecond
  if total < UInt64.size then
    some ⟨UInt64.ofNat total, UInt32.ofNat (nanos.toNat % nanosPerSecond), by
      have := Nat.mod_lt nanos.toNat (show 0 < nanosPerSecond by decide)
      have := nanos.toNat_lt
      rw [UInt32.toNat_ofNat']
      have := Nat.mod_le (nanos.toNat % nanosPerSecond) (2 ^ 32)
      omega⟩
  else none

/-- The span of so many nanoseconds, the longest there is if they are too many. -/
def ofNanos (n : Nat) : Duration :=
  let n := min n (UInt64.size * nanosPerSecond - 1)
  ⟨UInt64.ofNat (n / nanosPerSecond), UInt32.ofNat (n % nanosPerSecond), by
    have := Nat.mod_lt n (show 0 < nanosPerSecond by decide)
    rw [UInt32.toNat_ofNat']
    have := Nat.mod_le (n % nanosPerSecond) (2 ^ 32)
    omega⟩

/-- The span of so many milliseconds. -/
def ofMillis (ms : Nat) : Duration := ofNanos (ms * 1000000)

/-- The empty span. -/
def zero : Duration := ofNanos 0

/-- The whole and the fractional part of a number in a unit of so many nanoseconds,
    which is a power of ten. -/
def decimal (unit : Nat) (nanos : Nat) : String :=
  let whole := nanos / unit
  let digits := (Nat.toDigits 10 (unit + nanos % unit)).drop 1
  let kept := (digits.reverse.dropWhile (· = '0')).reverse
  if kept.isEmpty then toString whole else s!"{whole}." ++ String.ofList kept

/-- The span in words. -/
def toText (d : Duration) : String :=
  let n := d.toNanos
  if 1000000000 ≤ n then decimal 1000000000 n ++ "s"
  else if 1000000 ≤ n then decimal 1000000 n ++ "ms"
  else if 1000 ≤ n then decimal 1000 n ++ "µs"
  else decimal 1 n ++ "ns"

end Duration

end ConsensusCore
