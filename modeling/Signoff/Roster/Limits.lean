/-!
# Limits

How many rosters may be asked for at a time, and for how long. Time is counted
in whole milliseconds from the start of a resolution, and a timeout that ends
between two of them ends at the later one.

A timeout is made a deadline by adding it to what the clock shows at the start.
The clock has signed 64-bit seconds, and a timeout that leads past the last of
them is an error.
-/

namespace Signoff

/-- A length of time. -/
structure Span where
  seconds : Nat
  nanoseconds : Nat
  deriving DecidableEq

namespace Span

def nanosecondsPerSecond : Nat := 1000000000

def nanosecondsPerMillisecond : Nat := 1000000

/-- A length of time with the nanoseconds below one second. -/
def normalized (seconds nanoseconds : Nat) : Span :=
  ⟨seconds + nanoseconds / nanosecondsPerSecond,
    nanoseconds % nanosecondsPerSecond⟩

def ofMilliseconds (ms : Nat) : Span :=
  normalized 0 (ms * nanosecondsPerMillisecond)

/-- Two lengths of time one after the other. -/
def plus (s t : Span) : Span :=
  normalized (s.seconds + t.seconds) (s.nanoseconds + t.nanoseconds)

/-- The whole milliseconds in the span, the last one begun counted in full. -/
def milliseconds (s : Span) : Nat :=
  (s.seconds * nanosecondsPerSecond + s.nanoseconds +
    (nanosecondsPerMillisecond - 1)) / nanosecondsPerMillisecond

end Span

/-- The clock that deadlines are told by. -/
class Clock where
  /-- The time that the clock shows when a resolution starts. -/
  reading : Span

namespace Clock

/-- The clock of a machine that has been up for a second, where no other is
read. -/
instance ofStart : Clock := ⟨⟨1, 0⟩⟩

/-- The last second that a clock can show. -/
def lastSecond : Nat := 0x7FFFFFFFFFFFFFFF

/-- From its reading on, the clock can show the end of the span. -/
def Reaches [Clock] (span : Span) : Prop :=
  (reading.plus span).seconds ≤ lastSecond

instance [Clock] (span : Span) : Decidable (Reaches span) :=
  inferInstanceAs (Decidable (_ ≤ _))

end Clock

/-- The bounds on a resolution. -/
structure Limits where
  /-- The number of teams asked about at a time; zero counts as one. -/
  concurrency : Nat
  /-- The time after which the open questions are given up. -/
  timeout? : Option Span
  deriving DecidableEq

namespace Limits

inductive Error where
  /-- The deadline is beyond the reach of the clock. -/
  | deadlineOverflow
  deriving DecidableEq

def Error.message : Error → String
  | .deadlineOverflow => "overflow when adding duration to instant"

/-- Eight at a time and no timeout. -/
def standard : Limits := ⟨8, none⟩

def slots (l : Limits) : Nat := max l.concurrency 1

/-- The millisecond of the deadline, if there is one. -/
def deadline? [Clock] (l : Limits) : Except Error (Option Nat) :=
  match l.timeout? with
  | none => .ok none
  | some span =>
      if Clock.Reaches span then .ok (some span.milliseconds)
      else .error .deadlineOverflow

end Limits

end Signoff
