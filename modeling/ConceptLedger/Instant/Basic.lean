import ConceptLedger.Instant.Calendar

/-!
Instants: seconds since the first of January 1970 in UTC and nanoseconds within the second. A
leap second is the continuation of the second before it, with nanoseconds beyond a billion.
-/

namespace ConceptLedger

/-- An instant in UTC, ordered by second and then by nanosecond. -/
structure Instant where
  seconds : Int
  nanos : Nat
  nanos_lt : nanos < 2000000000
deriving DecidableEq

namespace Instant

instance : Inhabited Instant := ⟨⟨0, 0, by decide⟩⟩

instance : Ord Instant :=
  ⟨fun a b => (compare a.seconds b.seconds).then (compare a.nanos b.nanos)⟩

/-- Whether one instant comes before another or is the same. -/
def atMost (a b : Instant) : Bool := compare a b != .gt

/-- The whole milliseconds since 1970, rounded down. -/
def toMillis (t : Instant) : Int := t.seconds * 1000 + (t.nanos / 1000000 : Nat)

/-- Whether the day of an instant is in the supported years. -/
def inRange (t : Instant) : Bool :=
  let day := t.seconds / 86400
  decide (Date.first.toDays ≤ day) && decide (day ≤ Date.last.toDays)

/-- The instant a number of milliseconds after 1970, if its day is in the supported years. -/
def ofMillis? (ms : Int) : Option Instant :=
  let t : Instant := ⟨ms / 1000, (ms % 1000).toNat * 1000000, by omega⟩
  if t.inRange then some t else none

/-- The instant one millisecond later. -/
def nextMilli (t : Instant) : Instant :=
  if h : t.nanos + 1000000 < 1000000000 then ⟨t.seconds, t.nanos + 1000000, by omega⟩
  else ⟨t.seconds + 1, (t.nanos + 1000000) % 1000000000, by omega⟩

end Instant

end ConceptLedger
