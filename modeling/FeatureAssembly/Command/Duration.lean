import FeatureAssembly.Text.Segments

/-!
# Durations

The text of a duration: whole milliseconds in units from years down, of which those that
are zero are left out. A year has 365.25 days, and a month is the twelfth part of it.
-/

namespace FeatureAssembly.Duration

/-- A unit of time: its length in milliseconds, its word, and the word for several. -/
structure TimeUnit where
  length : Nat
  one : String
  several : String

/-- The units, longest first. -/
def units : List TimeUnit :=
  [⟨31557600000, "year", "years"⟩, ⟨2630016000, "month", "months"⟩, ⟨86400000, "day", "days"⟩,
    ⟨3600000, "h", "h"⟩, ⟨60000, "m", "m"⟩, ⟨1000, "s", "s"⟩, ⟨1, "ms", "ms"⟩]

/-- A number of units, which is not zero. -/
def TimeUnit.phrase (u : TimeUnit) (count : Nat) : String :=
  toString count ++ if count = 1 then u.one else u.several

/-- A duration in units, of which each leaves less than one of it to the next. -/
def phrases : List TimeUnit → Nat → List String
  | [], _ => []
  | u :: rest, duration =>
    let count := duration / u.length
    (if count = 0 then [] else [u.phrase count]) ++ phrases rest (duration % u.length)

/-- **The text of a number of milliseconds**, which are counted with 64 bits. -/
def ofMilliseconds (duration : Nat) : String :=
  let duration := duration % UInt64.size
  if duration = 0 then "0ms" else Text.joinWith " " (phrases units duration)

def text (seconds nanoseconds : Nat) : String :=
  ofMilliseconds (seconds * 1000 + nanoseconds / 1000000)

end FeatureAssembly.Duration
