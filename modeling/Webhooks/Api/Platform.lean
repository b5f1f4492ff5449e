import Webhooks.Lib.Double
import Webhooks.Store.Schema

/-!
# Api — Platform

What the routes use of Postgres, JavaScript and Go: the input functions a text parameter goes
through on its way into a column, and the text of an instant.

The database counts `ticksPerMs` ticks to a millisecond, 1000 in Postgres.  The driver hands an
instant to the program as a `Date`, in whole milliseconds.
-/

namespace Webhooks

/-- A value of type `timestamptz`. -/
inductive Timestamptz where
  | negInfinity
  | at (ticks : Int)
  | infinity
  deriving DecidableEq, Repr

namespace Timestamptz

/-- How an instant of a row compares with the value. -/
def compare (t : Time) : Timestamptz → Ordering
  | .negInfinity => .gt
  | .at ticks => Ord.compare (t : Int) ticks
  | .infinity => .lt

/-- The instant, on a clock that begins at 0. -/
def time? : Timestamptz → Option Time
  | .at ticks => some ticks.toNat
  | .negInfinity | .infinity => none

end Timestamptz

structure Platform where
  ticksPerMs : Nat
  /-- `Date.prototype.toISOString`, of a number of milliseconds. -/
  toISOString : Nat → String
  /-- The input function of `timestamptz`. -/
  timestamptz : String → Option Timestamptz
  /-- The input function of `uuid`. -/
  uuid : String → Option Uuid
  /-- The output function of `uuid`. -/
  uuidText : Uuid → String
  /-- `Time.UTC().Format(time.RFC3339Nano)`, of what pgx reads for an instant. -/
  rfc3339Nano : Time → String
  /-- The input function of `jsonb`, with the text the value is printed as. -/
  jsonb : String → Option String
  /-- `JSON.stringify` takes what the driver makes of a `jsonb` text: its nesting fits the stack. -/
  stringifies : String → Bool

/-- The milliseconds of the `Date` the driver makes of an instant. -/
def Platform.date (p : Platform) (t : Time) : Nat := t / p.ticksPerMs

/-- `row.created_at.toISOString()`. -/
def Platform.isoDate (p : Platform) (t : Time) : String := p.toISOString (p.date t)

/-- Postgres reads back what a cursor says of a row, in milliseconds as the driver has it. -/
def Platform.ReadsBack (p : Platform) (createdAt : Time) (id : Uuid) : Prop :=
  p.timestamptz (p.isoDate createdAt) = some (.at (p.date createdAt * p.ticksPerMs : Nat)) ∧
    p.uuid (p.uuidText id) = some id

instance (p : Platform) (createdAt : Time) (id : Uuid) : Decidable (p.ReadsBack createdAt id) :=
  inferInstanceAs (Decidable (_ ∧ _))

/-- The input function of `text`: a NUL is refused. -/
def textParam (s : String) : Option String := if '\x00' ∈ s.toList then none else some s

/-- The input function of `bigint`, on the text of a JavaScript number: digits without a point or
an exponent, of a value of 64 bits. -/
def bigintParam : Lib.Double → Option Int
  | .finite q =>
      if q.den = 1 && q.num.natAbs < 10 ^ 21 then
        let n : Int := q.num.sign * Lib.Double.shortest q.num.natAbs
        if -2 ^ 63 ≤ n && n < 2 ^ 63 then some n else none
      else none
  | .nan | .infinite _ => none

theorem bigintParam_natCast {n : Nat} (h : n < 2 ^ 53) : bigintParam (.finite n) = some (n : Int) := by
  have hdigits : n < 10 ^ 21 := h.trans (by decide)
  have hsign : (n : Int).sign * (n : Int) = n := by
    rcases Nat.eq_zero_or_pos n with rfl | hn
    · rfl
    · rw [Int.sign_eq_one_of_pos (by exact_mod_cast hn), one_mul]
  have hrange : (-2 ^ 63 ≤ (n : Int) && (n : Int) < 2 ^ 63) = true := by
    rw [Bool.and_eq_true, decide_eq_true_eq, decide_eq_true_eq]
    omega
  simp only [bigintParam, Rat.den_natCast, Rat.num_natCast, Int.natAbs_natCast, hdigits, decide_true,
    Bool.and_self, if_true, Lib.Double.shortest_eq h, hsign, hrange]

namespace Sample

/-- Three decimal digits. -/
def digits3 (n : Nat) : String :=
  .ofList [(n / 100 % 10).digitChar, (n / 10 % 10).digitChar, (n % 10).digitChar]

/-- Postgres and JavaScript on the instants of 1970's first second and the smallest uuids. -/
def platform : Platform where
  ticksPerMs := 1000
  toISOString ms := "1970-01-01T00:00:00." ++ digits3 ms ++ "Z"
  timestamptz text := ((List.range 1000).find? fun ms =>
    "1970-01-01T00:00:00." ++ digits3 ms ++ "Z" = text).map fun ms => .at (ms * 1000)
  uuid text := (List.range 1000).find? fun n => "00000000-0000-0000-0000-000000000" ++ digits3 n = text
  uuidText n := "00000000-0000-0000-0000-000000000" ++ digits3 n
  rfc3339Nano t := "1970-01-01T00:00:00." ++ digits3 (t / 1000) ++ digits3 t ++ "Z"
  jsonb := some
  stringifies _ := true

end Sample

end Webhooks
