import Mathlib.Data.Rat.Floor
import Webhooks.Store.Schema

/-!
# Config

The settings of `config.ts` the workers read, with the two functions of other components their
statements go through: Postgres's `hashtext`, which keys the advisory lock, and
`decryptSecret`, which fails on a value it cannot open.  Beside them stands which of the two
programs each process runs, as their drivers read an instant differently.  All durations are in ticks
of the database's clock.
-/

namespace Webhooks

abbrev WorkerId := Nat
abbrev CallId := Nat

/-- The program of a process. -/
inductive Stack where
  | node | go
  deriving DecidableEq, Repr

/-- `BackoffConfig`. -/
structure BackoffConfig where
  baseDelayMs : Nat
  multiplier : Nat
  maxDelayMs : Nat
  maxAttempts : Nat
  deriving DecidableEq, Repr

structure Config where
  leaseDurationMs : Nat
  backoff : BackoffConfig
  /-- `secretRotation.overlapHours`. -/
  overlapMs : Nat
  hashtext : Uuid → Int
  decryptSecret : String → Option String
  /-- The ticks of a millisecond. -/
  ticksPerMs : Nat
  /-- The program of each worker. -/
  workers : WorkerId → Stack
  /-- The program that answers each replay call. -/
  replayCalls : CallId → Stack

/-- An instant as a program has it: a JavaScript `Date` counts whole milliseconds, a Go
`time.Time` keeps what it is given. -/
def Config.instant (cfg : Config) : Stack → Time → Time
  | .node, t => t / cfg.ticksPerMs * cfg.ticksPerMs
  | .go, t => t

/-- A draw of `Math.random()`: a fraction in `[0, 1)`. -/
structure Jitter where
  num : Nat
  den : Nat
  lt : num < den
  deriving DecidableEq, Repr

/-- Full jitter: a random part of `min(base · multiplier ^ (attempt - 1), cap)`, rounded down.
`attemptNumber` is the attempt that just failed, counted from 1. -/
def computeBackoffDelayMs (attemptNumber : Nat) (config : BackoffConfig) (random : Jitter) : Nat :=
  let ceiling := min (config.baseDelayMs * config.multiplier ^ (attemptNumber - 1)) config.maxDelayMs
  random.num * ceiling / random.den

/-- `ComputeBackoffDelayMs`: the same in Go, with the powers and the product exact. -/
def Go.computeBackoffDelayMs (attemptNumber : Nat) (cfg : BackoffConfig) (randFloat : ℚ) : Int :=
  let ceiling : ℚ := cfg.baseDelayMs * (cfg.multiplier : ℚ) ^ (attemptNumber - 1)
  let ceiling := if (cfg.maxDelayMs : ℚ) < ceiling then (cfg.maxDelayMs : ℚ) else ceiling
  ⌊randFloat * ceiling⌋

end Webhooks
