import Mathlib.Data.List.Lex
import Webhooks.Store.Migrate

/-!
# Store — Node's migrate

`db/migrate.ts`: any number of runs of `migrate()` over one database, with no lock between them.  The files,
the database and the transactions are those of `Store/Migrate.lean`; `Database.lock` stays as it is.

* `files`: `readdir`, in the order of `Array.prototype.sort`.
* `Place`: the statement a run comes to next.  `act`: what one action of a run does.

A promise that rejects ends the run: `migrate().catch` prints the error and exits.
-/

namespace Webhooks.Migrate.Node

open Lib

/-- The code units of a string. -/
def utf16 (s : String) : List Nat :=
  s.toList.flatMap fun c =>
    let n := c.toNat
    if n < 0x10000 then [n] else [0xD800 + (n - 0x10000) / 0x400, 0xDC00 + (n - 0x10000) % 0x400]

inductive Place where
  /-- `CREATE TABLE IF NOT EXISTS schema_migrations`. -/
  | idle
  /-- The statement has looked whether the table exists. -/
  | creating (found : Bool)
  /-- `SELECT filename FROM schema_migrations`. -/
  | created
  /-- `for (const file of files)`, with the files that are left. -/
  | loop (applied rest : List String)
  /-- `await client.query(sql)`. -/
  | begun (applied : List String) (file : String) (rest : List String)
  /-- `INSERT INTO schema_migrations (filename) VALUES ($1)`. -/
  | executed (applied : List String) (file : String) (rest : List String)
  /-- `await client.query("COMMIT")`. -/
  | inserted (applied : List String) (file : String) (rest : List String)
  | returned (result : Result)
  | crashed
  deriving DecidableEq, Repr

section

variable {γ ρ : Type} [DecidableEq γ]

/-- `(await readdir(migrationsDir)).filter((f) => f.endsWith(".sql")).sort()`. -/
def files (m : Embedded ρ) : List String :=
  (m.entries.filter fun name => ".sql".toList.isSuffixOf name.toList).insertionSort
    fun a b => utf16 a ≤ utf16 b

/-- The next statement of a run.  Where it fails the transaction is rolled back. -/
def next (m : Embedded ρ) (c : γ) (p : Place) (db : Database γ ρ) : Option (Place × Database γ ρ) :=
  match p with
  | .idle => some (.creating db.table.isSome, db)
  | .creating found =>
      if found then some (.created, db)
      else if db.table.isSome then some (.returned (.error .conflict), db)
      else some (.created, { db with table := some [] })
  | .created =>
      match db.table with
      | some rows => some (.loop rows (files m), db)
      | none => some (.returned (.error .conflict), db)
  | .loop _ [] => some (.returned .ok, db)
  | .loop applied (file :: rest) =>
      if file ∈ applied then some (.loop applied rest, db) else some (.begun applied file rest, db)
  | .begun applied file rest =>
      if (m.sql file db.content).isSome then some (.executed applied file rest, db.write c (.sql file))
      else some (.returned (.error (.refused file)), db.rollback c)
  | .executed applied file rest =>
      if file ∈ db.recorded then some (.returned (.error .conflict), db.rollback c)
      -- the unique index makes the statement wait for the other transaction
      else if db.isInserting c file then none
      else some (.inserted applied file rest, db.write c (.row file))
  | .inserted applied _ rest =>
      match db.commit m c with
      | some db' => some (.loop applied rest, db')
      | none => some (.returned (.error .conflict), db.rollback c)
  | .returned _ | .crashed => none

/-- The branches of `next`. -/
inductive Next (m : Embedded ρ) (c : γ) (db : Database γ ρ) : Place → Place → Database γ ρ → Prop where
  | look : Next m c db .idle (.creating db.table.isSome) db
  | found : Next m c db (.creating true) .created db
  | collide (htable : db.table.isSome) : Next m c db (.creating false) (.returned (.error .conflict)) db
  | create (htable : db.table = none) :
      Next m c db (.creating false) .created { db with table := some [] }
  | select {rows : List String} (htable : db.table = some rows) :
      Next m c db .created (.loop rows (files m)) db
  | dropped (htable : db.table = none) : Next m c db .created (.returned (.error .conflict)) db
  | upToDate {applied : List String} : Next m c db (.loop applied []) (.returned .ok) db
  | applied {applied rest : List String} {file : String} (happlied : file ∈ applied) :
      Next m c db (.loop applied (file :: rest)) (.loop applied rest) db
  | begin {applied rest : List String} {file : String} (happlied : file ∉ applied) :
      Next m c db (.loop applied (file :: rest)) (.begun applied file rest) db
  | exec {applied rest : List String} {file : String} (hsql : (m.sql file db.content).isSome) :
      Next m c db (.begun applied file rest) (.executed applied file rest) (db.write c (.sql file))
  | refuse {applied rest : List String} {file : String} (hsql : m.sql file db.content = none) :
      Next m c db (.begun applied file rest) (.returned (.error (.refused file))) (db.rollback c)
  | duplicate {applied rest : List String} {file : String} (hfile : file ∈ db.recorded) :
      Next m c db (.executed applied file rest) (.returned (.error .conflict)) (db.rollback c)
  | insert {applied rest : List String} {file : String} (hfile : file ∉ db.recorded)
      (hothers : db.isInserting c file = false) :
      Next m c db (.executed applied file rest) (.inserted applied file rest) (db.write c (.row file))
  | commit {applied rest : List String} {file : String} {db' : Database γ ρ}
      (hcommit : db.commit m c = some db') :
      Next m c db (.inserted applied file rest) (.loop applied rest) db'
  | abort {applied rest : List String} {file : String} (hcommit : db.commit m c = none) :
      Next m c db (.inserted applied file rest) (.returned (.error .conflict)) (db.rollback c)

theorem next_cases {m : Embedded ρ} {c : γ} {p p' : Place} {db db' : Database γ ρ}
    (h : next m c p db = some (p', db')) : Next m c db p p' db' := by
  cases p with
  | idle =>
      cases h
      exact .look
  | creating found =>
      cases found with
      | true =>
          cases h
          exact .found
      | false =>
          cases htable : db.table with
          | none =>
              simp only [next, htable] at h
              cases h
              exact .create htable
          | some rows =>
              simp only [next, htable] at h
              cases h
              exact .collide (by rw [htable]; rfl)
  | created =>
      cases htable : db.table with
      | none =>
          simp only [next, htable] at h
          cases h
          exact .dropped htable
      | some rows =>
          simp only [next, htable] at h
          cases h
          exact .select htable
  | loop applied rest =>
      cases rest with
      | nil =>
          cases h
          exact .upToDate
      | cons file rest =>
          rw [next] at h
          split at h
          · next happlied =>
            cases h
            exact .applied happlied
          · next happlied =>
            cases h
            exact .begin happlied
  | begun applied file rest =>
      rw [next] at h
      split at h
      · next hsql =>
        cases h
        exact .exec hsql
      · next hsql =>
        cases h
        exact .refuse (by simpa using hsql)
  | executed applied file rest =>
      rw [next] at h
      split at h
      · next hfile =>
        cases h
        exact .duplicate hfile
      next hfile =>
      split at h
      · cases h
      · next hothers =>
        cases h
        exact .insert hfile (Bool.eq_false_of_not_eq_true hothers)
  | inserted applied file rest =>
      cases hcommit : db.commit m c with
      | none =>
          simp only [next, hcommit] at h
          cases h
          exact .abort hcommit
      | some db₁ =>
          simp only [next, hcommit] at h
          cases h
          exact .commit hcommit
  | returned => cases h
  | crashed => cases h

/-- A statement fails, or the session ends: the transaction is rolled back. -/
def fail (c : γ) (p : Place) (db : Database γ ρ) : Option (Place × Database γ ρ) :=
  match p with
  | .returned _ | .crashed => none
  | .idle | .creating _ | .created | .loop .. | .begun .. | .executed .. | .inserted .. =>
      some (.returned (.error .unavailable), db.rollback c)

def act (m : Embedded ρ) (c : γ) (a : Action) (p : Place) (db : Database γ ρ) :
    Option (Place × Database γ ρ) :=
  match a with
  | .next => next m c p db
  | .fail | .disconnect => fail c p db
  | .crash => some (.crashed, db.rollback c)

abbrev State (γ ρ : Type) := Config γ (Database γ ρ) Place

def step (m : Embedded ρ) : State γ ρ → γ × Action → Option (State γ ρ) := interleave (act m)

end

end Webhooks.Migrate.Node

namespace Webhooks.Migrate

/-- No run of Node's has begun. -/
def Initial.nodeState {γ ρ : Type} (db : Initial ρ) : Node.State γ ρ :=
  ⟨⟨db.table, db.content, [], [], none⟩, fun _ => .idle⟩

end Webhooks.Migrate
