import Mathlib.Data.List.Sort
import Mathlib.Data.String.Basic
import Webhooks.Lib.Interleaving

/-!
# Store — Migrate

`db/migrate.go`: any number of runs of `Migrate`, each on a connection of its own, over one database.

* `Embedded`: the files of `migrationsFS`, and what the SQL of each does to the other tables.
* `Database`: what is committed, what the open transactions have written, and the advisory lock.
* `Place`: the statement a run comes to next.  `act`: what one action of a run does.

A statement that finds something another run has done, and fails for it, is `conflict`.  The context
of every caller is `context.Background()`, so no statement is refused before it is sent.
-/

namespace Webhooks.Migrate

open Lib

structure Embedded (ρ : Type) where
  /-- `migrationsFS.ReadDir("migrations")`. -/
  entries : List String
  nodup : entries.Nodup
  /-- The SQL of a file in its transaction; `none` when Postgres refuses it. -/
  sql : String → ρ → Option ρ

/-- A write of an open transaction. -/
inductive Write where
  | sql (file : String)
  /-- `INSERT INTO schema_migrations`. -/
  | row (file : String)
  deriving DecidableEq, Repr

structure Database (γ ρ : Type) where
  /-- The rows of `schema_migrations`, where there is the table. -/
  table : Option (List String)
  /-- The other tables. -/
  content : ρ
  /-- The files whose SQL was committed, in this order. -/
  committed : List String
  uncommitted : List (γ × Write)
  /-- The session that has the lock on `migrationLockKey`. -/
  lock : Option γ
  deriving DecidableEq

inductive Failure where
  /-- A statement fails by itself. -/
  | unavailable
  /-- Postgres refuses the SQL of the file. -/
  | refused (file : String)
  /-- A statement fails for what another run has done. -/
  | conflict
  deriving DecidableEq, Repr

/-- What `Migrate` returns. -/
inductive Result where
  | ok
  | error (failure : Failure)
  deriving DecidableEq, Repr

inductive Place where
  | idle
  /-- `SELECT pg_advisory_lock(…)`. -/
  | waiting
  /-- `CREATE TABLE IF NOT EXISTS schema_migrations`. -/
  | locked
  /-- The statement has looked whether the table exists. -/
  | creating (found : Bool)
  /-- `SELECT filename FROM schema_migrations`. -/
  | created
  /-- `for _, file := range files`, with the files that are left. -/
  | loop (applied rest : List String)
  /-- `tx.Exec(ctx, string(sql))`. -/
  | begun (applied : List String) (file : String) (rest : List String)
  /-- `INSERT INTO schema_migrations (filename) VALUES ($1)`. -/
  | executed (applied : List String) (file : String) (rest : List String)
  /-- `tx.Commit(ctx)`. -/
  | inserted (applied : List String) (file : String) (rest : List String)
  /-- The deferred `pg_advisory_unlock(…)`. -/
  | unlocking (result : Result)
  | returned (result : Result)
  | crashed
  deriving DecidableEq, Repr

inductive Action where
  /-- The next statement, which succeeds unless something in the database is against it. -/
  | next
  /-- The next statement fails. -/
  | fail
  /-- The session ends, and the run notices. -/
  | disconnect
  | crash
  deriving DecidableEq, Repr

section

variable {γ ρ : Type} [DecidableEq γ]

/-- `sort.Strings`, of the entries that end in `.sql`. -/
def Embedded.files (m : Embedded ρ) : List String :=
  (m.entries.filter fun name => ".sql".toList.isSuffixOf name.toList).insertionSort (· ≤ ·)

/-! ### Transactions -/

def Database.recorded (db : Database γ ρ) : List String := db.table.getD []

def Database.write (db : Database γ ρ) (c : γ) (w : Write) : Database γ ρ :=
  { db with uncommitted := db.uncommitted ++ [(c, w)] }

def Database.rollback (db : Database γ ρ) (c : γ) : Database γ ρ :=
  { db with uncommitted := db.uncommitted.filter fun w => w.1 ≠ c }

/-- A write becomes visible. -/
def Database.apply (m : Embedded ρ) (db : Database γ ρ) : Write → Option (Database γ ρ)
  | .sql file => (m.sql file db.content).map fun content =>
      { db with content := content, committed := db.committed ++ [file] }
  | .row file => db.table.map fun rows => { db with table := some (rows ++ [file]) }

/-- All writes of the transaction become visible at once. -/
def Database.commit (m : Embedded ρ) (db : Database γ ρ) (c : γ) : Option (Database γ ρ) :=
  (((db.uncommitted.filter fun w => w.1 = c).map (·.2)).foldlM (Database.apply m) db).map
    fun db => db.rollback c

/-- Another open transaction has inserted the row. -/
def Database.isInserting (db : Database γ ρ) (c : γ) (file : String) : Bool :=
  db.uncommitted.any fun w => w.1 ≠ c && w.2 = .row file

def Database.unlock (db : Database γ ρ) (c : γ) : Database γ ρ :=
  if db.lock = some c then { db with lock := none } else db

/-- The end of a session aborts its transaction and releases its lock. -/
def Database.endSession (db : Database γ ρ) (c : γ) : Database γ ρ := (db.rollback c).unlock c

section

variable {m : Embedded ρ} {db db' : Database γ ρ} {c : γ} {w : Write}

@[simp] theorem rollback_lock : (db.rollback c).lock = db.lock := rfl

@[simp] theorem unlock_lock : (db.unlock c).lock = if db.lock = some c then none else db.lock := by
  unfold Database.unlock
  split <;> rfl

@[simp] theorem endSession_lock :
    (db.endSession c).lock = if db.lock = some c then none else db.lock := unlock_lock

@[simp] theorem endSession_recorded : (db.endSession c).recorded = db.recorded := by
  unfold Database.endSession Database.unlock
  split <;> rfl

omit [DecidableEq γ] in
theorem apply_lock (h : db.apply m w = some db') : db'.lock = db.lock := by
  cases w with
  | sql file =>
      obtain ⟨content, -, rfl⟩ := Option.map_eq_some_iff.mp h
      rfl
  | row file =>
      obtain ⟨rows, -, rfl⟩ := Option.map_eq_some_iff.mp h
      rfl

omit [DecidableEq γ] in
theorem applyAll_lock {ws : List Write} (h : ws.foldlM (Database.apply m) db = some db') :
    db'.lock = db.lock := by
  induction ws generalizing db with
  | nil =>
      cases h
      rfl
  | cons w ws ih =>
      rw [List.foldlM_cons, Option.bind_eq_bind, Option.bind_eq_some_iff] at h
      obtain ⟨db₁, hw, h⟩ := h
      rw [ih h, apply_lock hw]

theorem commit_lock (h : db.commit m c = some db') : db'.lock = db.lock := by
  obtain ⟨db₁, hws, rfl⟩ := Option.map_eq_some_iff.mp h
  rw [rollback_lock, applyAll_lock hws]

end

/-! ### Runs -/

/-- The next statement of a run. -/
def next (m : Embedded ρ) (c : γ) (p : Place) (db : Database γ ρ) : Option (Place × Database γ ρ) :=
  match p with
  | .idle => some (.waiting, db)
  | .waiting => if db.lock = none then some (.locked, { db with lock := some c }) else none
  | .locked => some (.creating db.table.isSome, db)
  | .creating found =>
      if found then some (.created, db)
      else if db.table.isSome then some (.unlocking (.error .conflict), db)
      else some (.created, { db with table := some [] })
  | .created =>
      match db.table with
      | some rows => some (.loop rows m.files, db)
      | none => some (.unlocking (.error .conflict), db)
  | .loop _ [] => some (.unlocking .ok, db)
  | .loop applied (file :: rest) =>
      if file ∈ applied then some (.loop applied rest, db) else some (.begun applied file rest, db)
  | .begun applied file rest =>
      if (m.sql file db.content).isSome then some (.executed applied file rest, db.write c (.sql file))
      else some (.unlocking (.error (.refused file)), db.rollback c)
  | .executed applied file rest =>
      if file ∈ db.recorded then some (.unlocking (.error .conflict), db.rollback c)
      -- the unique index makes the statement wait for the other transaction
      else if db.isInserting c file then none
      else some (.inserted applied file rest, db.write c (.row file))
  | .inserted applied _ rest =>
      match db.commit m c with
      | some db' => some (.loop applied rest, db')
      | none => some (.unlocking (.error .conflict), db.rollback c)
  | .unlocking result => some (.returned result, db.unlock c)
  | .returned _ | .crashed => none

/-- The branches of `next`. -/
inductive Next (m : Embedded ρ) (c : γ) (db : Database γ ρ) : Place → Place → Database γ ρ → Prop where
  | acquire : Next m c db .idle .waiting db
  | lock (hfree : db.lock = none) : Next m c db .waiting .locked { db with lock := some c }
  | look : Next m c db .locked (.creating db.table.isSome) db
  | found : Next m c db (.creating true) .created db
  | collide (htable : db.table.isSome) : Next m c db (.creating false) (.unlocking (.error .conflict)) db
  | create (htable : db.table = none) :
      Next m c db (.creating false) .created { db with table := some [] }
  | select {rows : List String} (htable : db.table = some rows) :
      Next m c db .created (.loop rows m.files) db
  | dropped (htable : db.table = none) : Next m c db .created (.unlocking (.error .conflict)) db
  | upToDate {applied : List String} : Next m c db (.loop applied []) (.unlocking .ok) db
  | applied {applied rest : List String} {file : String} (happlied : file ∈ applied) :
      Next m c db (.loop applied (file :: rest)) (.loop applied rest) db
  | begin {applied rest : List String} {file : String} (happlied : file ∉ applied) :
      Next m c db (.loop applied (file :: rest)) (.begun applied file rest) db
  | exec {applied rest : List String} {file : String} (hsql : (m.sql file db.content).isSome) :
      Next m c db (.begun applied file rest) (.executed applied file rest) (db.write c (.sql file))
  | refuse {applied rest : List String} {file : String} (hsql : m.sql file db.content = none) :
      Next m c db (.begun applied file rest) (.unlocking (.error (.refused file))) (db.rollback c)
  | duplicate {applied rest : List String} {file : String} (hfile : file ∈ db.recorded) :
      Next m c db (.executed applied file rest) (.unlocking (.error .conflict)) (db.rollback c)
  | insert {applied rest : List String} {file : String} (hfile : file ∉ db.recorded) :
      Next m c db (.executed applied file rest) (.inserted applied file rest) (db.write c (.row file))
  | commit {applied rest : List String} {file : String} {db' : Database γ ρ}
      (hcommit : db.commit m c = some db') :
      Next m c db (.inserted applied file rest) (.loop applied rest) db'
  | abort {applied rest : List String} {file : String} (hcommit : db.commit m c = none) :
      Next m c db (.inserted applied file rest) (.unlocking (.error .conflict)) (db.rollback c)
  | unlock {result : Result} : Next m c db (.unlocking result) (.returned result) (db.unlock c)

theorem next_cases {m : Embedded ρ} {c : γ} {p p' : Place} {db db' : Database γ ρ}
    (h : next m c p db = some (p', db')) : Next m c db p p' db' := by
  cases p with
  | idle =>
      cases h
      exact .acquire
  | waiting =>
      rw [next] at h
      split at h
      · next hfree =>
        cases h
        exact .lock hfree
      · cases h
  | locked =>
      cases h
      exact .look
  | creating found =>
      cases found with
      | true =>
          cases h
          exact .found
      | false =>
          cases htable : db.table with
          | none =>
              simp only [next, htable] at h
              cases h
              exact .create htable
          | some rows =>
              simp only [next, htable] at h
              cases h
              exact .collide (by rw [htable]; rfl)
  | created =>
      cases htable : db.table with
      | none =>
          simp only [next, htable] at h
          cases h
          exact .dropped htable
      | some rows =>
          simp only [next, htable] at h
          cases h
          exact .select htable
  | loop applied rest =>
      cases rest with
      | nil =>
          cases h
          exact .upToDate
      | cons file rest =>
          rw [next] at h
          split at h
          · next happlied =>
            cases h
            exact .applied happlied
          · next happlied =>
            cases h
            exact .begin happlied
  | begun applied file rest =>
      rw [next] at h
      split at h
      · next hsql =>
        cases h
        exact .exec hsql
      · next hsql =>
        cases h
        exact .refuse (by simpa using hsql)
  | executed applied file rest =>
      rw [next] at h
      split at h
      · next hfile =>
        cases h
        exact .duplicate hfile
      next hfile =>
      split at h
      · cases h
      · cases h
        exact .insert hfile
  | inserted applied file rest =>
      cases hcommit : db.commit m c with
      | none =>
          simp only [next, hcommit] at h
          cases h
          exact .abort hcommit
      | some db₁ =>
          simp only [next, hcommit] at h
          cases h
          exact .commit hcommit
  | unlocking result =>
      cases h
      exact .unlock
  | returned => cases h
  | crashed => cases h

/-- The next statement fails: before the lock `Migrate` just returns, after it the transaction is rolled
back and the lock released. -/
def fail (c : γ) (p : Place) (db : Database γ ρ) : Option (Place × Database γ ρ) :=
  match p with
  | .idle | .waiting => some (.returned (.error .unavailable), db)
  | .locked | .creating _ | .created | .loop .. | .begun .. | .executed .. | .inserted .. =>
      some (.unlocking (.error .unavailable), db.rollback c)
  | .unlocking _ | .returned _ | .crashed => none

/-- The session ends under a run that is not through. -/
def disconnect (c : γ) (p : Place) (db : Database γ ρ) : Option (Place × Database γ ρ) :=
  match p with
  | .idle | .returned _ | .crashed => none
  -- the error of the deferred statement is dropped
  | .unlocking result => some (.returned result, db.endSession c)
  | .waiting | .locked | .creating _ | .created | .loop .. | .begun .. | .executed .. | .inserted .. =>
      some (.returned (.error .unavailable), db.endSession c)

def act (m : Embedded ρ) (c : γ) (a : Action) (p : Place) (db : Database γ ρ) :
    Option (Place × Database γ ρ) :=
  match a with
  | .next => next m c p db
  | .fail => fail c p db
  | .disconnect => disconnect c p db
  | .crash => some (.crashed, db.endSession c)

abbrev State (γ ρ : Type) := Config γ (Database γ ρ) Place

def step (m : Embedded ρ) : State γ ρ → γ × Action → Option (State γ ρ) := interleave (act m)

end

/-- A database before any run: the filename is the primary key. -/
structure Initial (ρ : Type) where
  table : Option (List String)
  content : ρ
  nodup : (table.getD []).Nodup

def Initial.recorded {ρ : Type} (db : Initial ρ) : List String := db.table.getD []

/-- No run has begun. -/
def Initial.state {γ ρ : Type} (db : Initial ρ) : State γ ρ :=
  ⟨⟨db.table, db.content, [], [], none⟩, fun _ => .idle⟩

end Webhooks.Migrate
