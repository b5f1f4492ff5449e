import Webhooks.Store.Migrate

/-!
# Properties — Migrations

Any number of runs of `Migrate` over one database, in any order, with any of their statements failing, and
dying at any point.

* `pending`: the files that were not recorded at the start, in the order of their names.
* `Consistent`, `assertion`: what is true of the database, and of it at each place of a run; `outline`
  puts them together for the advisory lock.
* `alone`: a run with no failure and no other run.  `alone_returns`: it returns.
* **`migrated_once`**: each file is committed at most once, exactly when its name is recorded, in order; what
  a run returns is true of the database, and a run alone completes the rest.
-/

namespace Webhooks.Migrate

open Lib

variable {γ ρ : Type}

/-- The files that were not recorded at the start. -/
def pending (m : Embedded ρ) (start : Initial ρ) : List String :=
  m.files.filter (· ∉ start.recorded)

/-- The SQL of the files, one after the other. -/
def Embedded.sqlAll (m : Embedded ρ) (files : List String) (content : ρ) : Option ρ :=
  files.foldlM (fun content file => m.sql file content) content

/-- Postgres refuses the file where the ones before it have been committed and nothing else. -/
def Refuses (m : Embedded ρ) (start : Initial ρ) (file : String) : Prop :=
  ∃ before content, before ++ [file] <+: pending m start ∧
    m.sqlAll before start.content = some content ∧ m.sql file content = none

section

variable (m : Embedded ρ) (start : Initial ρ)

structure Consistent (db : Database γ ρ) : Prop where
  inOrder : db.committed <+: pending m start
  recorded : db.recorded = start.recorded ++ db.committed
  content : m.sqlAll db.committed start.content = some db.content
  owner : ∀ w ∈ db.uncommitted, db.lock = some w.1

/-- These files are left, and there is the table for their names. -/
structure Left (db : Database γ ρ) (files : List String) : Prop where
  table : db.table.isSome
  remaining : pending m start = db.committed ++ files

/-- What is true of the database when `Migrate` returns this. -/
def Sound (db : Database γ ρ) : Result → Prop
  | .ok => ∀ file ∈ m.files, file ∈ db.recorded
  | .error .unavailable => True
  | .error (.refused file) => Refuses m start file
  | .error .conflict => False

/-- The places between the lock and the unlock. -/
def Place.inside : Place → Bool
  | .idle | .waiting | .returned _ | .crashed => false
  | .locked | .creating _ | .created | .loop .. | .begun .. | .executed .. | .inserted ..
  | .unlocking _ => true

/-- What is true of the database at a place. -/
def assertion (c : γ) (p : Place) (db : Database γ ρ) : Prop :=
  match p with
  | .idle | .waiting | .crashed => True
  | .locked => db.uncommitted = []
  | .creating found => db.uncommitted = [] ∧ found = db.table.isSome
  | .created => db.uncommitted = [] ∧ db.table.isSome
  | .loop applied rest => db.uncommitted = [] ∧ Left m start db (rest.filter (· ∉ applied))
  | .begun applied file rest =>
      db.uncommitted = [] ∧ Left m start db (file :: rest.filter (· ∉ applied))
  | .executed applied file rest =>
      db.uncommitted = [(c, .sql file)] ∧ Left m start db (file :: rest.filter (· ∉ applied)) ∧
        (m.sql file db.content).isSome
  | .inserted applied file rest =>
      db.uncommitted = [(c, .sql file), (c, .row file)] ∧
        Left m start db (file :: rest.filter (· ∉ applied)) ∧ (m.sql file db.content).isSome
  | .unlocking result => db.uncommitted = [] ∧ Sound m start db result
  | .returned result => Sound m start db result

end

/-! ### Files -/

section

variable {m : Embedded ρ} {start : Initial ρ}

theorem files_nodup : m.files.Nodup :=
  (List.perm_insertionSort _ _).nodup_iff.mpr (m.nodup.filter _)

theorem pending_nodup : (pending m start).Nodup := files_nodup.filter _

theorem pending_sorted : (pending m start).Pairwise (· ≤ ·) :=
  (List.pairwise_insertionSort (· ≤ ·) _).filter _

theorem sqlAll_append {files more : List String} {content : ρ} :
    m.sqlAll (files ++ more) content = (m.sqlAll files content).bind (m.sqlAll more) :=
  List.foldlM_append

theorem mem_recorded_or_pending {file : String} (h : file ∈ m.files) :
    file ∈ start.recorded ∨ file ∈ pending m start := by
  by_cases hrecorded : file ∈ start.recorded
  · exact .inl hrecorded
  · exact .inr (List.mem_filter.mpr ⟨h, by simpa using hrecorded⟩)

theorem not_mem_recorded {file : String} (h : file ∈ pending m start) : file ∉ start.recorded := by
  simpa using (List.mem_filter.mp h).2

end

/-! ### What is kept -/

section

variable {m : Embedded ρ} {start : Initial ρ} {c : γ} {p p' : Place} {db db' : Database γ ρ}

/-- The table was there, or is made with no rows. -/
theorem created_keeps (hconsistent : Consistent m start db) (htable : db.table = none) :
    Consistent m start { db with table := some [] } := by
  have hrecorded : db.recorded = [] := by rw [Database.recorded, htable, Option.getD_none]
  exact ⟨hconsistent.inOrder, hrecorded.symm.trans hconsistent.recorded, hconsistent.content,
    hconsistent.owner⟩

/-- What `SELECT filename` has not returned is what is left. -/
theorem left_of_select (hconsistent : Consistent m start db) (htable : db.table.isSome) :
    Left m start db (m.files.filter (· ∉ db.recorded)) := by
  obtain ⟨rest, hrest⟩ := hconsistent.inOrder
  refine ⟨htable, ?_⟩
  have hnodup : (db.committed ++ rest).Nodup := hrest ▸ pending_nodup
  have hleft : m.files.filter (· ∉ db.recorded) = (pending m start).filter (· ∉ db.committed) := by
    rw [pending, List.filter_filter, hconsistent.recorded]
    refine List.filter_congr fun file _ => ?_
    simp [Bool.and_comm]
  have hcommitted : db.committed.filter (· ∉ db.committed) = [] :=
    List.filter_eq_nil_iff.mpr fun file hfile => by simpa using hfile
  have hothers : rest.filter (· ∉ db.committed) = rest :=
    List.filter_eq_self.mpr fun file hfile => by
      simpa using fun hin => (List.nodup_append.mp hnodup).2.2 _ hin _ hfile rfl
  rw [hleft, ← hrest, List.filter_append, hcommitted, hothers, List.nil_append]

/-- The next file is not recorded. -/
theorem Left.not_mem_recorded {file : String} {rest : List String} (h : Left m start db (file :: rest))
    (hconsistent : Consistent m start db) : file ∉ db.recorded := by
  have hnodup : (db.committed ++ file :: rest).Nodup := h.remaining ▸ pending_nodup
  have hpending : file ∈ pending m start := h.remaining ▸ List.mem_append_right _ List.mem_cons_self
  rw [hconsistent.recorded, List.mem_append, not_or]
  exact ⟨Migrate.not_mem_recorded hpending,
    fun hin => (List.nodup_append.mp hnodup).2.2 _ hin _ List.mem_cons_self rfl⟩

theorem Left.inOrder {file : String} {rest : List String} (h : Left m start db (file :: rest)) :
    db.committed ++ [file] <+: pending m start :=
  ⟨rest, by rw [h.remaining, List.append_assoc, List.singleton_append]⟩

/-- When nothing is left, every file is recorded. -/
theorem Left.recorded (h : Left m start db []) (hconsistent : Consistent m start db) :
    Sound m start db .ok := by
  intro file hfile
  rw [hconsistent.recorded, List.mem_append]
  refine (mem_recorded_or_pending hfile).imp_right fun hpending => ?_
  rwa [h.remaining, List.append_nil] at hpending

/-- What is true after an action of a run. -/
structure Kept (m : Embedded ρ) (start : Initial ρ) (c : γ) (p' : Place) (db db' : Database γ ρ) :
    Prop where
  consistent : Consistent m start db'
  assertion : assertion m start c p' db'
  grows : ∀ file ∈ db.recorded, file ∈ db'.recorded

/-- The database is as before. -/
theorem Kept.same (h : Consistent m start db) (hp : Migrate.assertion m start c p' db) :
    Kept m start c p' db db :=
  ⟨h, hp, fun _ => id⟩

theorem write_keeps {w : Write} (hconsistent : Consistent m start db) (hlock : db.lock = some c)
    (hassertion : assertion m start c p' (db.write c w)) : Kept m start c p' db (db.write c w) := by
  refine ⟨⟨hconsistent.inOrder, hconsistent.recorded, hconsistent.content, fun w' hw' => ?_⟩,
    hassertion, fun _ => id⟩
  rcases List.mem_append.mp hw' with hw' | hw'
  · exact hconsistent.owner w' hw'
  · rw [List.mem_singleton.mp hw']
    exact hlock

/-- What a run has returned stays true. -/
theorem Sound.mono {result : Result} (h : Sound m start db result)
    (hgrows : ∀ file ∈ db.recorded, file ∈ db'.recorded) : Sound m start db' result := by
  cases result with
  | ok => exact fun file hfile => hgrows file (h file hfile)
  | error failure => cases failure <;> exact h

theorem assertion_mono (hout : ¬ p.inside = true) (h : assertion m start c p db)
    (hgrows : ∀ file ∈ db.recorded, file ∈ db'.recorded) : assertion m start c p db' := by
  cases p with
  | idle => trivial
  | waiting => trivial
  | crashed => trivial
  | returned result => exact Sound.mono h hgrows
  | _ => exact absurd rfl hout

end

/-! ### One action -/

section

variable [DecidableEq γ] {m : Embedded ρ} {start : Initial ρ} {c b : γ} {a : Action} {p p' : Place}
  {db db' : Database γ ρ}

/-- What an action does to the lock: nothing, take it when it is free, or give it back. -/
inductive LockStep (c : γ) (p p' : Place) (lock lock' : Option γ) : Prop where
  | keeps (hplace : p'.inside = p.inside) (hlock : lock' = lock)
  | takes (hplace : p'.inside = true) (hfree : lock = none) (hlock : lock' = some c)
  | gives (hplace : p'.inside = false) (hlock : lock' = if lock = some c then none else lock)

theorem next_lock (h : next m c p db = some (p', db')) : LockStep c p p' db.lock db'.lock := by
  cases next_cases h with
  | lock hfree => exact .takes rfl hfree rfl
  | commit hcommit => exact .keeps rfl (commit_lock hcommit)
  | unlock => exact .gives rfl unlock_lock
  | _ => exact .keeps rfl rfl

theorem fail_lock (h : fail c p db = some (p', db')) : LockStep c p p' db.lock db'.lock := by
  cases p <;> cases h <;> exact .keeps rfl rfl

theorem disconnect_lock (h : disconnect c p db = some (p', db')) :
    LockStep c p p' db.lock db'.lock := by
  cases p <;> cases h <;> exact .gives rfl endSession_lock

theorem act_lock (h : act m c a p db = some (p', db')) : LockStep c p p' db.lock db'.lock := by
  cases a with
  | next => exact next_lock h
  | fail => exact fail_lock h
  | disconnect => exact disconnect_lock h
  | crash =>
      cases h
      exact .gives rfl endSession_lock

theorem LockStep.inside_iff {lock lock' : Option γ} (h : LockStep c p p' lock lock')
    (hp : p.inside = true ↔ lock = some c) :
    (p'.inside = true ↔ lock' = some c) ∧ ∀ b, b ≠ c → (lock' = some b ↔ lock = some b) := by
  cases h with
  | keeps hplace hlock =>
      subst hlock
      rw [hplace]
      exact ⟨hp, fun _ _ => Iff.rfl⟩
  | takes hplace hfree hlock =>
      subst hlock hfree
      exact ⟨iff_of_true hplace rfl, fun b hb => iff_of_false (by simpa using hb.symm) nofun⟩
  | gives hplace hlock =>
      subst hlock
      rw [hplace]
      refine ⟨iff_of_false Bool.false_ne_true ?_, fun b hb => ?_⟩
      · split <;> simp_all
      · split
        · next h =>
          rw [h]
          exact iff_of_false nofun (by simpa using hb.symm)
        · exact Iff.rfl

/-! ### What an action keeps -/

theorem Consistent.rollback (h : Consistent m start db) : Consistent m start (db.rollback c) :=
  ⟨h.inOrder, h.recorded, h.content, fun w hw => h.owner w (List.mem_of_mem_filter hw)⟩

/-- The open transaction is that of the run with the lock. -/
theorem Consistent.rollback_uncommitted (h : Consistent m start db) (hlock : db.lock = some c) :
    (db.rollback c).uncommitted = [] := by
  refine List.filter_eq_nil_iff.mpr fun w hw => ?_
  have howner := Option.some_inj.mp ((h.owner w hw).symm.trans hlock)
  simpa using howner

theorem Consistent.endSession (h : Consistent m start db) : Consistent m start (db.endSession c) := by
  unfold Database.endSession Database.unlock
  split
  · next hlock => exact ⟨h.inOrder, h.recorded, h.content, by simp [h.rollback_uncommitted hlock]⟩
  · exact h.rollback

theorem Consistent.endSession_eq_self (h : Consistent m start db) (hlock : db.lock ≠ some c) :
    db.endSession c = db := by
  have hrollback : db.rollback c = db := by
    unfold Database.rollback
    rw [List.filter_eq_self.mpr fun w hw => ?_]
    have howner := h.owner w hw
    simp only [ne_eq, decide_not, Bool.not_eq_true', decide_eq_false_iff_not]
    rintro rfl
    exact hlock howner
  rw [Database.endSession, hrollback, Database.unlock, if_neg hlock]

/-- While another run has the lock, a run outside it leaves the database alone. -/
theorem act_quiet (h : act m c a p db = some (p', db')) (hp : p.inside = true ↔ db.lock = some c)
    (hconsistent : Consistent m start db) (hout : ¬ p.inside = true) (hheld : db.lock ≠ none) : db' = db := by
  have hend : db.endSession c = db := hconsistent.endSession_eq_self fun hlock => hout (hp.mpr hlock)
  cases a with
  | next =>
      cases next_cases h with
      | acquire => rfl
      | lock hfree => exact absurd hfree hheld
      | _ => exact absurd rfl hout
  | fail =>
      cases p with
      | idle =>
          cases h
          rfl
      | waiting =>
          cases h
          rfl
      | returned => cases h
      | crashed => cases h
      | _ => exact absurd rfl hout
  | disconnect =>
      cases p with
      | waiting =>
          cases h
          exact hend
      | idle => cases h
      | returned => cases h
      | crashed => cases h
      | _ => exact absurd rfl hout
  | crash =>
      cases h
      exact hend

theorem Kept.rollback (h : Consistent m start db) (hlock : db.lock = some c) {result : Result}
    (hsound : Sound m start db result) : Kept m start c (.unlocking result) db (db.rollback c) := by
  refine ⟨h.rollback, ⟨h.rollback_uncommitted hlock, ?_⟩, fun _ => id⟩
  cases result with
  | ok => exact hsound
  | error failure => cases failure <;> exact hsound

theorem Kept.endSession (h : Consistent m start db) (hp : Migrate.assertion m start c p' (db.endSession c)) :
    Kept m start c p' db (db.endSession c) :=
  ⟨h.endSession, hp, by simp⟩

theorem fail_keeps (h : fail c p db = some (p', db')) (hp : p.inside = true ↔ db.lock = some c)
    (hconsistent : Consistent m start db) : Kept m start c p' db db' := by
  cases p with
  | idle =>
      cases h
      exact .same hconsistent trivial
  | waiting =>
      cases h
      exact .same hconsistent trivial
  | unlocking => cases h
  | returned => cases h
  | crashed => cases h
  | _ =>
      cases h
      exact .rollback hconsistent (hp.mp rfl) trivial

theorem Sound.endSession {result : Result} (h : Sound m start db result) :
    Sound m start (db.endSession c) result := by
  cases result with
  | ok => simpa [Sound] using h
  | error failure => cases failure <;> exact h

theorem disconnect_keeps (h : disconnect c p db = some (p', db')) (hconsistent : Consistent m start db)
    (hassertion : assertion m start c p db) : Kept m start c p' db db' := by
  cases p with
  | idle => cases h
  | returned => cases h
  | crashed => cases h
  | unlocking result =>
      cases h
      exact .endSession hconsistent hassertion.2.endSession
  | _ =>
      cases h
      exact .endSession hconsistent trivial

/-! ### What the next statement keeps -/

theorem endSession_of_uncommitted (h : db.uncommitted = []) : db.endSession c = db.unlock c := by
  rw [Database.endSession, Database.rollback, h, List.filter_nil, ← h]

/-- The transaction of a file commits, the row with the SQL. -/
theorem commit_eq {file : String} {content : ρ} {rows : List String}
    (huncommitted : db.uncommitted = [(c, .sql file), (c, .row file)])
    (hcontent : m.sql file db.content = some content) (htable : db.table = some rows) :
    db.commit m c = some { db with
      table := some (rows ++ [file])
      content := content
      committed := db.committed ++ [file]
      uncommitted := [] } := by
  simp [Database.commit, huncommitted, Database.apply, hcontent, htable, Database.rollback]

theorem commit_keeps {applied rest : List String} {file : String}
    (hconsistent : Consistent m start db) (h : assertion m start c (.inserted applied file rest) db) :
    ∃ db', db.commit m c = some db' ∧ Kept m start c (.loop applied rest) db db' := by
  obtain ⟨huncommitted, hleft, hsql⟩ := h
  obtain ⟨content, hcontent⟩ := Option.isSome_iff_exists.mp hsql
  obtain ⟨rows, hrows⟩ := Option.isSome_iff_exists.mp hleft.table
  have hrecorded : db.recorded = rows := by rw [Database.recorded, hrows, Option.getD_some]
  refine ⟨_, commit_eq huncommitted hcontent hrows, ⟨hleft.inOrder, ?_, ?_, nofun⟩, ⟨rfl, rfl, ?_⟩, ?_⟩
  · show rows ++ [file] = _
    rw [← hrecorded, hconsistent.recorded, List.append_assoc]
  · rw [sqlAll_append, hconsistent.content, Option.bind_some]
    simp [Embedded.sqlAll, hcontent]
  · rw [hleft.remaining, List.append_assoc, List.singleton_append]
  · intro file' hfile'
    rw [hrecorded] at hfile'
    exact List.mem_append_left _ hfile'

theorem next_keeps (h : next m c p db = some (p', db')) (hp : p.inside = true ↔ db.lock = some c)
    (hconsistent : Consistent m start db) (hassertion : assertion m start c p db) :
    Kept m start c p' db db' := by
  cases next_cases h with
  | acquire => exact .same hconsistent trivial
  | lock hfree =>
      have huncommitted : db.uncommitted = [] := List.eq_nil_iff_forall_not_mem.mpr fun w hw => by
        have howner := hconsistent.owner w hw
        rw [hfree] at howner
        cases howner
      exact ⟨⟨hconsistent.inOrder, hconsistent.recorded, hconsistent.content,
        by simp [huncommitted]⟩, huncommitted, fun _ => id⟩
  | look => exact .same hconsistent ⟨hassertion, rfl⟩
  | found => exact .same hconsistent ⟨hassertion.1, hassertion.2.symm⟩
  | collide htable =>
      have hfound : false = db.table.isSome := hassertion.2
      rw [htable] at hfound
      cases hfound
  | create htable =>
      refine ⟨created_keeps hconsistent htable, ⟨hassertion.1, rfl⟩, ?_⟩
      simp [Database.recorded, htable]
  | select htable =>
      have hleft := left_of_select hconsistent hassertion.2
      rw [Database.recorded, htable, Option.getD_some] at hleft
      exact .same hconsistent ⟨hassertion.1, hleft⟩
  | dropped htable =>
      have hsome : db.table.isSome := hassertion.2
      rw [htable] at hsome
      cases hsome
  | upToDate => exact .same hconsistent ⟨hassertion.1, Left.recorded hassertion.2 hconsistent⟩
  | applied happlied =>
      obtain ⟨huncommitted, hleft⟩ := hassertion
      rw [List.filter_cons_of_neg (by simpa using happlied)] at hleft
      exact .same hconsistent ⟨huncommitted, hleft⟩
  | begin happlied =>
      obtain ⟨huncommitted, hleft⟩ := hassertion
      rw [List.filter_cons_of_pos (by simpa using happlied)] at hleft
      exact .same hconsistent ⟨huncommitted, hleft⟩
  | exec hsql =>
      obtain ⟨huncommitted, hleft⟩ := hassertion
      refine write_keeps hconsistent (hp.mp rfl) ⟨?_, ⟨hleft.table, hleft.remaining⟩, hsql⟩
      rw [Database.write, huncommitted, List.nil_append]
  | refuse hsql =>
      exact .rollback hconsistent (hp.mp rfl)
        ⟨db.committed, db.content, hassertion.2.inOrder, hconsistent.content, hsql⟩
  | duplicate hfile => exact absurd hfile (hassertion.2.1.not_mem_recorded hconsistent)
  | insert hfile =>
      obtain ⟨huncommitted, hleft, hsql⟩ := hassertion
      refine write_keeps hconsistent (hp.mp rfl) ⟨?_, ⟨hleft.table, hleft.remaining⟩, hsql⟩
      rw [Database.write, huncommitted, List.singleton_append]
  | commit hcommit =>
      obtain ⟨db₁, hcommit₁, hkept⟩ := commit_keeps hconsistent hassertion
      obtain rfl := Option.some_inj.mp (hcommit.symm.trans hcommit₁)
      exact hkept
  | abort hcommit =>
      obtain ⟨db₁, hcommit₁, -⟩ := commit_keeps hconsistent hassertion
      rw [hcommit] at hcommit₁
      cases hcommit₁
  | unlock =>
      rw [← endSession_of_uncommitted hassertion.1]
      exact .endSession hconsistent hassertion.2.endSession

theorem act_keeps (h : act m c a p db = some (p', db')) (hp : p.inside = true ↔ db.lock = some c)
    (hconsistent : Consistent m start db) (hassertion : assertion m start c p db) :
    Kept m start c p' db db' := by
  cases a with
  | next => exact next_keeps h hp hconsistent hassertion
  | fail => exact fail_keeps h hp hconsistent
  | disconnect => exact disconnect_keeps h hconsistent hassertion
  | crash =>
      cases h
      exact .endSession hconsistent trivial

/-- The lock keeps the runs apart. -/
def outline (m : Embedded ρ) (start : Initial ρ) : Outline (act m : γ → _) where
  inside p := p.inside = true
  holder := Database.lock
  invariant := Consistent m start
  assertion := assertion m start
  grows db db' := ∀ file ∈ db.recorded, file ∈ db'.recorded
  lock h hp := (act_lock h).inside_iff hp
  quiet := act_quiet
  keeps h hp hconsistent hassertion :=
    have hkept := act_keeps h hp hconsistent hassertion
    ⟨hkept.consistent, hkept.assertion, hkept.grows⟩
  stable hout hgrows h := assertion_mono hout h hgrows

theorem outline_state : (outline m start : Outline (act m : γ → _)).Holds start.state where
  lock _ := iff_of_false Bool.false_ne_true nofun
  invariant := ⟨List.nil_prefix, (List.append_nil _).symm, rfl, nofun⟩
  assertion _ := trivial

/-! ### A run alone -/

/-- The run takes its statements, none fails, and no other run does anything. -/
def alone (m : Embedded ρ) (c : γ) : State γ ρ → γ × Action → Option (State γ ρ) :=
  restrict (fun _ l => l = (c, .next)) (step m)

/-- How far a run is from its end. -/
def Place.rank (m : Embedded ρ) : Place → Nat
  | .idle => 4 * m.files.length + 7
  | .waiting => 4 * m.files.length + 6
  | .locked => 4 * m.files.length + 5
  | .creating _ => 4 * m.files.length + 4
  | .created => 4 * m.files.length + 3
  | .loop _ rest => 4 * rest.length + 2
  | .begun _ _ rest => 4 * rest.length + 5
  | .executed _ _ rest => 4 * rest.length + 4
  | .inserted _ _ rest => 4 * rest.length + 3
  | .unlocking _ => 1
  | .returned _ | .crashed => 0

/-- The run is on its way. -/
def Place.live : Place → Bool
  | .returned _ | .crashed => false
  | _ => true

/-- What the run returns. -/
def Place.result? : Place → Option Result
  | .unlocking result | .returned result => some result
  | _ => none

theorem next_rank (h : next m c p db = some (p', db')) : p'.rank m < p.rank m := by
  cases next_cases h <;> simp only [Place.rank, List.length_cons] <;> omega

/-- No statement is to blame. -/
theorem next_result (h : next m c p db = some (p', db'))
    (hp : p.result? ≠ some (.error .unavailable)) : p'.result? ≠ some (.error .unavailable) := by
  cases next_cases h with
  | unlock => exact hp
  | _ => simp [Place.result?]

/-- Within the lock nothing has to be waited for. -/
theorem next_isSome (hlive : p.live = true) (hfree : p = .waiting → db.lock = none)
    (h : assertion m start c p db) : (next m c p db).isSome := by
  cases p with
  | idle => rfl
  | waiting => rw [next, if_pos (hfree rfl)]; rfl
  | locked => rfl
  | creating found =>
      rw [next]
      split
      · rfl
      · split <;> rfl
  | created =>
      rw [next]
      split <;> rfl
  | loop applied rest =>
      cases rest with
      | nil => rfl
      | cons file rest =>
          rw [next]
          split <;> rfl
  | begun applied file rest =>
      rw [next]
      split <;> rfl
  | executed applied file rest =>
      have hother : db.isInserting c file = false := by simp [Database.isInserting, h.1]
      rw [next, hother]
      split <;> rfl
  | inserted applied file rest =>
      rw [next]
      split <;> rfl
  | unlocking result => rfl
  | returned => cases hlive
  | crashed => cases hlive

theorem next_live (h : next m c p db = some (p', db')) :
    p'.live = true ∨ ∃ result, p' = .returned result := by
  cases next_cases h with
  | unlock => exact .inr ⟨_, rfl⟩
  | _ => exact .inl rfl

variable {s s' : State γ ρ}

theorem alone_eq_some {l : γ × Action} (h : alone m c s l = some s') :
    l = (c, .next) ∧ next m c (s.places c) s.shared = some (s'.places c, s'.shared) := by
  obtain ⟨rfl, hstep⟩ := restrict_eq_some.mp h
  exact ⟨rfl, (interleave_eq_some.mp hstep).1⟩

/-- A run alone returns, when the lock is free or its own. -/
theorem alone_returns (hs : (outline m start).Holds s) (hlive : (s.places c).live = true)
    (hlock : ∀ b, b ≠ c → s.shared.lock ≠ some b) :
    ∃ s', Reachable (alone m c) s s' ∧ (∃ result, s'.places c = .returned result) ∧
      ∀ b, b ≠ c → s'.shared.lock ≠ some b := by
  refine Reachable.exists_of_rank (fun s => (s.places c).rank m) (P := fun s => (outline m start).Holds s ∧
    (s.places c).live = true ∧ ∀ b, b ≠ c → s.shared.lock ≠ some b) ?_ ⟨hs, hlive, hlock⟩
  rintro s₁ ⟨hs₁, hlive₁, hlock₁⟩
  have hfree : s₁.places c = .waiting → s₁.shared.lock = none := by
    intro hwaiting
    cases hholder : s₁.shared.lock with
    | none => rfl
    | some b =>
        obtain rfl : b = c := by_contra fun hb => hlock₁ b hb hholder
        have hinside := (hs₁.lock b).mpr hholder
        rw [hwaiting] at hinside
        cases hinside
  obtain ⟨⟨p', db'⟩, hnext⟩ := Option.isSome_iff_exists.mp (next_isSome hlive₁ hfree (hs₁.assertion c))
  have hstep : step m s₁ (c, .next) = some ⟨db', Function.update s₁.places c p'⟩ := by
    rw [step, interleave, act, hnext]
    rfl
  have hs₂ := hs₁.step hstep
  have hothers := ((act_lock (a := .next) hnext).inside_iff (hs₁.lock c)).2
  have hlock₂ : ∀ b, b ≠ c → db'.lock ≠ some b := fun b hb hholder =>
    hlock₁ b hb ((hothers b hb).mp hholder)
  refine ⟨(c, .next), _, restrict_eq_some.mpr ⟨rfl, hstep⟩, ?_⟩
  simp only [Function.update_self]
  refine (next_live hnext).symm.imp (fun hreturned => ⟨hreturned, hlock₂⟩) fun hlive₂ =>
    ⟨⟨hs₂, hlive₂, hlock₂⟩, next_rank hnext⟩

/-- A run alone does not fail by itself. -/
theorem alone_result (h : Reachable (alone m c) s s')
    (hs : (s.places c).result? ≠ some (.error .unavailable)) :
    (s'.places c).result? ≠ some (.error .unavailable) :=
  h.inv (I := fun s => (s.places c).result? ≠ some (.error .unavailable)) hs
    fun _ _ _ _ hs₁ hstep => next_result (alone_eq_some hstep).2 hs₁

theorem Refuses.sqlAll_pending {file : String} (h : Refuses m start file) :
    m.sqlAll (pending m start) start.content = none := by
  obtain ⟨before, content, ⟨rest, hrest⟩, hbefore, hfile⟩ := h
  rw [← hrest, List.append_assoc, sqlAll_append, hbefore, Option.bind_some, List.singleton_append]
  simp [Embedded.sqlAll, hfile]

/-- What is true in every state of the runs. -/
structure MigratedOnce (m : Embedded ρ) (start : Initial ρ) (s : State γ ρ) : Prop where
  /-- The SQL of a file is committed at most once, and not when the file was recorded before. -/
  once : (start.recorded ++ s.shared.committed).Nodup
  /-- Exactly the files whose SQL was committed are recorded besides. -/
  recorded : s.shared.recorded = start.recorded ++ s.shared.committed
  inOrder : s.shared.committed <+: pending m start
  sorted : s.shared.committed.Pairwise (· ≤ ·)
  content : m.sqlAll s.shared.committed start.content = some s.shared.content
  complete : ∀ c, s.places c = .returned .ok → ∀ file ∈ m.files, file ∈ s.shared.recorded
  /-- No run fails for what another one has done. -/
  noConflict : ∀ c, s.places c ≠ .returned (.error .conflict)
  /-- SQL that is refused would be with no other run as well. -/
  refused : ∀ c file, s.places c = .returned (.error (.refused file)) → Refuses m start file
  /-- The lock is with a run that has neither returned nor died, and it can go on to release it. -/
  releases : ∀ c, s.shared.lock = some c → (s.places c).inside = true ∧
    ∃ s', Reachable (alone m c) s s' ∧ s'.shared.lock = none
  /-- A later run completes the rest, when Postgres accepts the files. -/
  completes : ∀ c, s.places c = .idle ∨ s.places c = .waiting → s.shared.lock = none →
    (m.sqlAll (pending m start) start.content).isSome →
      ∃ s', Reachable (alone m c) s s' ∧ s'.places c = .returned .ok ∧
        ∀ file ∈ m.files, file ∈ s'.shared.recorded

theorem migrated_of_holds (hs : (outline m start).Holds s) : MigratedOnce m start s := by
  have hconsistent : Consistent m start s.shared := hs.invariant
  have hsound : ∀ c result, s.places c = .returned result → Sound m start s.shared result := by
    intro c result hplace
    have hassertion := hs.assertion c
    rwa [hplace] at hassertion
  refine ⟨?_, hconsistent.recorded, hconsistent.inOrder, ?_, hconsistent.content,
    fun c hplace => hsound c .ok hplace, fun c hplace => hsound c _ hplace,
    fun c file hplace => hsound c _ hplace, ?_, ?_⟩
  · refine List.nodup_append.mpr ⟨start.nodup, hconsistent.inOrder.sublist.nodup pending_nodup, ?_⟩
    rintro file hfile _ hcommitted rfl
    exact not_mem_recorded (hconsistent.inOrder.subset hcommitted) hfile
  · exact pending_sorted.sublist hconsistent.inOrder.sublist
  · intro c hlock
    have hinside := (hs.lock c).mpr hlock
    have hlive : (s.places c).live = true := by
      cases hplace : s.places c with
      | returned => simp [outline, hplace, Place.inside] at hinside
      | crashed => simp [outline, hplace, Place.inside] at hinside
      | _ => rfl
    have hothers : ∀ b, b ≠ c → s.shared.lock ≠ some b := fun b hb hholder =>
      hb (Option.some_inj.mp (hholder.symm.trans hlock))
    obtain ⟨s', hs', ⟨result, hreturned⟩, hlock'⟩ := alone_returns hs hlive hothers
    refine ⟨hinside, s', hs', ?_⟩
    cases hholder : s'.shared.lock with
    | none => rfl
    | some b =>
        obtain rfl : b = c := by_contra fun hb => hlock' b hb hholder
        have hinside' := ((Outline.holds hs (Reachable.of_restrict hs')).lock b).mpr hholder
        rw [hreturned] at hinside'
        cases hinside'
  · intro c hplace hlock haccepted
    have hlive : (s.places c).live = true := by rcases hplace with h | h <;> rw [h] <;> rfl
    have hresult : (s.places c).result? ≠ some (.error .unavailable) := by
      rcases hplace with h | h <;> rw [h] <;> exact nofun
    obtain ⟨s', hs', ⟨result, hreturned⟩, -⟩ := alone_returns hs hlive fun b _ => by
      rw [hlock]
      exact nofun
    have hresult' := alone_result hs' hresult
    have hassertion := (Outline.holds hs (Reachable.of_restrict hs')).assertion c
    rw [hreturned] at hassertion hresult'
    refine ⟨s', hs', ?_⟩
    cases result with
    | ok => exact ⟨hreturned, hassertion⟩
    | error failure =>
        cases failure with
        | unavailable => exact absurd rfl hresult'
        | refused file =>
            rw [Refuses.sqlAll_pending hassertion] at haccepted
            cases haccepted
        | conflict => exact hassertion.elim

/-- Migrations apply exactly once, whatever the runs do and whenever they die. -/
theorem migrated_once (m : Embedded ρ) (start : Initial ρ) {s : State γ ρ}
    (h : Reachable (step m) start.state s) : MigratedOnce m start s :=
  migrated_of_holds (Outline.holds outline_state h)

end

/-! ### Two files and three runs -/

namespace Sample

/-- Each file adds its name, once. -/
def embedded : Embedded (List String) where
  entries := ["002_deliveries_seq.sql", "001_init.sql", "README.md"]
  nodup := by decide
  sql file content := if file ∈ content then none else some (content ++ [file])

def empty : Initial (List String) := ⟨none, [], by decide⟩

/-- Run 0 dies in the transaction of the second file, while run 1 waits for the lock; run 1 applies the
second file, and run 2 finds nothing to do. -/
def labels : List (ℕ × Action) :=
  List.replicate 11 (0, .next) ++ [(1, .next), (0, .next), (0, .crash)] ++
    List.replicate 11 (1, .next) ++ List.replicate 9 (2, .next)

end Sample

theorem migrated_once_sample : ∃ s : State ℕ (List String),
    MigratedOnce Sample.embedded Sample.empty s ∧ s.places 0 = .crashed ∧ s.places 1 = .returned .ok ∧
      s.places 2 = .returned .ok ∧ s.shared.committed = ["001_init.sql", "002_deliveries_seq.sql"] := by
  obtain ⟨s, hs, hp⟩ := exists_of_run (step Sample.embedded) Sample.empty.state Sample.labels
    (fun s => s.places 0 = .crashed && s.places 1 = .returned .ok && s.places 2 = .returned .ok &&
      s.shared.committed = ["001_init.sql", "002_deliveries_seq.sql"]) (by decide +kernel)
  simp only [Bool.and_eq_true, decide_eq_true_eq] at hp
  obtain ⟨⟨⟨hcrashed, hfirst⟩, hsecond⟩, hcommitted⟩ := hp
  exact ⟨s, migrated_once Sample.embedded Sample.empty (.of_run hs), hcrashed, hfirst, hsecond, hcommitted⟩

end Webhooks.Migrate
