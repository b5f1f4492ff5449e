import Webhooks.Properties.Migrations
import Webhooks.Store.NodeMigrate

/-!
# Properties — Node's migrations

Any number of runs of Node's `migrate()` over one database.  No lock keeps them apart; the primary key of
`schema_migrations` does.

* `Consistent`, `assertion`: what is true of the database, and of it at each place of a run; `openOutline`
  puts them together.  `Leaves`: what an action leaves of the assertions of the others.
* **`unlocked_migrations`**: whatever the runs do and wherever they fail or die, each file is committed at most
  once, exactly when its name is recorded, in order; a later run completes the rest.
* `Ahead`: the run has seen all that is recorded.  **`race_completes`**: when no run fails by itself, they
  do not block one another, and one of them comes through.
-/

namespace Webhooks.Migrate

variable {γ ρ : Type} [DecidableEq γ] {db : Database γ ρ} {b c : γ} {w : Write}

/-- What the transaction of the run has written. -/
def Database.writes (db : Database γ ρ) (c : γ) : List Write :=
  (db.uncommitted.filter fun w => w.1 = c).map (·.2)

theorem mem_writes : w ∈ db.writes c ↔ (c, w) ∈ db.uncommitted := by
  simp [Database.writes]

@[simp] theorem writes_write_self : (db.write c w).writes c = db.writes c ++ [w] := by
  simp [Database.writes, Database.write]

theorem writes_write_of_ne (hb : b ≠ c) : (db.write c w).writes b = db.writes b := by
  simp [Database.writes, Database.write, hb.symm]

@[simp] theorem writes_rollback_self : (db.rollback c).writes c = [] := by
  simp [Database.writes, Database.rollback]

theorem writes_rollback_of_ne (hb : b ≠ c) : (db.rollback c).writes b = db.writes b := by
  unfold Database.writes Database.rollback
  rw [List.filter_filter]
  congr 1
  refine List.filter_congr fun w _ => ?_
  by_cases hw : w.1 = b <;> simp [hw, hb]

theorem not_mem_writes_of_isInserting {file : String} (h : db.isInserting c file = false) (hb : b ≠ c) :
    .row file ∉ db.writes b := by
  intro hw
  have := List.any_eq_false.mp h _ (mem_writes.mp hw)
  simp [hb] at this

/-- The transaction of a file commits, the row with the SQL. -/
theorem commit_of_writes {m : Embedded ρ} {file : String} {content : ρ} {rows : List String}
    (hwrites : db.writes c = [.sql file, .row file]) (hcontent : m.sql file db.content = some content)
    (htable : db.table = some rows) :
    db.commit m c = some ({ db with
      table := some (rows ++ [file])
      content := content
      committed := db.committed ++ [file] }.rollback c) := by
  unfold Database.commit
  rw [show (db.uncommitted.filter fun w => w.1 = c).map (·.2) = [.sql file, .row file] from hwrites]
  simp [Database.apply, hcontent, htable]

end Webhooks.Migrate

namespace Webhooks.Migrate.Node

open Lib

variable {γ ρ : Type}

/-- The files that were not recorded at the start. -/
def pending (m : Embedded ρ) (start : Initial ρ) : List String :=
  (files m).filter (· ∉ start.recorded)

/-- Postgres refuses the file where the ones before it have been committed and nothing else. -/
def Refuses (m : Embedded ρ) (start : Initial ρ) (file : String) : Prop :=
  ∃ before content, before ++ [file] <+: pending m start ∧
    m.sqlAll before start.content = some content ∧ m.sql file content = none

/-- The first file that is not recorded. -/
def Due (m : Embedded ρ) (db : Database γ ρ) (file : String) : Prop :=
  (files m).find? (· ∉ db.recorded) = some file

/-- What is true of the database when `migrate` returns this. -/
def Sound (m : Embedded ρ) (start : Initial ρ) (db : Database γ ρ) : Result → Prop
  | .ok => ∀ file ∈ files m, file ∈ db.recorded
  | .error (.refused file) => file ∈ db.recorded ∨ Refuses m start file
  | .error .unavailable => True
  | .error .conflict => db.table.isSome

/-- Where a run is among the files: those before are recorded, and so is all that it takes for applied. -/
structure Position (m : Embedded ρ) (start : Initial ρ) (db : Database γ ρ) (applied rest : List String) :
    Prop where
  table : db.table.isSome
  passed : ∃ done, files m = done ++ rest ∧ ∀ file ∈ done, file ∈ db.recorded
  known : ∀ file ∈ applied, file ∈ db.recorded
  early : ∀ file ∈ start.recorded, file ∈ applied

section

variable [DecidableEq γ] (m : Embedded ρ) (start : Initial ρ)

structure Consistent (db : Database γ ρ) : Prop where
  inOrder : db.committed <+: pending m start
  recorded : db.recorded = start.recorded ++ db.committed
  content : m.sqlAll db.committed start.content = some db.content
  /-- The primary key. -/
  unique : ∀ b c file, .row file ∈ db.writes b → .row file ∈ db.writes c → b = c

/-- What is true of the database at a place. -/
def assertion (c : γ) (p : Place) (db : Database γ ρ) : Prop :=
  match p with
  | .idle | .crashed => db.writes c = []
  | .creating found => db.writes c = [] ∧ (found = true → db.table.isSome)
  | .created => db.writes c = [] ∧ db.table.isSome
  | .loop applied rest => db.writes c = [] ∧ Position m start db applied rest
  | .begun applied file rest => db.writes c = [] ∧ Position m start db applied (file :: rest)
  | .executed applied file rest =>
      db.writes c = [.sql file] ∧ Position m start db applied (file :: rest) ∧
        (file ∉ db.recorded → (m.sql file db.content).isSome)
  | .inserted applied file rest =>
      db.writes c = [.sql file, .row file] ∧ Position m start db applied (file :: rest) ∧
        file ∉ db.recorded ∧ (m.sql file db.content).isSome
  | .returned result => db.writes c = [] ∧ Sound m start db result

/-- What an action of `c` leaves of the assertions of the others: it commits at most the file that is due, whose
row it has inserted. -/
structure Leaves (c : γ) (db db' : Database γ ρ) : Prop where
  table : db.table.isSome → db'.table.isSome
  grows : ∀ file ∈ db.recorded, file ∈ db'.recorded
  writes : ∀ b, b ≠ c → db'.writes b = db.writes b
  commits : db'.recorded = db.recorded ∧ db'.content = db.content ∨
    ∃ file, Due m db file ∧ .row file ∈ db.writes c ∧ file ∈ db'.recorded

end

/-! ### Files -/

section

variable {m : Embedded ρ} {start : Initial ρ} {db db' : Database γ ρ} {file : String}
  {applied rest : List String}

theorem files_nodup : (files m).Nodup :=
  (List.perm_insertionSort _ _).nodup_iff.mpr (m.nodup.filter _)

theorem pending_nodup : (pending m start).Nodup := files_nodup.filter _

theorem files_sorted : (files m).Pairwise fun a b => utf16 a ≤ utf16 b :=
  have : Std.Total fun a b : String => utf16 a ≤ utf16 b := ⟨fun a b => le_total (utf16 a) (utf16 b)⟩
  have : IsTrans String fun a b => utf16 a ≤ utf16 b := ⟨fun _ _ _ => le_trans⟩
  List.pairwise_insertionSort _ _

theorem Due.unique {other : String} (h : Due m db file) (h' : Due m db other) : file = other :=
  Option.some_inj.mp (h.symm.trans h')

theorem Position.due (h : Position m start db applied (file :: rest)) (hfile : file ∉ db.recorded) :
    Due m db file := by
  obtain ⟨done, hdone, hrecorded⟩ := h.passed
  unfold Due
  have hnone : done.find? (· ∉ db.recorded) = none :=
    List.find?_eq_none.mpr fun f hf => by simpa using hrecorded f hf
  rw [hdone, List.find?_append, hnone, Option.none_or, List.find?_cons_of_pos (by simpa using hfile)]

/-- Past the last file, every file is recorded. -/
theorem Position.complete (h : Position m start db applied []) : ∀ file ∈ files m, file ∈ db.recorded := by
  obtain ⟨done, hdone, hrecorded⟩ := h.passed
  rw [hdone, List.append_nil]
  exact hrecorded

theorem Position.pass (h : Position m start db applied (file :: rest)) (hfile : file ∈ db.recorded) :
    Position m start db applied rest := by
  obtain ⟨done, hdone, hrecorded⟩ := h.passed
  refine ⟨h.table, ⟨done ++ [file], by rw [hdone, List.append_assoc, List.singleton_append], fun f hf => ?_⟩,
    h.known, h.early⟩
  rcases List.mem_append.mp hf with hf | hf
  · exact hrecorded f hf
  · rw [List.mem_singleton.mp hf]
    exact hfile

theorem Position.mono (h : Position m start db applied rest) (htable : db.table.isSome → db'.table.isSome)
    (hgrows : ∀ file ∈ db.recorded, file ∈ db'.recorded) : Position m start db' applied rest := by
  obtain ⟨done, hdone, hrecorded⟩ := h.passed
  exact ⟨htable h.table, ⟨done, hdone, fun f hf => hgrows f (hrecorded f hf)⟩,
    fun f hf => hgrows f (h.known f hf), h.early⟩

end

section

variable [DecidableEq γ] {m : Embedded ρ} {start : Initial ρ} {c b : γ} {a : Action} {p p' q : Place}
  {db db' : Database γ ρ} {file : String} {applied rest : List String}

/-- The file that is due is the next one of those left. -/
theorem Due.inOrder (h : Due m db file) (hconsistent : Consistent m start db) :
    db.committed ++ [file] <+: pending m start := by
  obtain ⟨more, hmore⟩ := hconsistent.inOrder
  have hnodup : (db.committed ++ more).Nodup := hmore ▸ pending_nodup
  have hcommitted : db.committed.filter (· ∉ db.committed) = [] :=
    List.filter_eq_nil_iff.mpr fun f hf => by simpa using hf
  have hothers : more.filter (· ∉ db.committed) = more :=
    List.filter_eq_self.mpr fun f hf => by
      simpa using fun hin => (List.nodup_append.mp hnodup).2.2 _ hin _ hf rfl
  have hleft : (files m).filter (· ∉ db.recorded) = more := by
    calc (files m).filter (· ∉ db.recorded)
        = (pending m start).filter (· ∉ db.committed) := by
          rw [pending, List.filter_filter, hconsistent.recorded]
          refine List.filter_congr fun f _ => ?_
          simp [Bool.and_comm]
      _ = more := by rw [← hmore, List.filter_append, hcommitted, hothers, List.nil_append]
  have hhead : more.head? = some file := by
    rw [← hleft, List.head?_filter]
    exact h
  obtain ⟨tail, rfl⟩ := List.head?_eq_some_iff.mp hhead
  exact ⟨tail, by rw [← hmore, List.append_assoc, List.singleton_append]⟩

/-! ### The others -/

theorem Leaves.refl : Leaves m c db db := ⟨id, fun _ => id, fun _ _ => rfl, .inl ⟨rfl, rfl⟩⟩

/-- What a run has returned stays true. -/
theorem Sound.mono {result : Result} (h : Sound m start db result) (hleaves : Leaves m c db db') :
    Sound m start db' result := by
  cases result with
  | ok => exact fun file hfile => hleaves.grows file (h file hfile)
  | error failure =>
      cases failure with
      | unavailable => trivial
      | refused file => exact h.imp_left (hleaves.grows file)
      | conflict => exact hleaves.table h

/-- An action of one run does not interfere with another. -/
theorem Leaves.assertion (h : Leaves m c db db') (hunique : Consistent m start db) (hb : b ≠ c)
    (hassertion : assertion m start b q db) : assertion m start b q db' := by
  have hposition : ∀ {applied rest}, Position m start db applied rest → Position m start db' applied rest :=
    fun hp => hp.mono h.table h.grows
  cases q with
  | idle | crashed => exact (h.writes b hb).trans hassertion
  | creating found =>
      exact ⟨(h.writes b hb).trans hassertion.1, fun hfound => h.table (hassertion.2 hfound)⟩
  | created => exact ⟨(h.writes b hb).trans hassertion.1, h.table hassertion.2⟩
  | loop | begun => exact ⟨(h.writes b hb).trans hassertion.1, hposition hassertion.2⟩
  | returned => exact ⟨(h.writes b hb).trans hassertion.1, hassertion.2.mono h⟩
  | executed applied file rest =>
      obtain ⟨hwrites, hp, hsql⟩ := hassertion
      refine ⟨(h.writes b hb).trans hwrites, hposition hp, fun hfile => ?_⟩
      have hbefore : file ∉ db.recorded := fun hin => hfile (h.grows file hin)
      obtain ⟨-, hcontent⟩ | ⟨other, hdue, -, hother⟩ := h.commits
      · rw [hcontent]
        exact hsql hbefore
      · rw [(hp.due hbefore).unique hdue] at hfile
        exact absurd hother hfile
  | inserted applied file rest =>
      obtain ⟨hwrites, hp, hfile, hsql⟩ := hassertion
      obtain ⟨hrecorded, hcontent⟩ | ⟨other, hdue, hrow, -⟩ := h.commits
      · refine ⟨(h.writes b hb).trans hwrites, hposition hp, ?_, ?_⟩
        · rw [hrecorded]
          exact hfile
        · rw [hcontent]
          exact hsql
      -- both have inserted the row of the file that is due
      · rw [← (hp.due hfile).unique hdue] at hrow
        refine absurd (hunique.unique b c file ?_ hrow) hb
        rw [hwrites]
        exact List.mem_cons_of_mem _ List.mem_cons_self

/-! ### One action -/

/-- What is true after an action of a run. -/
structure Kept (m : Embedded ρ) (start : Initial ρ) (c : γ) (p' : Place) (db db' : Database γ ρ) :
    Prop where
  consistent : Consistent m start db'
  assertion : assertion m start c p' db'
  leaves : Leaves m c db db'

theorem Kept.same (h : Consistent m start db) (hp : Node.assertion m start c p' db) :
    Kept m start c p' db db :=
  ⟨h, hp, .refl⟩

theorem Kept.rollback (h : Consistent m start db) (hp : Node.assertion m start c p' (db.rollback c)) :
    Kept m start c p' db (db.rollback c) := by
  have hmem : ∀ b file, .row file ∈ (db.rollback c).writes b → .row file ∈ db.writes b := by
    intro b file hrow
    by_cases hb : b = c
    · rw [hb, writes_rollback_self] at hrow
      cases hrow
    · rwa [writes_rollback_of_ne hb] at hrow
  exact ⟨⟨h.inOrder, h.recorded, h.content, fun b c file hb hc =>
    h.unique b c file (hmem b file hb) (hmem c file hc)⟩, hp,
    ⟨id, fun _ => id, fun _ => writes_rollback_of_ne, .inl ⟨rfl, rfl⟩⟩⟩

theorem Kept.write {w : Write} (h : Consistent m start db) (hp : Node.assertion m start c p' (db.write c w))
    (hrow : ∀ file, w = .row file → ∀ b, b ≠ c → .row file ∉ db.writes b) :
    Kept m start c p' db (db.write c w) := by
  have hmem : ∀ b file, .row file ∈ (db.write c w).writes b →
      .row file ∈ db.writes b ∨ b = c ∧ w = .row file := by
    intro b file hb
    by_cases hbc : b = c
    · rw [hbc, writes_write_self] at hb
      rcases List.mem_append.mp hb with hb | hb
      · exact .inl (hbc ▸ hb)
      · exact .inr ⟨hbc, (List.mem_singleton.mp hb).symm⟩
    · rw [writes_write_of_ne hbc] at hb
      exact .inl hb
  refine ⟨⟨h.inOrder, h.recorded, h.content, fun b b' file hb hb' => ?_⟩, hp,
    ⟨id, fun _ => id, fun _ => writes_write_of_ne, .inl ⟨rfl, rfl⟩⟩⟩
  obtain hb | ⟨rfl, hw⟩ := hmem b file hb <;> obtain hb' | ⟨hc, hw'⟩ := hmem b' file hb'
  · exact h.unique b b' file hb hb'
  · exact by_contra fun hne => hrow file hw' b (hc ▸ hne) hb
  · exact by_contra fun hne => hrow file hw b' (Ne.symm hne) hb'
  · exact hc.symm

theorem commit_kept (hconsistent : Consistent m start db)
    (h : assertion m start c (.inserted applied file rest) db) :
    ∃ db', db.commit m c = some db' ∧ db'.recorded = db.recorded ++ [file] ∧
      Kept m start c (.loop applied rest) db db' := by
  obtain ⟨hwrites, hp, hfile, hsql⟩ := h
  obtain ⟨content, hcontent⟩ := Option.isSome_iff_exists.mp hsql
  obtain ⟨rows, hrows⟩ := Option.isSome_iff_exists.mp hp.table
  have hrecorded : db.recorded = rows := by rw [Database.recorded, hrows, Option.getD_some]
  have hdue := hp.due hfile
  refine ⟨_, commit_of_writes hwrites hcontent hrows, by rw [hrecorded]; rfl, ?_⟩
  generalize hdb : ({ db with
    table := some (rows ++ [file])
    content := content
    committed := db.committed ++ [file] } : Database γ ρ) = db₁
  -- the rollback forgets what has been committed
  have hrecorded₁ : db₁.recorded = db.recorded ++ [file] := by rw [← hdb, hrecorded]; rfl
  have hgrows : ∀ f ∈ db.recorded, f ∈ (db₁.rollback c).recorded := by
    intro f hf
    show f ∈ db₁.recorded
    rw [hrecorded₁]
    exact List.mem_append_left _ hf
  have hconsistent₁ : Consistent m start db₁ := by
    subst hdb
    refine ⟨hdue.inOrder hconsistent, ?_, ?_, hconsistent.unique⟩
    · rw [hrecorded₁, hconsistent.recorded, List.append_assoc]
    · rw [sqlAll_append, hconsistent.content, Option.bind_some]
      simp [Embedded.sqlAll, hcontent]
  have htable : (db₁.rollback c).table.isSome := by rw [← hdb]; rfl
  have hin : file ∈ (db₁.rollback c).recorded := by
    show file ∈ db₁.recorded
    rw [hrecorded₁]
    exact List.mem_append_right _ (List.mem_singleton_self _)
  have hkept : Kept m start c (.loop applied rest) db₁ (db₁.rollback c) :=
    .rollback hconsistent₁ ⟨writes_rollback_self, (hp.mono (fun _ => htable) hgrows).pass hin⟩
  refine ⟨hkept.consistent, hkept.assertion, fun _ => htable, hgrows, fun b hb => ?_,
    .inr ⟨file, hdue, by rw [hwrites]; exact List.mem_cons_of_mem _ List.mem_cons_self, hin⟩⟩
  rw [hkept.leaves.writes b hb, ← hdb]
  rfl

theorem next_keeps (h : next m c p db = some (p', db')) (hconsistent : Consistent m start db)
    (hassertion : assertion m start c p db) : Kept m start c p' db db' := by
  cases next_cases h with
  | look => exact .same hconsistent ⟨hassertion, id⟩
  | found => exact .same hconsistent ⟨hassertion.1, hassertion.2 rfl⟩
  | collide htable => exact .same hconsistent ⟨hassertion.1, htable⟩
  | create htable =>
      have hrecorded : db.recorded = [] := by rw [Database.recorded, htable, Option.getD_none]
      refine ⟨⟨hconsistent.inOrder, ?_, hconsistent.content, hconsistent.unique⟩, ⟨hassertion.1, rfl⟩,
        fun _ => rfl, ?_, fun _ _ => rfl, .inl ⟨hrecorded.symm, rfl⟩⟩
      · exact hrecorded.symm.trans hconsistent.recorded
      · intro file hfile
        rw [hrecorded] at hfile
        cases hfile
  | @select rows htable =>
      have hrecorded : db.recorded = rows := by rw [Database.recorded, htable, Option.getD_some]
      refine .same hconsistent ⟨hassertion.1, hassertion.2, ⟨[], rfl, fun _ h => by cases h⟩, ?_, ?_⟩
      · rw [hrecorded]
        exact fun _ => id
      · intro file hfile
        rw [← hrecorded, hconsistent.recorded]
        exact List.mem_append_left _ hfile
  | dropped htable =>
      have hsome := hassertion.2
      rw [htable] at hsome
      cases hsome
  | upToDate => exact .same hconsistent ⟨hassertion.1, hassertion.2.complete⟩
  | applied happlied =>
      exact .same hconsistent ⟨hassertion.1, hassertion.2.pass (hassertion.2.known _ happlied)⟩
  | begin happlied => exact .same hconsistent hassertion
  | exec hsql =>
      refine .write hconsistent ⟨?_, hassertion.2.mono id fun _ => id, fun _ => hsql⟩ fun _ h => by cases h
      rw [writes_write_self, hassertion.1, List.nil_append]
  | @refuse _ _ file hsql =>
      refine .rollback hconsistent ⟨writes_rollback_self, ?_⟩
      show file ∈ db.recorded ∨ _
      by_cases hfile : file ∈ db.recorded
      · exact .inl hfile
      · exact .inr ⟨db.committed, db.content, (hassertion.2.due hfile).inOrder hconsistent,
          hconsistent.content, hsql⟩
  | duplicate => exact .rollback hconsistent ⟨writes_rollback_self, hassertion.2.1.table⟩
  | insert hfile hothers =>
      obtain ⟨hwrites, hp, hsql⟩ := hassertion
      refine .write hconsistent ⟨?_, hp.mono id fun _ => id, hfile, hsql hfile⟩ ?_
      · rw [writes_write_self, hwrites, List.singleton_append]
      · rintro _ ⟨⟩ b hb
        exact not_mem_writes_of_isInserting hothers hb
  | commit hcommit =>
      obtain ⟨db₁, hcommit₁, -, hkept⟩ := commit_kept hconsistent hassertion
      obtain rfl := Option.some_inj.mp (hcommit.symm.trans hcommit₁)
      exact hkept
  | abort hcommit =>
      obtain ⟨db₁, hcommit₁, -⟩ := commit_kept hconsistent hassertion
      rw [hcommit] at hcommit₁
      cases hcommit₁

theorem fail_keeps (h : fail c p db = some (p', db')) (hconsistent : Consistent m start db) :
    Kept m start c p' db db' := by
  cases p with
  | returned | crashed => cases h
  | _ =>
      cases h
      exact .rollback hconsistent ⟨writes_rollback_self, trivial⟩

theorem act_keeps (h : act m c a p db = some (p', db')) (hconsistent : Consistent m start db)
    (hassertion : assertion m start c p db) : Kept m start c p' db db' := by
  cases a with
  | next => exact next_keeps h hconsistent hassertion
  | fail | disconnect => exact fail_keeps h hconsistent
  | crash =>
      cases h
      exact .rollback hconsistent writes_rollback_self

/-- The primary key keeps the runs apart. -/
def openOutline (m : Embedded ρ) (start : Initial ρ) : OpenOutline (act m : γ → _) where
  invariant := Consistent m start
  assertion := assertion m start
  keeps h hconsistent hassertion :=
    have hkept := act_keeps h hconsistent hassertion
    ⟨hkept.consistent, hkept.assertion⟩
  apart h hconsistent hassertion hb hother :=
    (act_keeps h hconsistent hassertion).leaves.assertion hconsistent hb hother

theorem openOutline_state : (openOutline m start : OpenOutline (act m : γ → _)).Holds start.nodeState where
  invariant := ⟨List.nil_prefix, (List.append_nil _).symm, rfl, nofun⟩
  assertion _ := rfl

/-! ### Runs that come through -/

/-- The run has seen all that is recorded. -/
def Ahead (p : Place) (db : Database γ ρ) : Prop :=
  match p with
  | .created | .returned .ok => True
  | .loop applied rest => ∀ f ∈ rest, f ∈ db.recorded → f ∈ applied
  | .begun applied file rest | .executed applied file rest | .inserted applied file rest =>
      file ∉ db.recorded ∧ ∀ f ∈ rest, f ∈ db.recorded → f ∈ applied
  | .idle | .creating _ | .returned (.error _) | .crashed => False

omit [DecidableEq γ] in
theorem Ahead.congr (h : Ahead p db) (hrecorded : db'.recorded = db.recorded) : Ahead p db' := by
  unfold Ahead at h ⊢
  rwa [hrecorded]

/-- The files before the one that is due, but for those recorded at the start, are those committed. -/
theorem committed_eq (hconsistent : Consistent m start db) (hfile : file ∉ db.recorded)
    {done : List String} (hdone : files m = done ++ file :: rest)
    (hdue : Due m db file) : db.committed = done.filter (· ∉ start.recorded) := by
  obtain ⟨more, hmore⟩ := hdue.inOrder hconsistent
  have hpending : pending m start =
      done.filter (· ∉ start.recorded) ++ file :: rest.filter (· ∉ start.recorded) := by
    have hstart : file ∉ start.recorded := fun hin =>
      hfile (by rw [hconsistent.recorded]; exact List.mem_append_left _ hin)
    rw [pending, hdone, List.filter_append, List.filter_cons_of_pos (by simpa using hstart)]
  have hnodup : (db.committed ++ file :: more).Nodup := by
    rw [← List.singleton_append, ← List.append_assoc, hmore]
    exact pending_nodup
  rw [hpending, List.append_assoc, List.singleton_append] at hmore
  obtain ⟨-, hmorenodup, hdisjoint⟩ := List.nodup_append.mp hnodup
  have hleft : file ∉ db.committed := fun hin => hdisjoint _ hin _ List.mem_cons_self rfl
  exact ((List.append_cons_inj_of_notMem hleft (List.nodup_cons.mp hmorenodup).1).mp hmore).1

/-- A run that has just committed a file has seen all that is recorded. -/
theorem commit_ahead (hconsistent : Consistent m start db)
    (h : assertion m start c (.inserted applied file rest) db)
    (hrecorded : db'.recorded = db.recorded ++ [file]) :
    Ahead (.loop applied rest) db' := by
  obtain ⟨-, hp, hfile, -⟩ := h
  obtain ⟨done, hdone, -⟩ := hp.passed
  have hnodup : (done ++ file :: rest).Nodup := hdone ▸ files_nodup
  obtain ⟨-, hrest, hdisjoint⟩ := List.nodup_append.mp hnodup
  intro f hf hin
  rw [hrecorded, hconsistent.recorded, committed_eq hconsistent hfile hdone (hp.due hfile)] at hin
  rcases List.mem_append.mp hin with hin | hin
  · rcases List.mem_append.mp hin with hin | hin
    · exact hp.early f hin
    · exact absurd rfl (hdisjoint f (List.mem_of_mem_filter hin) f (List.mem_cons_of_mem _ hf))
  · rw [List.mem_singleton.mp hin] at hf
    exact absurd hf (List.nodup_cons.mp hrest).1

/-- A statement records nothing, or its run has seen all that is recorded afterwards. -/
theorem next_recorded (h : next m c p db = some (p', db')) (hconsistent : Consistent m start db)
    (hassertion : assertion m start c p db) : db'.recorded = db.recorded ∨ Ahead p' db' := by
  cases next_cases h with
  | create htable => exact .inl (by rw [Database.recorded, Database.recorded, htable]; rfl)
  | commit hcommit =>
      obtain ⟨db₁, hcommit₁, hrecorded, -⟩ := commit_kept hconsistent hassertion
      obtain rfl := Option.some_inj.mp (hcommit.symm.trans hcommit₁)
      exact .inr (commit_ahead hconsistent hassertion hrecorded)
  | _ => exact .inl rfl

theorem Refuses.sqlAll_pending (h : Refuses m start file) :
    m.sqlAll (pending m start) start.content = none := by
  obtain ⟨before, content, ⟨rest, hrest⟩, hbefore, hfile⟩ := h
  rw [← hrest, List.append_assoc, sqlAll_append, hbefore, Option.bind_some, List.singleton_append]
  simp [Embedded.sqlAll, hfile]

/-- A run that has seen all that is recorded goes on so, when Postgres accepts the files. -/
theorem next_ahead (h : next m c p db = some (p', db')) (hconsistent : Consistent m start db)
    (hassertion : assertion m start c p db) (hahead : Ahead p db)
    (haccepted : (m.sqlAll (pending m start) start.content).isSome) : Ahead p' db' := by
  cases next_cases h with
  | look | found | collide | create => exact hahead.elim
  | select htable =>
      intro f _ hf
      rwa [Database.recorded, htable, Option.getD_some] at hf
  | dropped htable =>
      have hsome := hassertion.2
      rw [htable] at hsome
      cases hsome
  | upToDate => trivial
  | applied => exact fun f hf => hahead f (List.mem_cons_of_mem _ hf)
  | begin happlied =>
      exact ⟨fun hfile => happlied (hahead _ List.mem_cons_self hfile),
        fun f hf => hahead f (List.mem_cons_of_mem _ hf)⟩
  | exec => exact hahead
  | refuse hsql =>
      have hrefuses : Refuses m start _ := ⟨db.committed, db.content,
        (hassertion.2.due hahead.1).inOrder hconsistent, hconsistent.content, hsql⟩
      rw [hrefuses.sqlAll_pending] at haccepted
      cases haccepted
  | duplicate hfile => exact absurd hfile hahead.1
  | insert => exact hahead
  | commit hcommit =>
      obtain ⟨db₁, hcommit₁, hrecorded, -⟩ := commit_kept hconsistent hassertion
      obtain rfl := Option.some_inj.mp (hcommit.symm.trans hcommit₁)
      exact commit_ahead hconsistent hassertion hrecorded
  | abort hcommit =>
      obtain ⟨db₁, hcommit₁, -⟩ := commit_kept hconsistent hassertion
      rw [hcommit] at hcommit₁
      cases hcommit₁

/-- How far a run is from its end. -/
def Place.rank (m : Embedded ρ) : Place → Nat
  | .idle => 4 * (files m).length + 4
  | .creating _ => 4 * (files m).length + 3
  | .created => 4 * (files m).length + 2
  | .loop _ rest => 4 * rest.length + 1
  | .begun _ _ rest => 4 * rest.length + 4
  | .executed _ _ rest => 4 * rest.length + 3
  | .inserted _ _ rest => 4 * rest.length + 2
  | .returned _ | .crashed => 0

theorem next_rank (h : next m c p db = some (p', db')) : p'.rank m < p.rank m := by
  cases next_cases h <;> simp only [Place.rank, List.length_cons] <;> omega

/-- A run that is not through waits for nothing but a row another transaction has inserted. -/
theorem next_eq_none (h : next m c p db = none) :
    (∃ result, p = .returned result) ∨ p = .crashed ∨
      ∃ applied file rest b, p = .executed applied file rest ∧ b ≠ c ∧ .row file ∈ db.writes b := by
  cases p with
  | idle => cases h
  | creating =>
      rw [next] at h
      split at h
      · cases h
      · split at h <;> cases h
  | created =>
      rw [next] at h
      split at h <;> cases h
  | loop applied rest =>
      cases rest with
      | nil => cases h
      | cons file rest =>
          rw [next] at h
          split at h <;> cases h
  | begun =>
      rw [next] at h
      split at h <;> cases h
  | executed applied file rest =>
      rw [next] at h
      split at h
      · cases h
      · split at h
        · next hothers =>
          obtain ⟨⟨b, w⟩, hmem, hw⟩ := List.any_eq_true.mp hothers
          simp only [ne_eq, Bool.and_eq_true, decide_eq_true_eq] at hw
          obtain ⟨hb, rfl⟩ := hw
          exact .inr (.inr ⟨applied, file, rest, b, rfl, by simpa using hb, mem_writes.mpr hmem⟩)
        · cases h
  | inserted =>
      rw [next] at h
      split at h <;> cases h
  | returned result => exact .inl ⟨result, rfl⟩
  | crashed => exact .inr (.inl rfl)

/-- A row that is not committed belongs to a run about to commit it. -/
theorem inserted_of_row (h : assertion m start c p db) (hrow : .row file ∈ db.writes c) :
    ∃ applied rest, p = .inserted applied file rest := by
  cases p with
  | idle | crashed =>
      rw [show db.writes c = [] from h] at hrow
      cases hrow
  | creating | created | loop | begun | returned =>
      rw [h.1] at hrow
      cases hrow
  | executed =>
      rw [h.1] at hrow
      cases List.mem_singleton.mp hrow
  | inserted applied other rest =>
      rw [h.1] at hrow
      rcases List.mem_cons.mp hrow with hrow | hrow
      · cases hrow
      · cases List.mem_singleton.mp hrow
        exact ⟨applied, rest, rfl⟩

/-! ### A run alone -/

variable {s s' : State γ ρ}

/-- The run takes its statements, none fails, and no other run does anything. -/
def alone (m : Embedded ρ) (c : γ) : State γ ρ → γ × Action → Option (State γ ρ) :=
  restrict (fun _ l => l = (c, .next)) (step m)

/-- What is true of a run alone, once it has the table. -/
structure Through (m : Embedded ρ) (start : Initial ρ) (c : γ) (s : State γ ρ) : Prop where
  holds : (openOutline m start).Holds s
  ahead : Ahead (s.places c) s.shared
  others : ∀ b, b ≠ c → s.shared.writes b = []

theorem alone_of_next (h : next m c (s.places c) s.shared = some (p', db')) :
    alone m c s (c, .next) = some ⟨db', Function.update s.places c p'⟩ := by
  refine restrict_eq_some.mpr ⟨rfl, ?_⟩
  rw [step, interleave, act, h]
  rfl

theorem Through.step (hs : Through m start c s) (h : next m c (s.places c) s.shared = some (p', db'))
    (haccepted : (m.sqlAll (pending m start) start.content).isSome) :
    Through m start c ⟨db', Function.update s.places c p'⟩ := by
  have hkept := next_keeps h hs.holds.invariant (hs.holds.assertion c)
  have hstep := (restrict_eq_some.mp (alone_of_next h)).2
  refine ⟨hs.holds.step hstep, ?_, fun b hb => (hkept.leaves.writes b hb).trans (hs.others b hb)⟩
  show Ahead (Function.update s.places c p' c) db'
  rw [Function.update_self]
  exact next_ahead h hs.holds.invariant (hs.holds.assertion c) hs.ahead haccepted

/-- A run alone that has seen all that is recorded comes through. -/
theorem Through.returns (hs : Through m start c s)
    (haccepted : (m.sqlAll (pending m start) start.content).isSome) :
    ∃ s', Reachable (alone m c) s s' ∧ s'.places c = .returned .ok ∧
      ∀ file ∈ files m, file ∈ s'.shared.recorded := by
  have hdone : ∀ s₁ : State γ ρ, Through m start c s₁ → (∃ result, s₁.places c = .returned result) →
      s₁.places c = .returned .ok ∧ ∀ file ∈ files m, file ∈ s₁.shared.recorded := by
    rintro s₁ hs₁ ⟨result, hplace⟩
    have hahead := hs₁.ahead
    have hassertion : assertion m start c _ _ := hs₁.holds.assertion c
    rw [hplace] at hahead hassertion
    cases result with
    | ok => exact ⟨hplace, hassertion.2⟩
    | error => exact hahead.elim
  by_cases hplace : ∃ result, s.places c = .returned result
  · exact ⟨s, .refl s, hdone s hs hplace⟩
  refine Reachable.exists_of_rank (fun s => (s.places c).rank m)
    (P := fun s => Through m start c s ∧ ¬ ∃ result, s.places c = .returned result) ?_ ⟨hs, hplace⟩
  rintro s₁ ⟨hs₁, hplace₁⟩
  cases hnext : next m c (s₁.places c) s₁.shared with
  | none =>
      obtain hreturned | hcrashed | ⟨_, _, _, b, _, hb, hrow⟩ := next_eq_none hnext
      · exact absurd hreturned hplace₁
      · have hahead := hs₁.ahead
        rw [hcrashed] at hahead
        exact hahead.elim
      · rw [hs₁.others b hb] at hrow
        cases hrow
  | some r =>
      obtain ⟨p', db'⟩ := r
      have hs₂ := hs₁.step hnext haccepted
      refine ⟨(c, .next), _, alone_of_next hnext, ?_⟩
      by_cases hplace₂ : ∃ result, p' = .returned result
      · exact .inl (hdone _ hs₂ (by simpa using hplace₂))
      · refine .inr ⟨⟨hs₂, by simpa using hplace₂⟩, ?_⟩
        simpa using next_rank hnext

/-- A run that begins while no transaction is open comes through. -/
theorem idle_returns (hs : (openOutline m start).Holds s) (hplace : s.places c = .idle)
    (hquiet : ∀ b, s.shared.writes b = [])
    (haccepted : (m.sqlAll (pending m start) start.content).isSome) :
    ∃ s', Reachable (alone m c) s s' ∧ s'.places c = .returned .ok ∧
      ∀ file ∈ files m, file ∈ s'.shared.recorded := by
  have hlook : next m c (s.places c) s.shared = some (.creating s.shared.table.isSome, s.shared) := by
    rw [hplace]
    rfl
  have hfirst := alone_of_next hlook
  generalize hs₁ : (⟨s.shared, Function.update s.places c (.creating s.shared.table.isSome)⟩ :
    State γ ρ) = s₁ at hfirst
  have hholds₁ := hs.step (restrict_eq_some.mp hfirst).2
  obtain ⟨db₂, hcreate, hwrites⟩ : ∃ db₂, next m c (s₁.places c) s₁.shared = some (.created, db₂) ∧
      ∀ b, db₂.writes b = s.shared.writes b := by
    subst hs₁
    simp only [Function.update_self]
    cases htable : s.shared.table with
    | none => exact ⟨{ s.shared with table := some [] }, by simp [next, htable], fun _ => rfl⟩
    | some rows => exact ⟨s.shared, by simp [next], fun _ => rfl⟩
  have hsecond := alone_of_next hcreate
  have hthrough : Through m start c ⟨db₂, Function.update s₁.places c .created⟩ :=
    ⟨hholds₁.step (restrict_eq_some.mp hsecond).2, by simp [Ahead], fun b _ => (hwrites b).trans (hquiet b)⟩
  obtain ⟨s', hs', hreturns⟩ := hthrough.returns haccepted
  exact ⟨s', ((Reachable.one hfirst).trans (.one hsecond)).trans hs', hreturns⟩

/-- What is true in every state of the runs. -/
structure MigratedUnlocked (m : Embedded ρ) (start : Initial ρ) (s : State γ ρ) : Prop where
  /-- The SQL of a file is committed at most once, and not when the file was recorded before. -/
  once : (start.recorded ++ s.shared.committed).Nodup
  /-- Exactly the files whose SQL was committed are recorded besides. -/
  recorded : s.shared.recorded = start.recorded ++ s.shared.committed
  inOrder : s.shared.committed <+: pending m start
  sorted : s.shared.committed.Pairwise fun a b => utf16 a ≤ utf16 b
  content : m.sqlAll s.shared.committed start.content = some s.shared.content
  complete : ∀ c, s.places c = .returned .ok → ∀ file ∈ files m, file ∈ s.shared.recorded
  /-- SQL that is refused would be with no other run as well, or another run has applied the file. -/
  refused : ∀ c file, s.places c = .returned (.error (.refused file)) →
    file ∈ s.shared.recorded ∨ Refuses m start file
  /-- A run that begins while no transaction is open completes the rest, when Postgres accepts the files. -/
  completes : ∀ c, s.places c = .idle → (∀ b, s.shared.writes b = []) →
    (m.sqlAll (pending m start) start.content).isSome →
      ∃ s', Reachable (alone m c) s s' ∧ s'.places c = .returned .ok ∧
        ∀ file ∈ files m, file ∈ s'.shared.recorded

/-- Node's migrations apply at most once and in order, though nothing but the primary key keeps the runs
apart. -/
theorem unlocked_migrations (m : Embedded ρ) (start : Initial ρ) {s : State γ ρ}
    (h : Reachable (step m) start.nodeState s) : MigratedUnlocked m start s := by
  have hs : (openOutline m start).Holds s := OpenOutline.holds openOutline_state h
  have hconsistent : Consistent m start s.shared := hs.invariant
  have hsound : ∀ c result, s.places c = .returned result → Sound m start s.shared result := by
    intro c result hplace
    have hassertion : assertion m start c _ _ := hs.assertion c
    rw [hplace] at hassertion
    exact hassertion.2
  refine ⟨?_, hconsistent.recorded, hconsistent.inOrder, ?_, hconsistent.content,
    fun c hplace => hsound c .ok hplace, fun c file hplace => hsound c _ hplace,
    fun c hplace hquiet haccepted => idle_returns hs hplace hquiet haccepted⟩
  · refine List.nodup_append.mpr ⟨start.nodup, hconsistent.inOrder.sublist.nodup pending_nodup, ?_⟩
    rintro file hfile _ hcommitted rfl
    have hpending := hconsistent.inOrder.subset hcommitted
    simp [pending, hfile] at hpending
  · exact (files_sorted.filter _).sublist hconsistent.inOrder.sublist

/-! ### A race -/

/-- No statement fails by itself, and nobody dies. -/
def race (m : Embedded ρ) : State γ ρ → γ × Action → Option (State γ ρ) :=
  restrict (fun _ l => l.2 = .next) (step m)

theorem race_eq_some {l : γ × Action} (h : race m s l = some s') :
    next m l.1 (s.places l.1) s.shared = some (s'.places l.1, s'.shared) ∧
      ∀ c, c ≠ l.1 → s'.places c = s.places c := by
  obtain ⟨hl, hstep⟩ := restrict_eq_some.mp h
  obtain ⟨hact, hothers⟩ := interleave_eq_some.mp hstep
  rw [hl] at hact
  exact ⟨hact, hothers⟩

/-- Some run has seen all that is recorded, or nobody has come to make the table. -/
def Leads (start : Initial ρ) (s : State γ ρ) : Prop :=
  (∃ c, Ahead (s.places c) s.shared) ∨
    s.shared.table = start.table ∧ ∀ c, s.places c = .idle ∨ s.places c = .creating start.table.isSome

/-- The lead goes over to a run that records a file. -/
theorem Leads.step (hleads : Leads start s) (hs : (openOutline m start).Holds s) {l : γ × Action}
    (haccepted : (m.sqlAll (pending m start) start.content).isSome) (h : race m s l = some s') :
    Leads start s' := by
  obtain ⟨hnext, hothers⟩ := race_eq_some h
  obtain ⟨c, hahead⟩ | ⟨htable, hplaces⟩ := hleads
  · by_cases hc : c = l.1
    · subst hc
      exact .inl ⟨l.1, next_ahead hnext hs.invariant (hs.assertion l.1) hahead haccepted⟩
    · obtain hrecorded | hahead' := next_recorded hnext hs.invariant (hs.assertion l.1)
      · exact .inl ⟨c, by rw [hothers c hc]; exact hahead.congr hrecorded⟩
      · exact .inl ⟨l.1, hahead'⟩
  · have hcreated : s'.places l.1 = .created → Leads start s' := fun hplace =>
      .inl ⟨l.1, by rw [hplace]; trivial⟩
    obtain hplace | hplace := hplaces l.1
    · rw [hplace] at hnext
      injection hnext with hnext
      obtain ⟨hplace', hshared⟩ := Prod.mk.inj hnext
      refine .inr ⟨hshared ▸ htable, fun c => ?_⟩
      by_cases hc : c = l.1
      · subst hc
        rw [← hplace', htable]
        exact .inr rfl
      · rw [hothers c hc]
        exact hplaces c
    · rw [hplace] at hnext
      refine hcreated ?_
      cases hstart : start.table with
      | none =>
          rw [hstart] at hnext htable
          simp only [next, htable] at hnext
          injection hnext with hnext
          exact (Prod.mk.inj hnext).1.symm
      | some rows =>
          rw [hstart] at hnext
          injection hnext with hnext
          exact (Prod.mk.inj hnext).1.symm

theorem leads_of_race (haccepted : (m.sqlAll (pending m start) start.content).isSome)
    (h : Reachable (race m) start.nodeState s) : Leads start s :=
  h.inv (I := Leads start) (.inr ⟨rfl, fun _ => .inl rfl⟩) fun _ _ _ hr hi hstep =>
    hi.step (OpenOutline.holds openOutline_state hr.of_restrict) haccepted hstep

theorem not_crashed_of_race (h : Reachable (race m) start.nodeState s) (c : γ) : s.places c ≠ .crashed := by
  refine h.inv (I := fun s => s.places c ≠ .crashed) (fun h => by cases h) fun s₁ l s₂ _ hi hstep => ?_
  obtain ⟨hnext, hothers⟩ := race_eq_some hstep
  by_cases hc : c = l.1
  · subst hc
    generalize s₂.places l.1 = p', s₂.shared = db' at hnext
    generalize s₁.places l.1 = p at hnext
    cases next_cases hnext <;> exact fun h => by cases h
  · rw [hothers c hc]
    exact hi

/-- Every statement brings its run nearer to its end. -/
theorem rank_of_race {labels : List (γ × Action)} (h : run (race m) s labels = some s') (c : γ) :
    (labels.filter fun l => l.1 = c).length + (s'.places c).rank m ≤ (s.places c).rank m := by
  induction labels generalizing s with
  | nil =>
      cases h
      exact (Nat.zero_add _).le
  | cons l labels ih =>
      rw [run_cons] at h
      obtain ⟨s₁, hstep, h⟩ := Option.bind_eq_some_iff.mp h
      obtain ⟨hnext, hothers⟩ := race_eq_some hstep
      have hrest := ih h
      by_cases hc : l.1 = c
      · subst hc
        have hlt := next_rank hnext
        rw [List.filter_cons_of_pos (by simp), List.length_cons]
        omega
      · rw [List.filter_cons_of_neg (by simpa using hc), ← hothers c (Ne.symm hc)]
        exact hrest

/-- Runs none of whose statements fails by itself: each is through after a bounded number of them, they do not
block one another, and when all that have begun are at their end, one of them has come through. -/
theorem race_completes (haccepted : (m.sqlAll (pending m start) start.content).isSome)
    {labels : List (γ × Action)} (h : run (race m) start.nodeState labels = some s) :
    (∀ c, (labels.filter fun l => l.1 = c).length ≤ 4 * (files m).length + 4) ∧
    ((∀ c, s.places c ≠ .idle → step m s (c, .next) = none) → (∃ c, s.places c ≠ .idle) →
      (∀ c, s.places c = .idle ∨ ∃ result, s.places c = .returned result) ∧
      ∃ c, s.places c = .returned .ok ∧ ∀ file ∈ files m, file ∈ s.shared.recorded) := by
  have hr := Reachable.of_run h
  have hs : (openOutline m start).Holds s := OpenOutline.holds openOutline_state hr.of_restrict
  refine ⟨fun c => (Nat.le_add_right _ _).trans (rank_of_race h c), fun hstuck hbegun => ?_⟩
  have hend : ∀ c, s.places c = .idle ∨ ∃ result, s.places c = .returned result := by
    intro c
    refine or_iff_not_imp_left.mpr fun hidle => ?_
    have hnone : ∀ b, s.places b ≠ .idle → next m b (s.places b) s.shared = none := by
      intro b hb
      have hb := hstuck b hb
      rw [step, interleave, Option.map_eq_none_iff] at hb
      exact hb
    obtain hreturned | hcrashed | ⟨applied, file, rest, b, hplace, hb, hrow⟩ := next_eq_none (hnone c hidle)
    · exact hreturned
    · exact absurd hcrashed (not_crashed_of_race hr c)
    -- the run that has inserted the row can commit it
    · obtain ⟨applied', rest', hplace'⟩ := inserted_of_row (hs.assertion b) hrow
      have hblocked := hnone b (by rw [hplace']; exact fun h => by cases h)
      have hassertion : assertion m start b _ _ := hs.assertion b
      rw [hplace'] at hblocked hassertion
      obtain ⟨db', hcommit, -⟩ := commit_kept hs.invariant hassertion
      rw [next, hcommit] at hblocked
      cases hblocked
  refine ⟨hend, ?_⟩
  obtain ⟨c, hahead⟩ | ⟨-, hplaces⟩ := leads_of_race haccepted hr
  · obtain hplace | ⟨result, hplace⟩ := hend c
    · rw [hplace] at hahead
      exact hahead.elim
    · have hassertion : assertion m start c _ _ := hs.assertion c
      rw [hplace] at hahead hassertion
      cases result with
      | ok => exact ⟨c, hplace, hassertion.2⟩
      | error => exact hahead.elim
  · obtain ⟨c, hc⟩ := hbegun
    obtain hplace | hplace := hplaces c
    · exact absurd hplace hc
    · obtain hidle | ⟨result, hreturned⟩ := hend c
      · exact absurd hidle hc
      · rw [hplace] at hreturned
        cases hreturned

end

/-! ### Two runs at once -/

namespace Sample

/-- The table is made by run 1 under the eyes of run 0.  Runs 1 and 2 are at the second file, when run 2
dies. -/
def labels : List (ℕ × Action) :=
  [(0, .next), (1, .next), (1, .next), (0, .next)] ++ List.replicate 5 (1, .next) ++
    List.replicate 7 (2, .next) ++ [(1, .next), (1, .next), (2, .crash)] ++ List.replicate 3 (1, .next)

/-- The same, but run 2 goes on. -/
def raced : List (Fin 3 × Action) :=
  [(0, .next), (1, .next), (1, .next), (0, .next)] ++ List.replicate 5 (1, .next) ++
    List.replicate 7 (2, .next) ++ [(1, .next), (1, .next), (2, .next), (1, .next), (2, .next)]

end Sample

open Migrate.Sample

theorem unlocked_migrations_sample : ∃ s : State ℕ (List String),
    MigratedUnlocked embedded empty s ∧ s.places 0 = .returned (.error .conflict) ∧
      s.places 1 = .returned .ok ∧ s.places 2 = .crashed ∧
      s.shared.committed = ["001_init.sql", "002_deliveries_seq.sql"] := by
  obtain ⟨s, hs, hp⟩ := exists_of_run (step embedded) empty.nodeState Sample.labels
    (fun s => s.places 0 = .returned (.error .conflict) && s.places 1 = .returned .ok &&
      s.places 2 = .crashed && s.shared.committed = ["001_init.sql", "002_deliveries_seq.sql"])
    (by decide +kernel)
  simp only [Bool.and_eq_true, decide_eq_true_eq] at hp
  obtain ⟨⟨⟨hconflict, hok⟩, hcrashed⟩, hcommitted⟩ := hp
  exact ⟨s, unlocked_migrations embedded empty (.of_run hs), hconflict, hok, hcrashed, hcommitted⟩

/-- Two of three runs fail for what another one has done, and the third comes through. -/
theorem race_completes_sample : ∃ s : State (Fin 3) (List String),
    run (race embedded) empty.nodeState Sample.raced = some s ∧
      s.places 0 = .returned (.error .conflict) ∧ s.places 1 = .returned (.error .conflict) ∧
      (∀ c, (Sample.raced.filter fun l => l.1 = c).length ≤ 4 * (files embedded).length + 4) ∧
      ∃ c, s.places c = .returned .ok ∧ ∀ file ∈ files embedded, file ∈ s.shared.recorded := by
  obtain ⟨s, hs, hp⟩ := exists_of_run (race embedded) empty.nodeState Sample.raced
    (fun s => s.places 0 = .returned (.error .conflict) && s.places 1 = .returned (.error .conflict) &&
      s.places 2 = .returned .ok) (by decide +kernel)
  simp only [Bool.and_eq_true, decide_eq_true_eq] at hp
  obtain ⟨⟨hfirst, hsecond⟩, hthird⟩ := hp
  have haccepted : (embedded.sqlAll (pending embedded empty) empty.content).isSome := by decide +kernel
  obtain ⟨hbound, hdone⟩ := race_completes haccepted hs
  have hreturned : ∀ c, ∃ result, s.places c = .returned result := by
    intro c
    obtain rfl | rfl | rfl : c = 0 ∨ c = 1 ∨ c = 2 := by omega
    · exact ⟨_, hfirst⟩
    · exact ⟨_, hsecond⟩
    · exact ⟨_, hthird⟩
  refine ⟨s, hs, hfirst, hsecond, hbound, (hdone (fun c _ => ?_) ⟨0, ?_⟩).2⟩
  · obtain ⟨result, hplace⟩ := hreturned c
    rw [step, interleave, hplace]
    rfl
  · rw [hfirst]
    exact fun h => by cases h

end Webhooks.Migrate.Node
