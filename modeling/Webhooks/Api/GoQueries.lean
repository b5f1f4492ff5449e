import Webhooks.Api.GoPagination
import Webhooks.Api.Pagination
import Webhooks.Api.Queries

/-!
# Api — GoQueries

The queries the Go list routes put together: `args` grows with the conditions, and a condition names
its arguments by the number they have.

* `Select`, `Select.whereArg`: a query and one more condition.
* `Select.run`: what Postgres makes of it, `none` when it refuses an argument.
* **`Select.Selects.run_eq`**: the numbers lead to the arguments the conditions were added with.
-/

namespace Webhooks.Go

open Lib
open Node (isBefore)

/-- A value of `args`. -/
inductive Arg where
  | id (id : Uuid)
  | text (s : String)
  | number (n : Int)
  deriving DecidableEq, Repr

/-- A condition on the rows, given the arguments; `none` when Postgres refuses one of its own. -/
abbrev Condition (α : Type) := List Arg → Option (α → Bool)

/-- A query being put together. -/
structure Select (α : Type) where
  args : List Arg
  conditions : List (Condition α)

section

variable {α : Type}

/-- `args = append(args, …)` and one more condition, on `$len(args)`. -/
def Select.whereArg (q : Select α) (a : Arg) (c : Nat → Condition α) : Select α :=
  ⟨q.args ++ [a], q.conditions ++ [c (q.args.length + 1)]⟩

/-- The same, unless the query value is empty. -/
def Select.whereText (q : Select α) (value : String) (c : Nat → Condition α) : Select α :=
  if value = "" then q else q.whereArg (.text value) c

/-- `args = append(args, cursor.CreatedAt, cursor.ID)`, and the condition on the last two. -/
def Select.whereCursor (q : Select α) (cursor : Option Cursor) (c : Nat → Nat → Condition α) : Select α :=
  match cursor with
  | none => q
  | some cursor =>
      ⟨q.args ++ [.text cursor.createdAt, .text cursor.id],
        q.conditions ++ [c (q.args.length + 1) (q.args.length + 2)]⟩

/-- `$n`. -/
def placeholder (args : List Arg) (n : Nat) : Option Arg := args[n - 1]?

/-- `$n` as a text. -/
def textArg (args : List Arg) (n : Nat) : Option String :=
  match placeholder args n with
  | some (.text s) => some s
  | _ => none

/-- `$n` as a number. -/
def numberArg (args : List Arg) (n : Nat) : Option Int :=
  match placeholder args n with
  | some (.number n) => some n
  | _ => none

/-- `SELECT … WHERE … ORDER BY … LIMIT $n`. -/
def Select.run (q : Select α) (order : α → α → Prop) [DecidableRel order] (limit : Nat)
    (rows : List α) : Option (List α) :=
  let args := q.args ++ [.number (limit + 1)]
  (q.conditions.mapM (fun c : Condition α => c args)).bind fun conditions =>
    (numberArg args args.length).map fun n =>
      ((rows.filter fun a => conditions.all (· a)).insertionSort order).take n.toNat

/-- The conditions come to this one, whatever arguments are appended. -/
def Select.Selects (q : Select α) (condition : Option (α → Bool)) : Prop :=
  ∀ more, (q.conditions.mapM fun c : Condition α => c (q.args ++ more)).map
    (fun conditions a => conditions.all (· a)) = condition

/-- A condition on one text that Postgres reads as a value. -/
def ofText {β : Type} (parse : String → Option β) (test : β → α → Bool) (n : Nat) : Condition α :=
  fun args => ((textArg args n).bind parse).map test

/-- The two texts of a cursor as Postgres reads them. -/
def cursorParams (p : Platform) (cursor : Cursor) : Option (Timestamptz × Uuid) :=
  (p.timestamptz cursor.createdAt).bind fun t => (p.uuid cursor.id).map fun id => (t, id)

/-- `(created_at, id) < ($n, $m)`. -/
def createdBefore (p : Platform) (createdAt id : α → Nat) (n m : Nat) : Condition α := fun args =>
  (textArg args n).bind fun createdAtText => (textArg args m).bind fun idText =>
    (cursorParams p ⟨createdAtText, idText⟩).map fun c a => isBefore c (createdAt a) (id a)

/-- A query value that is set. -/
def nonEmpty (value : String) : Option String := if value = "" then none else some value

section

variable {q : Select α} {condition : Option (α → Bool)} {args more : List Arg} {a : Arg} {s : String}

@[simp] theorem textArg_append : textArg (args ++ .text s :: more) (args.length + 1) = some s := by
  simp [textArg, placeholder]

theorem numberArg_append {n : Int} :
    numberArg (args ++ .number n :: more) (args.length + 1) = some n := by
  simp [numberArg, placeholder]

theorem Select.Selects.whereArg (h : q.Selects condition) {c : Nat → Condition α}
    {b : Option (α → Bool)} (hc : ∀ args more, c (args.length + 1) (args ++ a :: more) = b) :
    (q.whereArg a c).Selects (condition.bind fun f => b.map fun g x => f x && g x) := by
  intro more
  have hargs : q.args ++ [a] ++ more = q.args ++ (a :: more) := by simp
  rw [← h (a :: more)]
  simp only [Select.whereArg, List.mapM_append, hargs, List.mapM_cons, hc, List.mapM_nil]
  cases q.conditions.mapM fun c : Condition α => c (q.args ++ a :: more) with
  | none => rfl
  | some cs => cases b <;> simp

theorem Select.Selects.whereText (h : q.Selects condition) (value : String) {β : Type}
    (parse : String → Option β) (test : β → α → Bool) :
    (q.whereText value (ofText parse test)).Selects (condition.bind fun f =>
      ((nonEmpty value).mapM parse).map fun b x => f x && b.all (test · x)) := by
  unfold Select.whereText nonEmpty
  split
  · intro more
    rw [h more]
    cases condition <;> simp
  · have hc : ∀ args more, ofText parse test (args.length + 1) (args ++ .text value :: more) =
        (parse value).map test := by simp [ofText]
    intro more
    rw [h.whereArg hc more]
    cases condition <;> cases hparse : parse value <;> simp [hparse]

theorem Select.Selects.whereCursor {p : Platform} {createdAt id : α → Nat} (h : q.Selects condition)
    (cursor : Option Cursor) : (q.whereCursor cursor (createdBefore p createdAt id)).Selects
      (condition.bind fun f => (cursor.mapM (cursorParams p)).map fun c x =>
        f x && c.all fun c => isBefore c (createdAt x) (id x)) := by
  cases cursor with
  | none =>
      intro more
      rw [Select.whereCursor, h more]
      cases condition <;> simp
  | some cursor =>
      intro more
      have hargs : q.args ++ [.text cursor.createdAt, .text cursor.id] ++ more =
          q.args ++ .text cursor.createdAt :: .text cursor.id :: more := by simp
      have hcreatedAt : textArg (q.args ++ .text cursor.createdAt :: .text cursor.id :: more)
          (q.args.length + 1) = some cursor.createdAt := textArg_append
      have hid : textArg (q.args ++ .text cursor.createdAt :: .text cursor.id :: more)
          (q.args.length + 2) = some cursor.id := by
        simp [textArg, placeholder]
      rw [← h (.text cursor.createdAt :: .text cursor.id :: more)]
      simp only [Select.whereCursor, List.mapM_append, hargs, List.mapM_cons, List.mapM_nil,
        createdBefore, hcreatedAt, hid]
      cases q.conditions.mapM fun c : Condition α =>
          c (q.args ++ .text cursor.createdAt :: .text cursor.id :: more) with
      | none => rfl
      | some cs =>
          have heta : (⟨cursor.createdAt, cursor.id⟩ : Cursor) = cursor := rfl
          cases hparams : cursorParams p cursor <;> simp [heta, hparams]

/-- The numbers lead to the arguments the conditions were added with. -/
theorem Select.Selects.run_eq (h : q.Selects condition) {order : α → α → Prop} [DecidableRel order]
    {limit : Nat} {rows : List α} : q.run order limit rows =
      condition.map fun f => ((rows.filter f).insertionSort order).take (limit + 1) := by
  have hlimit : numberArg (q.args ++ [.number (limit + 1)]) (q.args ++ [Arg.number (limit + 1)]).length =
      some ((limit : Int) + 1) := by
    rw [List.length_append]
    exact numberArg_append
  rw [← h [.number (limit + 1)]]
  simp only [Select.run, hlimit]
  cases q.conditions.mapM fun c : Condition α => c (q.args ++ [.number (limit + 1)]) <;> rfl

end

end

end Webhooks.Go
