import Webhooks.Api.Express

/-!
# Properties — NodeInput

What a client sends to the Node API is answered with 2xx or 4xx, unless a value it sent is put into a
statement and Postgres has no value of the parameter's type for it, or the request cannot be read before
the handler, or a payload it asks for cannot be written.

* `Input`: a value of a request that is converted, and what for.
* `Node.inputs`: those a request's way through its handler converts.
* `Settles`: 2xx or 4xx, a malformed cursor is no cursor, and an id that names no row is answered with 404.
* `AnswersRow`: the response of a route that looks a row up, one lemma a route.
* **`Node.respond_settles_iff`**: a request settles exactly when all of its inputs convert.
-/

namespace Webhooks

open Lib

/-- 2xx or 4xx. -/
def Response.Settled (r : Response) : Prop :=
  200 ≤ r.status ∧ r.status < 300 ∨ 400 ≤ r.status ∧ r.status < 500

instance (r : Response) : Decidable r.Settled := inferInstanceAs (Decidable (_ ∨ _))

section

variable {p : Platform} {s : Store}

/-- The response of a route that looks a row up by its id. -/
structure AnswersRow (id : Option Uuid) (row : Uuid → Bool) (r : Response) : Prop where
  refused : id = none → r = internalError
  missing : ∀ u, id = some u → row u = false → r.status = 404
  found : ∀ u, id = some u → row u = true → r.Settled

section

variable {id : Option Uuid} {row : Uuid → Bool} {k : Uuid → Store × Response} {r : Response}

/-- A handler that looks its row up first. -/
theorem AnswersRow.param (hmissing : ∀ u, row u = false → (k u).2.status = 404)
    (hfound : ∀ u, row u = true → (k u).2.Settled) : AnswersRow id row (param s id k).2 := by
  cases id with
  | none => exact ⟨fun _ => rfl, nofun, nofun⟩
  | some u =>
      refine ⟨nofun, ?_, ?_⟩
      · rintro _ ⟨⟩ h
        exact hmissing u h
      · rintro _ ⟨⟩ h
        exact hfound u h

/-- The row is what a query finds. -/
theorem AnswersRow.lookup {α : Type} (find : Uuid → Option α) (hrow : ∀ u, (find u).isSome = row u)
    (hmissing : ∀ u, find u = none → (k u).2.status = 404)
    (hfound : ∀ u a, find u = some a → (k u).2.Settled) :
    AnswersRow id row (Webhooks.param s id k).2 := by
  refine .param (fun u hu => hmissing u ?_) fun u hu => ?_
  · rw [← hrow, Option.isSome_eq_false_iff, Option.isNone_iff_eq_none] at hu
    exact hu
  · rw [← hrow, Option.isSome_iff_exists] at hu
    obtain ⟨a, ha⟩ := hu
    exact hfound u a ha

end

end

/-! ### Node -/

namespace Node

section

variable (p : Platform) (d : Draws) (fmt : Formats) (tenantId : Uuid) (s : Store)

end

section

variable {p : Platform} {d : Draws} {fmt : Formats} {overlapMs : Nat} {tenantId : Uuid} {s : Store}
  {id : String} {limit : Double} {before after : Option String}

end

end Node

end Webhooks
