import Webhooks.Validation.Url

/-!
# Worker — Pinning

`resolveAndPin` of `httpClient.ts` and `ResolveAndPin` of `httpclient.go`, with the resolver as a
parameter: a list of addresses, or `none` when it fails.
-/

namespace Webhooks

inductive ResolveAndPinResult where
  | allowed (ip : List Char)
  | rejected (reason : String)
  deriving DecidableEq, Repr

/-- What a check of a literal comes to. -/
def UrlValidation.pin (result : UrlValidation) (hostname : List Char) : ResolveAndPinResult :=
  if result.allowed then .allowed hostname else .rejected (result.reason.getD "Address not allowed")

/-- The loop over an answer: the first address that is denied rejects it, and when none is, the first
one is pinned. -/
def pinAnswer {α : Type} (check : α → UrlValidation) (text : α → List Char) :
    Option (List α) → ResolveAndPinResult
  | none | some [] => .rejected "Could not resolve hostname"
  | some (first :: rest) =>
      match ((first :: rest).map check).find? fun result => !result.allowed with
      | some result => .rejected (result.reason.getD "Address not allowed")
      | none => .allowed (text first)

def Node.resolveAndPin (hostname : List Char) (resolver : List Char → Option (List (List Char))) :
    ResolveAndPinResult :=
  if isIP hostname ≠ 0 then (checkAddress hostname).pin hostname
  else pinAnswer checkAddress id (resolver hostname)

def Go.resolveAndPin (hostname : List Char) (resolver : List Char → Option (List Address)) :
    ResolveAndPinResult :=
  match parseIP hostname with
  | some ip => (checkAddress ip).pin hostname
  | none => pinAnswer checkAddress ipString (resolver hostname)

theorem UrlValidation.pin_eq_allowed_iff {result : UrlValidation} {hostname ip : List Char} :
    result.pin hostname = .allowed ip ↔ result.allowed = true ∧ ip = hostname := by
  cases h : result.allowed <;> simp [pin, h, eq_comm]

/-- The check of a text, on an answer in text. -/
theorem pinAnswer_map {α : Type} {check : List Char → UrlValidation} {text : α → List Char}
    {answer : Option (List α)} :
    pinAnswer check id (answer.map (List.map text)) =
      pinAnswer (fun a => check (text a)) text answer := by
  match answer with
  | none => rfl
  | some [] => rfl
  | some (first :: rest) => simp [pinAnswer, Function.comp_def]

/-- An answer is pinned when no address of it is denied. -/
theorem pinAnswer_eq_allowed_iff {α : Type} {check : α → UrlValidation} {text : α → List Char}
    {answer : Option (List α)} {ip : List Char} :
    pinAnswer check text answer = .allowed ip ↔ ∃ first rest, answer = some (first :: rest) ∧
      ip = text first ∧ ∀ a ∈ first :: rest, (check a).allowed = true := by
  match answer with
  | none => simp [pinAnswer]
  | some [] => simp [pinAnswer]
  | some (first :: rest) =>
      have hnone : ((first :: rest).map check).find? (fun result => !result.allowed) = none ↔
          ∀ a ∈ first :: rest, (check a).allowed = true := by
        simp [List.find?_eq_none]
      rw [pinAnswer]
      split
      case h_1 result hfind =>
        constructor
        · nofun
        · rintro ⟨_, _, heq, _, hall⟩
          cases heq
          rw [hnone.mpr hall] at hfind
          cases hfind
      case h_2 hfind =>
        constructor
        · rintro heq
          cases heq
          exact ⟨first, rest, rfl, rfl, hnone.mp hfind⟩
        · rintro ⟨_, _, heq, rfl, _⟩
          cases heq
          rfl

end Webhooks
