import Webhooks.Worker.Claim

/-!
# Worker — Signing

The `Webhook-Signature` header (`signing.ts`, `signing.go`): one HMAC of the request's timestamp
and body for each secret of the claim, separated by commas.  A digest is hexadecimal, so a
receiver that splits the header at its commas gets the digests back.
-/

namespace Webhooks

/-- The secrets a request is signed with.  An empty secondary secret counts as none. -/
def ClaimedDelivery.secrets (claimed : ClaimedDelivery) : List String :=
  match claimed.secondarySecret with
  | some secondarySecret =>
      if secondarySecret = "" then [claimed.signingSecret]
      else [claimed.signingSecret, secondarySecret]
  | none => [claimed.signingSecret]

def signedString (timestamp : Nat) (rawBody : String) : String := toString timestamp ++ "." ++ rawBody

def signPayload (hmac : String → String → String) (secrets : List String) (timestamp : Nat)
    (rawBody : String) : String :=
  ",".intercalate (secrets.map fun secret => hmac secret (signedString timestamp rawBody))

/-- A receiver that holds the secret finds its signature in the header. -/
def verifiesWith (hmac : String → String → String) (secret : String) (timestamp : Nat)
    (rawBody header : String) : Prop :=
  hmac secret (signedString timestamp rawBody) ∈ (header.split ',').toList.map (·.copy)

theorem verifiesWith_signPayload {hmac : String → String → String}
    (hhex : ∀ secret text, ',' ∉ (hmac secret text).toList) {secrets : List String} {secret : String}
    (h : secret ∈ secrets) (timestamp : Nat) (rawBody : String) :
    verifiesWith hmac secret timestamp rawBody (signPayload hmac secrets timestamp rawBody) := by
  have hsplit : ((signPayload hmac secrets timestamp rawBody).split ',').toList.map (·.copy) =
      secrets.map fun secret => hmac secret (signedString timestamp rawBody) := by
    have hne : secrets ≠ [] := List.ne_nil_of_mem h
    have hcomma : ∀ t ∈ secrets.map fun secret => hmac secret (signedString timestamp rawBody),
        ',' ∉ t.toList := by
      intro t ht
      obtain ⟨x, -, rfl⟩ := List.mem_map.mp ht
      exact hhex x _
    refine (String.toList_split_intercalate hcomma).trans ?_
    rw [if_neg (by simpa using hne)]
  simp only [verifiesWith, hsplit]
  exact List.mem_map_of_mem h

end Webhooks
