import Webhooks.Worker.Signing
import Webhooks.Protocol.Alone

/-!
# Properties — Secret rotation

A rotation's response announces until when the secret it replaces stays in use.  The endpoint row
has room for one replaced secret, so the announcement holds until the next rotation.

* `Audited`, `auditStep`: the system, with what each endpoint's owner has been told.
* **`rotation_kept`**: in every run, a claim signs with the announced secrets exactly when no
  overlap but the last is still running.
* `overlap_cut_short`: a second rotation within the overlap of the first.
-/

namespace Webhooks

open Lib

/-! ### What is announced -/

/-- The secrets an endpoint's owner has been told of, as they are stored: the current one, and the
replaced ones, newest first, each with its `overlap_expires_at`. -/
structure Announced where
  current : String
  replaced : List (String × Time)
  deriving DecidableEq

/-- The system, with the announcements of each endpoint's responses. -/
structure Audited where
  sys : Sys
  announced : Uuid → Option Announced

def Audited.init (tenants : List Tenant) : Audited := ⟨.init tenants, fun _ => none⟩

/-- The announcements after a step.  A rotation of an endpoint that is not the tenant's is answered
`404`. -/
def announce (cfg : Config) (s : Audited) : Label → Uuid → Option Announced
  | .register _ _ _ signingSecret => fun id =>
      if id = s.sys.store.uuids then some ⟨signingSecret, []⟩ else s.announced id
  | .rotate endpointId tenantId signingSecret => fun id =>
      if id = endpointId ∧ hasEndpoint s.sys.store endpointId tenantId = true then
        (s.announced id).map fun a =>
          ⟨signingSecret, (a.current, s.sys.now + cfg.overlapMs) :: a.replaced⟩
      else s.announced id
  | _ => s.announced

def auditStep (cfg : Config) (s : Audited) (l : Label) : Option Audited :=
  (step cfg s.sys l).map fun s' => ⟨s', announce cfg s l⟩

/-- What registration and rotation store is the encryption of a generated secret. -/
def StoresSecrets (cfg : Config) (_ : Audited) : Label → Prop
  | .register _ _ _ signingSecret | .rotate _ _ signingSecret =>
      (cfg.decryptSecret signingSecret).any (· ≠ "") = true
  | _ => True

instance (cfg : Config) : DecidableRel (StoresSecrets cfg) := fun _ l =>
  decidable_of_bool (match l with
    | .register _ _ _ signingSecret | .rotate _ _ signingSecret =>
        (cfg.decryptSecret signingSecret).any (· ≠ "")
    | _ => true) (by
      unfold StoresSecrets
      cases l with
      | register | rotate => exact Iff.rfl
      | _ => exact iff_of_true rfl trivial)

/-- The secrets in use at `now`: the current one, and those whose announced overlap is running. -/
def Announced.inUse (a : Announced) (now : Time) : List String :=
  a.current :: (a.replaced.filter fun x => now < x.2).map Prod.fst

/-- The claim signs with the secrets in use, each once, and with no other. -/
def SignsInUse (cfg : Config) (a : Announced) (now : Time) (claimed : ClaimedDelivery) : Prop :=
  List.Forall₂ (fun stored secret => cfg.decryptSecret stored = some secret) (a.inUse now)
    claimed.secrets

/-- Of the replaced secrets only the last one's overlap may be running. -/
def Announced.AtMostOne (a : Announced) (now : Time) : Prop := ∀ x ∈ a.replaced.tail, x.2 ≤ now

/-! ### The columns of the secrets -/

abbrev SecretColumns := Uuid × String × Option String × Option Time

def Endpoint.secretColumns (e : Endpoint) : SecretColumns :=
  (e.id, e.signingSecret, e.secondarySecret, e.secondarySecretExpiresAt)

def Store.secretColumns (st : Store) : List SecretColumns := st.endpoints.map Endpoint.secretColumns

/-- The row keeps the current secret and the last replaced one. -/
def Announced.columns (id : Uuid) (a : Announced) : SecretColumns :=
  (id, a.current, a.replaced.head?.map Prod.fst, a.replaced.head?.map Prod.snd)

/-- The head a claim has read. -/
def ClaimStep.headRow : ClaimStep → Option DeliveryRow
  | .checkHead head => head
  | .insertAttempt head | .markInFlight head _ _ | .finish head _ _ => some head
  | _ => none

def DeliveryRow.secretColumns (id : Uuid) (head : DeliveryRow) : SecretColumns :=
  (id, head.signingSecret, head.secondarySecret, head.secondarySecretExpiresAt)

/-- What the claim has read of the secrets is in the endpoint's row. -/
def ClaimStep.Reads (st : Store) (c : Claim) (next : ClaimStep) : Prop :=
  ∀ head, next.headRow = some head → head.secretColumns c.candidate.id ∈ st.secretColumns

/-- A claim that goes on has read the endpoint's row, and one that returns has decrypted it. -/
def ClaimResult.Reads (cfg : Config) (now : Time) (st : Store) (c : Claim) : ClaimResult → Prop
  | .next step => step.Reads st c
  | .claimed d => d.endpointId = c.candidate.id ∧
      ∃ head : DeliveryRow, head.secretColumns c.candidate.id ∈ st.secretColumns ∧
        decryptSecrets cfg now head = some (d.signingSecret, d.secondarySecret)
  | .none | .threw => True

/-- The endpoint's row keeps the current secret and the last replaced one, and every secret of the
endpoint was stored. -/
def Endpoint.Keeps (cfg : Config) (e : Endpoint) (a : Announced) : Prop :=
  e.secretColumns = a.columns e.id ∧
    ∀ stored ∈ a.current :: a.replaced.map Prod.fst, (cfg.decryptSecret stored).any (· ≠ "") = true

structure AuditInv (cfg : Config) (tenants : List Tenant) (s : Audited) : Prop where
  system : Reachable (step cfg) (.init tenants) s.sys
  rows : ∀ e ∈ s.sys.store.endpoints, ∃ a, s.announced e.id = some a ∧ e.Keeps cfg a

section

variable {cfg : Config} {now cutoff : Time} {st st' : Store} {w : WorkerId} {pc pc' : Pc} {l : Label}
  {c : Claim} {next : ClaimStep} {claimed : ClaimedDelivery} {r : ClaimResult}
  {cs : List CandidateRow} {scan : List Endpoint}

theorem secretColumns_update {p : Endpoint → Bool} {f : Endpoint → Endpoint}
    (h : st'.endpoints = Table.update p f st.endpoints)
    (hf : ∀ e, (f e).secretColumns = e.secretColumns) : st'.secretColumns = st.secretColumns := by
  simp only [Store.secretColumns, h]
  exact Table.map_update hf

theorem claimEndpoint_secretColumns {id : Uuid} {leaseId : Option Uuid}
    (h : claimEndpoint st now id cutoff = (leaseId, st')) : st'.secretColumns = st.secretColumns := by
  cases leaseId with
  | none => rw [claimEndpoint_none h]
  | some leaseId =>
      obtain ⟨-, -, rfl⟩ := claimEndpoint_some h
      exact secretColumns_update rfl fun _ => rfl

/-! ### One claim -/

theorem ClaimResult.Reads.of_eq (h : r.Reads cfg now st c) (heq : st'.secretColumns = st.secretColumns) :
    r.Reads cfg now st' c := by
  cases r with
  | next step => exact fun head hhead => heq ▸ h head hhead
  | claimed claimed =>
      obtain ⟨hid, head, hhead, hdec⟩ := h
      exact ⟨hid, head, heq ▸ hhead, hdec⟩
  | none | threw => trivial

theorem fetchHead_secretColumns {endpointId : Uuid} {head : DeliveryRow}
    (h : fetchHead st endpointId = some head) : head.secretColumns endpointId ∈ st.secretColumns := by
  obtain ⟨e, he, hid, hsig, hsec, hexp⟩ := fetchHead_secrets h
  refine List.mem_map.mpr ⟨e, he, ?_⟩
  simp only [Endpoint.secretColumns, DeliveryRow.secretColumns, hid, hsig, hsec, hexp]

/-- A statement of a claim leaves the secrets, and goes on with what it has read of them. -/
theorem claimStep_reads (h : next.Reads st c) :
    (claimStep cfg now st c next).1.secretColumns = st.secretColumns ∧
      (claimStep cfg now st c next).2.Reads cfg now st c := by
  cases next with
  | touchTenant =>
      refine ⟨rfl, fun head hhead => ?_⟩
      cases hb : c.candidate.busy <;> simp [hb, ClaimStep.headRow] at hhead
  | closeOrphans =>
      simp only [claimStep]
      cases hc : closeOrphans st c.candidate.id with
      | none => exact ⟨rfl, trivial⟩
      | some st' =>
          refine ⟨?_, fun _ h => by cases h⟩
          simp only [Store.secretColumns, (closeOrphans_endpoints hc).1]
  | requeue => exact ⟨rfl, fun _ h => by cases h⟩
  | fetchHead => exact ⟨rfl, fun head hhead => fetchHead_secretColumns hhead⟩
  | checkHead head =>
      cases head with
      | none => exact ⟨rfl, fun _ h => by cases h⟩
      | some head =>
          refine ⟨rfl, fun head' hhead => h head' ?_⟩
          by_cases hdue : now < head.nextAttemptAt
          · rw [if_pos hdue] at hhead
            cases hhead
          · rw [if_neg hdue] at hhead
            exact hhead
  | release => exact ⟨secretColumns_update rfl fun _ => rfl, trivial⟩
  | insertAttempt head => exact ⟨rfl, h⟩
  | markInFlight head n attemptId => exact ⟨rfl, h⟩
  | finish head n attemptId =>
      simp only [claimStep]
      cases hd : decryptSecrets cfg now head with
      | none => exact ⟨rfl, trivial⟩
      | some secrets => exact ⟨rfl, rfl, head, h head rfl, hd⟩

theorem claimLoop_reads (n : Nat) (h : next.Reads st c) :
    (claimLoop cfg now c n st next).1.secretColumns = st.secretColumns ∧
      (claimLoop cfg now c n st next).2.Reads cfg now st c := by
  induction n generalizing st next with
  | zero => exact ⟨rfl, h⟩
  | succ n ih =>
      obtain ⟨hcols, hreads⟩ := claimStep_reads h
      simp only [claimLoop]
      rcases hstep : claimStep cfg now st c next with ⟨st', r⟩
      rw [hstep] at hcols hreads
      cases r with
      | next step =>
          have hreads' : step.Reads st' c := fun head hhead => hcols ▸ hreads head hhead
          obtain ⟨hcols', hreads''⟩ := ih hreads'
          exact ⟨hcols'.trans hcols, hreads''.of_eq hcols.symm⟩
      | none | claimed | threw => exact ⟨hcols, hreads⟩

theorem tryClaimEndpoint_reads {candidate : CandidateRow} :
    (tryClaimEndpoint cfg now st candidate cutoff).1.secretColumns = st.secretColumns ∧
      ∀ claimed, (tryClaimEndpoint cfg now st candidate cutoff).2 = .claimed claimed →
        ∃ head : DeliveryRow, head.secretColumns claimed.endpointId ∈ st.secretColumns ∧
          decryptSecrets cfg now head = some (claimed.signingSecret, claimed.secondarySecret) := by
  simp only [tryClaimEndpoint]
  rcases hc : claimEndpoint st now candidate.id cutoff with ⟨_ | leaseId, st'⟩
  · exact ⟨claimEndpoint_secretColumns hc, by simp⟩
  · obtain ⟨hcols, hreads⟩ := @claimLoop_reads cfg now st' ⟨candidate, [], cutoff, leaseId, now⟩
      .touchTenant 8 fun _ h => by cases h
    refine ⟨hcols.trans (claimEndpoint_secretColumns hc), fun claimed hr => ?_⟩
    rw [hr] at hreads
    obtain ⟨hid, head, hhead, hdec⟩ := hreads
    rw [hid, ← claimEndpoint_secretColumns hc]
    exact ⟨head, hhead, hdec⟩

theorem tryCandidates_secrets (h : tryCandidates cfg now cutoff st cs = (st', .claimed claimed)) :
    ∃ head : DeliveryRow, head.secretColumns claimed.endpointId ∈ st.secretColumns ∧
      decryptSecrets cfg now head = some (claimed.signingSecret, claimed.secondarySecret) := by
  induction cs generalizing st with
  | nil => cases h
  | cons c cs ih =>
      obtain ⟨hcols, hclaimed⟩ := @tryClaimEndpoint_reads cfg now cutoff st c
      simp only [tryCandidates] at h
      rcases htry : tryClaimEndpoint cfg now st c cutoff with ⟨st₁, r⟩
      rw [htry] at h hcols hclaimed
      cases r with
      | none =>
          rw [← hcols]
          exact ih h
      | claimed claimed' =>
          cases h
          exact hclaimed _ rfl
      | next | threw => cases h

/-! ### The announcements and the row -/

theorem WorkerMove.secretColumns (h : WorkerMove cfg now st w pc l st' pc') :
    st'.secretColumns = st.secretColumns := by
  cases h with
  | claim hc => exact claimEndpoint_secretColumns hc
  | close hc => simp only [Store.secretColumns, (closeOrphans_endpoints hc).1]
  | release => exact secretColumns_update rfl fun _ => rfl
  | @complete _ claimed result random fault hpc =>
      obtain hc | ⟨-, hc⟩ | ⟨-, -, hc⟩ :=
        completeDelivery_cases cfg now st claimed result random fault <;> rw [hc]
      refine secretColumns_update rfl fun e => ?_
      simp only [Endpoint.resolve]
      split <;> rfl
  | commit => simp only [Store.secretColumns, commitExpansion_endpoints]
  | _ => rfl

/-- Only registration and rotation write the secrets. -/
theorem step_secretColumns {s s' : Sys} (hreg : ∀ t u ts x, l ≠ .register t u ts x)
    (hrot : ∀ id t x, l ≠ .rotate id t x) (h : step cfg s l = some s') :
    s'.store.secretColumns = s.store.secretColumns := by
  cases l with
  | register => exact absurd rfl (hreg _ _ _ _)
  | rotate => exact absurd rfl (hrot _ _ _)
  | tick => cases h; rfl
  | pause | resume => cases h; exact secretColumns_update rfl fun _ => rfl
  | request | publish | abort | requestReplay | replay | abortReplay =>
      simp only [step, publishStep, replayStep] at h
      repeat' split at h
      all_goals
        cases h
        try rfl
  | start w | query w | step w | send w | complete w | die w =>
      cases step_move h with
      | tick _ hl => cases hl
      | api hl => cases hl
      | worker _ _ _ h => exact h.secretColumns

/-! ### Every run -/

variable {tenants : List Tenant} {s s' : Audited}

theorem AuditInv.step (hi : AuditInv cfg tenants s) (hp : StoresSecrets cfg s l)
    (h : auditStep cfg s l = some s') : AuditInv cfg tenants s' := by
  obtain ⟨s₁, hs, rfl⟩ := Option.map_eq_some_iff.mp h
  refine ⟨hi.system.tail hs, ?_⟩
  have hl := leaseInv_of_reachable hi.system
  by_cases hreg : ∃ t u ts x, l = .register t u ts x
  · obtain ⟨t, u, ts, x, rfl⟩ := hreg
    cases hs
    intro e he
    simp only [announce]
    rcases List.mem_append.mp he with he | he
    · rw [if_neg (hl.columns e he).id_lt.ne]
      exact hi.rows e he
    · rw [List.mem_singleton.mp he, if_pos rfl]
      refine ⟨_, rfl, rfl, fun stored hstored => ?_⟩
      rw [List.mem_singleton.mp hstored]
      exact hp
  by_cases hrot : ∃ id t x, l = .rotate id t x
  · obtain ⟨id, t, x, rfl⟩ := hrot
    cases hs
    intro e' he'
    simp only [announce]
    rcases Table.mem_update_cases he' with ⟨he, hne⟩ | ⟨e, he, heq, rfl⟩
    · -- the row that is rotated is the only one with its identifier
      have hnot : ¬ (e'.id = id ∧ hasEndpoint s.sys.store id t = true) := by
        rintro ⟨hid, hhas⟩
        obtain ⟨e₁, he₁, heq₁⟩ := List.any_eq_true.mp hhas
        simp only [Bool.and_eq_true, decide_eq_true_eq] at heq₁
        obtain rfl : e₁ = e' := Table.eq_of_key hl.ids he₁ he (heq₁.1.trans hid.symm)
        simp [heq₁] at hne
      rw [if_neg hnot]
      exact hi.rows e' he
    · obtain ⟨a, ha, hcols, hall⟩ := hi.rows e he
      simp only [Bool.and_eq_true, decide_eq_true_eq] at heq
      have hhas : hasEndpoint s.sys.store id t = true :=
        List.any_eq_true.mpr ⟨e, he, by simp [heq]⟩
      have hcur : e.signingSecret = a.current := congrArg (·.2.1) hcols
      rw [if_pos ⟨heq.1, hhas⟩, ha]
      refine ⟨_, rfl, ?_, fun stored hstored => ?_⟩
      · simp only [Endpoint.secretColumns, Announced.columns, hcur]
        rfl
      · rcases List.mem_cons.mp hstored with rfl | hstored
        · exact hp
        · exact hall stored hstored
  · have hcols := step_secretColumns (fun t u ts x heq => hreg ⟨t, u, ts, x, heq⟩)
      (fun id t x heq => hrot ⟨id, t, x, heq⟩) hs
    have hsame : announce cfg s l = s.announced := by
      cases l with
      | register t u ts x => exact absurd ⟨t, u, ts, x, rfl⟩ hreg
      | rotate id t x => exact absurd ⟨id, t, x, rfl⟩ hrot
      | _ => rfl
    intro e' he'
    have hmem : e'.secretColumns ∈ s.sys.store.secretColumns := hcols ▸ List.mem_map_of_mem he'
    obtain ⟨e, he, heq⟩ := List.mem_map.mp hmem
    have hid : e.id = e'.id := congrArg Prod.fst heq
    obtain ⟨a, ha, hkeeps, hall⟩ := hi.rows e he
    refine ⟨a, ?_, ?_, hall⟩
    · rw [hsame, ← hid]
      exact ha
    · rw [← heq, hkeeps, hid]

theorem auditInv_of_reachable
    (h : Reachable (restrict (StoresSecrets cfg) (auditStep cfg)) (.init tenants) s) :
    AuditInv cfg tenants s :=
  h.inv (I := AuditInv cfg tenants) ⟨.refl _, fun _ he => by cases he⟩ fun _ _ _ _ hi hs => by
    obtain ⟨hp, hs⟩ := restrict_eq_some.mp hs
    exact hi.step hp hs

/-- The row holds the current secret and the last replaced one: they are the secrets in use exactly
when no other overlap is running. -/
theorem signsInUse_iff {a : Announced} {id : Uuid} {head : DeliveryRow}
    (hcols : head.secretColumns id = a.columns id)
    (hall : ∀ stored ∈ a.current :: a.replaced.map Prod.fst,
      (cfg.decryptSecret stored).any (· ≠ "") = true)
    (hdec : decryptSecrets cfg now head = some (claimed.signingSecret, claimed.secondarySecret)) :
    SignsInUse cfg a now claimed ↔ a.AtMostOne now := by
  have hsig : head.signingSecret = a.current := congrArg (·.2.1) hcols
  have hsec : head.secondarySecret = a.replaced.head?.map Prod.fst := congrArg (·.2.2.1) hcols
  have hexp : head.secondarySecretExpiresAt = a.replaced.head?.map Prod.snd :=
    congrArg (·.2.2.2) hcols
  obtain ⟨current, replaced⟩ := a
  simp only [decryptSecrets, hsig, hsec, hexp] at hdec
  obtain ⟨x, hx, hdec⟩ := Option.bind_eq_some_iff.mp hdec
  cases replaced with
  | nil =>
      simp only [List.head?_nil, Option.map_none, Option.some.injEq, Prod.mk.injEq] at hdec
      obtain ⟨rfl, hnone⟩ := hdec
      simp only [SignsInUse, ClaimedDelivery.secrets, ← hnone, Announced.inUse]
      exact ⟨fun _ _ h => absurd h List.not_mem_nil, fun _ => .cons hx .nil⟩
  | cons last rest =>
      obtain ⟨replacedSecret, expiresAt⟩ := last
      have hrest : (⟨current, (replacedSecret, expiresAt) :: rest⟩ : Announced).AtMostOne now ↔
          rest.filter (fun x => now < x.2) = [] := by
        rw [List.filter_eq_nil_iff]
        exact forall₂_congr fun x _ => by simp
      rw [hrest]
      simp only [List.head?_cons, Option.map_some] at hdec
      by_cases hrunning : now < expiresAt
      · rw [if_pos hrunning] at hdec
        obtain ⟨y, hy, heq⟩ := Option.map_eq_some_iff.mp hdec
        obtain ⟨rfl, hsome⟩ := Prod.mk.inj heq
        have hne : y ≠ "" := by simpa [hy] using hall replacedSecret (by simp)
        simp only [SignsInUse, ClaimedDelivery.secrets, ← hsome, if_neg hne, Announced.inUse,
          List.filter_cons, hrunning, decide_true, if_true, List.map_cons]
        constructor
        · intro hsigns
          have hlen := hsigns.length_eq
          simp only [List.length_cons, List.length_map, List.length_nil] at hlen
          exact List.length_eq_zero_iff.mp (by omega)
        · intro hnil
          rw [hnil]
          exact .cons hx (.cons hy .nil)
      · rw [if_neg hrunning] at hdec
        obtain ⟨rfl, hnone⟩ := Prod.mk.inj (Option.some.inj hdec)
        simp only [SignsInUse, ClaimedDelivery.secrets, ← hnone, Announced.inUse,
          List.filter_cons, hrunning, decide_false, Bool.false_eq_true, if_false]
        constructor
        · intro hsigns
          have hlen := hsigns.length_eq
          simp only [List.length_cons, List.length_map, List.length_nil] at hlen
          exact List.length_eq_zero_iff.mp (by omega)
        · intro hnil
          rw [hnil]
          exact .cons hx .nil

/-- In every run, a claim signs with the secrets in use exactly when of the replaced secrets only the
last one's overlap may be running.  A receiver with a secret it signs with finds its signature. -/
theorem rotation_kept {hmac : String → String → String}
    (hhex : ∀ secret text, ',' ∉ (hmac secret text).toList)
    (h : Reachable (restrict (StoresSecrets cfg) (auditStep cfg)) (.init tenants) s)
    (hclaim : claimDelivery cfg s.sys.now s.sys.store scan = (st, .claimed claimed)) :
    ∃ a, s.announced claimed.endpointId = some a ∧
      (SignsInUse cfg a s.sys.now claimed ↔ a.AtMostOne s.sys.now) ∧
      (a.AtMostOne s.sys.now → ∀ stored ∈ a.inUse s.sys.now, ∀ secret,
        cfg.decryptSecret stored = some secret → ∀ timestamp rawBody,
        verifiesWith hmac secret timestamp rawBody
          (signPayload hmac claimed.secrets timestamp rawBody)) := by
  obtain ⟨head, hhead, hdec⟩ := tryCandidates_secrets hclaim
  obtain ⟨e, he, hcols⟩ := List.mem_map.mp hhead
  have hid : e.id = claimed.endpointId := congrArg Prod.fst hcols
  obtain ⟨a, ha, hkeeps, hall⟩ := (auditInv_of_reachable h).rows e he
  rw [hid] at ha hkeeps
  have hiff := signsInUse_iff (hcols.symm.trans hkeeps) hall hdec
  refine ⟨a, ha, hiff, fun hone stored hstored secret hsecret timestamp rawBody => ?_⟩
  refine verifiesWith_signPayload hhex ?_ timestamp rawBody
  have hsigns := hiff.mpr hone
  obtain ⟨i, hi, rfl⟩ := List.getElem_of_mem hstored
  have hlen : i < claimed.secrets.length := hsigns.length_eq ▸ hi
  have hsame := hsigns.get hi hlen
  simp only [List.get_eq_getElem] at hsame
  rw [hsecret] at hsame
  rw [Option.some.inj hsame]
  exact List.getElem_mem hlen

end

/-! ### Rotations of one endpoint -/

open Sample

/-- The endpoint's first delivery, after these rotations. -/
def rotated (rotations : List Label) : List Label := register :: rotations ++ publish 0 "k" ++ expand

/-- A claim of the first endpoint, with such secrets. -/
def claimsFirst (secrets : List String → Bool) : ClaimResult → Bool
  | .claimed claimed => claimed.endpointId = 0 && secrets claimed.secrets
  | _ => false

/-- The HMAC-SHA256 digests of the timestamp 1 and an empty object, under `s` and `s1`. -/
def sampleHmac (secret _text : String) : String :=
  if secret = "s" then "b253639bcd705ed1cda3073f66104f16988bd40272584dea7d0d345ae93e61cc"
  else "8b4d46a3aef88e46bdd33973ba1e5abfb63a66092a9d2b3acb640f4b774145fb"

theorem sampleHmac_hex (secret text : String) : ',' ∉ (sampleHmac secret text).toList := by
  simp only [sampleHmac]
  split <;> decide

/-- After one rotation a receiver with the first secret still verifies. -/
theorem rotation_kept_sample : ∃ s st claimed a,
    Reachable (restrict (StoresSecrets config) (auditStep config)) (.init [⟨100, none⟩]) s ∧
    claimDelivery config s.sys.now s.sys.store s.sys.store.endpoints = (st, .claimed claimed) ∧
    s.announced claimed.endpointId = some a ∧ SignsInUse config a s.sys.now claimed ∧
    verifiesWith sampleHmac "s" 1 "\x7b\x7d"
      (signPayload sampleHmac claimed.secrets 1 "\x7b\x7d") := by
  obtain ⟨s, hs, hp⟩ := exists_of_run (restrict (StoresSecrets config) (auditStep config))
    (.init [⟨100, none⟩]) (rotated [.rotate 0 100 "s1"])
    (fun s => claimsFirst (fun _ => true)
        (claimDelivery config s.sys.now s.sys.store s.sys.store.endpoints).2 &&
      s.announced 0 = some ⟨"s1", [("s", 100)]⟩ && s.sys.now = 0)
    (by decide +kernel)
  simp only [Bool.and_eq_true, decide_eq_true_eq] at hp
  obtain ⟨⟨hclaim, hann⟩, hnow⟩ := hp
  rcases hcall : claimDelivery config s.sys.now s.sys.store s.sys.store.endpoints with ⟨st, r⟩
  rw [hcall] at hclaim
  cases r with
  | claimed claimed =>
      have hid : claimed.endpointId = 0 := by simpa [claimsFirst] using hclaim
      obtain ⟨a, ha, hiff, hverifies⟩ := rotation_kept sampleHmac_hex (.of_run hs) hcall
      have ha' := ha
      rw [hid, hann] at ha'
      cases ha'
      have hone : (⟨"s1", [("s", 100)]⟩ : Announced).AtMostOne s.sys.now := fun _ h => by cases h
      refine ⟨s, st, claimed, _, .of_run hs, hcall, ha, hiff.mpr hone, ?_⟩
      exact hverifies hone "s" (by rw [hnow]; decide) "s" rfl 1 _
  | _ => cases hclaim

/-- The first rotation announces that the first secret stays in use until 100; after the second, at 1,
nothing is signed with it any more. -/
theorem overlap_cut_short : ∃ s st claimed a stored expiresAt secret,
    Reachable (restrict (StoresSecrets config) (auditStep config)) (.init [⟨100, none⟩]) s ∧
    claimDelivery config s.sys.now s.sys.store s.sys.store.endpoints = (st, .claimed claimed) ∧
    s.announced claimed.endpointId = some a ∧ (stored, expiresAt) ∈ a.replaced ∧
    s.sys.now < expiresAt ∧ config.decryptSecret stored = some secret ∧ secret ∉ claimed.secrets := by
  obtain ⟨s, hs, hp⟩ := exists_of_run (restrict (StoresSecrets config) (auditStep config))
    (.init [⟨100, none⟩]) (rotated [.rotate 0 100 "s1", .tick 1, .rotate 0 100 "s2"])
    (fun s => claimsFirst (· = ["s2", "s1"])
        (claimDelivery config s.sys.now s.sys.store s.sys.store.endpoints).2 &&
      s.announced 0 = some ⟨"s2", [("s1", 101), ("s", 100)]⟩ && s.sys.now = 1)
    (by decide +kernel)
  simp only [Bool.and_eq_true, decide_eq_true_eq] at hp
  obtain ⟨⟨hclaim, hann⟩, hnow⟩ := hp
  rcases hcall : claimDelivery config s.sys.now s.sys.store s.sys.store.endpoints with ⟨st, r⟩
  rw [hcall] at hclaim
  cases r with
  | claimed claimed =>
      simp only [claimsFirst, Bool.and_eq_true, decide_eq_true_eq] at hclaim
      refine ⟨s, st, claimed, _, "s", 100, "s", .of_run hs, hcall, by rw [hclaim.1]; exact hann,
        by simp, by rw [hnow]; decide, rfl, ?_⟩
      rw [hclaim.2]
      decide
  | _ => cases hclaim

end Webhooks
