import Webhooks.Lib.Inet

/-!
# Validation — Url

The denylist of `validation/url.ts` and `validation/url.go`.  Node checks the text of an address, Go
its bytes, or the text it prints of them.

A text is its list of characters.  `Node.isIP` and `Go.parseIP` are `net.isIP` and `net.ParseIP`.
-/

namespace Webhooks

open Lib Lib.Inet

structure UrlValidation where
  allowed : Bool
  reason : Option String
  deriving DecidableEq, Repr

def UrlValidation.allow : UrlValidation := ⟨true, none⟩

def UrlValidation.deny (reason : String) : UrlValidation := ⟨false, some reason⟩

/-- An address of an answer: the `address` of a Node answer in its canonical text, a `net.IP` of 4 or
16 bytes. -/
inductive Address where
  | v4 (a : Ipv4)
  | v6 (x : Ipv6)
  deriving DecidableEq, Repr

def Address.text : Address → List Char
  | .v4 a => text4 a
  | .v6 x => text6 x

/-- The cases of `checkIpv4` and `checkIPv4`, of the first two octets. -/
def checkOctets (a b : Option Nat) : UrlValidation :=
  if a = some 127 then .deny "Loopback address (127.0.0.0/8)"
  else if a = some 10 then .deny "Private address (10.0.0.0/8)"
  else if a = some 172 && b.any (fun b => 16 ≤ b && b ≤ 31) then .deny "Private address (172.16.0.0/12)"
  else if a = some 192 && b = some 168 then .deny "Private address (192.168.0.0/16)"
  else if a = some 169 && b = some 254 then .deny "Link-local address (169.254.0.0/16)"
  else if a = some 0 then .deny "Unspecified address (0.0.0.0/8)"
  else if a = some 100 && b.any (fun b => 64 ≤ b && b ≤ 127) then
    .deny "Carrier-grade NAT address (100.64.0.0/10)"
  else .allow

/-- `normalized` has one of the four prefixes of `fe80::/10`. -/
def startsLinkLocal (normalized : List Char) : Bool :=
  ["fe8", "fe9", "fea", "feb"].any fun p => p.toList.isPrefixOf normalized

def startsUniqueLocal (normalized : List Char) : Bool :=
  ["fc", "fd"].any fun p => p.toList.isPrefixOf normalized

namespace Node

/-- A character of a zone, `[0-9a-zA-Z-.:]`. -/
def isZoneChar (c : Char) : Bool := c.isAlphanum || c = '-' || c = '.' || c = ':'

/-- An IPv6 text without its `%zone`. -/
def withoutZone (s : List Char) : List Char :=
  match s.span (· ≠ '%') with
  | (address, _ :: c :: zone) => if (c :: zone).all isZoneChar then address else s
  | _ => s

def isIP (s : List Char) : Nat :=
  if (parse4 s).isSome then 4 else if (parse6 (withoutZone s)).isSome then 6 else 0

/-- `address.split(".").map(Number)`, of decimal digits. -/
def splitOctets (address : List Char) : List Nat :=
  (address.splitOn '.').map fun s => Nat.ofDigitChars 10 s 0

def checkIpv4 (address : List Char) : UrlValidation :=
  checkOctets (splitOctets address)[0]? (splitOctets address)[1]?

/-- `normalized.match(/^::ffff:(\d+\.\d+\.\d+\.\d+)$/)`. -/
def matchMapped (normalized : List Char) : Option (List Char) :=
  let tail := normalized.drop 7
  let fields := tail.splitOn '.'
  if "::ffff:".toList.isPrefixOf normalized && fields.length = 4 &&
      fields.all fun f => f ≠ [] && f.all Char.isDigit then some tail else none

def checkIpv6 (address : List Char) : UrlValidation :=
  let normalized := address.map Char.toLower
  if normalized = "::1".toList then .deny "Loopback address (::1)"
  else if "fe80:".toList.isPrefixOf normalized || startsLinkLocal normalized then
    .deny "Link-local address (fe80::/10)"
  else if startsUniqueLocal normalized then .deny "Unique local address (fc00::/7)"
  else
    match matchMapped normalized with
    | some mapped => checkIpv4 mapped
    | none => .allow

def checkAddress (address : List Char) : UrlValidation :=
  if isIP address = 4 then checkIpv4 address else checkIpv6 address

end Node

namespace Go

/-- `net.ParseIP`: sixteen bytes, of either kind of address. -/
def parseIP (s : List Char) : Option Address :=
  match parse4 s with
  | some a => some (.v6 (mapped a))
  | none => (parse6 s).map .v6

/-- `ip.To4()`. -/
def to4 : Address → Option Ipv4
  | .v4 a => some a
  | .v6 x => unmapped x

/-- `ip.String()`. -/
def ipString (ip : Address) : List Char :=
  match to4 ip with
  | some a => text4 a
  | none => ip.text

def checkIPv4 (ip : Ipv4) : UrlValidation := checkOctets (octets ip)[0]? (octets ip)[1]?

def checkIPv6 (ip : Address) : UrlValidation :=
  let normalized := (ipString ip).map Char.toLower
  if normalized = "::1".toList then .deny "Loopback address (::1)"
  else if startsLinkLocal normalized then .deny "Link-local address (fe80::/10)"
  else if startsUniqueLocal normalized then .deny "Unique local address (fc00::/7)"
  else .allow

def checkAddress (ip : Address) : UrlValidation :=
  match to4 ip with
  | some v4 => checkIPv4 v4
  | none => checkIPv6 ip

end Go

end Webhooks
