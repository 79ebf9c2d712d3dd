import Aquila.Go

/-! Host names and ports of URLs, and `internal/netguard`: the addresses that experiment traffic never
    reaches. -/

namespace Aquila

/-! ### Hosts and ports -/

/-- `url.validOptionalPort`: nothing, or a colon and digits. -/
def validOptionalPort : List Char → Bool
  | [] => true
  | c :: rest => c = ':' && rest.all fun d => '0' ≤ d && d ≤ '9'

def cutLastColon (s : List Char) : Option (List Char × List Char) :=
  match s.reverse.dropWhile (· ≠ ':') with
  | [] => none
  | _ :: before => some (before.reverse, s.drop before.length)

def splitHostPort (hostPort : String) : String × String :=
  let (host, port) := match cutLastColon hostPort.toList with
    | some (h, p) => if validOptionalPort p then (h, p.drop 1) else (hostPort.toList, [])
    | none => (hostPort.toList, [])
  let host := if host.head? = some '[' && host.getLast? = some ']' then (host.drop 1).dropLast else host
  (.ofList host, .ofList port)

def URL.hostname (u : URL) : String := (splitHostPort u.host).1
def URL.port (u : URL) : String := (splitHostPort u.host).2

def joinHostPort (host port : String) : String :=
  if contains host ":" then "[" ++ host ++ "]:" ++ port else host ++ ":" ++ port

/-- The library on ASCII text and on plain URLs `scheme://host/path`, for evaluating the model. -/
def Lib.plain : Lib :=
  { parseURL := fun raw =>
      match splitN2 raw ':' with
      | [scheme, rest] =>
        if hasPrefix rest "//" then
          let rest := rest.toList.drop 2
          let host := rest.takeWhile (· ≠ '/')
          .ok { scheme, host := .ofList host, path := .ofList (rest.drop host.length) }
        else .error "not a plain URL"
      | _ => .error "not a plain URL"
    requestURI := fun _ path => .ok path
    urlString := fun u => u.scheme ++ "://" ++ u.host ++ u.path
    parseAddr := fun _ => none
    unmarshal := fun _ => none
    sha256 := id
    formatMs := itoa
    quote := fun s => "\"" ++ s ++ "\""
    lowerRune := id
    upperRune := id
    foldRune := id }

/-! ### netguard -/

namespace Addr

/-- `Addr.Unmap`: an IPv4 address mapped into IPv6 is that IPv4 address. -/
def unmap : Addr → Addr
  | .v4 b => .v4 b
  | .v6 b z => if b.extractLsb' 32 96 = 0xffff#96 then .v4 (b.extractLsb' 0 32) else .v6 b z

def isLinkLocalUnicast : Addr → Bool
  | .v4 b => b.extractLsb' 16 16 = 0xa9fe#16
  | .v6 b _ => b.extractLsb' 118 10 = 0x3fa#10

def isLinkLocalMulticast : Addr → Bool
  | .v4 b => b.extractLsb' 8 24 = 0xe00000#24
  | .v6 b _ => b.extractLsb' 112 16 &&& 0xff0f#16 = 0xff02#16

def isInterfaceLocalMulticast : Addr → Bool
  | .v4 _ => false
  | .v6 b _ => b.extractLsb' 112 16 &&& 0xff0f#16 = 0xff01#16

def isMulticast : Addr → Bool
  | .v4 b => b.extractLsb' 28 4 = 0xe#4
  | .v6 b _ => b.extractLsb' 120 8 = 0xff#8

def isUnspecified : Addr → Bool
  | .v4 b => b = 0
  | .v6 b z => b = 0 && z = ""

end Addr

namespace Netguard

def blockedHosts : List String := ["metadata", "metadata.google.internal", "metadata.goog"]

/-- `Blocked`: link-local, multicast and unspecified addresses. -/
def blocked (addr : Addr) : Bool :=
  let addr := addr.unmap
  addr.isLinkLocalUnicast || addr.isLinkLocalMulticast || addr.isMulticast || addr.isUnspecified ||
    addr.isInterfaceLocalMulticast

def errBlocked : String := "netguard: address is not an experiment target"

/-- `CheckURL`: the text of the error, or `none` for an accepted target. -/
def checkURL (lib : Lib) (raw : String) : Option String :=
  match lib.parseURL (trimSpace raw) with
  | .error e => some ("netguard: " ++ e)
  | .ok u =>
    if u.scheme ≠ "http" ∧ u.scheme ≠ "https" then some "netguard: target must be http or https"
    else if u.user.isSome then some "netguard: target must not include userinfo"
    else
      let host := lib.toLower (trimSuffix u.hostname ".")
      if host = "" then some "netguard: target missing host"
      else if host ∈ blockedHosts then some errBlocked
      else if (lib.parseAddr host).any blocked then some errBlocked
      else none

end Netguard

end Aquila
