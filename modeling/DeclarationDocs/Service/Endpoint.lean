import DeclarationDocs.Warning

/-!
# Endpoints

The address of a service, in normal form and without a slash at its end, so that the path of a
request can be put behind it.
-/

namespace DeclarationDocs

/-- The hosts that are this machine. -/
def localHosts : List String := ["localhost", "127.0.0.1", "[::1]"]

/-- A text without one slash at its end. -/
def dropEndSlash (s : List Char) : List Char :=
  if s.getLast? = some '/' then s.dropLast else s

/-- The endpoint that a URL stands for, and a warning if it is not on this machine. -/
def endpointOf (service : ServiceKind) (u : Url) : Except Failure (String × List Warning) :=
  if u.scheme = "http".toList ∨ u.scheme = "https".toList then
    let host := String.ofList u.host
    .ok (String.ofList (dropEndSlash u.text),
      if localHosts.contains host then [] else [.notLocal service host])
  else .error (.config (.endpointScheme service (String.ofList u.scheme)))

/-- Check an endpoint as it was written; `names` converts the name of its host. -/
def readEndpoint (names : Url.DomainNames) (service : ServiceKind) (written : String) :
    Except Failure (String × List Warning) :=
  match Url.parse names written.toList with
  | .error e => .error (.config (.endpoint service written e))
  | .ok u => endpointOf service u

end DeclarationDocs
