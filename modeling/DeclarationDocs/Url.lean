import DeclarationDocs.Url.Address
import DeclarationDocs.Url.Domain
import DeclarationDocs.Text.Utf8

/-!
# URLs

Reading of absolute URLs by the living standard: scheme and host in small letters, default ports
dropped, `.` and `..` resolved, backslashes taken for slashes, everything else percent-encoded
where its part of the URL asks for it.  A name of a host is turned into ASCII by a conversion that
is given.  Reading what was written changes nothing.

Of a URL whose scheme is not one of the web's, only the scheme is kept.

* `Url.parse`: reading;
* `Url.text`: writing.
-/

namespace DeclarationDocs

/-- A URL; `path` holds the segments, each behind a slash. -/
structure Url where
  scheme : List Char
  user : List Char
  password : Option (List Char)
  host : List Char
  port : Option Nat
  path : List (List Char)
  query : Option (List Char)
  fragment : Option (List Char)
deriving DecidableEq, Repr

namespace Url

/-- Why a text is no URL. -/
inductive Fault where
  | noScheme
  | emptyHost
  | invalidPort
  | invalidIpv4
  | invalidIpv6
  | invalidDomain
  | invalidHostCharacter
deriving DecidableEq, Repr

/-- The wording of a fault. -/
def Fault.message : Fault → String
  | noScheme => "relative URL without a base"
  | emptyHost => "empty host"
  | invalidPort => "invalid port number"
  | invalidIpv4 => "invalid IPv4 address"
  | invalidIpv6 => "invalid IPv6 address"
  | invalidDomain => "invalid international domain name"
  | invalidHostCharacter => "invalid domain character"

/-! ### Writing -/

/-- User and password as they stand before the host. -/
def credentials (u : Url) : List Char :=
  match u.user, u.password with
  | [], none => []
  | user, none => user ++ ['@']
  | user, some p => user ++ ':' :: p ++ ['@']

/-- The path with its slashes. -/
def pathText (u : Url) : List Char := u.path.flatMap ('/' :: ·)

/-- Path and query, which are what a server is asked for. -/
def target (u : Url) : List Char :=
  u.pathText ++ u.query.elim [] ('?' :: ·)

/-- The URL as text. -/
def text (u : Url) : List Char :=
  u.scheme ++ "://".toList ++ u.credentials ++ u.host
    ++ u.port.elim [] (fun p => ':' :: Nat.toDigits 10 p)
    ++ u.target ++ u.fragment.elim [] ('#' :: ·)

/-! ### Parts -/

/-- The characters of a text that count; outer control characters and spaces do not, nor do tabs
and line ends anywhere. -/
def significant (s : List Char) : List Char :=
  let outer := fun (c : Char) => decide (c.toNat ≤ 0x20)
  ((s.dropWhile outer).reverse.dropWhile outer).reverse.filter
    fun c => c != '\t' && c != '\n' && c != '\r'

/-- The scheme, in small letters, and what stands behind its colon. -/
def scheme? (s : List Char) : Option (List Char × List Char) :=
  let inScheme := fun (c : Char) => c.isAlphanum || c == '+' || c == '-' || c == '.'
  let scheme := s.takeWhile inScheme
  match scheme, s.drop scheme.length with
  | c :: r, ':' :: rest =>
    if c.isAlpha then some (Text.lowerAscii (c :: r), rest) else none
  | _, _ => none

/-- The schemes of the web, with the ports they stand for. -/
def defaultPort? (scheme : List Char) : Option Nat :=
  [("http".toList, 80), ("https".toList, 443), ("ws".toList, 80), ("wss".toList, 443),
    ("ftp".toList, 21)].lookup scheme

/-- Whether a character ends the authority of a URL; a backslash does so only on the web. -/
def endsAuthority (web : Bool) (c : Char) : Bool :=
  c == '/' || c == '?' || c == '#' || (web && c == '\\')

/-- User and password from what stands before the last `@`. -/
def readCredentials (s : List Char) : List Char × Option (List Char) :=
  let user := s.takeWhile (· != ':')
  let password := s.drop (user.length + 1)
  (encode specialInUser user,
    if password.isEmpty then none else some (encode specialInUser password))

/-- The host of a URL of the web, brackets and a port not included: `s` without its percent signs,
converted by `names`, is an IPv4 address if it ends in a number. -/
def readDomain (names : DomainNames) (s : List Char) : Except Fault (List Char) :=
  match (Text.decodeUtf8? (decode s)).bind fun d => names.toAscii d.toList with
  | none => .error .invalidDomain
  | some d =>
    if d.isEmpty then .error .emptyHost
    else if endsInNumber d then
      match ipv4? d with
      | some n => .ok (ipv4Text n)
      | none => .error .invalidIpv4
    else .ok d

/-- A host in brackets. -/
def readBracketed (s : List Char) : Except Fault (List Char) :=
  if s.getLast? = some ']' then
    match ipv6? ((s.drop 1).dropLast) with
    | some ps => .ok ('[' :: ipv6Text ps ++ [']'])
    | none => .error .invalidIpv6
  else .error .invalidIpv6

/-- The host of a URL of the web. -/
def readHost (names : DomainNames) (s : List Char) : Except Fault (List Char) :=
  if s.head? = some '[' then readBracketed s else readDomain names s

/-- Check the host of a URL that is not of the web. -/
def checkOpaqueHost (s : List Char) : Except Fault Unit :=
  if s.head? = some '[' then do let _ ← readBracketed s
  else if s.any fun c => "\x00 #/:<>?@[\\]^|".toList.contains c then .error .invalidHostCharacter
  else .ok ()

/-- The length of the host at the start of an authority: it goes to the first colon outside
brackets. -/
def hostLength (bracketed : Bool) : List Char → Nat
  | [] => 0
  | c :: r =>
    if c = ':' ∧ !bracketed then 0
    else 1 + hostLength (if c = '[' then true else if c = ']' then false else bracketed) r

/-- The port behind its colon; none if it is empty. -/
def readPort (s : List Char) : Except Fault (Option Nat) :=
  if s.isEmpty then .ok none
  else if s.all Text.isDigit then
    let n := Text.valueOfDigits s
    if n < 65536 then .ok (some n) else .error .invalidPort
  else .error .invalidPort

/-- What an authority names: credentials, the text of the host, and the port. -/
structure Authority where
  user : List Char
  password : Option (List Char)
  host : List Char
  port : Option (List Char)

/-- Take an authority apart at its last `@` and its port's colon. -/
def readAuthority (s : List Char) : Authority :=
  let afterAt := (s.reverse.takeWhile (· != '@')).reverse
  let (user, password) := readCredentials (s.take (s.length - afterAt.length - 1))
  let n := hostLength false afterAt
  ⟨user, password, afterAt.take n,
    if n < afterAt.length then some (afterAt.drop (n + 1)) else none⟩

/-! ### Paths -/

/-- Whether a segment stands for the directory it is in. -/
def isSingleDot (s : List Char) : Bool :=
  [".", "%2e"].any fun d => Text.lowerAscii s == d.toList

/-- Whether a segment stands for the directory above. -/
def isDoubleDot (s : List Char) : Bool :=
  ["..", ".%2e", "%2e.", "%2e%2e"].any fun d => Text.lowerAscii s == d.toList

/-- Whether a segment is a drive letter, which `..` does not leave. -/
def isDrive : List Char → Bool
  | [c, d] => c.isAlpha && (d == ':' || d == '|')
  | _ => false

/-- The directory above; `done` holds segments, newest first. -/
def dropSegment : List (List Char) → List (List Char)
  | [] => []
  | s :: r => if isDrive s then s :: r else r

/-- Resolve the segments of a path; `done` holds the directories so far, newest first. -/
def resolve (done : List (List Char)) : List (List Char) → List (List Char)
  | [] => done.reverse
  | [last] =>
    if isDoubleDot last then (([] : List Char) :: dropSegment done).reverse
    else if isSingleDot last then (([] : List Char) :: done).reverse
    else (last :: done).reverse
  | s :: r =>
    if isDoubleDot s then resolve (dropSegment done) r
    else if isSingleDot s then resolve done r
    else resolve (s :: done) r

/-- The segments of a path of the web. -/
def readPath (s : List Char) : List (List Char) :=
  let slashed := s.map fun c => if c = '\\' then '/' else c
  let body := if slashed.head? = some '/' then slashed.drop 1 else slashed
  resolve [] ((Text.splitAt '/' body).map (encode specialInPath))

/-! ### Reading -/

/-- The part of a text before the first `c`, and the part behind it if there is one. -/
def splitFirst (c : Char) (s : List Char) : List Char × Option (List Char) :=
  let head := s.takeWhile (· != c)
  (head, if head.length < s.length then some (s.drop (head.length + 1)) else none)

/-- Read a URL of the web behind its scheme. -/
def parseWeb (names : DomainNames) (scheme : List Char) (defaultPort : Nat) (s : List Char) :
    Except Fault Url := do
  let s := s.dropWhile fun c => c == '/' || c == '\\'
  let authority := s.takeWhile fun c => !endsAuthority true c
  let rest := s.drop authority.length
  let a := readAuthority authority
  if a.host.isEmpty then .error .emptyHost
  else do
    let host ← readHost names a.host
    let port ← readPort (a.port.getD [])
    let (rest, fragment) := splitFirst '#' rest
    let (path, query) := splitFirst '?' rest
    .ok { scheme, user := a.user, password := a.password, host
          port := port.filter (· != defaultPort)
          path := readPath path
          query := query.map (encode specialInQuery)
          fragment := fragment.map (encode specialInFragment) }

/-- Check what stands behind a scheme that is not of the web. -/
def checkForeign (names : DomainNames) (scheme s : List Char) : Except Fault Unit :=
  if scheme = "file".toList then
    let slash := fun (c : Char) => c == '/' || c == '\\'
    match s with
    | a :: b :: r =>
      let host := r.takeWhile fun c => !endsAuthority true c
      if slash a ∧ slash b ∧ !host.isEmpty ∧ !isDrive host then do
        let _ ← readHost names host
      else .ok ()
    | _ => .ok ()
  else
    match s with
    | '/' :: '/' :: r =>
      let authority := r.takeWhile fun c => !endsAuthority false c
      let a := readAuthority authority
      let someone := !a.user.isEmpty || a.password.isSome
        || (authority == ['@'] && authority.length < r.length)
      if a.host.isEmpty ∧ (a.port.isSome ∨ someone) then .error .emptyHost
      else do
        checkOpaqueHost a.host
        let _ ← readPort ((a.port.getD []).takeWhile (· != '\\'))
    | _ => .ok ()

/-- Read an absolute URL; `names` converts the name of its host. -/
def parse (names : DomainNames) (s : List Char) : Except Fault Url :=
  match scheme? (significant s) with
  | none => .error .noScheme
  | some (scheme, rest) =>
    match defaultPort? scheme with
    | some port => parseWeb names scheme port rest
    | none => do
      checkForeign names scheme rest
      .ok ⟨scheme, [], none, [], none, [], none, none⟩

end Url

end DeclarationDocs
