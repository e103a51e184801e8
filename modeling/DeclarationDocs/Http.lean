import DeclarationDocs.Text.Base64
import DeclarationDocs.Url

/-!
# Requests and replies

What is sent to a server and what comes back, as values.  An `Exchange` holds a server's replies
in the order in which it will give them, and the requests it was sent.

The network is a plain one.  There is one server at most and it is spoken to without encryption, so
that an `https` URL is valid and `Exchange.reaches` no server.  A `Reply` has no headers, so that a
status from 300 to 399 is an answer like any other and is not followed anywhere else.  Nothing takes
time.

* `Exchange.send`: one request and its reply;
* `Status.text`: the wording of a status.
-/

namespace DeclarationDocs.Http

/-- The methods in use. -/
inductive Method where
  | get
  | post
deriving DecidableEq, Repr

/-- The name of a method. -/
def Method.name : Method → String
  | get => "GET"
  | post => "POST"

/-! ### Statuses -/

/-- The registered statuses. -/
def registeredStatuses : List (Nat × String) :=
  [(100, "Continue"), (101, "Switching Protocols"), (102, "Processing"), (200, "OK"),
   (201, "Created"), (202, "Accepted"), (203, "Non Authoritative Information"),
   (204, "No Content"), (205, "Reset Content"), (206, "Partial Content"),
   (207, "Multi-Status"), (208, "Already Reported"), (226, "IM Used"),
   (300, "Multiple Choices"), (301, "Moved Permanently"), (302, "Found"), (303, "See Other"),
   (304, "Not Modified"), (305, "Use Proxy"), (307, "Temporary Redirect"),
   (308, "Permanent Redirect"), (400, "Bad Request"), (401, "Unauthorized"),
   (402, "Payment Required"), (403, "Forbidden"), (404, "Not Found"),
   (405, "Method Not Allowed"), (406, "Not Acceptable"),
   (407, "Proxy Authentication Required"), (408, "Request Timeout"), (409, "Conflict"),
   (410, "Gone"), (411, "Length Required"), (412, "Precondition Failed"),
   (413, "Payload Too Large"), (414, "URI Too Long"), (415, "Unsupported Media Type"),
   (416, "Range Not Satisfiable"), (417, "Expectation Failed"), (418, "I'm a teapot"),
   (421, "Misdirected Request"), (422, "Unprocessable Entity"), (423, "Locked"),
   (424, "Failed Dependency"), (425, "Too Early"), (426, "Upgrade Required"),
   (428, "Precondition Required"), (429, "Too Many Requests"),
   (431, "Request Header Fields Too Large"), (451, "Unavailable For Legal Reasons"),
   (500, "Internal Server Error"), (501, "Not Implemented"), (502, "Bad Gateway"),
   (503, "Service Unavailable"), (504, "Gateway Timeout"),
   (505, "HTTP Version Not Supported"), (506, "Variant Also Negotiates"),
   (507, "Insufficient Storage"), (508, "Loop Detected"), (510, "Not Extended"),
   (511, "Network Authentication Required")]

/-- The status of a reply. -/
structure Status where
  code : Nat
deriving DecidableEq, Repr

/-- Code and reason. -/
def Status.text (s : Status) : String :=
  toString s.code ++ " " ++ (registeredStatuses.lookup s.code).getD "<unknown status code>"

/-- Whether the request succeeded. -/
def Status.isSuccess (s : Status) : Bool := 200 ≤ s.code && s.code < 300

/-- Whether a reply with this status has no body, whatever follows it. -/
def Status.isBodiless (s : Status) : Bool := s.code == 204 || s.code == 304

/-! ### Messages -/

/-- A request as the server receives it. -/
structure Request where
  method : Method
  target : String
  authorization : Option String
  contentType : Option String
  body : String
deriving DecidableEq, Repr

/-- What a server does with a request: it answers with a status and a body, or closes the
    connection.  There are no headers, so none that sends a client on to another URL. -/
inductive Reply where
  | answer (status : Status) (body : String)
  | close
deriving DecidableEq, Repr

/-- Why a request has no answer. -/
inductive Fault where
  | refused (url : String)
  | closed (url : String)
  | badHeader
  | badUrl
deriving DecidableEq, Repr

/-- The wording of a fault. -/
def Fault.message : Fault → String
  | refused url => "error sending request for url (" ++ url ++ ")"
  | closed url => "error sending request for url (" ++ url ++ ")"
  | badHeader => "builder error"
  | badUrl => "builder error"

/-- An answer that was received. -/
structure Answer where
  status : Status
  body : String
deriving DecidableEq, Repr

/-! ### Exchanges -/

/-- A server: the host and port it listens on, what it will reply, and what it was sent. -/
structure Exchange where
  listening : Option (List Char × Nat)
  replies : List Reply
  sent : List Request
deriving Repr

namespace Exchange

/-- A network without a server. -/
def none : Exchange := ⟨.none, [], []⟩

/-- Whether a URL leads to the server: its scheme is `http`, and its host and port, which is 80
if none is written, are those the server listens on.  No URL of `https` does. -/
def reaches (x : Exchange) (u : Url) : Bool :=
  u.scheme == "http".toList && x.listening == some (u.host, u.port.getD 80)

/-- What the server says when it has nothing left to say. -/
def exhausted : Reply := .answer ⟨500⟩ "no reply left"

/-- Whether a text may stand in a header. -/
def isHeaderText (s : List Char) : Bool :=
  s.all fun c => c == '\t' || (0x20 ≤ c.toNat && c.toNat != 0x7F)

/-- A header without the blanks around it. -/
def trimHeader (s : List Char) : List Char :=
  let blank := fun (c : Char) => c == ' ' || c == '\t'
  ((s.dropWhile blank).reverse.dropWhile blank).reverse

/-- The authorization that user and password of a URL ask for. -/
def basicAuthorization (u : Url) : Option (List Char) :=
  if u.user.isEmpty && u.password.isNone then Option.none
  else some ("Basic ".toList
    ++ Text.base64 (Url.decode u.user ++ ':'.toNat.toUInt8 :: Url.decode (u.password.getD [])))

/-- Send a request to a URL, with a bearer's authorization and a body if there are any.  User
and password of the URL come first as authorization, and are not shown in faults.  The host of an
endpoint is in ASCII already, so the URL is read with `DomainNames.ascii`. -/
def send (x : Exchange) (method : Method) (url : String) (bearer : Option String)
    (body : Option String) : Except Fault Answer × Exchange :=
  match Url.parse .ascii url.toList with
  | .error _ => (.error .badUrl, x)
  | .ok u =>
    let basic := basicAuthorization u
    let u : Url := { u with user := [], password := Option.none }
    let bearer := bearer.map fun key => "Bearer ".toList ++ key.toList
    if u.host.isEmpty then (.error .badUrl, x)
    else if !(bearer.all isHeaderText) then (.error .badHeader, x)
    else if !x.reaches u then (.error (.refused (String.ofList u.text)), x)
    else
      let request : Request :=
        { method, target := String.ofList u.target
          authorization := (basic.or bearer).map fun h => String.ofList (trimHeader h)
          contentType := body.map fun _ => "application/json"
          body := body.getD "" }
      let after : Exchange := ⟨x.listening, x.replies.tail, x.sent ++ [request]⟩
      match x.replies.headD exhausted with
      | .answer status body => (.ok ⟨status, if status.isBodiless then "" else body⟩, after)
      | .close => (.error (.closed (String.ofList u.text)), after)

end Exchange

end DeclarationDocs.Http
