import DeclarationDocs.Run

/-!
# The command line

`weavedoc [OPTIONS] run [OPTIONS]`.  Arguments are read from left to right; the first one that is
wrong, or that asks for help or the version, decides.  An option may be given once on each side
of the command; behind it counts more.

* `CommandLine.parse`: the options of a run, or why there is none;
* `CommandLine.execute`: a run from its arguments to its exit code.
-/

namespace DeclarationDocs.CommandLine

/-- What an option takes. -/
inductive Takes where
  | nothing
  | text
  /-- A path, which is not empty. -/
  | path
deriving DecidableEq, Repr

/-- An option. -/
structure Spec where
  long : String
  short : Option Char
  takes : Takes
deriving DecidableEq, Repr

/-- The options that may stand on both sides of the command. -/
def sharedSpecs : List Spec :=
  [⟨"config", some 'c', .path⟩, ⟨"verbose", none, .nothing⟩, ⟨"quiet", some 'q', .nothing⟩]

/-- The options of a run. -/
def runSpecs : List Spec :=
  sharedSpecs ++
    [⟨"project", some 'p', .path⟩, ⟨"output", some 'o', .path⟩, ⟨"templates", some 't', .path⟩,
     ⟨"provider", none, .text⟩, ⟨"model", none, .text⟩, ⟨"dry-run", none, .nothing⟩]

/-- Why there is no run. -/
inductive Stop where
  | usage
  | help
  | version
deriving DecidableEq, Repr

/-- One side of the command: its options, and whether it can tell the version. -/
structure Side where
  specs : List Spec
  tellsVersion : Bool

/-- How far the arguments of a side have been read: the options given, the one whose value comes
next, the one whose value came last, and whether `--` was met. -/
structure Progress where
  given : List (String × String) := []
  wanting : Option Spec := none
  last : Option (Spec × String) := none
  escaped : Bool := false

namespace Progress

/-- Take an option with its value; it is wrong to repeat it, and for a path to be empty. -/
def give (p : Progress) (s : Spec) (value : String) : Except Stop Progress :=
  if (p.given.lookup s.long).isSome ∨ (s.takes = .path ∧ value.isEmpty) then .error .usage
  else .ok { p with given := (s.long, value) :: p.given }

/-- Take the option whose value came last, before anything else is taken. -/
def settle (p : Progress) : Except Stop Progress :=
  match p.last with
  | none => .ok p
  | some (s, value) => { p with last := none }.give s value

/-- Take an option without a value. -/
def flag (p : Progress) (s : Spec) : Except Stop Progress := do (← p.settle).give s ""

/-- Take an option whose value is in the same argument. -/
def attached (p : Progress) (s : Spec) (value : String) : Except Stop Progress := do
  (← p.settle).give s value

/-- Take an option whose value is the next argument. -/
def want (p : Progress) (s : Spec) : Except Stop Progress := do
  .ok { ← p.settle with wanting := some s }

/-- Stop for help or the version, unless what came before is wrong. -/
def stop (p : Progress) (why : Stop) : Except Stop Progress := do
  let _ ← p.settle
  .error why

end Progress

/-- Read the letters of an argument with one hyphen. -/
def letters (side : Side) : List Char → Progress → Except Stop Progress
  | [], p => .ok p
  | c :: r, p =>
    match side.specs.find? fun s => s.short == some c with
    | some s =>
      if s.takes = .nothing then do letters side r (← p.flag s)
      else match r with
        | [] => p.want s
        | '=' :: value => p.attached s (String.ofList value)
        | value => p.attached s (String.ofList value)
    | none =>
      if c = 'h' then p.stop .help
      else if c = 'V' ∧ side.tellsVersion then p.stop .version
      else .error .usage

/-- Read an argument with two hyphens. -/
def word (side : Side) (s : List Char) (p : Progress) : Except Stop Progress :=
  let name := s.takeWhile (· != '=')
  let value := if name.length < s.length then some (s.drop (name.length + 1)) else none
  match side.specs.find? fun x => x.long.toList == name, value with
  | some x, some v => if x.takes = .nothing then .error .usage else p.attached x (String.ofList v)
  | some x, none => if x.takes = .nothing then p.flag x else p.want x
  | none, none =>
    if name = "help".toList then p.stop .help
    else if name = "version".toList ∧ side.tellsVersion then p.stop .version
    else .error .usage
  | none, some _ => .error .usage

/-- Whether an argument looks like an option. -/
def isOption (a : String) : Bool :=
  match a.toList with
  | '-' :: _ :: _ => true
  | _ => false

/-- Read an argument that is no command. -/
def argument (side : Side) (p : Progress) (a : String) : Except Stop Progress :=
  match p.wanting with
  | some s =>
    if isOption a then .error .usage else .ok { p with wanting := none, last := some (s, a) }
  | none =>
    if p.escaped then .error .usage
    else match a.toList with
      | ['-', '-'] => .ok { p with escaped := true }
      | '-' :: '-' :: r => word side r p
      | '-' :: c :: r => letters side (c :: r) p
      | _ => .error .usage

/-- The options given on a side when all its arguments have been read. -/
def Progress.finish (p : Progress) : Except Stop (List (String × String)) := do
  if p.wanting.isSome then .error .usage
  else .ok (← p.settle).given

/-- Left of the command. -/
def left : Side := ⟨sharedSpecs, true⟩

/-- Right of the command. -/
def right : Side := ⟨runSpecs, false⟩

/-- The options of a run from what was given on both sides. -/
def optionsOf (before behind : List (String × String)) : RunRequest :=
  let path := fun name => (behind.lookup name).map Path.ofString
  { config := ((behind.lookup "config").or (before.lookup "config")).map Path.ofString
    project := path "project"
    output := path "output"
    templates := path "templates"
    provider := behind.lookup "provider"
    model := behind.lookup "model"
    dryRun := (behind.lookup "dry-run").isSome }

/-- Whether help is asked for about something that there is. -/
def helpTopic : List String → Bool
  | [] => true
  | [topic] => topic == "run" || topic == "help"
  | _ => false

/-- Read arguments from left of the command on. -/
def parseFrom : Progress → List String → Except Stop RunRequest
  | _, [] => .error .usage
  | p, a :: rest =>
    if p.wanting.isNone ∧ !p.escaped ∧ !isOption a then
      if a = "run" then do
        let behind ← (← rest.foldlM (argument right) {}).finish
        let before ← p.finish
        .ok (optionsOf before behind)
      else if a = "help" ∧ helpTopic rest then .error .help
      else .error .usage
    else do parseFrom (← argument left p a) rest

/-- The options of a run. -/
def parse (args : List String) : Except Stop RunRequest := parseFrom {} args

/-! ### From arguments to exit code -/

/-- The name and version of the program. -/
def versionText : String := "weavedoc 0.1.0\n"

/-- What the program leaves: its exit code, what it printed, and the failure it told. -/
structure Report where
  code : Nat
  output : String
  failure : Option Failure
  tree : FileTree
  exchange : Http.Exchange

/-- The program. -/
def execute (args : List String) (s : Stage) : Report :=
  match parse args with
  | .error .usage => ⟨2, "", none, s.tree, s.exchange⟩
  | .error .help => ⟨0, "", none, s.tree, s.exchange⟩
  | .error .version => ⟨0, versionText, none, s.tree, s.exchange⟩
  | .ok o =>
    let r := run o s
    match r.result with
    | .ok () => ⟨0, Console.render r.lines, none, r.tree, r.exchange⟩
    | .error e => ⟨1, Console.render r.lines, some e, r.tree, r.exchange⟩

end DeclarationDocs.CommandLine
