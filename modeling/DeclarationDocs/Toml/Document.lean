import DeclarationDocs.Toml.Scalar

/-!
# TOML documents

Lines of `key = value` below headers of tables.  Every table is defined once: by a header, by
dotted keys, or as a value; a header may only add to tables that other headers merely passed
through.

* `Toml.valueAt`: a value, with its arrays and tables;
* `Toml.parse`: a document as one table, or nothing if it is no TOML.
-/

namespace DeclarationDocs.Toml

/-! ### Tables under construction -/

/-- How a table came to be. -/
inductive TableOrigin where
  /-- By its own header. -/
  | header
  /-- By the header of a table inside it. -/
  | implied
  /-- By a dotted key. -/
  | dotted
deriving DecidableEq, Repr

/-- What a key of a table under construction stands for. -/
inductive Node where
  | value (v : Toml)
  | table (origin : TableOrigin) (members : List (String × Node))
  | tables (items : List (List (String × Node)))

/-- The members of a table under construction. -/
abbrev Members := List (String × Node)

/-- Replace the node of a key that is there. -/
def replace (ms : Members) (key : String) (n : Node) : Members :=
  ms.map fun m => if m.1 == key then (key, n) else m

/-- Add a key at the end of a path of dotted keys.  The table it is added to must be the current
one, where `open_` is true, or have come to be by dotted keys. -/
def putDotted (key : String) (v : Toml) : (path : List String) → (open_ : Bool) → Members →
    Option Members
  | [], true, ms =>
    if (ms.lookup key).isSome then none else some (ms ++ [(key, .value v)])
  | [], false, _ => none
  | p :: ps, _, ms =>
    match ms.lookup p with
    | none => (putDotted key v ps true []).map fun inner => ms ++ [(p, .table .dotted inner)]
    | some (.table .header _) => none
    | some (.table o inner) =>
      (putDotted key v ps (o = .dotted) inner).map fun inner => replace ms p (.table o inner)
    | some (.tables items) =>
      (putDotted key v ps false (items.getLast?.getD [])).map fun last =>
        replace ms p (.tables (items.dropLast ++ [last]))
    | some (.value _) => none

/-- Change the table at the end of a path of headers; tables that are missing are implied, and
of a list of tables the last one is meant. -/
def atPath (change : Members → Option Members) : List String → Members → Option Members
  | [], ms => change ms
  | p :: ps, ms =>
    match ms.lookup p with
    | none => (atPath change ps []).map fun inner => ms ++ [(p, .table .implied inner)]
    | some (.table o inner) => (atPath change ps inner).map fun inner => replace ms p (.table o inner)
    | some (.tables items) =>
      (atPath change ps (items.getLast?.getD [])).map fun last =>
        replace ms p (.tables (items.dropLast ++ [last]))
    | some (.value _) => none

/-- Open a table by its header. -/
def openTable (key : String) (ms : Members) : Option Members :=
  match ms.lookup key with
  | none => some (ms ++ [(key, .table .header [])])
  | some (.table .implied inner) => some (replace ms key (.table .header inner))
  | some _ => none

/-- Open one more table of a list of tables. -/
def openListed (key : String) (ms : Members) : Option Members :=
  match ms.lookup key with
  | none => some (ms ++ [(key, .tables [[]])])
  | some (.tables items) => some (replace ms key (.tables (items ++ [[]])))
  | some _ => none

mutual

/-- The value that a node stands for. -/
def Node.toToml : Node → Toml
  | .value v => v
  | .table _ ms => .table (membersOf ms)
  | .tables items => .array (tablesOf items)

/-- The members that nodes stand for. -/
def membersOf : List (String × Node) → List (String × Toml)
  | [] => []
  | (k, n) :: ms => (k, n.toToml) :: membersOf ms

/-- The tables that lists of nodes stand for. -/
def tablesOf : List (List (String × Node)) → List Toml
  | [] => []
  | ms :: r => .table (membersOf ms) :: tablesOf r

end

/-! ### Values -/

mutual

/-- A value; `fuel` bounds the steps and `depth` the nesting. -/
def valueAt : (fuel depth : Nat) → Reader Toml
  | 0, _, _ => none
  | fuel + 1, depth, s =>
    match s with
    | '"' :: _ => (stringHere s).map fun (t, r) => (.text t, r)
    | '\'' :: _ => (stringHere s).map fun (t, r) => (.text t, r)
    | '[' :: r =>
      if depth = 0 then none
      else do
        let (vs, r) ← itemsAt fuel (depth - 1) r
        some (.array vs, r)
    | '\x7b' :: r =>
      if depth = 0 then none
      else
        match skipBlanks r with
        | '\x7d' :: r => some (.table [], r)
        | r => do
          let (ms, r) ← pairsAt fuel (depth - 1) [] r
          some (.table (membersOf ms), r)
    | s => plainHere s

/-- The items of an array up to its end; a comma may follow the last. -/
def itemsAt : (fuel depth : Nat) → Reader (List Toml)
  | 0, _, _ => none
  | fuel + 1, depth, s => do
    match ← skipSpace (s.length + 1) s with
    | ']' :: r => some ([], r)
    | r =>
      let (v, r) ← valueAt fuel depth r
      match ← skipSpace (r.length + 1) r with
      | ',' :: r =>
        let (vs, r) ← itemsAt fuel depth r
        some (v :: vs, r)
      | ']' :: r => some ([v], r)
      | _ => none

/-- The pairs of a table on one line, after those that were read. -/
def pairsAt : (fuel depth : Nat) → Members → Reader Members
  | 0, _, _, _ => none
  | fuel + 1, depth, ms, s => do
    let (path, r) ← keyPath keyLimit s
    match r with
    | '=' :: r =>
      let (v, r) ← valueAt fuel depth (skipBlanks r)
      let ms ← putDotted (path.getLast?.getD "") v path.dropLast true ms
      match skipBlanks r with
      | ',' :: r => pairsAt fuel depth ms r
      | '\x7d' :: r => some (ms, r)
      | _ => none
    | _ => none

end

/-- The deepest nesting of values. -/
def depthLimit : Nat := 79

/-! ### Lines -/

/-- The document so far and the table that lines are added to. -/
structure Builder where
  members : Members
  current : List String

/-- Read a line that is not blank: a header or a pair, up to its end. -/
def lineAt (b : Builder) (s : List Char) : Option (Builder × List Char) :=
  match s with
  | '[' :: '[' :: r => do
    let (path, r) ← keyPath keyLimit r
    match r with
    | ']' :: ']' :: r =>
      let ms ← atPath (openListed (path.getLast?.getD "")) path.dropLast b.members
      some (⟨ms, path⟩, ← endLine r)
    | _ => none
  | '[' :: r => do
    let (path, r) ← keyPath keyLimit r
    match r with
    | ']' :: r =>
      let ms ← atPath (openTable (path.getLast?.getD "")) path.dropLast b.members
      some (⟨ms, path⟩, ← endLine r)
    | _ => none
  | s => do
    let (path, r) ← keyPath keyLimit s
    match r with
    | '=' :: r =>
      let (v, r) ← valueAt (2 * r.length + 2) depthLimit (skipBlanks r)
      let add := putDotted (path.getLast?.getD "") v path.dropLast true
      let ms ← atPath add b.current b.members
      some (⟨ms, b.current⟩, ← endLine r)
    | _ => none

/-- Read lines; the first argument bounds their number. -/
def linesAt : Nat → Builder → List Char → Option Builder
  | 0, _, _ => none
  | n + 1, b, s => do
    match ← skipSpace (s.length + 1) s with
    | [] => some b
    | r =>
      let (b, r) ← lineAt b r
      linesAt n b r

/-- The text without a byte order mark at its start. -/
def dropMark : List Char → List Char
  | '\ufeff' :: r => r
  | s => s

/-- The members of a document. -/
def parse (s : List Char) : Option (List (String × Toml)) :=
  let s := dropMark s
  (linesAt (s.length + 1) ⟨[], []⟩ s).map fun b => membersOf b.members

end DeclarationDocs.Toml
