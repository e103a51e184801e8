import DeclarationDocs.FileTree

/-!
# Glob patterns

A pattern is read into tokens and matched against text, or its components are followed through a
file tree.  `*` and `?` and sets stay inside one component; `**` is a component of its own and
stands for any number of directories.

* `Glob.parse`: the tokens of a pattern, or what is wrong with it;
* `Glob.accepts`: matching a whole text;
* `Glob.find`: the paths in a file tree that a pattern leads to.
-/

namespace DeclarationDocs.Glob

/-- A member of a set of characters. -/
inductive Item where
  | one (c : Char)
  | range (first last : Char)
deriving DecidableEq, Repr

/-- A part of a pattern. -/
inductive Token where
  | char (c : Char)
  | anyChar
  | sequence
  | directories
  | within (items : List Item)
  | except (items : List Item)
deriving DecidableEq, Repr

/-- What can be wrong with a pattern. -/
inductive Flaw where
  | wildcards
  | recursiveWildcards
  | invalidRange
deriving DecidableEq, Repr

/-- A flaw and the character it was found at, counted from 0. -/
structure Fault where
  position : Nat
  flaw : Flaw
deriving DecidableEq, Repr

/-- The wording of a flaw. -/
def Flaw.message : Flaw → String
  | .wildcards => "wildcards are either regular `*` or recursive `**`"
  | .recursiveWildcards => "recursive wildcards must form a single path component"
  | .invalidRange => "invalid range pattern"

/-- The wording of a fault. -/
def Fault.message (f : Fault) : String :=
  "Pattern syntax error near position " ++ toString f.position ++ ": " ++ f.flaw.message

/-! ### Reading patterns -/

/-- The members of a set. -/
def items : List Char → List Item
  | a :: '-' :: b :: r => .range a b :: items r
  | a :: r => .one a :: items r
  | [] => []

/-- The members of the set at the head of a text, behind its opening bracket, and its length
without the brackets; the first member may be a closing bracket. -/
def setHere : List Char → Option (List Char)
  | [] => none
  | c :: r =>
    let more := r.takeWhile (· != ']')
    if more.length < r.length then some (c :: more) else none

/-- Add `**` to tokens that were read, newest first; one behind another counts once. -/
def pushDirectories : List Token → List Token
  | .directories :: t :: r => .directories :: t :: r
  | ts => .directories :: ts

/-- Read tokens from the position `i` on; `before` is the character read last and `acc` the
tokens so far, newest first. -/
def parseFrom (s : List Char) (i : Nat) (before : Option Char) (acc : List Token) :
    Except Fault (List Token) :=
  match s with
  | [] => .ok acc.reverse
  | '?' :: r => parseFrom r (i + 1) (some '?') (.anyChar :: acc)
  | '*' :: '*' :: '*' :: _ => .error ⟨i + 2, .wildcards⟩
  | '*' :: '*' :: r =>
    if before = none ∨ before = some '/' then
      match r with
      | [] => .ok (pushDirectories acc).reverse
      | '/' :: r => parseFrom r (i + 3) (some '/') (pushDirectories acc)
      | _ => .error ⟨i + 2, .recursiveWildcards⟩
    else .error ⟨i - 1, .recursiveWildcards⟩
  | '*' :: r => parseFrom r (i + 1) (some '*') (.sequence :: acc)
  | '[' :: '!' :: r =>
    match h : setHere r with
    | some set =>
      parseFrom (r.drop (set.length + 1)) (i + set.length + 3) (some ']')
        (.except (items set) :: acc)
    | none => .error ⟨i, .invalidRange⟩
  | '[' :: r =>
    match h : setHere r with
    | some set =>
      parseFrom (r.drop (set.length + 1)) (i + set.length + 2) (some ']')
        (.within (items set) :: acc)
    | none => .error ⟨i, .invalidRange⟩
  | c :: r => parseFrom r (i + 1) (some c) (.char c :: acc)
termination_by s.length
decreasing_by all_goals (simp; try omega)

/-- The tokens of a pattern. -/
def parse (s : List Char) : Except Fault (List Token) := parseFrom s 0 none []

/-- The pattern that matches a text and nothing else. -/
def escape (s : List Char) : List Char :=
  s.flatMap fun c =>
    if c = '?' ∨ c = '*' ∨ c = '[' ∨ c = ']' then ['[', c, ']'] else [c]

/-! ### Matching -/

/-- How a match can end; `ranOut` means that the text was too short whatever is tried. -/
inductive Outcome where
  | yes
  | no
  | ranOut
deriving DecidableEq, Repr

/-- Whether a character is a member of a set. -/
def Item.holds (c : Char) : Item → Bool
  | one a => c == a
  | range a b => a ≤ c && c ≤ b

/-- Whether one character fits a token for one character. -/
def Token.fits (c : Char) : Token → Bool
  | char a => c == a
  | anyChar => c != '/'
  | within set => c != '/' && set.any (Item.holds c)
  | except set => c != '/' && !set.any (Item.holds c)
  | _ => false

/-- Let a `*` take characters one by one, as long as `rest` does not match what is left. -/
def afterSequence (rest : List Char → Outcome) : List Char → Outcome
  | [] => rest []
  | c :: r =>
    if c = '/' then .no
    else match rest r with
      | .no => afterSequence rest r
      | found => found

/-- Let a `**` take directories one by one, or all there is. -/
def afterDirectories (rest : List Char → Outcome) : List Char → Outcome
  | [] => rest []
  | c :: r =>
    if c = '/' then
      match rest r with
      | .no => afterDirectories rest r
      | found => found
    else afterDirectories rest r

/-- Match tokens against a text. -/
def matchTokens : List Token → List Char → Outcome
  | [], [] => .yes
  | [], _ :: _ => .no
  | .sequence :: ts, s =>
    match matchTokens ts s with
    | .no => afterSequence (matchTokens ts) s
    | found => found
  | .directories :: ts, s =>
    match matchTokens ts s with
    | .no => afterDirectories (matchTokens ts) s
    | found => found
  | _ :: _, [] => .ranOut
  | t :: ts, c :: r => if t.fits c then matchTokens ts r else .no

/-- Whether the tokens match the whole text. -/
def accepts (ts : List Token) (s : List Char) : Bool := matchTokens ts s == .yes

/-! ### Following patterns through a file tree -/

/-- The text of a pattern without wildcards. -/
def literal? : List Token → Option (List Char)
  | [] => some []
  | .char c :: ts => (literal? ts).map (c :: ·)
  | _ => none

/-- Whether a pattern is `**`. -/
def isRecursive (ts : List Token) : Bool := ts.contains .directories

/-- A walk through a tree: the tree, where relative paths start, and whether only directories
are wanted. -/
structure Walk where
  tree : FileTree
  cwd : Place
  directoriesOnly : Bool

namespace Walk

variable (w : Walk)

/-- A path that is complete, if it is of the wanted kind. -/
def arrive (p : Path) : List Path :=
  if w.directoriesOnly && !w.tree.isDirectory w.cwd p then [] else [p]

/-- A name below a path; the current directory itself is not written. -/
def below (p : Path) (name : List Char) : Path :=
  if p.chars = ['.'] then ⟨name⟩ else p.join ⟨name⟩

/-- The paths of what a directory holds, by name. -/
def children (p : Path) : List Path :=
  match w.tree.locate w.cwd p with
  | .ok (place, some .directory) =>
    ((w.tree.namesIn place).mergeSort fun a b => !Path.nameLt b a).map (below p)
  | _ => []

/-- Whether a path leads to anything. -/
def leadsSomewhere (p : Path) : Bool :=
  match w.tree.locate w.cwd p with
  | .ok (_, some _) => true
  | _ => false

/-- Of the entries `.` and `..` of a directory, those that a pattern matches; it has to start
with a dot itself. -/
def specialNames : List Token → List (List Char)
  | .char '.' :: ts =>
    [['.', '.'], ['.']].filter fun n => Glob.accepts (.char '.' :: ts) n
  | _ => []

/-- The paths that patterns lead to from below `p`: first what `..` and `.` lead to, then every
name in order, and below a `**` a directory before what it holds.  The first argument bounds the
steps. -/
def expand : Nat → List (List Token) → Path → List Path
  | 0, _, _ => []
  | _, [], _ => []
  | n + 1, ts :: rest, p =>
    let go := fun q => if rest.isEmpty then w.arrive q else expand n rest q
    match literal? ts with
    | some name =>
      let q := below p name
      let special := name = ['.'] ∨ name = ['.', '.']
      if (special ∧ w.tree.isDirectory w.cwd p) ∨ (¬ special ∧ w.leadsSomewhere q) then go q else []
    | none =>
      if w.tree.isDirectory w.cwd p then
        let step := fun (ts : List Token) (rest : List (List Token)) (q : Path) =>
          if Glob.accepts ts (q.fileName.getD []) then
            if rest.isEmpty then w.arrive q else expand n rest q
          else []
        let special := (specialNames ts).flatMap fun name => go (p.join ⟨name⟩)
        special ++ (w.children p).flatMap fun q =>
          if isRecursive ts then
            let rest := rest.dropWhile isRecursive
            let deeper := if w.tree.isDirectory w.cwd q then expand n (ts :: rest) q else []
            match rest with
            | [] => if w.tree.isDirectory w.cwd q then q :: deeper else []
            | us :: rest => step us rest q ++ deeper
          else step ts rest q
      else []

end Walk

/-- Enough steps for every walk. -/
def stepsFor (t : FileTree) (patterns : Nat) : Nat :=
  (patterns + 1) * ((t.entries.map fun x => x.1.length).foldl max 0 + 2)

/-- The components of a pattern, between slashes; one at the end is none. -/
def componentsOf (s : List Char) : List (List Char) :=
  let parts := Text.splitAt '/' s
  if parts.getLast? = some [] then parts.dropLast else parts

/-- The paths in a tree that a pattern leads to, or what is wrong with the pattern.  The whole
pattern is checked first, and then its components. -/
def find (t : FileTree) (cwd : Place) (pattern : List Char) : Except Fault (List Path) := do
  let _ ← parse pattern
  let absolute := pattern.head? == some '/'
  let body := if absolute then pattern.drop 1 else pattern
  let patterns ← (componentsOf body).mapM parse
  let patterns := if absolute && body.isEmpty then [[]] else patterns
  let w : Walk := ⟨t, cwd, pattern.getLast? == some '/'⟩
  .ok (w.expand (stepsFor t patterns.length) patterns (if absolute then ⟨['/']⟩ else ⟨['.']⟩))

end DeclarationDocs.Glob
