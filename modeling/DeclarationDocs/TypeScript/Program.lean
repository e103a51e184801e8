import DeclarationDocs.TypeScript.Statement

/-!
# Programs

A source text is cut into its statements.  Each statement is a slice of the text: its text is
what stands between its first and its last lexeme, and its line counts the line breaks before
it.  What is no statement is passed over, lexeme by lexeme.

`declarations` lists what the statements declare, grouped by kind.
-/

namespace DeclarationDocs.TypeScript

/-- A statement at the top of a source text. -/
structure Statement where
  text : List Char
  line : Nat
  findings : List Finding
deriving Repr

/-- The line breaks of a text. -/
def lineBreaks (s : List Char) : Nat := s.count '\n'

/-- The length of what is passed over where no statement can be read. -/
def junkLength (s : List Char) : Nat :=
  match nameHere? s with
  | some (n, _) => max 1 n.length
  | none => 1

/-- How much of `s` the statement at its head takes, and what is found in it. -/
def piece? (g : Scope) (s : List Char) : Option (Nat × List Finding) :=
  match g.statementHere s with
  | some (found, r) => if r.length < s.length then some (s.length - r.length, found) else none
  | none => none

/-- Whether a declaration of this kind ends with its closing brace. -/
def endsWithBrace : Declaration.Kind → Bool
  | .classDecl | .interface | .enum => true
  | .typeAlias | .exportedConst => false

/-- The statement at the head of a text that ends inside its braces: it is read as if they were
closed behind the last lexeme. -/
def unfinished? (g : Scope) (s : List Char) : Option (Nat × List Finding) :=
  let t := (s.reverse.dropWhile isBlank).reverse
  match g.statementHere (t ++ ['\n', '\x7d']) with
  | some (found, []) => if found.all fun f => endsWithBrace f.kind then some (t.length, found) else none
  | _ => none

/-- The statements of a text whose first character stands on the given line; `clean` tells that
nothing was passed over before it. -/
def statementsFrom (g : Scope) : Nat → (clean : Bool) → Nat → List Char → List Statement
  | 0, _, _, _ => []
  | n + 1, clean, line, s =>
    let t := skipTrivia s
    let line := line + lineBreaks (upTo s t)
    match t with
    | [] => []
    | t =>
      let piece := (piece? g t).or (if clean then unfinished? g t else none)
      let (length, found) := piece.getD (junkLength t, [])
      let text := t.take length
      ⟨text, line, found⟩ ::
        statementsFrom g n (clean && piece.isSome) (line + lineBreaks text) (t.drop length)

/-- The text without the line that names its interpreter. -/
def skipInterpreterLine : List Char → List Char
  | '#' :: '!' :: r => r.dropWhile fun c => c != '\n'
  | s => s

/-- The statements of a source text. -/
def statements (d : Dialect) (s : List Char) : List Statement :=
  statementsFrom (.top d s.length) (s.length + 1) true 1 (skipInterpreterLine s)

/-- What a statement declares. -/
def Statement.declarations (s : Statement) : List Declaration :=
  s.findings.map fun f =>
    { name := String.ofList f.name
      kind := f.kind
      rawText := String.ofList s.text
      decorators := f.decorators.map String.ofList
      implements := f.implements.map String.ofList
      line := s.line }

/-- What a source text declares: classes first, then interfaces, enumerations, type names and
exported constants, each in the order of the text. -/
def declarations (d : Dialect) (source : String) : List Declaration :=
  byKind Declaration.kind ((statements d source.toList).flatMap Statement.declarations)

end DeclarationDocs.TypeScript
