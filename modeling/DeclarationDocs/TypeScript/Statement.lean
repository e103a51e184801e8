import DeclarationDocs.Declaration
import DeclarationDocs.TypeScript.Grammar

/-!
# Statements

Readers for statements, and what is found in them.  A `Finding` is a name with its kind, its
decorators and its contracts; a statement holds several only if it is an exported `const` with
several bindings.

`read` ties the knot of the grammar.  Its first argument bounds how deep constructs are nested;
a multiple of the length of the text is enough, since only a few constructs can begin at one
place.
-/

namespace DeclarationDocs.TypeScript

/-- What a statement declares. -/
structure Finding where
  name : List Char
  kind : Declaration.Kind
  decorators : List (List Char)
  implements : List (List Char)
deriving DecidableEq, Repr

/-- A finding without decorators and contracts. -/
def Finding.simple (kind : Declaration.Kind) (name : List Char) : Finding := ⟨name, kind, [], []⟩

/-- A reader that also tells what it found. -/
abbrev Finder := List Char → Option (List Finding × List Char)

/-- A reader that finds nothing. -/
def nothing (p : Reader) : Finder := fun s => (p s).map fun r => ([], r)

/-- Step over `p`, or over `q` if that is not possible. -/
def eitherFind (p q : Finder) : Finder := fun s =>
  match p s with
  | some x => some x
  | none => q s

/-- The part of `s` before its rest `r`. -/
def upTo (s r : List Char) : List Char := s.take (s.length - r.length)

/-- What follows a word that may also be a name: nothing if a statement ends behind the word,
else the next lexeme, and whether there are comments before it. -/
def wordContinues : Nat → Bool → List Char → Option (Bool × List Char)
  | 0, _, _ => none
  | n + 1, commented, s =>
    if endsHere true s then none
    else
      let t := s.dropWhile isBlank
      match commentEnd t with
      | some r => wordContinues n true r
      | none => some (commented, t)

namespace Scope

variable (g : Scope)

/-- A word that is read as such only if the statement goes on behind it. -/
def leadingWord (w : String) : Reader := fun s =>
  (keyword w s).bind fun r => (wordContinues g.bound false r).map Prod.snd

/-! ### Decorators -/

/-- The last of the names between dots; the first one was read. -/
def lastName : Nat → List Char → List Char → List Char
  | 0, n, _ => n
  | k + 1, n, s =>
    match (symbol ['.'] s).bind name? with
    | some (m, r) => lastName k m r
    | none => n

/-- The name of the decorator whose mark was read.  An expression in parentheses has none, and
neither has a decorator with a comment behind its mark. -/
def nameInDecorator (s : List Char) : Option (List Char) :=
  match s.dropWhile isBlank with
  | '/' :: _ => none
  | t => (nameHere? t).map fun (n, r) => lastName g.bound n r

/-- Decorators with their names, as many as there are. -/
def decorators : Nat → List Char → List (List Char) × List Char
  | 0, s => ([], s)
  | n + 1, s =>
    match g.decorator s, symbol ['@'] s with
    | some r, some t =>
      let (ns, r) := decorators n r
      ((g.nameInDecorator t).toList ++ ns, r)
    | _, _ => ([], s)

/-! ### Classes -/

/-- The texts of types between commas. -/
def typeTexts : Nat → List Char → Option (List (List Char) × List Char)
  | 0, _ => none
  | n + 1, s => do
    let s := skipTrivia s
    let r ← g.type s
    match symbol [','] r with
    | none => some ([upTo s r], r)
    | some t =>
      let (ts, r') ← typeTexts n t
      some (upTo s r :: ts, r')

/-- The contracts of a class, if it has any. -/
def contracts (s : List Char) : Option (List (List Char) × List Char) :=
  match keyword "implements" s with
  | none => some ([], s)
  | some r => g.typeTexts g.bound r

/-- A class behind its decorators, of which `before` were found.  A class without a name is
found to be nothing. -/
def classTail (before : List (List Char)) : Finder := fun s => do
  let abstract := keyword "abstract" s
  let s ← keyword "class" (abstract.getD s)
  let name := (provided (fun s => (oneOf ["extends", "implements"] s).isNone) s).bind name?
  let s := match name with
    | some (_, r) => r
    | none => s
  let s ← (maybe g.typeParameters >=>
    maybe (keyword "extends" >=> g.commaSeparated (g.read .heritage))) s
  let (implements, s) ← g.contracts s
  let s ← g.classBody s
  let s := if abstract.isSome then s else (commentsToBreak g.bound s).getD s
  match name with
  | some (n, _) => some ([⟨n, .classDecl, before, implements⟩], s)
  | none => some ([], s)

/-- A class with the decorators before it. -/
def classStatement (before : List (List Char)) : Finder := fun s =>
  let (ds, r) := g.decorators g.bound s
  g.classTail (before ++ ds) r

/-! ### Other declarations -/

/-- An interface. -/
def interfaceStatement : Finder := fun s => do
  let s ← keyword "interface" s
  let (n, s) ← name? s
  let s ← (maybe g.typeParameters >=> maybe (keyword "extends" >=> g.typeList) >=> g.objectType) s
  some ([.simple .interface n], s)

/-- An enumeration. -/
def enumStatement : Finder := fun s => do
  let s ← (maybe (keyword "const") >=> keyword "enum") s
  let (n, s) ← name? s
  let s ← (symbol ['\x7b'] >=> g.listTo (g.propertyName >=> maybe g.initializer) ['\x7d']) s
  some ([.simple .enum n], s)

/-- The name of a type. -/
def aliasStatement : Finder := fun s => do
  let s ← g.leadingWord "type" s
  let (n, s) ← name? s
  let s ← (maybe g.typeParameters >=> symbol ['='] >=> g.type) s
  some ([.simple .typeAlias n], semicolon false g.bound s)

/-- A binding of a variable statement: its name, if it is a plain one, what follows, and whether
an expression was read last. -/
def binding (s : List Char) : Option (Option (List Char) × List Char × Bool) := do
  let r ← g.pattern s
  let r ← (maybe (symbol ['!']) >=> maybe g.annotation) r
  let name := (name? s).map Prod.fst
  if startsWith '=' r then
    let r ← g.initializer r
    some (name, r, true)
  else some (name, r, false)

/-- Bindings between commas. -/
def bindings : Nat → List Char → Option (List (List Char) × List Char × Bool)
  | 0, _ => none
  | n + 1, s => do
    let (name, r, valued) ← g.binding s
    match symbol [','] r with
    | none => some (name.toList, r, valued)
    | some t =>
      match bindings n t with
      | some (ns, r, valued) => some (name.toList ++ ns, r, valued)
      | none => some (name.toList, r, valued)

/-- Variables.  Only exported constants are found. -/
def variableStatement (exported : Bool) : Finder := fun s => do
  let constant := (keyword "const" s).isSome
  let s ← oneOf ["const", "let", "var"] s
  let (ns, s, valued) ← g.bindings g.bound s
  let found := if exported && constant then ns.map (.simple .exportedConst) else []
  some (found, semicolon valued g.bound s)

/-- A function. -/
def functionStatement : Finder :=
  nothing fun s => (g.function s).map (semicolon false g.bound)

/-- A namespace or a module. -/
def namespaceStatement : Finder :=
  nothing <|
    either (g.leadingWord "namespace") (g.leadingWord "module") >=>
      either (string >=> either g.block fun s => some (semicolon false g.bound s))
        (g.dottedName >=> g.block)

/-- A renamed import. -/
def importAlias : Finder :=
  nothing fun s =>
    ((keyword "import" >=> maybe (keyword "type" >=> provided fun s => (name? s).isSome) >=>
      anyName >=> symbol ['='] >=> g.expression) s).map (semicolon false g.bound)

/-- A declaration that is not marked as ambient. -/
def plainDeclaration (exported : Bool) (before : List (List Char)) : Finder :=
  eitherFind (g.classStatement before) <| eitherFind g.interfaceStatement <|
    eitherFind g.enumStatement <| eitherFind g.aliasStatement <|
    eitherFind g.functionStatement <| eitherFind (g.variableStatement exported) <|
    eitherFind g.namespaceStatement g.importAlias

/-- The global scope, augmented. -/
def globalBlock : Finder := nothing (keyword "global" >=> g.block)

/-- A declaration, perhaps an ambient one; a comment behind the word that marks it hides what it
declares. -/
def declaration (exported : Bool) (before : List (List Char)) : Finder := fun s =>
  match (keyword "declare" s).bind (wordContinues g.bound false) with
  | none => g.plainDeclaration exported before s
  | some (commented, r) =>
    match eitherFind (g.plainDeclaration exported before) g.globalBlock r with
    | some (found, r) => some (if commented then [] else found, r)
    | none => g.plainDeclaration exported before s

/-! ### Exports and imports -/

/-- The rest of a statement that names a module. -/
def fromClause : Reader := keyword "from" >=> string

/-- The attributes of an imported module. -/
def importAttributes : Reader := maybe (oneOf ["with", "assert"] >=> g.object)

/-- The names of an import or export in braces. -/
def nameList : Reader :=
  symbol ['\x7b'] >=> g.repeated (either (symbol [',']) (either anyName string)) >=> symbol ['\x7d']

/-- What a statement exports that declares nothing. -/
def exportClause : Reader :=
  either (symbol ['*'] >=> maybe (keyword "as" >=> either anyName string) >=> fromClause >=>
      g.importAttributes) <|
    either (g.nameList >=> maybe (fromClause >=> g.importAttributes)) <|
    either (keyword "type" >=> either
      (symbol ['*'] >=> maybe (keyword "as" >=> anyName) >=> fromClause >=> g.importAttributes)
      (g.nameList >=> maybe (fromClause >=> g.importAttributes))) <|
    either (symbol ['='] >=> g.expression) (keyword "as" >=> keyword "namespace" >=> anyName)

/-- An export, whose decorators were read. -/
def exportStatement (before : List (List Char)) : Finder := fun s => do
  let s ← keyword "export" s
  match keyword "default" s with
  | some r =>
    match g.declaration true before r with
    | some x => some x
    | none => (g.expression r).map fun r => ([], semicolon true g.bound r)
  | none =>
    match g.declaration true before s with
    | some x => some x
    | none => (g.exportClause s).map fun r => ([], semicolon false g.bound r)

/-- What an import binds. -/
def importClause : Reader :=
  g.repeated (either (symbol [',']) <| either (symbol ['*'] >=> keyword "as" >=> anyName) <|
    either g.nameList (provided (fun s => (fromClause s).isNone) >=> anyName))

/-- An import. -/
def importStatement : Finder :=
  nothing fun s =>
    ((keyword "import" >=> either string (g.importClause >=> fromClause) >=>
      g.importAttributes) s).map (semicolon false g.bound)

/-! ### Control -/

/-- The head of a loop in parentheses. -/
def loopHead : Reader :=
  symbol ['('] >=>
    g.repeated (either (symbol [';']) <|
      either (oneOf ["const", "let", "var"] >=>
        g.commaSeparated (g.pattern >=> maybe g.annotation >=> maybe g.initializer)) <|
      either (oneOf ["of", "in"] >=> g.expression) g.expression) >=>
    symbol [')']

/-- The cases of a `switch`. -/
def switchBody : Reader :=
  symbol ['\x7b'] >=>
    g.repeated (provided (fun s => !startsWith '\x7d' s) >=>
      either (keyword "case" >=> g.expression >=> symbol [':']) (
      either (keyword "default" >=> symbol [':']) (either g.statement skipLexeme))) >=>
    symbol ['\x7d']

/-- The rest of a `try`. -/
def handlers : Reader :=
  maybe (keyword "catch" >=>
    maybe (symbol ['('] >=> g.pattern >=> maybe g.annotation >=> symbol [')']) >=> g.block) >=>
  maybe (keyword "finally" >=> g.block)

/-- A statement that may leave out its semicolon. -/
def ended (p : Reader) : Reader := fun s => (p s).map (semicolon true g.bound)

/-- An expression as a statement.  Words that only start declarations start none. -/
def expressionStatement : Reader :=
  provided (fun s => (oneOf ["interface", "abstract"] s).isNone) >=> g.ended g.expression

/-- A statement that decides what is done next. -/
def controlStatement : Reader :=
  either (keyword "if" >=> g.parenthesised >=> g.statement >=>
      maybe (keyword "else" >=> g.statement)) <|
  either (oneOf ["while", "with"] >=> g.parenthesised >=> g.statement) <|
  either (keyword "do" >=> g.statement >=> keyword "while" >=> g.parenthesised >=>
      maybe (symbol [';'])) <|
  either (keyword "for" >=> maybe (keyword "await") >=> g.loopHead >=> g.statement) <|
  either (keyword "switch" >=> g.parenthesised >=> g.switchBody) <|
  either (keyword "try" >=> g.block >=> g.handlers) <|
  either (g.ended (oneOf ["return", "throw"] >=> maybe (sameLine g.expression))) <|
  either (g.ended (oneOf ["break", "continue"] >=> maybe (sameLine anyName))) <|
  either (g.ended (keyword "debugger")) (identifier >=> symbol [':'] >=> g.statement)

/-! ### All statements -/

/-- A statement whose decorators were read: a class or its export. -/
def decorated : Finder := fun s =>
  match g.decorators g.bound s with
  | (_, r) =>
    match symbol ['@'] s with
    | none => none
    | some _ =>
      let before := (g.decorators g.bound s).1
      eitherFind (g.exportStatement before) (g.classTail before) r

/-- A statement, with what it declares. -/
def statementHere : Finder :=
  eitherFind (nothing g.block) <| eitherFind (nothing (symbol [';'])) <|
    eitherFind g.decorated <| eitherFind (g.exportStatement []) <|
    eitherFind (g.declaration false []) <| eitherFind g.importStatement <|
    eitherFind (nothing g.controlStatement) (nothing g.expressionStatement)

end Scope

/-- Read a nested construct; at most `n` constructs stand inside one another. -/
def read (d : Dialect) : Nat → Nested → Reader
  | 0, _, _ => none
  | n + 1, what, s =>
    let g : Scope := ⟨d, n, read d n⟩
    match what with
    | .statement => (g.statementHere s).map Prod.snd
    | .assignment inCondition => g.assignmentHere inCondition s
    | .type conditional => g.typeHere conditional s
    | .pattern => g.patternHere s
    | .heritage => g.operand (fun _ => true) s
    | .element => g.elementHere s

/-- The surroundings of the statements of a text with the given length. -/
def Scope.top (d : Dialect) (length : Nat) : Scope :=
  let depth := 8 * length + 16
  ⟨d, depth, TypeScript.read d depth⟩

end DeclarationDocs.TypeScript
