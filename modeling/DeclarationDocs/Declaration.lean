import DeclarationDocs.Path

/-!
# Declarations

The named constructs at the top of a source file, and the file they were found in.
-/

namespace DeclarationDocs

/-- The kind of a declaration, in the order in which the kinds of one file are visited. -/
inductive Declaration.Kind where
  | classDecl
  | interface
  | enum
  | typeAlias
  | exportedConst
deriving DecidableEq, Repr, Inhabited

namespace Declaration.Kind

/-- All kinds in order. -/
def all : List Declaration.Kind := [.classDecl, .interface, .enum, .typeAlias, .exportedConst]

/-- The name of a kind. -/
def name : Declaration.Kind → String
  | .classDecl => "class"
  | .interface => "interface"
  | .enum => "enum"
  | .typeAlias => "type alias"
  | .exportedConst => "exported const"

/-- The place of a kind in the order. -/
def rank : Declaration.Kind → Nat
  | .classDecl => 0
  | .interface => 1
  | .enum => 2
  | .typeAlias => 3
  | .exportedConst => 4

end Declaration.Kind

/-- A construct of a source file. -/
structure Declaration where
  name : String
  kind : Declaration.Kind
  /-- The text of the whole statement. -/
  rawText : String
  /-- The names of the decorators in written order; only classes have any. -/
  decorators : List String
  /-- The contracts as written; only classes have any. -/
  implements : List String
  /-- The line on which the statement starts, from 1. -/
  line : Nat
deriving DecidableEq, Repr, Inhabited

/-- Group by kind; within a kind the order stays. -/
def byKind {α : Type} (kind : α → Declaration.Kind) (xs : List α) : List α :=
  Declaration.Kind.all.flatMap fun k => xs.filter fun x => kind x == k

/-- A source file that has been read. -/
structure SourceFile where
  path : Path
  /-- The path below the source root. -/
  relativePath : Path
  declarations : List Declaration

/-- The directory of a source file below the source root; empty at the root itself. -/
def SourceFile.relativeDir (u : SourceFile) : Path :=
  u.relativePath.parent.getD ⟨[]⟩

end DeclarationDocs
