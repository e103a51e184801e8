import DeclarationDocs.Path

/-!
# Source dialects

The dialect of a source file is read off its name.  Files that only declare types
(`.d.ts` and its variants) are no sources.
-/

namespace DeclarationDocs

/-- A dialect of the source language. -/
inductive Dialect where
  | typeScript
  | tsx
deriving DecidableEq, Repr, Inhabited

namespace Dialect

/-- The name of a dialect. -/
def name : Dialect → String
  | .typeScript => "TypeScript"
  | .tsx => "TSX"

/-- The dialect of an extension in small letters. -/
def ofExtension? (e : List Char) : Option Dialect :=
  if e = ['t', 's'] ∨ e = ['m', 't', 's'] ∨ e = ['c', 't', 's'] then some .typeScript
  else if e = ['t', 's', 'x'] then some .tsx
  else none

/-- The endings of files that only declare types. -/
def typeOnlyEndings : List (List Char) :=
  [['.', 'd', '.', 't', 's'], ['.', 'd', '.', 'm', 't', 's'], ['.', 'd', '.', 'c', 't', 's']]

/-- The dialect of a file name.  Only ASCII letters matter: no other character has one of the
letters of these endings as its small form. -/
def ofFileName? (name : List Char) : Option Dialect :=
  if typeOnlyEndings.any fun e => e.isSuffixOf (Text.lowerAscii name) then none
  else (Path.extensionOf name).bind fun e => ofExtension? (Text.lowerAscii e)

/-- The dialect of a file. -/
def ofPath? (p : Path) : Option Dialect := p.fileName.bind ofFileName?

end Dialect

end DeclarationDocs
