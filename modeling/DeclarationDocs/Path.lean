import DeclarationDocs.Text.Search

/-!
# Paths

A path is the text it was written as; nothing is cleaned up when paths are joined.  What counts
is its list of components: repeated and trailing slashes and inner `.` segments are void, `..`
is kept, and two paths are the same path when their components agree.

* `Path.components`: the view by which paths are compared and taken apart;
* `Path.join`, `Path.parent`, `Path.fileName`, `Path.stripPrefix`: the operations;
* `Path.normalize`: the lexical resolution of `.` and `..`.
-/

namespace DeclarationDocs

/-- A path as written. -/
structure Path where
  chars : List Char
deriving DecidableEq, Inhabited, Repr

/-- A part of a path, in the order in which paths are sorted. -/
inductive Component where
  | root
  | current
  | parent
  | name (n : List Char)
deriving DecidableEq, Repr

namespace Path

/-- The path written as `s`. -/
def ofString (s : String) : Path := ⟨s.toList⟩

/-- The path as text. -/
def text (p : Path) : String := String.ofList p.chars

/-- Whether the path starts at the root. -/
def isAbsolute (p : Path) : Bool :=
  match p.chars with
  | '/' :: _ => true
  | _ => false

/-! ### Components -/

/-- A segment between slashes that stands for no component. -/
def isVoid (segment : List Char) : Bool :=
  segment == [] || segment == ['.']

/-- The component that a segment stands for. -/
def componentOf (segment : List Char) : Option Component :=
  if isVoid segment then none
  else if segment = ['.', '.'] then some .parent
  else some (.name segment)

/-- The segments after the root, or all of them if the path is relative. -/
def segments (p : Path) : List (List Char) :=
  if p.isAbsolute then (Text.splitAt '/' p.chars).drop 1 else Text.splitAt '/' p.chars

/-- The components of a relative list of segments: a leading `.` counts. -/
def relativeComponents : List (List Char) → List Component
  | ['.'] :: r => .current :: r.filterMap componentOf
  | segs => segs.filterMap componentOf

/-- The components of a path. -/
def components (p : Path) : List Component :=
  if p.isAbsolute then .root :: p.segments.filterMap componentOf
  else relativeComponents p.segments

/-- The names among the components. -/
def names (p : Path) : List (List Char) :=
  p.components.filterMap fun
    | .name n => some n
    | _ => none

/-! ### Putting paths together -/

/-- Write segments with slashes between them. -/
def joinSegments : List (List Char) → List Char
  | [] => []
  | [s] => s
  | s :: r => s ++ '/' :: joinSegments r

/-- `p` with `q` below it; an absolute `q` takes the place of `p`. -/
def join (p q : Path) : Path :=
  if q.isAbsolute then q
  else if p.chars = [] ∨ p.chars.getLast? = some '/' then ⟨p.chars ++ q.chars⟩
  else ⟨p.chars ++ '/' :: q.chars⟩

/-! ### Taking paths apart -/

/-- Drop the void segments at the end. -/
def trimVoidEnd (segs : List (List Char)) : List (List Char) :=
  (segs.reverse.dropWhile isVoid).reverse

/-- Drop the void segments at the end of relative segments, of which a leading `.` is none. -/
def trimRelativeEnd : List (List Char) → List (List Char)
  | ['.'] :: r => ['.'] :: trimVoidEnd r
  | segs => trimVoidEnd segs

/-- The text of an absolute or relative list of segments. -/
def ofSegments (absolute : Bool) (segs : List (List Char)) : Path :=
  if absolute then ⟨'/' :: joinSegments segs⟩ else ⟨joinSegments segs⟩

/-- The path without its last component; the root and the empty path have none. -/
def parent (p : Path) : Option Path :=
  let trim := if p.isAbsolute then trimVoidEnd else trimRelativeEnd
  match trim p.segments with
  | [] => none
  | segs => some (ofSegments p.isAbsolute (trim segs.dropLast))

/-- The last component, if it is a name. -/
def fileName (p : Path) : Option (List Char) :=
  match p.components.getLast? with
  | some (.name n) => some n
  | _ => none

/-- The part of a file name after its last dot; a dot at the start does not count. -/
def extensionOf (name : List Char) : Option (List Char) :=
  let after := (name.reverse.takeWhile (· != '.')).reverse
  if after.length + 1 < name.length then some after else none

/-- Remove the leading components `base` from segments. -/
def stripComponents : List Component → List (List Char) → Option (List (List Char))
  | [], segs => some (segs.dropWhile isVoid)
  | c :: cs, segs =>
    match segs.dropWhile isVoid with
    | s :: r => if componentOf s = some c then stripComponents cs r else none
    | [] => none

/-- The rest of `p` below `base`, if the components of `base` begin those of `p`. -/
def stripPrefix (p base : Path) : Option Path :=
  match base.components with
  | [] => some (ofSegments p.isAbsolute
      ((if p.isAbsolute then trimVoidEnd else trimRelativeEnd) p.segments))
  | .root :: cs =>
    if p.isAbsolute then
      (stripComponents cs p.segments).map fun segs => ofSegments false (trimVoidEnd segs)
    else none
  | .current :: cs =>
    match p.isAbsolute, p.segments with
    | false, ['.'] :: r =>
      (stripComponents cs r).map fun segs => ofSegments false (trimVoidEnd segs)
    | _, _ => none
  | cs =>
    if p.isAbsolute || p.segments.head? == some ['.'] then none
    else (stripComponents cs p.segments).map fun segs => ofSegments false (trimVoidEnd segs)

/-! ### Order -/

/-- Whether one name comes before the other, character by character. -/
def nameLt : List Char → List Char → Bool
  | _, [] => false
  | [], _ :: _ => true
  | a :: s, b :: t => if a = b then nameLt s t else decide (a.toNat < b.toNat)

/-- The order of components: root, `.`, `..`, names. -/
def componentLt : Component → Component → Bool
  | .name a, .name b => nameLt a b
  | a, b => rank a < rank b
where
  rank : Component → Nat
    | .root => 0
    | .current => 1
    | .parent => 2
    | .name _ => 3

/-- The order of component lists. -/
def componentsLt : List Component → List Component → Bool
  | _, [] => false
  | [], _ :: _ => true
  | a :: s, b :: t => if a = b then componentsLt s t else componentLt a b

/-- Whether `p` does not come after `q`. -/
def le (p q : Path) : Bool :=
  !componentsLt q.components p.components

/-- Whether the texts stand for the same path. -/
def same (p q : Path) : Bool :=
  p.components == q.components

/-! ### Lexical normalisation -/

/-- One step of normalisation: `.` does nothing, `..` drops the last component, every other
component is joined on. -/
def pushComponent (out : Path) : Component → Path
  | .current => out
  | .parent => out.parent.getD out
  | .root => ⟨['/']⟩
  | .name n => out.join ⟨n⟩

/-- The path with `.` and `..` resolved by looking at the text alone. -/
def normalize (p : Path) : Path :=
  p.components.foldl pushComponent ⟨[]⟩

end Path

end DeclarationDocs
