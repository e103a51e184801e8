import DeclarationDocs.Dialect
import DeclarationDocs.TypeScript.Lexeme

/-!
# Grammar of expressions and types

Readers that step over the constructs of the language.  Constructs contain one another, so each
reader here is given a `Scope`, which knows how to step over the nested ones; the knot is tied
in `TypeScript.Statement`.

Nothing is built: what a declaration is called is read where the declaration is read, and of
everything else only its end matters.
-/

namespace DeclarationDocs.TypeScript

/-- The constructs that other constructs contain. -/
inductive Nested where
  | statement
  /-- An expression without commas; one between `?` and `:` may not end in a typed arrow that
  leaves no colon. -/
  | assignment (inCondition : Bool)
  /-- A type; one behind `extends` is no conditional type itself. -/
  | type (conditional : Bool)
  | pattern
  /-- What a class extends. -/
  | heritage
  | element
deriving DecidableEq, Repr

/-- What a reader knows about its surroundings: the dialect, how often a part may be repeated,
and how nested constructs are read. -/
structure Scope where
  dialect : Dialect
  bound : Nat
  read : Nested → Reader

namespace Scope

variable (g : Scope)

/-- An expression without commas. -/
def assignment : Reader := g.read (.assignment false)

/-- A type. -/
def type : Reader := g.read (.type true)

/-- A statement. -/
def statement : Reader := g.read .statement

/-- A binding: a name or a destructuring pattern. -/
def pattern : Reader := g.read .pattern

/-- Zero or more times `p`. -/
def repeated (p : Reader) : Reader := many g.bound p

/-- Items with commas between or behind them, up to and with `closer`. -/
def listTo (item : Reader) (closer : List Char) : Reader :=
  g.repeated (either (symbol [',']) item) >=> symbol closer

/-- One or more items with commas between them. -/
def commaSeparated (item : Reader) : Reader :=
  item >=> g.repeated (symbol [','] >=> item)

/-- An expression. -/
def expression : Reader := g.commaSeparated g.assignment

/-- An expression in parentheses. -/
def parenthesised : Reader := symbol ['('] >=> g.expression >=> symbol [')']

/-! ### Blocks -/

/-- Step over one mark or word that starts no statement; braces are not passed over one by one. -/
def skipLexeme : Reader := fun s =>
  match skipTrivia s with
  | [] => none
  | c :: r =>
    if c == '\x7b' || c == '\x7d' then none
    else match nameHere? (c :: r) with
      | some (_, t) => some t
      | none => some r

/-- Statements in braces; what is no statement is passed over. -/
def block : Reader :=
  symbol ['\x7b'] >=>
    g.repeated (provided (fun s => !startsWith '\x7d' s) >=> either g.statement skipLexeme) >=>
    symbol ['\x7d']

/-! ### Templates -/

/-- The rest of a template whose holes hold `hole`. -/
def templateTail (hole : Reader) : Nat → Reader
  | 0, _ => none
  | n + 1, s =>
    match templateChunk s with
    | none => none
    | some (false, r) => some r
    | some (true, r) => (hole >=> symbol ['\x7d'] >=> templateTail hole n) r

/-- A template with expressions in its holes. -/
def template : Reader := symbol ['`'] >=> templateTail g.expression g.bound

/-- A template with types in its holes. -/
def templateType : Reader := symbol ['`'] >=> templateTail g.type g.bound

/-- A string. -/
def string : Reader :=
  either (symbol ['\''] >=> stringEnd '\'') (symbol ['"'] >=> stringEnd '"')

/-! ### Decorators -/

/-- Types in angle brackets. -/
def typeArguments : Reader := symbol ['<'] >=> g.commaSeparated g.type >=> symbol ['>']

/-- The arguments of a call. -/
def arguments : Reader :=
  symbol ['('] >=> g.listTo (maybe (symbol ['.', '.', '.']) >=> g.assignment) [')']

/-- A name and the names behind its dots. -/
def dottedName : Reader := anyName >=> g.repeated (symbol ['.'] >=> anyName)

/-- A decorator: a name, perhaps called, or an expression in parentheses. -/
def decorator : Reader :=
  symbol ['@'] >=>
    either g.parenthesised (g.dottedName >=> maybe (maybe g.typeArguments >=> g.arguments))

/-! ### Parameters -/

/-- A type parameter. -/
def typeParameter : Reader :=
  maybe (keyword "const") >=>
    g.repeated (oneOf ["in", "out"] >=> provided (fun s => (name? s).isSome)) >=>
    anyName >=> maybe (keyword "extends" >=> g.type) >=> maybe (symbol ['='] >=> g.type)

/-- Type parameters in angle brackets. -/
def typeParameters : Reader :=
  symbol ['<'] >=> g.commaSeparated g.typeParameter >=> maybe (symbol [',']) >=> symbol ['>']

/-- A type behind a colon. -/
def annotation : Reader := symbol [':'] >=> g.type

/-- A value behind an equals sign. -/
def initializer : Reader := symbol ['='] >=> g.assignment

/-- A modifier of a parameter. -/
def parameterModifier : Reader :=
  oneOf ["public", "private", "protected", "readonly", "override"] >=>
    provided fun s => (name? s).isSome || startsWith '\x7b' s || startsWith '[' s

/-- A parameter of a function or of a function type. -/
def parameter : Reader :=
  g.repeated g.decorator >=> g.repeated parameterModifier >=> maybe (symbol ['.', '.', '.']) >=>
    g.pattern >=> maybe (symbol ['?']) >=> maybe g.annotation >=> maybe g.initializer

/-- Parameters in parentheses. -/
def parameters : Reader := symbol ['('] >=> g.listTo g.parameter [')']

/-- The parameters of a function with the type of its result. -/
def signature : Reader := maybe g.typeParameters >=> g.parameters >=> maybe g.annotation

/-! ### Properties -/

/-- A number. -/
def number : Reader := fun s => numberEnd (skipTrivia s)

/-- The name of a property, which may be computed; in types it may be an index. -/
def propertyName : Reader :=
  either anyName <| either string <| either number <|
    either (symbol ['#'] >=> anyName) <|
    either (symbol ['['] >=> g.assignment >=> symbol [']'])
      (symbol ['['] >=> anyName >=> either g.annotation (keyword "in" >=> g.type) >=>
        maybe (keyword "as" >=> g.type) >=> symbol [']'])

/-- Whether the name of a property, or the star of a generator, follows. -/
def propertyFollows (s : List Char) : Bool :=
  (name? s).isSome || startsWith '\'' s || startsWith '"' s || startsWith '[' s ||
    startsWith '#' s || startsWith '*' s || (number s).isSome

/-- A word before the name of a property. -/
def propertyModifier : Reader :=
  oneOf ["get", "set", "async", "static", "readonly", "public", "private", "protected",
    "override", "abstract", "declare", "accessor", "export"] >=> provided propertyFollows

/-- The body of a method behind its name. -/
def methodTail : Reader := g.signature >=> maybe g.block

/-- A member of an object. -/
def objectMember : Reader :=
  either (symbol ['.', '.', '.'] >=> g.assignment)
    (g.repeated propertyModifier >=> maybe (symbol ['*']) >=> g.propertyName >=>
      either g.methodTail (maybe (either (symbol [':'] >=> g.assignment) g.initializer)))

/-- An object. -/
def object : Reader := symbol ['\x7b'] >=> g.listTo g.objectMember ['\x7d']

/-- An array, in which items may be left out. -/
def array : Reader :=
  symbol ['['] >=> g.listTo (maybe (symbol ['.', '.', '.']) >=> g.assignment) [']']

/-! ### Classes -/

/-- A member of a class. -/
def classMember : Reader :=
  either (symbol [';']) <| either (symbol [',']) <| either g.decorator <|
    either (keyword "static" >=> g.block) <|
    g.repeated propertyModifier >=> maybe (symbol ['*']) >=> g.propertyName >=>
      maybe (either (symbol ['?']) (symbol ['!'])) >=>
      either g.methodTail (maybe g.annotation >=> maybe g.initializer)

/-- The members of a class in braces; what is no member is passed over. -/
def classBody : Reader :=
  symbol ['\x7b'] >=>
    g.repeated (either g.classMember <| either g.block <| either string <|
      either g.template skipLexeme) >=>
    symbol ['\x7d']

/-! ### Arrow functions -/

/-- The body of an arrow function behind its arrow. -/
def arrowBody (inCondition : Bool) : Reader :=
  either (provided (startsWith '\x7b') >=> g.block) (g.read (.assignment inCondition))

/-- An arrow on the same line, and the body behind it. -/
def arrowTail (inCondition : Bool) : Reader :=
  sameLine (symbol ['=', '>']) >=> g.arrowBody inCondition

/-- An arrow function with parameters in parentheses. -/
def arrowWithParameters (inCondition : Bool) : Reader := fun s =>
  match (maybe g.typeParameters >=> g.parameters) s with
  | none => none
  | some r =>
    match g.annotation r with
    | none => g.arrowTail inCondition r
    | some t =>
      (g.arrowTail inCondition >=> provided fun u => !inCondition || startsWith ':' u) t

/-- The words that are never names of values. -/
def reserved : List String :=
  ["break", "case", "catch", "class", "const", "continue", "debugger", "default", "delete", "do",
   "else", "enum", "export", "extends", "finally", "for", "function", "if", "in", "instanceof",
   "new", "return", "switch", "throw", "try", "typeof", "var", "void", "while", "with"]

/-- The name of a value. -/
def identifier : Reader := fun s =>
  match name? s with
  | some (n, r) => if reserved.any fun w => w.toList = n then none else some r
  | none => none

/-- An arrow function. -/
def arrowFunction (inCondition : Bool) : Reader :=
  either (identifier >=> g.arrowTail inCondition) <|
    either (keyword "async" >=> sameLine identifier >=> g.arrowTail inCondition) <|
    either (keyword "async" >=> g.arrowWithParameters inCondition)
      (g.arrowWithParameters inCondition)

/-! ### Functions and classes as values -/

/-- A function, with or without a name. -/
def function : Reader :=
  maybe (keyword "async") >=> keyword "function" >=> maybe (symbol ['*']) >=> maybe anyName >=>
    g.signature >=> maybe g.block

/-- Types between commas, as a class or an interface names them. -/
def typeList : Reader := g.commaSeparated g.type

/-! ### Primary expressions -/

/-- An element, where the dialect has them. -/
def elementValue : Reader := fun s =>
  match g.dialect with
  | .tsx => g.read .element s
  | .typeScript => none

/-- A type in angle brackets before a value, where the dialect has it. -/
def typeAssertion : Reader := fun s =>
  match g.dialect with
  | .tsx => none
  | .typeScript =>
    (symbol ['<'] >=> either (keyword "const") g.type >=> symbol ['>']) s

/-- Whether an operand may follow. -/
def operandFollows (s : List Char) : Bool :=
  match skipTrivia s with
  | [] => false
  | c :: r =>
    match nameHere? (c :: r) with
    | some (n, _) => !(["in", "instanceof", "of", "as", "satisfies"].any fun w => w.toList = n)
    | none => "'\"`([\x7b!~+-#@0123456789.".toList.contains c

/-- An operator before an operand. -/
def prefixOperator : Reader :=
  either (oneOf ["typeof", "void", "delete"]) <|
    either (keyword "new" >=> provided fun s => !startsWith '.' s) <|
    either (keyword "await" >=> provided operandFollows) <|
    either (symbol ['+', '+']) <| either (symbol ['-', '-']) <| either (symbol ['+']) <|
    either (symbol ['-']) <| either (symbol ['!']) <| either (symbol ['~']) g.typeAssertion

/-- A regular expression. -/
def regex : Reader := symbol ['/'] >=> regexEnd false

/-- What stands between the name of a class and its body. -/
def heritageClauses : Reader :=
  maybe (keyword "extends" >=> g.commaSeparated (g.read .heritage)) >=>
    maybe (keyword "implements" >=> g.typeList)

/-- The name of a class, unless what follows are its heritage clauses. -/
def className : Reader :=
  provided (fun s => (oneOf ["extends", "implements"] s).isNone) >=> anyName

/-- A class, with or without a name. -/
def classValue : Reader :=
  g.repeated g.decorator >=> maybe (keyword "abstract") >=> keyword "class" >=>
    maybe className >=> maybe g.typeParameters >=> g.heritageClauses >=> g.classBody

/-- The place that a function was called from. -/
def newTarget : Reader := keyword "new" >=> symbol ['.'] >=> anyName

/-- An operand without the marks before and behind it. -/
def primary : Reader :=
  either g.function <| either g.classValue <| either newTarget <| either identifier <|
    either number <| either string <| either g.template <| either g.parenthesised <|
    either g.array <| either g.object <| either (symbol ['#'] >=> anyName) <|
    either g.elementValue regex

/-- A member, call or template behind `?.`. -/
def optionalChain : Reader :=
  symbol ['?', '.'] >=>
    either (provided fun s => startsWith '(' s || startsWith '[' s || startsWith '`' s
      || startsWith '<' s) (maybe (symbol ['#']) >=> anyName)

/-- What may follow an operand: a member, a call, a template, a mark, or type arguments of which
`after` allows what stands behind them. -/
def suffix (after : List Char → Bool) : Reader :=
  either (symbol ['.'] >=> maybe (symbol ['#']) >=> anyName) <|
    either optionalChain <| either g.arguments <|
    either (symbol ['['] >=> g.expression >=> symbol [']']) <| either g.template <|
    either (sameLine (symbol ['+', '+'])) <| either (sameLine (symbol ['-', '-'])) <|
    either (sameLine (symbol ['!']) >=> provided fun s => s.head? != some '=')
      (g.typeArguments >=> provided after)

/-- An operand with the operators before it and what follows it. -/
def operand (after : List Char → Bool) : Reader :=
  g.repeated g.prefixOperator >=> g.primary >=> g.repeated (g.suffix after)

/-- Whether type arguments of an expression may end before `s`, rather than being comparisons:
what follows does not start an operand, or calls. -/
def endsTypeArguments (s : List Char) : Bool :=
  match s with
  | '>' :: _ => false
  | '=' :: _ => false
  | _ =>
    lineEndsBefore s ||
    match skipTrivia s with
    | [] => true
    | '!' :: r => r.head? == some '='
    | c :: r =>
      if c == '(' || c == '`' then true
      else match nameHere? (c :: r) with
        | some (n, _) => ["in", "instanceof", "of", "as", "satisfies"].any fun w => w.toList = n
        | none => !("<>+-'\"[\x7b~#@0123456789".toList.contains c)

/-! ### Operators -/

/-- The operators between operands, longer ones first. -/
def operators : List String :=
  [">>>=", "<<=", ">>=", "**=", "===", "!==", ">>>", "&&=", "||=", "??=", "==", "!=", "<=", ">=",
   "&&", "||", "??", "**", "<<", ">>", "+=", "-=", "*=", "/=", "%=", "&=", "|=", "^=", "+", "-",
   "*", "/", "%", "&", "|", "^", "<", ">", "="]

/-- The marks that look like operators but stand between no operands. -/
def noOperators : List String := ["=>", "++", "--"]

/-- An operator between operands. -/
def operator : Reader := fun s =>
  let t := skipTrivia s
  if noOperators.any fun w => w.toList.isPrefixOf t then none
  else match operators.find? fun w => w.toList.isPrefixOf t with
    | some w => some (t.drop w.length)
    | none => oneOf ["in", "instanceof"] s

/-- A type that an operand is taken to have. -/
def ascription : Reader :=
  sameLine (oneOf ["as", "satisfies"]) >=> either (keyword "const") g.type

/-- The branches of a conditional expression. -/
def branches (inCondition : Bool) : Reader :=
  symbol ['?'] >=> g.read (.assignment true) >=> symbol [':'] >=> g.read (.assignment inCondition)

/-- A `yield` with what is yielded. -/
def yielded : Reader :=
  keyword "yield" >=> maybe (sameLine (maybe (symbol ['*']) >=> g.assignment))

/-- An expression without commas. -/
def assignmentHere (inCondition : Bool) : Reader :=
  either (g.arrowFunction inCondition) <| either g.yielded <|
    g.operand endsTypeArguments >=> g.repeated g.ascription >=>
      maybe (either (operator >=> g.read (.assignment inCondition)) (g.branches inCondition))

/-! ### Patterns -/

/-- A property of a destructuring pattern. -/
def patternProperty : Reader :=
  either (symbol ['.', '.', '.'] >=> g.pattern)
    (g.propertyName >=> maybe (symbol [':'] >=> g.pattern) >=> maybe g.initializer)

/-- An item of a destructuring pattern. -/
def patternItem : Reader :=
  maybe (symbol ['.', '.', '.']) >=> g.pattern >=> maybe g.initializer

/-- A name or a destructuring pattern. -/
def patternHere : Reader :=
  either anyName <|
    either (symbol ['\x7b'] >=> g.listTo g.patternProperty ['\x7d'])
      (symbol ['['] >=> g.listTo g.patternItem [']'])

/-! ### Types -/

/-- A function type, perhaps of a constructor. -/
def functionType : Reader :=
  maybe (keyword "abstract" >=> provided fun s => (keyword "new" s).isSome) >=>
    maybe (keyword "new") >=> maybe g.typeParameters >=> g.parameters >=> symbol ['=', '>'] >=>
    g.type

/-- A sign before the modifier of a mapped type. -/
def mappedSign : Reader := either (symbol ['+']) (symbol ['-'])

/-- A member of an object type. -/
def typeMember : Reader :=
  either (symbol [';']) <| either (symbol [',']) <|
    either (maybe (keyword "new") >=> provided (fun s => startsWith '(' s || startsWith '<' s) >=>
      g.signature) <|
    maybe mappedSign >=> g.repeated propertyModifier >=> g.propertyName >=> maybe mappedSign >=>
      maybe (symbol ['?']) >=> either g.signature (maybe g.annotation)

/-- The members of an object type in braces. -/
def objectType : Reader := symbol ['\x7b'] >=> g.repeated g.typeMember >=> symbol ['\x7d']

/-- An item of a tuple type, which may be labelled. -/
def tupleItem : Reader :=
  maybe (symbol ['.', '.', '.']) >=>
    either (anyName >=> maybe (symbol ['?']) >=> g.annotation) (g.type >=> maybe (symbol ['?']))

/-- A tuple type. -/
def tupleType : Reader := symbol ['['] >=> g.listTo g.tupleItem [']']

/-- The type of a module. -/
def importType : Reader := keyword "import" >=> g.arguments

/-- A named type with its arguments. -/
def namedType : Reader :=
  either g.importType anyName >=> g.repeated (symbol ['.'] >=> anyName) >=> maybe g.typeArguments

/-- A type without the operators before and behind it. -/
def primaryType : Reader :=
  either g.functionType <| either (symbol ['('] >=> g.type >=> symbol [')']) <|
    either g.objectType <| either g.tupleType <| either string <| either g.templateType <|
    either (maybe (symbol ['-']) >=> number) g.namedType

/-- Whether a name or an opening mark of a type follows on the line. -/
def typeFollows (s : List Char) : Bool :=
  !lineEndsBefore s &&
  match skipTrivia s with
  | [] => false
  | c :: r =>
    match nameHere? (c :: r) with
    | some (n, _) => !(["extends", "is"].any fun w => w.toList = n)
    | none => "([\x7b'\"`".toList.contains c

/-- An operator before a type. -/
def typeOperator : Reader :=
  oneOf ["keyof", "unique", "readonly", "typeof", "asserts"] >=> provided typeFollows

/-- A type variable to be found; its bound is not read as a condition. -/
def inferred (conditional : Bool) : Reader :=
  keyword "infer" >=> provided (fun s => (name? s).isSome) >=> anyName >=>
    maybe (keyword "extends" >=> g.read (.type false) >=>
      provided fun s => !conditional || !startsWith '?' s)

/-- An index or array mark behind a type, on its line. -/
def typeSuffix : Reader := sameLine (symbol ['['] >=> maybe g.type >=> symbol [']'])

/-- A type between the marks of unions and intersections. -/
def typeOperand (conditional : Bool) : Reader :=
  g.repeated typeOperator >=> either (g.inferred conditional) g.primaryType >=>
    g.repeated g.typeSuffix

/-- The mark of a union or an intersection. -/
def typeMark : Reader :=
  either (symbol ['|'] >=> provided fun s => s.head? != some '|')
    (symbol ['&'] >=> provided fun s => s.head? != some '&')

/-- The rest of a conditional type. -/
def condition : Reader :=
  sameLine (keyword "extends") >=> g.read (.type false) >=> symbol ['?'] >=> g.type >=>
    symbol [':'] >=> g.type

/-- A type. -/
def typeHere (conditional : Bool) : Reader :=
  maybe typeMark >=> g.typeOperand conditional >=>
    g.repeated (typeMark >=> g.typeOperand conditional) >=>
    maybe (sameLine (keyword "is") >=> g.type) >=>
    (if conditional then maybe g.condition else some)

/-! ### Elements -/

/-- A name in an element, which may hold hyphens and colons. -/
def elementName : Reader :=
  anyName >=> g.repeated (either (strip ['-'] >=> maybe anyName) <|
    either (symbol [':'] >=> anyName) (symbol ['.'] >=> anyName))

/-- An expression in braces, which may be empty or spread. -/
def embedded : Reader :=
  symbol ['\x7b'] >=> maybe (symbol ['.', '.', '.']) >=> maybe g.expression >=> symbol ['\x7d']

/-- The value of an attribute. -/
def attributeValue : Reader :=
  either (symbol ['\''] >=> attributeEnd '\'') <|
    either (symbol ['"'] >=> attributeEnd '"') <| either g.embedded (g.read .element)

/-- An attribute of an element. -/
def elementAttribute : Reader :=
  either g.embedded (g.elementName >=> maybe (symbol ['='] >=> g.attributeValue))

/-- The text between elements. -/
def elementText : Reader := fun s =>
  match s with
  | [] => none
  | c :: r => if c == '<' || c == '\x7b' then none else some (r.dropWhile fun c => c != '<' && c != '\x7b')

/-- What stands between the tags of an element. -/
def child : Reader :=
  either elementText <| either g.embedded <|
    provided (fun s => !(['<', '/'].isPrefixOf s)) >=> g.read .element

/-- The closing tag of an element. -/
def closingTag : Reader :=
  symbol ['<'] >=> symbol ['/'] >=> maybe g.elementName >=> symbol ['>']

/-- An element with its children, or a fragment. -/
def elementHere : Reader :=
  symbol ['<'] >=>
    either (symbol ['>'] >=> g.repeated g.child >=> g.closingTag)
      (g.elementName >=> maybe g.typeArguments >=> g.repeated g.elementAttribute >=>
        either (symbol ['/'] >=> symbol ['>'])
          (symbol ['>'] >=> g.repeated g.child >=> g.closingTag))

end Scope

end DeclarationDocs.TypeScript
