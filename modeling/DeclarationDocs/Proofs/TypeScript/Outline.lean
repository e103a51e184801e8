import DeclarationDocs.Proofs.TypeScript.Ahead
import DeclarationDocs.TypeScript.Program

namespace DeclarationDocs.TypeScript

/-!
# Outlines

A part of the language as it is written down: statements with what they hold, how each of them is
written, and what it declares.  Nothing here reads a text.

* `Identifier`, `Gap`, `ModuleName` — the lexemes that are not fixed, and what is between lexemes;
* `ClassText`, `Leaf` — statements that hold no other ones; `Leaf.text`, `Leaf.findings`;
* `Outline` — statements in their order, among them namespaces that hold further ones;
* `SourceText` — a whole source; `SourceText.text`, `SourceText.declared`.
-/

/-! ### Lexemes -/

/-- The words of the language, some of which have a meaning in certain places only. -/
def keywords : List String :=
  ["abstract", "accessor", "any", "as", "assert", "asserts", "async", "await", "bigint", "boolean",
   "break", "case", "catch", "class", "const", "constructor", "continue", "debugger", "declare",
   "default", "delete", "do", "else", "enum", "export", "extends", "false", "finally",
   "for", "from", "function", "get", "global", "if", "implements", "import", "in", "infer",
   "instanceof", "interface", "intrinsic", "is", "keyof", "let", "module", "namespace", "never",
   "new", "null", "number", "object", "of", "out", "override", "package", "private", "protected",
   "public", "readonly", "require", "return", "satisfies", "set", "static", "string", "super",
   "switch", "symbol", "this", "throw", "true", "try", "type", "typeof", "undefined", "unique",
   "unknown", "using", "var", "void", "while", "with", "yield"]

/-- A name that is no keyword. -/
structure Identifier where
  chars : List Char
  isName : IsName chars
  avoids : Avoids chars keywords

/-- Blanks and comments. -/
structure Gap where
  chars : List Char
  isGap : IsGap chars

/-- The name of a module as it stands between its quotes. -/
structure ModuleName where
  chars : List Char
  plain : ∀ c ∈ chars, c ≠ '\'' ∧ c ≠ '\\' ∧ c ≠ '\n'

/-- A word that may be left out, with the blank behind it. -/
def marked (present : Bool) (word : String) : List Char :=
  if present then word.toList ++ [' '] else []

theorem marked_true_append (word : String) (r : List Char) :
    marked true word ++ r = word.toList ++ ' ' :: r := by
  simp [marked]

/-- There are no more items than characters if each of them is written. -/
theorem length_le_flatMap {α : Type} {f : α → List Char} (hf : ∀ x, f x ≠ []) (xs : List α) :
    xs.length ≤ (xs.flatMap f).length := by
  induction xs with
  | nil => exact Nat.le_refl 0
  | cons x xs ih =>
    have hx := List.length_pos_iff.mpr (hf x)
    rw [List.flatMap_cons, List.length_append, List.length_cons]
    omega

/-! ### First words -/

/-- A text begins with one of several words and a blank. -/
def Begins (ws : List String) (s : List Char) : Prop := ∃ w ∈ ws, ∃ v, s = w.toList ++ ' ' :: v

/-- The words that declarations begin with. -/
def declarationWords : List String :=
  ["abstract", "class", "interface", "enum", "type", "const", "let", "var", "function", "namespace"]

/-- The words that statements begin with. -/
def statementWords : List String := ["export", "declare", "import"] ++ declarationWords

/-- Declarations are statements, so their words are among `statementWords`. -/
theorem declarationWords_subset : declarationWords ⊆ statementWords :=
  List.subset_append_right _ _

/-- Each word that a statement begins with is read as a name. -/
theorem isName_of_mem_statementWords :
    ∀ w ∈ statementWords, nameHere? w.toList = some (w.toList, []) := by decide

/-- A text that begins with one of `ws` begins with one of `ws' ⊇ ws`. -/
theorem Begins.mono {ws ws' : List String} {s : List Char} (h : Begins ws s) (hws : ws ⊆ ws') :
    Begins ws' s := by
  obtain ⟨w, hw, v, hv⟩ := h
  exact ⟨w, hws hw, v, hv⟩

/-- The word is the next lexeme. -/
theorem Begins.wordAhead {ws : List String} {s t : List Char} (h : Begins ws t)
    (hs : skipTrivia s = t) (hws : ws ⊆ statementWords) :
    ∃ w ∈ ws, ∃ v, t = w.toList ++ ' ' :: v ∧ WordAhead s w.toList (' ' :: v) := by
  obtain ⟨w, hw, v, rfl⟩ := h
  exact ⟨w, hw, v, rfl, hs, isName_of_nameHere? (isName_of_mem_statementWords w (hws hw)),
    stops_space⟩

/-- Nothing is passed over in front of the word that a statement begins with. -/
theorem Begins.skipTrivia_eq {ws : List String} {t : List Char} (h : Begins ws t)
    (hws : ws ⊆ statementWords) : skipTrivia t = t := by
  obtain ⟨w, hw, v, rfl⟩ := h
  exact (isName_of_nameHere? (isName_of_mem_statementWords w (hws hw))).skipTrivia_append _

/-! ### Classes -/

/-- Names with dots between them. -/
structure DottedName where
  first : Identifier
  others : List Identifier

namespace DottedName

/-- The names behind the first one as they are written. -/
def tail (names : List Identifier) : List Char := names.flatMap fun n => '.' :: n.chars

theorem tail_cons_append (n : Identifier) (names : List Identifier) (r : List Char) :
    tail (n :: names) ++ r = '.' :: (n.chars ++ (tail names ++ r)) := by
  simp [tail]

def text (p : DottedName) : List Char := p.first.chars ++ tail p.others

/-- The last of the names. -/
def last (p : DottedName) : Identifier := p.others.getLast?.getD p.first

end DottedName

/-- A decorator, with or without a call; it may stand on a line of its own. -/
structure Decorator where
  path : DottedName
  called : Bool
  ownLine : Bool

namespace Decorator

/-- The call of a decorator. -/
def call (d : Decorator) : List Char := if d.called then ['(', ')'] else []

def text (d : Decorator) : List Char := '@' :: d.path.text ++ d.call

/-- What stands behind a decorator. -/
def separator (d : Decorator) : Char := if d.ownLine then '\n' else ' '

/-- Decorators in front of something. -/
def texts (ds : List Decorator) : List Char := ds.flatMap fun d => d.text ++ [d.separator]

theorem texts_cons_append (d : Decorator) (ds : List Decorator) (r : List Char) :
    texts (d :: ds) ++ r = d.text ++ d.separator :: (texts ds ++ r) := by
  simp [texts]

/-- Nothing is passed over in front of a decorator. -/
theorem skipTrivia_texts_append (d : Decorator) (ds : List Decorator) (r : List Char) :
    skipTrivia (texts (d :: ds) ++ r) = texts (d :: ds) ++ r := by
  rw [texts_cons_append]
  exact skipTrivia_lexeme (by decide) (by decide)

/-- The name that a decorator is found by. -/
def name (d : Decorator) : List Char := d.path.last.chars

end Decorator

/-- What a class implements. -/
inductive Contract where
  | plain (name : Identifier)
  | qualified (qualifier name : Identifier)
  | generic (name argument : Identifier)

def Contract.text : Contract → List Char
  | .plain n => n.chars
  | .qualified q n => q.chars ++ '.' :: n.chars
  | .generic n m => n.chars ++ '<' :: m.chars ++ ['>']

/-- A contract begins with a lexeme. -/
theorem Contract.skipTrivia_text_append (x : Contract) (r : List Char) :
    skipTrivia (x.text ++ r) = x.text ++ r := by
  cases x with
  | plain n => exact n.isName.skipTrivia_append r
  | qualified q n => rw [text, List.append_assoc, q.isName.skipTrivia_append]
  | generic n m => rw [text, List.append_assoc, List.append_assoc, n.isName.skipTrivia_append]

/-- The words before `class`; a class that is exported by default is not abstract. -/
inductive ClassLead where
  | plain (abstract : Bool)
  | exported (abstract : Bool)
  | default

/-- Whether a class is exported. -/
def ClassLead.exports : ClassLead → Bool
  | .plain _ => false
  | _ => true

def ClassLead.text : ClassLead → List Char
  | .plain abstract => marked abstract "abstract"
  | .exported abstract => marked true "export" ++ marked abstract "abstract"
  | .default => marked true "export" ++ marked true "default"

/-- An exported class begins with the word for it, another one with a word of its own. -/
theorem ClassLead.text_append (l : ClassLead) (r : List Char) :
    (l.exports = true ∧ ∃ v, l.text ++ r = "export".toList ++ ' ' :: v) ∨
      ∃ abstract, l = .plain abstract := by
  cases l with
  | plain abstract => exact .inr ⟨abstract, rfl⟩
  | exported abstract =>
    exact .inl ⟨rfl, _, by rw [text, List.append_assoc, marked_true_append]⟩
  | default => exact .inl ⟨rfl, _, by rw [text, List.append_assoc, marked_true_append]⟩

/-- A class without members. -/
structure ClassText where
  decorators : List Decorator
  lead : ClassLead
  name : Identifier
  base : Option Identifier
  contracts : List Contract

namespace ClassText

/-- The class that is extended. -/
def baseText : Option Identifier → List Char
  | none => []
  | some b => ' ' :: "extends".toList ++ ' ' :: b.chars

/-- The contracts behind the first one. -/
def moreContracts (cs : List Contract) : List Char := cs.flatMap fun c => ',' :: ' ' :: c.text

theorem moreContracts_cons_append (c : Contract) (cs : List Contract) (r : List Char) :
    moreContracts (c :: cs) ++ r = ',' :: ' ' :: (c.text ++ (moreContracts cs ++ r)) := by
  simp [moreContracts]

def contractsText : List Contract → List Char
  | [] => []
  | c :: cs => ' ' :: "implements".toList ++ ' ' :: c.text ++ moreContracts cs

/-- A class from the word `class` on. -/
def bare (c : ClassText) : List Char :=
  "class".toList ++ ' ' :: c.name.chars ++ baseText c.base ++ contractsText c.contracts ++
    [' ', '\x7b', '\x7d']

/-- The text of a class from the word `class` on, with its parts one by one. -/
theorem bare_append (c : ClassText) (r : List Char) :
    c.bare ++ r = "class".toList ++ ' ' :: (c.name.chars ++ (baseText c.base ++
      (contractsText c.contracts ++ ' ' :: '\x7b' :: '\x7d' :: r))) := by
  unfold bare
  simp only [List.append_assoc, List.cons_append, List.nil_append]

/-- What stands behind the first words begins with a lexeme. -/
theorem skipTrivia_bare_append (c : ClassText) (r : List Char) :
    skipTrivia (c.bare ++ r) = c.bare ++ r := by
  rw [bare_append]
  exact (isName_of_nameHere? (r := []) (by decide)).skipTrivia_append _

def text (c : ClassText) : List Char := Decorator.texts c.decorators ++ c.lead.text ++ c.bare

/-- A class begins with `abstract` or `class`. -/
theorem begins_bare (abstract : Bool) (c : ClassText) (r : List Char) :
    Begins ["abstract", "class"] (marked abstract "abstract" ++ (c.bare ++ r)) := by
  cases abstract with
  | true => exact ⟨"abstract", by simp, c.bare ++ r, marked_true_append _ _⟩
  | false => exact ⟨"class", by simp, _, c.bare_append r⟩

/-- The text of a class is made of its decorators, its lead and the rest. -/
theorem length_text (c : ClassText) :
    c.text.length = (Decorator.texts c.decorators).length + c.lead.text.length + c.bare.length := by
  unfold text
  rw [List.length_append, List.length_append]

/-- A class is longer than its list of contracts, so `many` has fuel for them. -/
theorem length_contracts_le (c : ClassText) : c.contracts.length ≤ c.text.length := by
  have hcontracts : c.contracts.length ≤ (contractsText c.contracts).length := by
    cases c.contracts with
    | nil => exact Nat.zero_le _
    | cons x xs =>
      have hmore : xs.length ≤ (moreContracts xs).length :=
        length_le_flatMap (fun _ => List.cons_ne_nil _ _) xs
      simp only [contractsText, List.length_append, List.length_cons]
      omega
  rw [length_text]
  unfold bare
  simp only [List.length_append]
  omega

/-- A class is longer than its list of decorators. -/
theorem length_decorators_le (c : ClassText) : c.decorators.length ≤ c.text.length := by
  have hdecorators : c.decorators.length ≤ (Decorator.texts c.decorators).length :=
    length_le_flatMap (fun _ => List.cons_ne_nil _ _) _
  rw [length_text]
  omega

/-- A class is longer than the path of any of its decorators. -/
theorem length_path_le (c : ClassText) :
    ∀ d ∈ c.decorators, d.path.others.length ≤ c.text.length := by
  intro d hd
  have htail : d.path.others.length ≤ (DottedName.tail d.path.others).length :=
    length_le_flatMap (fun _ => List.cons_ne_nil _ _) _
  obtain ⟨before, after, hds⟩ := List.append_of_mem hd
  rw [length_text, hds, Decorator.texts, List.flatMap_append, List.flatMap_cons]
  simp only [Decorator.text, DottedName.text, List.length_append, List.length_cons]
  omega

/-- What stands behind the decorators begins with a word. -/
theorem begins_lead (c : ClassText) (r : List Char) :
    Begins ["export", "abstract", "class"] (c.lead.text ++ (c.bare ++ r)) := by
  obtain ⟨-, v, hv⟩ | ⟨abstract, hlead⟩ := c.lead.text_append (c.bare ++ r)
  · exact ⟨"export", by simp, v, hv⟩
  · rw [hlead]
    exact (c.begins_bare abstract r).mono (by simp)

/-- What is found in a class. -/
def finding (c : ClassText) : Finding where
  name := c.name.chars
  kind := .classDecl
  decorators := c.decorators.map Decorator.name
  implements := c.contracts.map Contract.text

end ClassText

/-! ### Variables -/

/-- A binding of a value to a name, or of a part of a value to the name of the part. -/
inductive Binding where
  | value (name : Identifier)
  | part (name source : Identifier)

namespace Binding

def text : Binding → List Char
  | .value n => n.chars ++ [' ', '=', ' ', '1']
  | .part n m => '\x7b' :: ' ' :: n.chars ++ ' ' :: '\x7d' :: ' ' :: '=' :: ' ' :: m.chars

/-- The name that is bound, unless it is one of a part. -/
def name : Binding → Option (List Char)
  | .value n => some n.chars
  | .part _ _ => none

/-- The bindings behind the first one. -/
def more (bs : List Binding) : List Char := bs.flatMap fun b => ',' :: ' ' :: b.text

/-- A binding begins with a lexeme. -/
theorem skipTrivia_text_append (b : Binding) (r : List Char) :
    skipTrivia (b.text ++ r) = b.text ++ r := by
  cases b with
  | value n => rw [text, List.append_assoc, n.isName.skipTrivia_append]
  | part n m => exact skipTrivia_lexeme (by decide) (by decide)

theorem filterMap_name_cons (b : Binding) (bs : List Binding) :
    (b :: bs).filterMap name = b.name.toList ++ bs.filterMap name := by
  cases b with
  | value n => rfl
  | part n m => rfl

/-- Further bindings are no more than there are characters in `more bs`. -/
theorem length_le_more (bs : List Binding) : bs.length ≤ (more bs).length :=
  length_le_flatMap (fun _ => List.cons_ne_nil _ _) bs

theorem more_cons_append (b : Binding) (bs : List Binding) (r : List Char) :
    more (b :: bs) ++ r = ',' :: ' ' :: (b.text ++ (more bs ++ r)) := by
  simp [more]

end Binding

inductive VariableWord where
  | const
  | let
  | var
deriving DecidableEq

def VariableWord.word : VariableWord → String
  | .const => "const"
  | .let => "let"
  | .var => "var"

/-- The word in front of variables begins a declaration. -/
theorem VariableWord.word_mem (w : VariableWord) : w.word ∈ declarationWords := by
  cases w with
  | const => decide
  | «let» => decide
  | var => decide

/-! ### Statements -/

/-- A statement that holds no other ones. -/
inductive Leaf where
  | classDecl (c : ClassText)
  | interface (exported : Bool) (name : Identifier)
  | enum (exported : Bool) (name : Identifier)
  | typeAlias (exported : Bool) (name : Identifier)
  | bindings (exported : Bool) (word : VariableWord) (first : Binding) (others : List Binding)
  | ambientClass (name : Identifier)
  | importOf (name : ModuleName)
  | function (name : Identifier)

namespace Leaf

/-- How a statement is written. -/
def text : Leaf → List Char
  | .classDecl c => c.text
  | .interface exported n =>
    marked exported "export" ++ "interface".toList ++ ' ' :: n.chars ++ [' ', '\x7b', '\x7d']
  | .enum exported n =>
    marked exported "export" ++ "enum".toList ++ ' ' :: n.chars ++ [' ', '\x7b', '\x7d']
  | .typeAlias exported n =>
    marked exported "export" ++ "type".toList ++ ' ' :: n.chars ++ ' ' :: '=' :: ' ' ::
      "number".toList ++ [';']
  | .bindings exported w b bs =>
    marked exported "export" ++ w.word.toList ++ ' ' :: b.text ++ Binding.more bs ++ [';']
  | .ambientClass n =>
    "declare".toList ++ ' ' :: "class".toList ++ ' ' :: n.chars ++ [' ', '\x7b', '\x7d']
  | .importOf m => "import".toList ++ ' ' :: '\'' :: m.chars ++ ['\'', ';']
  | .function n =>
    "function".toList ++ ' ' :: n.chars ++ ['(', ')', ' ', '\x7b', '\x7d']

/-- What is found in a statement: of variables, only exported constants count. -/
def findings : Leaf → List Finding
  | .classDecl c => [c.finding]
  | .interface _ n => [.simple .interface n.chars]
  | .enum _ n => [.simple .enum n.chars]
  | .typeAlias _ n => [.simple .typeAlias n.chars]
  | .bindings true .const b bs =>
    ((b :: bs).filterMap Binding.name).map (.simple .exportedConst)
  | .bindings _ _ _ _ => []
  | .ambientClass n => [.simple .classDecl n.chars]
  | .importOf _ => []
  | .function _ => []

/-- What a statement declares that begins on the given line. -/
def declared (x : Leaf) (line : Nat) : List Declaration :=
  x.findings.map fun f =>
    { name := String.ofList f.name
      kind := f.kind
      rawText := String.ofList x.text
      decorators := f.decorators.map String.ofList
      implements := f.implements.map String.ofList
      line := line }

end Leaf

/-- Statements in their order.  Behind each of them a line ends. -/
inductive Outline where
  | nil
  | leaf (x : Leaf) (gap : Gap) (rest : Outline)
  | nest (name : Identifier) (opening : Gap) (body : Outline) (gap : Gap) (rest : Outline)

namespace Outline

/-- A namespace with the given text in its braces. -/
def namespaceText (name : Identifier) (inner : List Char) : List Char :=
  "namespace".toList ++ ' ' :: name.chars ++ ' ' :: '\x7b' :: inner ++ ['\x7d']

/-- How statements are written. -/
def text : Outline → List Char
  | .nil => []
  | .leaf x gap rest => x.text ++ '\n' :: gap.chars ++ rest.text
  | .nest n opening body gap rest =>
    namespaceText n (opening.chars ++ body.text) ++ '\n' :: gap.chars ++ rest.text

/-- The text of a leaf comes first, then a line break, the gap and the `rest`. -/
theorem text_leaf_append (x : Leaf) (gap : Gap) (rest : Outline) (r : List Char) :
    (leaf x gap rest).text ++ r = x.text ++ '\n' :: (gap.chars ++ (rest.text ++ r)) := by
  simp only [text, List.append_assoc, List.cons_append]

/-- The text of a namespace comes first, with its `body`, and then as behind a leaf. -/
theorem text_nest_append (n : Identifier) (opening : Gap) (body : Outline) (gap : Gap)
    (rest : Outline) (r : List Char) : (nest n opening body gap rest).text ++ r =
      namespaceText n (opening.chars ++ body.text) ++
        '\n' :: (gap.chars ++ (rest.text ++ r)) := by
  simp only [text, List.append_assoc, List.cons_append]

/-- What a statement and the `rest` hold is shorter than both together. -/
theorem length_leaf (x : Leaf) (gap : Gap) (rest : Outline) :
    x.text.length + rest.text.length < (leaf x gap rest).text.length := by
  simp only [text, List.length_append, List.length_cons]
  omega

/-- So it is for the `body` of a namespace and the `rest`. -/
theorem length_nest (n : Identifier) (opening : Gap) (body : Outline) (gap : Gap)
    (rest : Outline) :
    body.text.length + rest.text.length + 1 < (nest n opening body gap rest).text.length := by
  simp only [text, List.length_append, List.length_cons]
  unfold namespaceText
  simp only [List.length_append, List.length_cons]
  omega

/-- What statements declare that stand behind the text `before`.  A namespace declares nothing. -/
def declared (before : List Char) : Outline → List Declaration
  | .nil => []
  | .leaf x gap rest =>
    x.declared (1 + before.count '\n') ++ rest.declared (before ++ (x.text ++ '\n' :: gap.chars))
  | .nest n opening body gap rest =>
    rest.declared (before ++
      (namespaceText n (opening.chars ++ body.text) ++ '\n' :: gap.chars))

end Outline

/-- How a source ends: behind the last gap there may be a comment whose line does not end. -/
inductive Ending where
  | nothing
  | comment (content : List Char) (h : ∀ c ∈ content, endsLine c = false)

def Ending.text : Ending → List Char
  | .nothing => []
  | .comment content _ => '/' :: '/' :: content

/-- A source made of statements. -/
structure SourceText where
  opening : Gap
  outline : Outline
  ending : Ending

namespace SourceText

def text (p : SourceText) : List Char := p.opening.chars ++ p.outline.text ++ p.ending.text

/-- What a source declares. -/
def declared (p : SourceText) : List Declaration := p.outline.declared p.opening.chars

end SourceText

end DeclarationDocs.TypeScript
