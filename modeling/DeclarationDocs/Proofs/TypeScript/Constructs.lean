import DeclarationDocs.Proofs.TypeScript.Advancing

namespace DeclarationDocs.TypeScript

/-!
# The constructs of the language are read forward

Every reader of expressions, types and patterns is made of readers that advance, and so are those
of statements in which nothing is found.  So they advance, provided that the readers of the
constructs inside do.

* `Scope.Regular` — what is asked of a scope: its readers advance, and a name that stands where a
  binding is read is the binding;
* an instance of `Advances` for each construct, in the order of the grammar.
-/

/-- A scope whose readers advance, and for which a name is a whole binding. -/
class Scope.Regular (g : Scope) : Prop where
  advances : ∀ what, Advances (g.read what)
  binding : ∀ {s n t r : List Char}, name? s = some (n, t) → g.read .pattern s = some r → r = t

namespace Scope

variable (g : Scope) [hg : g.Regular]

instance (what : Nested) : Advances (g.read what) := hg.advances what

instance : Advances g.assignment := hg.advances _

instance : Advances g.type := hg.advances _

instance : Advances g.statement := hg.advances _

instance : Advances g.pattern := hg.advances _

section Repeating

variable {p item : Reader} {closer : List Char} {g : Scope}

instance [Advances p] : Advances (g.repeated p) := advances_many g.bound

instance [Advances item] : Advances (g.listTo item closer) := by unfold listTo; infer_instance

instance [Advances item] : Advances (g.commaSeparated item) := by
  unfold commaSeparated; infer_instance

end Repeating

instance : Advances g.expression := by unfold expression; infer_instance

instance : Advances g.parenthesised := by unfold parenthesised; infer_instance

/-! ### Blocks, templates and decorators -/

instance : Advances skipLexeme where
  suffix {s r} h := by
    unfold skipLexeme at h
    split at h
    · exact absurd h (by simp)
    · rename_i c t ht
      have hs : c :: t <:+ s := ht ▸ skipTrivia_suffix s
      split at h
      · exact absurd h (by simp)
      · split at h
        · rename_i n u hname
          obtain rfl := Option.some.inj h
          exact ((nameHere?_suffix hname) ▸ List.suffix_append n u).trans hs
        · exact Option.some.inj h ▸ (List.suffix_cons c t).trans hs

instance : Advances g.block := by unfold block; infer_instance

instance {hole : Reader} [hhole : Advances hole] (k : Nat) : Advances (templateTail hole k) := by
  induction k with
  | zero => exact ⟨fun h => absurd h (by simp [templateTail])⟩
  | succ k ih =>
    refine ⟨fun {s r} h => ?_⟩
    unfold templateTail at h
    split at h
    · exact absurd h (by simp)
    · rename_i t ht
      exact Option.some.inj h ▸ templateChunk_suffix ht
    · rename_i t ht
      exact (Advances.suffix h).trans (templateChunk_suffix ht)

instance : Advances g.template := by unfold template; infer_instance

instance : Advances g.templateType := by unfold templateType; infer_instance

instance : Advances string := by unfold string; infer_instance

instance : Advances g.typeArguments := by unfold typeArguments; infer_instance

instance : Advances g.arguments := by unfold arguments; infer_instance

instance : Advances g.dottedName := by unfold dottedName; infer_instance

instance : Advances g.decorator := by unfold decorator; infer_instance

/-! ### Parameters and properties -/

instance : Advances g.typeParameter := by unfold typeParameter; infer_instance

instance : Advances g.typeParameters := by unfold typeParameters; infer_instance

instance : Advances g.annotation := by unfold annotation; infer_instance

instance : Advances g.initializer := by unfold initializer; infer_instance

instance : Advances parameterModifier := by unfold parameterModifier; infer_instance

instance : Advances g.parameter := by unfold parameter; infer_instance

instance : Advances g.parameters := by unfold parameters; infer_instance

instance : Advances g.signature := by unfold signature; infer_instance

instance : Advances number where
  suffix {s _} h := (Advances.suffix (p := numberEnd) h).trans (skipTrivia_suffix s)

instance : Advances g.propertyName := by unfold propertyName; infer_instance

instance : Advances propertyModifier := by unfold propertyModifier; infer_instance

instance : Advances g.methodTail := by unfold methodTail; infer_instance

instance : Advances g.objectMember := by unfold objectMember; infer_instance

instance : Advances g.object := by unfold object; infer_instance

instance : Advances g.array := by unfold array; infer_instance

instance : Advances g.classMember := by unfold classMember; infer_instance

instance : Advances g.classBody := by unfold classBody; infer_instance

/-! ### Functions and classes as values -/

instance (inCondition : Bool) : Advances (g.arrowBody inCondition) := by
  unfold arrowBody; infer_instance

instance (inCondition : Bool) : Advances (g.arrowTail inCondition) := by
  unfold arrowTail; infer_instance

instance (inCondition : Bool) : Advances (g.arrowWithParameters inCondition) where
  suffix {s r} h := by
    unfold arrowWithParameters at h
    split at h
    · exact absurd h (by simp)
    · rename_i t ht
      have hs : t <:+ s := Advances.suffix ht
      split at h
      · exact (Advances.suffix h).trans hs
      · rename_i u hu
        exact ((Advances.suffix h).trans (Advances.suffix hu)).trans hs

instance : Advances identifier where
  suffix h := by
    unfold identifier at h
    split at h
    · rename_i n t hname
      split at h
      · exact absurd h (by simp)
      · exact Option.some.inj h ▸ rest_suffix_of_name? hname
    · exact absurd h (by simp)

instance (inCondition : Bool) : Advances (g.arrowFunction inCondition) := by
  unfold arrowFunction; infer_instance

instance : Advances g.function := by unfold function; infer_instance

instance : Advances g.typeList := by unfold typeList; infer_instance

instance : Advances g.heritageClauses := by unfold heritageClauses; infer_instance

instance : Advances className := by unfold className; infer_instance

instance : Advances g.classValue := by unfold classValue; infer_instance

/-! ### Operands -/

instance : Advances g.elementValue where
  suffix h := by
    unfold elementValue at h
    split at h
    · exact Advances.suffix h
    · exact absurd h (by simp)

instance : Advances g.typeAssertion where
  suffix h := by
    unfold typeAssertion at h
    split at h
    · exact absurd h (by simp)
    · exact Advances.suffix h

instance : Advances g.prefixOperator := by unfold prefixOperator; infer_instance

instance : Advances regex := by unfold regex; infer_instance

instance : Advances newTarget := by unfold newTarget; infer_instance

instance : Advances g.primary := by unfold primary; infer_instance

instance : Advances optionalChain := by unfold optionalChain; infer_instance

instance (after : List Char → Bool) : Advances (g.suffix after) := by
  unfold suffix; infer_instance

instance (after : List Char → Bool) : Advances (g.operand after) := by
  unfold operand; infer_instance

/-! ### Operators -/

instance : Advances operator where
  suffix {s r} h := by
    unfold operator at h
    dsimp only at h
    split at h
    · exact absurd h (by simp)
    · split at h
      · obtain rfl := Option.some.inj h
        exact (List.drop_suffix _ _).trans (skipTrivia_suffix s)
      · exact Advances.suffix h

instance : Advances g.ascription := by unfold ascription; infer_instance

instance (inCondition : Bool) : Advances (g.branches inCondition) := by
  unfold branches; infer_instance

instance : Advances g.yielded := by unfold yielded; infer_instance

instance (inCondition : Bool) : Advances (g.assignmentHere inCondition) := by
  unfold assignmentHere; infer_instance

/-! ### Patterns -/

instance : Advances g.patternProperty := by unfold patternProperty; infer_instance

instance : Advances g.patternItem := by unfold patternItem; infer_instance

instance : Advances g.patternHere := by unfold patternHere; infer_instance

/-! ### Types -/

instance : Advances g.functionType := by unfold functionType; infer_instance

instance : Advances mappedSign := by unfold mappedSign; infer_instance

instance : Advances g.typeMember := by unfold typeMember; infer_instance

instance : Advances g.objectType := by unfold objectType; infer_instance

instance : Advances g.tupleItem := by unfold tupleItem; infer_instance

instance : Advances g.tupleType := by unfold tupleType; infer_instance

instance : Advances g.importType := by unfold importType; infer_instance

instance : Advances g.namedType := by unfold namedType; infer_instance

instance : Advances g.primaryType := by unfold primaryType; infer_instance

instance : Advances typeOperator := by unfold typeOperator; infer_instance

instance (conditional : Bool) : Advances (g.inferred conditional) := by
  unfold inferred; infer_instance

instance : Advances g.typeSuffix := by unfold typeSuffix; infer_instance

instance (conditional : Bool) : Advances (g.typeOperand conditional) := by
  unfold typeOperand; infer_instance

instance : Advances typeMark := by unfold typeMark; infer_instance

instance : Advances g.condition := by unfold condition; infer_instance

instance (conditional : Bool) : Advances (g.typeHere conditional) := by
  cases conditional with
  | false => unfold typeHere; simp only [Bool.false_eq_true, if_false]; infer_instance
  | true => unfold typeHere; simp only [if_true]; infer_instance

/-! ### Elements -/

instance : Advances g.elementName := by unfold elementName; infer_instance

instance : Advances g.embedded := by unfold embedded; infer_instance

instance : Advances g.attributeValue := by unfold attributeValue; infer_instance

instance : Advances g.elementAttribute := by unfold elementAttribute; infer_instance

instance : Advances elementText where
  suffix h := by
    unfold elementText at h
    split at h
    · exact absurd h (by simp)
    · rename_i c t
      split at h
      · exact absurd h (by simp)
      · obtain rfl := Option.some.inj h
        exact (List.dropWhile_suffix _).trans (List.suffix_cons c t)

instance : Advances g.child := by unfold child; infer_instance

instance : Advances g.closingTag := by unfold closingTag; infer_instance

instance : Advances g.elementHere := by unfold elementHere; infer_instance

/-! ### Statements in which nothing is found -/

instance (w : String) : Advances (g.leadingWord w) where
  suffix h := by
    obtain ⟨t, ht, h⟩ := Option.bind_eq_some_iff.mp h
    obtain ⟨⟨commented, u⟩, hu, rfl⟩ := Option.map_eq_some_iff.mp h
    exact (wordContinues_suffix hu).trans (Advances.suffix ht)

instance : Advances fromClause := by unfold fromClause; infer_instance

instance : Advances g.importAttributes := by unfold importAttributes; infer_instance

instance : Advances g.nameList := by unfold nameList; infer_instance

instance : Advances g.exportClause := by unfold exportClause; infer_instance

instance : Advances g.importClause := by unfold importClause; infer_instance

instance : Advances g.loopHead := by unfold loopHead; infer_instance

instance : Advances g.switchBody := by unfold switchBody; infer_instance

instance : Advances g.handlers := by unfold handlers; infer_instance

instance {p : Reader} [Advances p] : Advances (g.ended p) := advances_semicolon true g.bound

instance : Advances g.expressionStatement := by unfold expressionStatement; infer_instance

instance : Advances g.controlStatement := by unfold controlStatement; infer_instance

end Scope

end DeclarationDocs.TypeScript
