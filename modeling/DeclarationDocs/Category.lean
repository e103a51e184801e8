import DeclarationDocs.Declaration

/-!
# Template categories

Each declaration is documented through the template of a category.  A class has one category
per decorator that is known, independently of the others; every other kind has exactly one.

The category of an `Injectable` class depends on its contracts: `contractRules` are tried in
order, and the first one that some contract satisfies decides.
-/

namespace DeclarationDocs

/-- The kind of template that documents a declaration. -/
inductive Category where
  | component
  | directive
  | service
  | guard
  | interceptor
  | resolver
  | pipe
  | module
  | interface
  | enum
  | type
  | constant
deriving DecidableEq, Repr, Inhabited

namespace Category

/-- All categories in order. -/
def all : List Category :=
  [.component, .directive, .service, .guard, .interceptor, .resolver, .pipe, .module,
   .interface, .enum, .type, .constant]

/-- The name of a category. -/
def name : Category → String
  | .component => "component"
  | .directive => "directive"
  | .service => "service"
  | .guard => "guard"
  | .interceptor => "interceptor"
  | .resolver => "resolver"
  | .pipe => "pipe"
  | .module => "module"
  | .interface => "interface"
  | .enum => "enum"
  | .type => "type"
  | .constant => "constant"

/-- The name of the template file of a category. -/
def fileName (c : Category) : String := c.name ++ ".md"

/-- The category with the given name. -/
def ofName? (s : String) : Option Category := all.find? fun c => c.name == s

/-- The complaint about a name that no category has. -/
def unknownMessage (s : String) : String := "Unknown template category: " ++ s

end Category

/-! ### Classification -/

/-- How the contracts of a class are recognised. -/
inductive ContractRule where
  | oneOf (names : List String)
  | startsWith (beginning : String)

/-- Whether a written contract satisfies a rule. -/
def ContractRule.accepts : ContractRule → String → Bool
  | oneOf names, written => names.contains written
  | startsWith beginning, written => beginning.toList.isPrefixOf written.toList

/-- The rules for injectable classes, in order of priority. -/
def contractRules : List (ContractRule × Category) :=
  [(.oneOf ["HttpInterceptor"], .interceptor),
   (.oneOf ["CanActivate", "CanActivateChild", "CanDeactivate", "CanLoad"], .guard),
   (.startsWith "Resolve<", .resolver)]

/-- The category of an injectable class with the given contracts. -/
def injectableCategory (implements : List String) : Category :=
  match contractRules.find? fun rule => implements.any rule.1.accepts with
  | some rule => rule.2
  | none => .service

/-- What a known decorator says about its class. -/
inductive DecoratorMeaning where
  | fixed (c : Category)
  | byContract

/-- The known decorators. -/
def knownDecorators : List (String × DecoratorMeaning) :=
  [("Component", .fixed .component),
   ("Directive", .fixed .directive),
   ("Pipe", .fixed .pipe),
   ("NgModule", .fixed .module),
   ("Injectable", .byContract)]

/-- The category that a decorator gives to a class with the given contracts, if it is known. -/
def decoratorCategory (decorator : String) (implements : List String) : Option Category :=
  (knownDecorators.lookup decorator).map fun
    | .fixed c => c
    | .byContract => injectableCategory implements

/-- The known decorators of a class with their categories, in written order. -/
def classCategories (decorators implements : List String) : List (String × Category) :=
  decorators.filterMap fun d => (decoratorCategory d implements).map fun c => (d, c)

/-- The categories of a declaration, in the order in which its documents are written. -/
def Declaration.categories (d : Declaration) : List Category :=
  match d.kind with
  | .classDecl => (classCategories d.decorators d.implements).map Prod.snd
  | .interface => [.interface]
  | .enum => [.enum]
  | .typeAlias => [.type]
  | .exportedConst => [.constant]

end DeclarationDocs
