import DeclarationDocs.Category
import DeclarationDocs.Proofs.Lookup
import Mathlib.Data.List.Forall2

namespace DeclarationDocs

/-!
# Categories of classes

What a decorator says about a class depends on which contracts the class has, and not on how they
are written down: it is the rules that are tried in order, and not the contracts.  A further
contract meets further rules and fails none that was met, so it never lowers the category.

* `Category.standing` — the order of the categories of injectable classes;
* `isMet` — whether some contract satisfies a rule;
* `standing_find?_le` — where more rules are met, the first of them stands no lower;
* `injectableCategory_eq`, `standing_mono` — the category of an injectable class;
* `forall₂_classCategories` — the categories of a class, decorator by decorator;
* `classes_categorized` — all of it, for `decoratorCategory d implements` and
  `classCategories ds implements`.
-/

/-- How high a category of injectable classes stands: services, resolvers, guards, interceptors. -/
def Category.standing : Category → Nat
  | .interceptor => 3
  | .guard => 2
  | .resolver => 1
  | _ => 0

/-- The contracts of route guards. -/
def guardContracts : List String :=
  ["CanActivate", "CanActivateChild", "CanDeactivate", "CanLoad"]

/-- Whether some contract satisfies the rule. -/
def isMet (implements : List String) (rule : ContractRule × Category) : Bool :=
  implements.any rule.1.accepts

/-- The decorator says something about its class. -/
def IsKnownDecorator (d : String) : Prop := d ∈ knownDecorators.map Prod.fst

instance (d : String) : Decidable (IsKnownDecorator d) :=
  inferInstanceAs (Decidable (d ∈ knownDecorators.map Prod.fst))

variable {d : String} {implements more : List String} {c : Category}
  {rules : List (ContractRule × Category)} {p q : ContractRule × Category → Bool}

/-! ### Rules -/

/-- One of the `names` is among what is implemented. -/
theorem isMet_oneOf_iff {names : List String} :
    isMet implements (.oneOf names, c) = true ↔ ∃ n ∈ names, n ∈ implements := by
  simp only [isMet, List.any_eq_true, ContractRule.accepts, List.contains_iff_mem]
  exact ⟨fun ⟨n, hn, hmem⟩ => ⟨n, hmem, hn⟩, fun ⟨n, hmem, hn⟩ => ⟨n, hn, hmem⟩⟩

/-- Something that is implemented begins so. -/
theorem isMet_startsWith_iff {beginning : String} :
    isMet implements (.startsWith beginning, c) = true ↔
      ∃ n ∈ implements, beginning.toList <+: n.toList := by
  simp only [isMet, List.any_eq_true, ContractRule.accepts, List.isPrefixOf_iff_prefix]

/-- A rule that is met by some contracts is met by more of them. -/
theorem isMet_mono (h : implements ⊆ more) (rule : ContractRule × Category)
    (hrule : isMet implements rule = true) : isMet more rule = true := by
  obtain ⟨n, hn, haccepts⟩ := List.any_eq_true.mp hrule
  exact List.any_eq_true.mpr ⟨n, h hn, haccepts⟩

/-- Where more rules are met, the first of them stands no lower. -/
theorem standing_find?_le (hsorted : rules.Pairwise fun r s => s.2.standing ≤ r.2.standing)
    (hpq : ∀ r, p r = true → q r = true) :
    ((rules.find? p).elim 0 fun r => r.2.standing) ≤
      (rules.find? q).elim 0 fun r => r.2.standing := by
  induction rules with
  | nil => exact Nat.le_refl _
  | cons r rules ih =>
    obtain ⟨hr, hsorted⟩ := List.pairwise_cons.mp hsorted
    by_cases hq : q r = true
    · -- whichever rule was the first to be met, it does not stand in front of this one
      rw [List.find?_cons_of_pos hq, Option.elim_some]
      by_cases hp : p r = true
      · have hfind : (r :: rules).find? p = some r := List.find?_cons_of_pos hp
        simp only [hfind, Option.elim_some, Nat.le_refl]
      · rw [List.find?_cons_of_neg hp]
        cases hfind : rules.find? p with
        | none => exact Nat.zero_le _
        | some s => exact hr s (List.mem_of_find?_eq_some hfind)
    · rw [List.find?_cons_of_neg hq, List.find?_cons_of_neg fun hp => hq (hpq r hp)]
      exact ih hsorted

/-! ### Injectable classes -/

/-- An injectable class has the category of the first rule that is met. -/
theorem injectableCategory_eq_elim (implements : List String) :
    injectableCategory implements =
      (contractRules.find? (isMet implements)).elim .service Prod.snd := by
  have hmet : (fun rule => implements.any rule.1.accepts) = isMet implements := rfl
  rw [injectableCategory, hmet]
  cases contractRules.find? (isMet implements) <;> rfl

/-- **Injectable classes.**  The category of an injectable class, rule by rule. -/
theorem injectableCategory_eq (implements : List String) :
    injectableCategory implements =
      if "HttpInterceptor" ∈ implements then .interceptor
      else if ∃ n ∈ guardContracts, n ∈ implements then .guard
      else if ∃ n ∈ implements, "Resolve<".toList <+: n.toList then .resolver
      else .service := by
  have hrules : contractRules = [(.oneOf ["HttpInterceptor"], .interceptor),
      (.oneOf guardContracts, .guard), (.startsWith "Resolve<", .resolver)] := rfl
  have hfirst : isMet implements (.oneOf ["HttpInterceptor"], .interceptor) = true ↔
      "HttpInterceptor" ∈ implements := by
    rw [isMet_oneOf_iff]
    simp
  rw [injectableCategory_eq_elim, hrules]
  -- each further case has refused one more rule
  split_ifs with hinterceptor hguard hresolver
  · rw [List.find?_cons_of_pos (hfirst.mpr hinterceptor)]
    rfl
  · rw [List.find?_cons_of_neg (hfirst.not.mpr hinterceptor),
      List.find?_cons_of_pos (isMet_oneOf_iff.mpr hguard)]
    rfl
  · rw [List.find?_cons_of_neg (hfirst.not.mpr hinterceptor),
      List.find?_cons_of_neg (isMet_oneOf_iff.not.mpr hguard),
      List.find?_cons_of_pos (isMet_startsWith_iff.mpr hresolver)]
    rfl
  · rw [List.find?_cons_of_neg (hfirst.not.mpr hinterceptor),
      List.find?_cons_of_neg (isMet_oneOf_iff.not.mpr hguard),
      List.find?_cons_of_neg (isMet_startsWith_iff.not.mpr hresolver)]
    rfl

/-- The category stands where the first rule that is met puts it. -/
theorem standing_injectableCategory (implements : List String) :
    (injectableCategory implements).standing =
      (contractRules.find? (isMet implements)).elim 0 fun rule => rule.2.standing := by
  rw [injectableCategory_eq_elim]
  cases contractRules.find? (isMet implements) <;> rfl

/-- **Further contracts** never lower the category. -/
theorem standing_mono (h : implements ⊆ more) :
    (injectableCategory implements).standing ≤ (injectableCategory more).standing := by
  rw [standing_injectableCategory, standing_injectableCategory]
  exact standing_find?_le (by decide) (isMet_mono h)

/-- Only the set of contracts matters. -/
theorem injectableCategory_congr (h : ∀ n, n ∈ more ↔ n ∈ implements) :
    injectableCategory more = injectableCategory implements := by
  have hmet : isMet more = isMet implements := by
    funext rule
    rw [Bool.eq_iff_iff]
    exact ⟨isMet_mono (fun n => (h n).mp) rule, isMet_mono (fun n => (h n).mpr) rule⟩
  rw [injectableCategory_eq_elim, injectableCategory_eq_elim, hmet]

/-! ### Classes -/

/-- The category of an injectable class goes by what it implements. -/
theorem decoratorCategory_injectable (implements : List String) :
    decoratorCategory "Injectable" implements = some (injectableCategory implements) := by
  simp [decoratorCategory, knownDecorators, List.lookup_cons]

/-- A decorator gives a category just when it is known. -/
theorem decoratorCategory_eq_none_iff :
    decoratorCategory d implements = none ↔ ¬ IsKnownDecorator d := by
  rw [decoratorCategory, Option.map_eq_none_iff, lookup_eq_none_iff_notMem_keys]
  exact Iff.rfl

/-- **Classes.**  A class has the categories of its known decorators, one for each of them. -/
theorem forall₂_classCategories (ds implements : List String) :
    List.Forall₂ (fun d x => x.1 = d ∧ decoratorCategory d implements = some x.2)
      (ds.filter (IsKnownDecorator ·)) (classCategories ds implements) := by
  unfold classCategories
  induction ds with
  | nil => exact .nil
  | cons d ds ih =>
    have hknown : decoratorCategory d implements = none ↔ ¬ IsKnownDecorator d :=
      decoratorCategory_eq_none_iff
    cases hd : decoratorCategory d implements with
    | none =>
      -- an unknown decorator is left out on both sides
      rw [List.filter_cons_of_neg (by simpa using hknown.mp hd),
        List.filterMap_cons_none (by rw [hd]; rfl)]
      exact ih
    | some c =>
      rw [hd] at hknown
      rw [List.filter_cons_of_pos (by simpa using hknown),
        List.filterMap_cons_some (by rw [hd]; rfl)]
      exact .cons ⟨rfl, hd⟩ ih

/-- **Categories.**  The `decoratorCategory` of an injectable class is that of the first rule that
    its contracts meet, whatever their order is and however often they are written, and a further
    contract never lowers its `standing`.  `classCategories` has one category for each decorator
    that `IsKnownDecorator`, in written order. -/
theorem classes_categorized (implements : List String) :
    decoratorCategory "Injectable" implements = some
      (if "HttpInterceptor" ∈ implements then .interceptor
      else if ∃ n ∈ guardContracts, n ∈ implements then .guard
      else if ∃ n ∈ implements, "Resolve<".toList <+: n.toList then .resolver
      else .service) ∧
    (∀ other, (∀ n, n ∈ other ↔ n ∈ implements) →
      decoratorCategory "Injectable" other = decoratorCategory "Injectable" implements) ∧
    (∀ more, ∃ old new, decoratorCategory "Injectable" implements = some old ∧
      decoratorCategory "Injectable" (implements ++ more) = some new ∧
      old.standing ≤ new.standing) ∧
    (∀ ds, List.Forall₂ (fun d x => x.1 = d ∧ decoratorCategory d implements = some x.2)
      (ds.filter (IsKnownDecorator ·)) (classCategories ds implements)) ∧
    ∀ ds₁ ds₂, classCategories (ds₁ ++ ds₂) implements =
      classCategories ds₁ implements ++ classCategories ds₂ implements := by
  simp only [decoratorCategory_injectable]
  refine ⟨?_, fun other hother => ?_, fun more => ?_, fun ds => ?_, fun ds₁ ds₂ => ?_⟩
  · rw [injectableCategory_eq]
  · rw [injectableCategory_congr hother]
  · exact ⟨_, _, rfl, rfl, standing_mono (List.subset_append_left implements more)⟩
  · exact forall₂_classCategories ds implements
  · exact List.filterMap_append

/-- Contracts in another order, one of them twice, and one more that decides. -/
theorem classes_categorized_guarded :
    (∀ n, n ∈ ["CanLoad", "Resolve<Hero>", "CanLoad"] ↔ n ∈ ["Resolve<Hero>", "CanLoad"]) ∧
    decoratorCategory "Injectable" ["CanLoad", "Resolve<Hero>", "CanLoad"] =
      decoratorCategory "Injectable" ["Resolve<Hero>", "CanLoad"] ∧
    decoratorCategory "Injectable" ["Resolve<Hero>", "CanLoad"] = some .guard ∧
    ∃ old new, decoratorCategory "Injectable" ["Resolve<Hero>", "CanLoad"] = some old ∧
      decoratorCategory "Injectable" (["Resolve<Hero>", "CanLoad"] ++ ["HttpInterceptor"]) =
        some new ∧ old.standing ≤ new.standing := by
  have hsame : ∀ n, n ∈ ["CanLoad", "Resolve<Hero>", "CanLoad"] ↔
      n ∈ ["Resolve<Hero>", "CanLoad"] := by
    intro n
    simp only [List.mem_cons, List.not_mem_nil]
    tauto
  obtain ⟨hrules, hset, hmore, -⟩ := classes_categorized ["Resolve<Hero>", "CanLoad"]
  exact ⟨hsame, hset _ hsame, hrules.trans (by decide), hmore _⟩

end DeclarationDocs
