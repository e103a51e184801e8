import DeclarationDocs.Text.Search
import DeclarationDocs.Url.Percent

/-!
# Domain names

The host of a URL of the web may be a name in any script.  Before it is looked at it is turned
into ASCII: capitals become small letters, and a label beyond ASCII becomes one that starts with
`xn--`.  Which label that is depends on tables of characters that are not part of this library, so
the conversion is given from outside, with the laws that a reader of URLs relies on.

* `isForbidden c`: whether `c` stands in no name that was converted;
* `DomainNames`: a conversion `toAscii` with its laws;
* `DomainNames.ascii`: the conversion of names that are written in ASCII.
-/

namespace DeclarationDocs.Url

/-- The characters that no name of a host may have: all that `isControl` excludes, which is
everything beyond ASCII too, and the marks that end a host or take part of one. -/
def isForbidden (c : Char) : Bool := isControl c || " %#/:<>?@[\\]^|".toList.contains c

/-- A conversion of domain names to ASCII; `toAscii d` is `none` for a name `d` that is no domain
name.  What it makes has no forbidden character and is converted to itself, and a name in small
letters of ASCII stands for itself unless it looks like one that was converted. -/
structure DomainNames where
  toAscii : List Char → Option (List Char)
  allowed : ∀ {d a : List Char}, toAscii d = some a → ∀ c ∈ a, isForbidden c = false
  again : ∀ {d a : List Char}, toAscii d = some a → toAscii a = some a
  plain : ∀ {d : List Char}, Text.lowerAscii d = d → (∀ c ∈ d, isForbidden c = false) →
    ¬ "xn--".toList <:+: d → toAscii d = some d

/-- The name in small letters, unless it has a forbidden character. -/
def asciiName (d : List Char) : Option (List Char) :=
  if (Text.lowerAscii d).any isForbidden then none else some (Text.lowerAscii d)

/-- What `asciiName` makes is its argument in small letters, without forbidden characters. -/
theorem asciiName_eq_some_iff {d a : List Char} :
    asciiName d = some a ↔ a = Text.lowerAscii d ∧ ∀ c ∈ a, isForbidden c = false := by
  unfold asciiName
  constructor
  · intro h
    split at h
    · exact absurd h (by simp)
    · rename_i hany
      obtain rfl := Option.some.inj h
      exact ⟨rfl, fun c hc => by
        rw [Bool.eq_false_iff]
        exact fun hforbidden => hany (List.any_eq_true.mpr ⟨c, hc, hforbidden⟩)⟩
  · rintro ⟨rfl, hallowed⟩
    rw [if_neg]
    rw [List.any_eq_true]
    rintro ⟨c, hc, hforbidden⟩
    rw [hallowed c hc] at hforbidden
    exact Bool.noConfusion hforbidden

/-- The conversion of names that are written in ASCII: no other name is one, and labels that start
with `xn--` are not looked into. -/
def DomainNames.ascii : DomainNames where
  toAscii := asciiName
  allowed h := (asciiName_eq_some_iff.mp h).2
  again h := by
    obtain ⟨rfl, hallowed⟩ := asciiName_eq_some_iff.mp h
    exact asciiName_eq_some_iff.mpr ⟨(Text.lowerAscii_lowerAscii _).symm, hallowed⟩
  plain hlower hallowed _ := asciiName_eq_some_iff.mpr ⟨hlower.symm, hallowed⟩

end DeclarationDocs.Url
