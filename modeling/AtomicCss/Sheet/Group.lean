import AtomicCss.Data.Sorted
import AtomicCss.Model.Record
set_option autoImplicit false

/-!
Grouping the declarations of a scope by the set of those who contribute them.

Two declarations are in one group exactly when the same names declare them under the same suffixes
with the same repeats. Groups depend on the set of records only, not on their order.
-/

namespace AtomicCss

/-- How the class of a rule stands in a selector. -/
structure Variant where
  suffix : Text
  repeats : Nat
  deriving DecidableEq, Repr

structure Contributor where
  name : NameId
  variant : Variant
  deriving DecidableEq, Repr

instance : Ord Variant where
  compare := compareLex (compareOn Variant.suffix) (compareOn Variant.repeats)

instance : Std.TransOrd Variant :=
  inferInstanceAs (Std.TransCmp (compareLex (compareOn Variant.suffix) (compareOn Variant.repeats)))

instance : Std.LawfulEqOrd Variant where
  eq_of_compare {a b} h := by
    obtain ⟨h₁, h₂⟩ := compareLex_eq_eq.1 h
    cases a; cases b
    simp only [compareOn, Std.LawfulEqOrd.compare_eq_iff_eq] at h₁ h₂
    simp [h₁, h₂]

instance : Ord Contributor where
  compare := compareLex (compareOn Contributor.name) (compareOn Contributor.variant)

instance : Std.TransOrd Contributor :=
  inferInstanceAs
    (Std.TransCmp (compareLex (compareOn Contributor.name) (compareOn Contributor.variant)))

instance : Std.LawfulEqOrd Contributor where
  eq_of_compare {a b} h := by
    obtain ⟨h₁, h₂⟩ := compareLex_eq_eq.1 h
    cases a; cases b
    simp only [compareOn, Std.LawfulEqOrd.compare_eq_iff_eq] at h₁ h₂
    simp [h₁, h₂]

structure Declaration where
  property : Text
  value : Text
  deriving DecidableEq, Repr

instance : Ord Declaration where
  compare := compareLex (compareOn Declaration.property) (compareOn Declaration.value)

instance : Std.TransOrd Declaration :=
  inferInstanceAs
    (Std.TransCmp (compareLex (compareOn Declaration.property) (compareOn Declaration.value)))

instance : Std.LawfulEqOrd Declaration where
  eq_of_compare {a b} h := by
    obtain ⟨h₁, h₂⟩ := compareLex_eq_eq.1 h
    cases a; cases b
    simp only [compareOn, Std.LawfulEqOrd.compare_eq_iff_eq] at h₁ h₂
    simp [h₁, h₂]

def Record.declaration (r : Record) : Declaration := ⟨r.property, r.value⟩

def Record.contributor (r : Record) : Contributor := ⟨r.site.name, r.site.suffix, r.repeats⟩

structure Group where
  contributors : List Contributor
  declarations : List Declaration
  deriving DecidableEq, Repr

namespace Group

def contributorsOf (records : List Record) (d : Declaration) : List Contributor :=
  Sorted.ofList ((records.filter (·.declaration = d)).map Record.contributor)

/-- Each declaration of the records with its contributors, ascending. -/
def contributions (records : List Record) : List (List Contributor × Declaration) :=
  (Sorted.ofList (records.map Record.declaration)).map fun d => (contributorsOf records d, d)

def bySet (records : List Record) : List Group :=
  let contributions := contributions records
  (Sorted.ofList (contributions.map (·.1))).map fun set =>
    ⟨set, (contributions.filter (·.1 = set)).map (·.2)⟩

def isOwn (g : Group) : Bool := g.contributors.length = 1

/-- The groups of a scope: those of a single contributor first, then the shared ones. -/
def ofRecords (records : List Record) : List Group :=
  (bySet records).filter isOwn ++ (bySet records).filter (!·.isOwn)

end Group
end AtomicCss
