import AtomicCss.Data.OrderedMap
import AtomicCss.Model.Record
set_option autoImplicit false

namespace AtomicCss

abbrev ClassMap := OrderedMap Text (OrderedMap Text (List Text))

structure MissingClass where
  style : StyleName
  deriving DecidableEq, Repr

def MissingClass.message (e : MissingClass) : Text := e.style.text ++ " is undefined".toList

/-- An argument of `ClassMap.combine`: a style, or styles each with whether it counts. -/
inductive ClassArgument where
  | style (name : Text)
  | toggles (l : List (Text × Bool))
  deriving DecidableEq, Repr

def ClassArgument.enabled : ClassArgument → List Text
  | .style name => [name]
  | .toggles l => (l.filter (·.2)).map (·.1)

namespace ClassMap

def classList (idents : List Text) : Text := Text.join [' '] idents

/-- Adds a namespace, so that it is exported also without styles. -/
def addNamespace (m : ClassMap) (space : Text) : ClassMap :=
  m.put space ((m.get? space).getD [])

def insert (m : ClassMap) (style : StyleName) (idents : List Text) : ClassMap :=
  m.put style.space (((m.get? style.space).getD []).put style.name idents)

def idents? (m : ClassMap) (style : StyleName) : Option (List Text) :=
  (m.get? style.space).bind (·.get? style.name)

def has (m : ClassMap) (style : StyleName) : Bool := (m.idents? style).isSome

def get (m : ClassMap) (style : StyleName) : Except MissingClass Text :=
  match m.idents? style with
  | some idents => .ok (classList idents)
  | none => .error ⟨style⟩

def entries (m : ClassMap) (space : Text) : List (Text × Text) :=
  ((m.get? space).getD []).map fun e => (e.1, classList e.2)

/-- The class lists of all styles that count, in the order of the arguments and with repeats. -/
def combine (m : ClassMap) (space : Text) (arguments : List ClassArgument) :
    Except MissingClass Text := do
  let lists ← (arguments.flatMap ClassArgument.enabled).mapM fun name => m.get ⟨space, name⟩
  return classList (lists.filter (!·.isEmpty))

def build (spaces : List Text) (names : List StyleName) (assignments : List (List Text)) :
    ClassMap :=
  (names.zip assignments).foldl (fun m e => m.insert e.1 e.2) (spaces.foldl addNamespace [])

theorem idents?_insert (m : ClassMap) (style other : StyleName) (idents : List Text) :
    (m.insert style idents).idents? other =
      if style = other then some idents else m.idents? other := by
  obtain ⟨s, n⟩ := style
  obtain ⟨t, k⟩ := other
  simp only [insert, idents?, OrderedMap.get?_put, StyleName.mk.injEq]
  by_cases hs : s = t
  · subst hs
    by_cases hn : n = k
    · simp [hn, OrderedMap.get?_put]
    · cases h : OrderedMap.get? m s <;> simp [hn, OrderedMap.get?_put]
  · simp [hs]

theorem has_iff {m : ClassMap} {style : StyleName} :
    m.has style = true ↔ ∃ t, m.get style = .ok t := by
  unfold has get
  cases m.idents? style <;> simp

end ClassMap
end AtomicCss
