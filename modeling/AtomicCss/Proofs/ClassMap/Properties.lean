import AtomicCss.ClassMap.Basic
import AtomicCss.Proofs.Data.OrderedMap
set_option autoImplicit false

/-!
The object that is printed for a namespace, as the code that loads it sees it.

A member is an own property under its name, and the last of several with one name counts. The name
`__proto__` is an exception: it stands for the prototype, which a string does not set.
-/

namespace AtomicCss

def protoName : Text := "__proto__".toList

/-- The own properties of an object with these members. -/
def ownProperties (members : List (Text × Text)) : OrderedMap Text Text :=
  .ofList (members.filter fun e => e.1 ≠ protoName)

theorem get?_ownProperties {members : List (Text × Text)} (h : (members.map (·.1)).Nodup)
    (q : Text) :
    (ownProperties members).get? q =
      if q = protoName then none else OrderedMap.get? members q := by
  have hnodup : ((members.filter fun e => e.1 ≠ protoName).map (·.1)).Nodup :=
    h.sublist (List.filter_sublist.map _)
  rw [ownProperties, OrderedMap.ofList_of_nodup hnodup,
    OrderedMap.get?_filter_keys members fun k => k ≠ protoName]
  by_cases hq : q = protoName
  · simp [hq]
  · simp [hq]

namespace ClassMap

/-- No namespace has two styles with one name. -/
def StylesDistinct (m : ClassMap) : Prop :=
  ∀ space, (OrderedMap.keys ((m.get? space).getD [])).Nodup

variable {m : ClassMap} {space : Text}

theorem StylesDistinct.put (hm : m.StylesDistinct) {styles : OrderedMap Text (List Text)}
    (h : styles.keys.Nodup) : StylesDistinct (m.put space styles) := by
  intro other
  rw [OrderedMap.get?_put]
  by_cases hspace : space = other
  · rw [if_pos hspace]
    exact h
  · rw [if_neg hspace]
    exact hm other

theorem StylesDistinct.addNamespace (hm : m.StylesDistinct) (space : Text) :
    (m.addNamespace space).StylesDistinct :=
  hm.put (hm space)

theorem StylesDistinct.insert (hm : m.StylesDistinct) (style : StyleName) (idents : List Text) :
    (m.insert style idents).StylesDistinct :=
  hm.put (OrderedMap.nodup_keys_put (hm style.space) style.name idents)

theorem stylesDistinct_build (spaces : List Text) (names : List StyleName)
    (assignments : List (List Text)) : (build spaces names assignments).StylesDistinct := by
  have hspaces : ∀ m : ClassMap, m.StylesDistinct →
      (spaces.foldl ClassMap.addNamespace m).StylesDistinct := by
    induction spaces with
    | nil => exact fun m hm => hm
    | cons space spaces ih => exact fun m hm => ih _ (hm.addNamespace space)
  have hstyles : ∀ (l : List (StyleName × List Text)) (m : ClassMap), m.StylesDistinct →
      (l.foldl (fun m e => m.insert e.1 e.2) m).StylesDistinct := by
    intro l
    induction l with
    | nil => exact fun m hm => hm
    | cons e l ih => exact fun m hm => ih _ (hm.insert e.1 e.2)
  exact hstyles _ _ (hspaces [] fun _ => List.nodup_nil)

theorem get?_entries (m : ClassMap) (space name : Text) :
    OrderedMap.get? (m.entries space) name = (m.idents? ⟨space, name⟩).map classList := by
  rw [entries, OrderedMap.get?_map_values, idents?]
  cases OrderedMap.get? m space with
  | none => rfl
  | some styles => rfl

theorem keys_entries (m : ClassMap) (space : Text) :
    (m.entries space).map (·.1) = OrderedMap.keys ((m.get? space).getD []) := by
  rw [entries, List.map_map]
  rfl

theorem get_toOption (m : ClassMap) (style : StyleName) :
    (m.get style).toOption = (m.idents? style).map classList := by
  rw [get]
  cases m.idents? style with
  | none => rfl
  | some idents => rfl

theorem get?_ownProperties_entries (h : m.StylesDistinct) (space q : Text) :
    (ownProperties (m.entries space)).get? q =
      if q = protoName then none else (m.get ⟨space, q⟩).toOption := by
  rw [get?_ownProperties (m.keys_entries space ▸ h space), get?_entries, get_toOption]

theorem toOption_get_eq_some {style : StyleName} {t : Text} :
    (m.get style).toOption = some t ↔ m.get style = .ok t := by
  cases m.get style with
  | error e => simp [Except.toOption]
  | ok s => simp [Except.toOption]

/-- The own properties of the object are the styles of the namespace, with their class lists. -/
structure Mirrored (m : ClassMap) (space : Text) (members : List (Text × Text)) : Prop where
  has_iff : ∀ q, (∃ t, (ownProperties members).get? q = some t) ↔ m.has ⟨space, q⟩ = true
  get_eq : ∀ q t, (ownProperties members).get? q = some t → m.get ⟨space, q⟩ = .ok t

theorem mirrored_entries_iff (h : m.StylesDistinct) (space : Text) :
    m.Mirrored space (m.entries space) ↔ ¬m.has ⟨space, protoName⟩ = true := by
  have hget := get?_ownProperties_entries h space
  constructor
  · intro hmirrored hhas
    obtain ⟨t, ht⟩ := (hmirrored.has_iff protoName).2 hhas
    rw [hget, if_pos rfl] at ht
    cases ht
  · intro hproto
    have hown : ∀ q t, (ownProperties (m.entries space)).get? q = some t ↔
        m.get ⟨space, q⟩ = .ok t := by
      intro q t
      rw [hget]
      by_cases hq : q = protoName
      · rw [if_pos hq, hq]
        exact ⟨nofun, fun ht => absurd (has_iff.2 ⟨t, ht⟩) hproto⟩
      · rw [if_neg hq, toOption_get_eq_some]
    exact ⟨fun q => (exists_congr (hown q)).trans has_iff.symm, fun q t => (hown q t).1⟩

end ClassMap
end AtomicCss
