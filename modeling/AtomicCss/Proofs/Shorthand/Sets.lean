import AtomicCss.Proofs.Data.OrderedMap
import AtomicCss.Shorthand.Collapse
import AtomicCss.Shorthand.Conflict
set_option autoImplicit false

namespace AtomicCss.Shorthand

/-- Whether a declaration of `property` gives `longhand` a value. -/
def sets (property longhand : Text) : Bool :=
  property = longhand || (expandableLonghands property).any (·.contains longhand)
    || resets property longhand

theorem find?_shorthand {e : Entry} (h : e ∈ expandable) :
    expandable.find? (·.shorthand = e.shorthand) = some e := by
  revert e
  decide +kernel

theorem expandableLonghands_shorthand {e : Entry} (h : e ∈ expandable) :
    expandableLonghands e.shorthand = some e.longhands := by
  rw [expandableLonghands, longhandsIn, find?_shorthand h]
  rfl

theorem eq_of_shorthand_eq {e f : Entry} (he : e ∈ expandable) (hf : f ∈ expandable)
    (h : e.shorthand = f.shorthand) : e = f := by
  have hfind := find?_shorthand he
  rw [h, find?_shorthand hf] at hfind
  exact (Option.some.inj hfind).symm

theorem compositeLonghands_shorthand {e : Entry} (h : e ∈ expandable) :
    compositeLonghands e.shorthand = none := by
  revert e
  decide +kernel

theorem longhands_leaf {e : Entry} (h : e ∈ expandable) {l : Text} (hl : l ∈ e.longhands) :
    expandableLonghands l = none ∧ compositeLonghands l = none := by
  revert l e
  decide +kernel

theorem resets_self (p : Text) : resets p p = false := by
  have hall : ∀ e ∈ composite, e.shorthand ∉ e.longhands := by decide +kernel
  rw [resets]
  cases h : compositeLonghands p with
  | none => rfl
  | some ls =>
    obtain ⟨e, he, rfl⟩ := Option.map_eq_some_iff.1 h
    have hp : e.shorthand = p := by simpa using List.find?_some he
    simpa [hp] using hall e (List.mem_of_find?_eq_some he)

theorem sets_self (p : Text) : sets p p = true := by simp [sets]

theorem sets_leaf {e : Entry} (h : e ∈ expandable) {p l : Text} (hp : p ∈ e.longhands) :
    sets p l = true ↔ p = l := by
  obtain ⟨hexpandable, hcomposite⟩ := longhands_leaf h hp
  simp [sets, resets, hexpandable, hcomposite]

theorem sets_shorthand {e : Entry} (h : e ∈ expandable) {l : Text} :
    sets e.shorthand l = true ↔ e.shorthand = l ∨ l ∈ e.longhands := by
  simp [sets, resets, expandableLonghands_shorthand h, compositeLonghands_shorthand h]

/-- How many longhands a shorthand has whose value is spread. -/
def Form.width : Form → Nat
  | .sides | .corners => 4
  | .axes => 2
  | .composite => 0

theorem width_form {e : Entry} (h : e ∈ expandable) : e.longhands.length = e.form.width := by
  revert e
  decide +kernel

theorem length_of_spread? {e : Entry} (h : e ∈ expandable) {value : Text} {values : List Text}
    (hv : e.form.spread? value = some values) : values.length = e.longhands.length := by
  have hbox : ∀ {value values}, box? value = some values → values.length = 4 := by
    intro value values hv
    obtain ⟨tokens, _, hv⟩ := Option.bind_eq_some_iff.1 hv
    unfold spread? at hv
    split at hv <;> cases hv <;> rfl
  rw [width_form h]
  cases hform : e.form with
  | sides =>
    rw [hform] at hv
    exact hbox hv
  | corners =>
    rw [hform, Form.spread?] at hv
    split at hv
    · exact hbox hv
    · obtain ⟨horizontal, hh, hv⟩ := Option.bind_eq_some_iff.1 hv
      obtain ⟨vertical, hw, hv⟩ := Option.bind_eq_some_iff.1 hv
      cases hv
      rw [List.length_zipWith, hbox hh, hbox hw]
      rfl
    · cases hv
  | axes =>
    rw [hform, Form.spread?] at hv
    split at hv <;> cases hv <;> rfl
  | composite =>
    rw [hform] at hv
    cases hv

theorem expansion_cases (p v : Text) :
    expansion p v = [(p, v)] ∨
      ∃ e ∈ expandable, e.shorthand = p ∧ (expansion p v).map (·.1) = e.longhands := by
  rw [expansion]
  cases h : expand? p v with
  | none => exact Or.inl rfl
  | some out =>
    obtain ⟨e, he, h⟩ := Option.bind_eq_some_iff.1 h
    split at h
    · cases h
    · obtain ⟨values, hv, h⟩ := Option.bind_eq_some_iff.1 h
      cases h
      have hmem := List.mem_of_find?_eq_some he
      refine Or.inr ⟨e, hmem, by simpa using List.find?_some he, ?_⟩
      rw [Option.getD_some, List.map_fst_zip (Nat.le_of_eq (length_of_spread? hmem hv).symm)]

theorem nodup_longhands {e : Entry} (h : e ∈ expandable) : e.longhands.Nodup := by
  revert e
  decide +kernel

theorem nodup_keys_expansion (p v : Text) : ((expansion p v).map (·.1)).Nodup := by
  rcases expansion_cases p v with hkeep | ⟨e, he, _, hkeys⟩
  · simp [hkeep]
  · rw [hkeys]
    exact nodup_longhands he

theorem sets_of_mem_expansion {p v q x l : Text} (hq : (q, x) ∈ expansion p v)
    (h : sets q l = true) : sets p l = true := by
  rcases expansion_cases p v with hkeep | ⟨e, he, rfl, hkeys⟩
  · rw [hkeep, List.mem_singleton] at hq
    cases hq
    exact h
  · have hmem : q ∈ e.longhands := hkeys ▸ List.mem_map_of_mem (f := Prod.fst) hq
    rw [(sets_leaf he hmem).1 h] at hmem
    exact (sets_shorthand he).2 (Or.inr hmem)

theorem exists_mem_expansion_sets {p v l : Text} (h : sets p l = true) :
    (∃ q x, (q, x) ∈ expansion p v ∧ sets q l = true) ∨
      ∃ e ∈ expandable, e.shorthand = l ∧ (expansion p v).map (·.1) = e.longhands := by
  rcases expansion_cases p v with hkeep | ⟨e, he, rfl, hkeys⟩
  · exact Or.inl ⟨p, v, by simp [hkeep], h⟩
  · rcases (sets_shorthand he).1 h with rfl | hl
    · exact Or.inr ⟨e, he, rfl, hkeys⟩
    · rw [← hkeys, List.mem_map] at hl
      obtain ⟨⟨q, x⟩, hq, rfl⟩ := hl
      exact Or.inl ⟨q, x, hq, sets_self q⟩

end AtomicCss.Shorthand
