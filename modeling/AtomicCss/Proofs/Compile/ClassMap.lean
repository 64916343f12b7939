import AtomicCss.Proofs.Compile.Twins
import AtomicCss.Proofs.Input.ExportNames
set_option autoImplicit false

namespace AtomicCss

namespace ClassMap

/-- Some style has the class name. -/
def Gives (m : ClassMap) (ident : Text) : Prop :=
  ∃ style idents, m.idents? style = some idents ∧ ident ∈ idents

theorem idents?_foldl_addNamespace (spaces : List Text) (m : ClassMap) (style : StyleName) :
    (spaces.foldl addNamespace m).idents? style = m.idents? style := by
  induction spaces generalizing m with
  | nil => rfl
  | cons space spaces ih =>
    rw [List.foldl_cons, ih, idents?, idents?, addNamespace, OrderedMap.get?_put]
    by_cases hspace : space = style.space
    · cases h : OrderedMap.get? m style.space <;> simp [hspace, h]
    · rw [if_neg hspace]

theorem has_build {spaces : List Text} {names : List StyleName} {assignments : List (List Text)}
    (hlength : names.length = assignments.length) {style : StyleName} :
    (build spaces names assignments).has style = true ↔ style ∈ names := by
  have hnone : (spaces.foldl addNamespace []).idents? style = none :=
    idents?_foldl_addNamespace spaces [] style
  rw [has, build, idents?_foldl_insert, hnone, Option.or_none, OrderedMap.isSome_get?,
    OrderedMap.keys, List.map_reverse, List.mem_reverse, List.map_fst_zip (Nat.le_of_eq hlength)]

theorem keys_foldl_addNamespace {spaces : List Text} {m : ClassMap}
    (h : (m.keys ++ spaces).Nodup) : (spaces.foldl addNamespace m).keys = m.keys ++ spaces := by
  induction spaces generalizing m with
  | nil => exact (List.append_nil _).symm
  | cons space spaces ih =>
    have hnew : space ∉ m.keys := fun hmem =>
      (List.nodup_append.1 h).2.2 space hmem space List.mem_cons_self rfl
    have hkeys : (m.addNamespace space).keys = m.keys ++ [space] :=
      (m.keys_put space _).trans (if_neg hnew)
    have happend : (m.addNamespace space).keys ++ spaces = m.keys ++ space :: spaces := by
      rw [hkeys, List.append_assoc, List.singleton_append]
    rw [List.foldl_cons, ih (happend ▸ h), happend]

theorem keys_foldl_insert {l : List (StyleName × List Text)} {m : ClassMap}
    (h : ∀ e ∈ l, e.1.space ∈ m.keys) :
    (l.foldl (fun m e => m.insert e.1 e.2) m).keys = m.keys := by
  induction l generalizing m with
  | nil => rfl
  | cons e l ih =>
    obtain ⟨he, hl⟩ := List.forall_mem_cons.1 h
    have hkeys : (m.insert e.1 e.2).keys = m.keys := (m.keys_put e.1.space _).trans (if_pos he)
    rw [List.foldl_cons, ih (hkeys ▸ hl), hkeys]

theorem keys_build {spaces : List Text} {names : List StyleName} {assignments : List (List Text)}
    (hnodup : spaces.Nodup) (h : ∀ style ∈ names, style.space ∈ spaces) :
    (build spaces names assignments).keys = spaces := by
  have hspaces : (spaces.foldl addNamespace []).keys = spaces := keys_foldl_addNamespace hnodup
  refine (keys_foldl_insert fun e he => ?_).trans hspaces
  rw [hspaces]
  exact h e.1 (List.of_mem_zip he).1

end ClassMap

theorem Allocation.lt_of_mem_classesOf {a : Allocation} {n : NameId} {ident : Text}
    (h : ident ∈ a.classesOf n) : n < a.assignments.length := by
  refine Nat.lt_of_not_le fun hle => ?_
  rw [classesOf, List.getD_eq_getElem?_getD, List.getElem?_eq_none hle] at h
  cases h

namespace Description

variable {d : Description} {stem : Text} {c : Compilation} (hc : d.compilation stem = .ok c)
include hc

theorem names_compilation : c.model.names = d.styles.map (·.1) := by
  obtain ⟨_, m, _, _, hm, rfl⟩ := compilation_ok hc
  exact names_model hm

theorem length_assignments_compilation :
    c.allocation.assignments.length = c.model.names.length := by
  obtain ⟨reserved, m, _, _, _, rfl⟩ := compilation_ok hc
  exact m.length_assignments_sheet _ _

theorem has_classes {style : StyleName} :
    (c.classes d).has style = true ↔ style ∈ d.styles.map (·.1) := by
  rw [Compilation.classes, ClassMap.has_build (length_assignments_compilation hc).symm,
    names_compilation hc]

variable (hd : d.Ordered)
include hd

theorem keys_classes : (c.classes d).keys = d.namespaces.map (·.1) := by
  refine ClassMap.keys_build hd.namespaces.nodup_keys fun style hstyle => ?_
  rw [names_compilation hc] at hstyle
  obtain ⟨s, hs, rfl⟩ := List.mem_map.1 hstyle
  obtain ⟨n, hn, hs⟩ := List.mem_flatMap.1 hs
  obtain ⟨t, _, rfl⟩ := List.mem_map.1 hs
  exact List.mem_map_of_mem hn

theorem isExportName_of_mem_keys (hexport : d.Exportable) :
    ∀ space ∈ (c.classes d).keys, isExportName space = true := by
  rw [keys_classes hc hd]
  exact List.forall_mem_map.2 hexport

theorem idents?_classes {i : NameId} {style : StyleName × Text} (hi : d.styles[i]? = some style) :
    (c.classes d).idents? style.1 = some (c.allocation.classesOf i) := by
  have hnames := names_compilation hc
  refine Compilation.idents?_classes d (hnames ▸ hd.nodup_styles)
    (length_assignments_compilation hc) ?_
  rw [hnames, List.getElem?_map, hi]
  rfl

theorem gives_classes_iff {ident : Text} :
    (c.classes d).Gives ident ↔ ∃ i, ident ∈ c.allocation.classesOf i := by
  constructor
  · rintro ⟨style, idents, hidents, hmem⟩
    have hhas : (c.classes d).has style = true := by rw [ClassMap.has, hidents, Option.isSome_some]
    obtain ⟨s, hs, rfl⟩ := List.mem_map.1 ((has_classes hc).1 hhas)
    obtain ⟨i, hi⟩ := List.mem_iff_getElem?.1 hs
    rw [idents?_classes hc hd hi] at hidents
    exact ⟨i, Option.some.inj hidents ▸ hmem⟩
  · rintro ⟨i, hmem⟩
    have hlt := Allocation.lt_of_mem_classesOf hmem
    rw [length_assignments_compilation hc, names_compilation hc, List.length_map] at hlt
    exact ⟨_, _, idents?_classes hc hd (List.getElem?_eq_getElem hlt), hmem⟩

end Description
end AtomicCss
