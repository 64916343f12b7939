import AtomicCss.Proofs.Sheet.Handout
import AtomicCss.Proofs.Sheet.Sharing
set_option autoImplicit false

namespace AtomicCss

/-- Who has the class name that is drawn for the key. -/
def ClassKey.names : ClassKey → List NameId
  | .own n => [n]
  | .shared set _ => set.map Contributor.name

theorem Contributor.compare_of_name_eq {a b : Contributor} (h : a.name = b.name) :
    compare a b = compare a.variant b.variant := by
  have hcompare : compare a b = (compare a.name b.name).then (compare a.variant b.variant) := rfl
  rw [hcompare, h, Std.ReflOrd.compare_self]
  rfl

namespace Model

/-- Both names have the same records but for the name in them. -/
def DeclareAlike (m : Model) (i j : NameId) : Prop :=
  ∀ scope suffix repeats property value,
    ⟨⟨scope, i, suffix⟩, repeats, property, value⟩ ∈ m.recordsForName i ↔
      ⟨⟨scope, j, suffix⟩, repeats, property, value⟩ ∈ m.recordsForName j

theorem DeclareAlike.symm {m : Model} {i j : NameId} (h : m.DeclareAlike i j) :
    m.DeclareAlike j i :=
  fun scope suffix repeats property value => (h scope suffix repeats property value).symm

end Model

namespace Group

variable {records : List Record} {g : Group}

/-- How a name contributes, ascending. -/
def variantsOf (g : Group) (n : NameId) : List Variant :=
  (g.contributors.filter (·.name = n)).map Contributor.variant

theorem mem_variantsOf {n : NameId} {v : Variant} :
    v ∈ g.variantsOf n ↔ ⟨n, v⟩ ∈ g.contributors := by
  simp only [variantsOf, List.mem_map, List.mem_filter, decide_eq_true_eq]
  constructor
  · rintro ⟨c, ⟨hc, rfl⟩, rfl⟩
    exact hc
  · exact fun hv => ⟨_, ⟨hv, rfl⟩, rfl⟩

theorem pairwise_contributors (hg : g ∈ ofRecords records) :
    g.contributors.Pairwise (compare · · = .lt) := by
  obtain ⟨d, hd⟩ := exists_declaration hg
  rw [← ((mem_declarations hg).1 hd).2]
  exact Sorted.pairwise_ofList _

theorem pairwise_variantsOf (hg : g ∈ ofRecords records) (n : NameId) :
    (g.variantsOf n).Pairwise (compare · · = .lt) := by
  have hnamed : (g.contributors.filter (·.name = n)).Pairwise (compare · · = .lt) :=
    (pairwise_contributors hg).sublist List.filter_sublist
  refine List.pairwise_map.2 (hnamed.imp_of_mem fun {a b} ha hb hlt => ?_)
  have ha := (List.mem_filter.1 ha).2
  have hb := (List.mem_filter.1 hb).2
  rw [decide_eq_true_eq] at ha hb
  rw [← Contributor.compare_of_name_eq (ha.trans hb.symm)]
  exact hlt

theorem filter_receipts (nameOf : ClassKey → Text) (g : Group) (n : NameId) :
    ((g.receipts nameOf).filter (·.1 = n)).map (·.2) = (g.variantsOf n).flatMap fun v =>
      ((g.rule nameOf).entries.filter (·.variant = v)).map SelectorEntry.ident := by
  rw [receipts, handout, variantsOf, List.flatMap_map]
  generalize (g.rule nameOf).entries = entries
  induction g.contributors with
  | nil => rfl
  | cons c r ih =>
    rw [List.flatMap_cons, List.filter_append, List.map_append, ih]
    by_cases hc : c.name = n <;> simp [hc, List.filter_map, Function.comp_def]

section

variable {i j : NameId} (h : ∀ v, ⟨i, v⟩ ∈ g.contributors ↔ ⟨j, v⟩ ∈ g.contributors)
include h

theorem filter_receipts_eq (nameOf : ClassKey → Text) (hg : g ∈ ofRecords records) :
    ((g.receipts nameOf).filter (·.1 = i)).map (·.2) =
      ((g.receipts nameOf).filter (·.1 = j)).map (·.2) := by
  have hvariants : g.variantsOf i = g.variantsOf j :=
    Sorted.eq_of_mem_iff (pairwise_variantsOf hg i) (pairwise_variantsOf hg j) fun v => by
      rw [mem_variantsOf, mem_variantsOf, h]
  rw [filter_receipts, filter_receipts, hvariants]

theorem mem_names_iff {k : ClassKey} {v : Variant} (hk : (k, v) ∈ g.entryKeys) (hij : i ≠ j) :
    i ∈ k.names ↔ j ∈ k.names := by
  rcases mem_entryKeys.1 hk with ⟨c, hc, rfl, _⟩ | ⟨_, rfl, _⟩
  · -- With a single contributor there is no room for both, so it is neither of them.
    simp only [hc, List.mem_singleton] at h
    simp only [ClassKey.names, List.mem_singleton]
    constructor
    · rintro rfl
      exact absurd ((h c.variant).1 rfl ▸ rfl) hij
    · rintro rfl
      exact absurd ((h c.variant).2 rfl ▸ rfl) hij
  · have hone : ∀ {n : NameId}, n ∈ (ClassKey.shared g.contributors v).names ↔
        ∃ w, ⟨n, w⟩ ∈ g.contributors := by
      intro n
      simp only [ClassKey.names, List.mem_map]
      constructor
      · rintro ⟨c, hc, rfl⟩
        exact ⟨c.variant, hc⟩
      · rintro ⟨w, hw⟩
        exact ⟨_, hw, rfl⟩
    simp only [hone, h]

end

end Group

namespace Model

variable {m : Model} {preferred : List Text} {i j : NameId}

theorem WellFormed.mem_contributors_of_alike (h : m.WellFormed) (hij : m.DeclareAlike i j)
    {s : ScopeId} {g : Group} (hg : g ∈ Group.ofRecords (m.recordsInScope s)) {v : Variant}
    (hv : ⟨i, v⟩ ∈ g.contributors) : ⟨j, v⟩ ∈ g.contributors := by
  obtain ⟨d, hd⟩ := Group.exists_declaration hg
  obtain ⟨⟨⟨t, n, suffix⟩, repeats, property, value⟩, hr, rfl, hrc⟩ :=
    Group.declared_of_mem hg hd hv
  cases hrc
  obtain ⟨hrm, rfl⟩ := h.mem_recordsInScope.1 hr
  have htwin := (hij t suffix repeats property value).1 (h.mem_recordsForName.2 ⟨hrm, rfl⟩)
  have hscope := h.mem_recordsInScope.2 ⟨(h.mem_recordsForName.1 htwin).1, rfl⟩
  exact (Group.mem_contributors_iff hg hd).2 ⟨_, hscope, rfl, rfl⟩

/-- The sets of contributors are closed under swapping two names that declare alike. -/
theorem WellFormed.mem_contributors_iff_of_alike (h : m.WellFormed) (hij : m.DeclareAlike i j)
    {s : ScopeId} {g : Group} (hg : g ∈ Group.ofRecords (m.recordsInScope s)) (v : Variant) :
    ⟨i, v⟩ ∈ g.contributors ↔ ⟨j, v⟩ ∈ g.contributors :=
  ⟨h.mem_contributors_of_alike hij hg, h.mem_contributors_of_alike hij.symm hg⟩

theorem WellFormed.mem_names_iff_of_alike (h : m.WellFormed) (hij : m.DeclareAlike i j)
    (hne : i ≠ j) {k : ClassKey} (hk : k ∈ (m.plan preferred).keys) :
    i ∈ k.names ↔ j ∈ k.names := by
  obtain ⟨s, g, v, hg, hkv⟩ := ScopeTree.mem_keys.1 hk
  have hof := (h.mem_contents_plan.1 hg).2
  exact Group.mem_names_iff (h.mem_contributors_iff_of_alike hij hof) hkv hne

theorem WellFormed.classesOf_eq_of_alike (h : m.WellFormed) (hij : m.DeclareAlike i j)
    (allocator : Allocator) (hi : i < m.names.length) (hj : j < m.names.length) :
    (m.sheet preferred allocator).2.classesOf i = (m.sheet preferred allocator).2.classesOf j := by
  have hreceipts : ∀ nameOf, ((m.receipts preferred nameOf).filter (·.1 = i)).map (·.2) =
      ((m.receipts preferred nameOf).filter (·.1 = j)).map (·.2) := by
    intro nameOf
    rw [receipts, Group.receiptsOf, List.filter_flatMap, List.map_flatMap, List.filter_flatMap,
      List.map_flatMap]
    refine List.flatMap_congr fun g hg => ?_
    obtain ⟨s, hs⟩ := ScopeTree.mem_groupsOf.1 hg
    have hof := (h.mem_contents_plan.1 hs).2
    exact Group.filter_receipts_eq (h.mem_contributors_iff_of_alike hij hof) nameOf hof
  rw [classesOf_sheet _ _ _ hi, classesOf_sheet _ _ _ hj, hreceipts]

end Model
end AtomicCss
