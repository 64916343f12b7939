import AtomicCss.Proofs.Data.OrderedMap
import AtomicCss.Proofs.Model.Invariant
import AtomicCss.Sheet.Generate
import Mathlib.Data.List.Nodup
set_option autoImplicit false

namespace AtomicCss.Group

variable {records : List Record} {g : Group}

theorem mem_contributorsOf {d : Declaration} {c : Contributor} :
    c ∈ contributorsOf records d ↔ ∃ r ∈ records, r.declaration = d ∧ r.contributor = c := by
  simp [contributorsOf, Sorted.mem_ofList, and_assoc]

theorem mem_contributions {set : List Contributor} {d : Declaration} :
    (set, d) ∈ contributions records ↔
      (∃ r ∈ records, r.declaration = d) ∧ contributorsOf records d = set := by
  simp only [contributions, List.mem_map, Sorted.mem_ofList, Prod.mk.injEq]
  constructor
  · rintro ⟨e, he, hset, rfl⟩
    exact ⟨he, hset⟩
  · rintro ⟨he, hset⟩
    exact ⟨d, he, hset, rfl⟩

theorem mem_bySet :
    g ∈ bySet records ↔ (∃ e ∈ contributions records, e.1 = g.contributors) ∧
      g.declarations = ((contributions records).filter (·.1 = g.contributors)).map (·.2) := by
  obtain ⟨set, declarations⟩ := g
  simp only [bySet, List.mem_map, Sorted.mem_ofList, Group.mk.injEq]
  constructor
  · rintro ⟨s, hs, rfl, rfl⟩
    exact ⟨hs, rfl⟩
  · rintro ⟨hs, hd⟩
    exact ⟨set, hs, rfl, hd.symm⟩

theorem perm_ofRecords (records : List Record) : (ofRecords records).Perm (bySet records) :=
  List.filter_append_perm isOwn (bySet records)

theorem mem_ofRecords : g ∈ ofRecords records ↔ g ∈ bySet records :=
  (perm_ofRecords records).mem_iff

theorem mem_declarations (hg : g ∈ ofRecords records) {d : Declaration} :
    d ∈ g.declarations ↔
      (∃ r ∈ records, r.declaration = d) ∧ contributorsOf records d = g.contributors := by
  rw [(mem_bySet.1 (mem_ofRecords.1 hg)).2]
  simp only [List.mem_map, List.mem_filter, decide_eq_true_eq, Prod.exists]
  constructor
  · rintro ⟨set, e, ⟨he, hset⟩, rfl⟩
    obtain ⟨hr, hc⟩ := mem_contributions.1 he
    exact ⟨hr, hc.trans hset⟩
  · rintro ⟨hr, hc⟩
    exact ⟨_, d, ⟨mem_contributions.2 ⟨hr, rfl⟩, hc⟩, rfl⟩

theorem declared_of_mem (hg : g ∈ ofRecords records) {d : Declaration} (hd : d ∈ g.declarations)
    {c : Contributor} (hc : c ∈ g.contributors) :
    ∃ r ∈ records, r.declaration = d ∧ r.contributor = c := by
  rw [← ((mem_declarations hg).1 hd).2] at hc
  exact mem_contributorsOf.1 hc

theorem exists_mem_ofRecords {r : Record} (hr : r ∈ records) :
    ∃ g ∈ ofRecords records, r.declaration ∈ g.declarations ∧ r.contributor ∈ g.contributors := by
  have hmem : (contributorsOf records r.declaration, r.declaration) ∈ contributions records :=
    mem_contributions.2 ⟨⟨r, hr, rfl⟩, rfl⟩
  let g : Group := ⟨contributorsOf records r.declaration,
    ((contributions records).filter (·.1 = contributorsOf records r.declaration)).map (·.2)⟩
  have hg : g ∈ ofRecords records := mem_ofRecords.2 (mem_bySet.2 ⟨⟨_, hmem, rfl⟩, rfl⟩)
  exact ⟨g, hg, (mem_declarations hg).2 ⟨⟨r, hr, rfl⟩, rfl⟩, mem_contributorsOf.2 ⟨r, hr, rfl, rfl⟩⟩

theorem countP_of_not_declared {d : Declaration} (hd : d ∉ records.map Record.declaration) :
    (ofRecords records).countP (d ∈ ·.declarations) = 0 := by
  refine List.countP_eq_zero.2 fun g hg hmem => hd ?_
  exact List.mem_map.2 ((mem_declarations hg).1 (of_decide_eq_true hmem)).1

theorem countP_of_declared {d : Declaration} (hd : d ∈ records.map Record.declaration) :
    (ofRecords records).countP (d ∈ ·.declarations) = 1 := by
  have hr := List.mem_map.1 hd
  have hset : ∀ g ∈ bySet records,
      d ∈ g.declarations ↔ g.contributors = contributorsOf records d := by
    intro g hg
    rw [mem_declarations (mem_ofRecords.2 hg)]
    exact ⟨fun h => h.2.symm, fun h => ⟨hr, h.symm⟩⟩
  have hsets : (bySet records).map contributors =
      Sorted.ofList ((contributions records).map (·.1)) := by
    simp [bySet, Function.comp_def]
  have hmem : contributorsOf records d ∈ (bySet records).map contributors := by
    rw [hsets, Sorted.mem_ofList]
    exact List.mem_map.2 ⟨_, mem_contributions.2 ⟨hr, rfl⟩, rfl⟩
  calc (ofRecords records).countP (d ∈ ·.declarations)
      = (bySet records).countP (d ∈ ·.declarations) := (perm_ofRecords records).countP_eq _
    _ = (bySet records).countP (·.contributors == contributorsOf records d) :=
        List.countP_congr fun g hg => by simpa using hset g hg
    _ = ((bySet records).map contributors).count (contributorsOf records d) := by
        rw [List.count, List.countP_map]
        rfl
    _ = 1 := List.count_eq_one_of_mem (hsets ▸ Sorted.nodup_ofList _) hmem

theorem exists_declaration (hg : g ∈ ofRecords records) : ∃ d, d ∈ g.declarations := by
  obtain ⟨⟨set, d⟩, he, hset⟩ := (mem_bySet.1 (mem_ofRecords.1 hg)).1
  obtain ⟨hr, hc⟩ := mem_contributions.1 he
  exact ⟨d, (mem_declarations hg).2 ⟨hr, hc.trans hset⟩⟩

theorem exists_contributor (hg : g ∈ ofRecords records) : ∃ c, c ∈ g.contributors := by
  obtain ⟨d, hd⟩ := exists_declaration hg
  obtain ⟨⟨r, hr, hrd⟩, hset⟩ := (mem_declarations hg).1 hd
  exact ⟨r.contributor, hset ▸ mem_contributorsOf.2 ⟨r, hr, hrd, rfl⟩⟩

theorem nodup_declarations (hg : g ∈ ofRecords records) : g.declarations.Nodup := by
  have hdistinct := Sorted.nodup_ofList (records.map Record.declaration)
  rw [(mem_bySet.1 (mem_ofRecords.1 hg)).2, contributions, List.filter_map, List.map_map]
  simpa [Function.comp_def] using hdistinct.filter _

theorem mem_entryKeys {k : ClassKey} {v : Variant} :
    (k, v) ∈ g.entryKeys ↔
      (∃ c, g.contributors = [c] ∧ k = .own c.name ∧ v = c.variant) ∨
      (∀ c, g.contributors ≠ [c]) ∧ k = .shared g.contributors v ∧
        ∃ c ∈ g.contributors, c.variant = v := by
  unfold entryKeys
  split
  next c hc =>
    rw [hc]
    simp
  next hne =>
    have hne' : ∀ c, g.contributors ≠ [c] := fun c hc => hne c hc
    simp only [List.mem_map, Sorted.mem_ofList, Prod.mk.injEq]
    constructor
    · rintro ⟨w, hw, rfl, rfl⟩
      exact Or.inr ⟨hne', rfl, hw⟩
    · rintro (⟨c, hc, _⟩ | ⟨_, rfl, hw⟩)
      · exact absurd hc (hne' c)
      · exact ⟨v, hw, rfl, rfl⟩

theorem exists_mem_entryKeys {c : Contributor} (hc : c ∈ g.contributors) :
    ∃ k, (k, c.variant) ∈ g.entryKeys := by
  by_cases hone : ∃ b, g.contributors = [b]
  · obtain ⟨b, hb⟩ := hone
    rw [hb, List.mem_singleton] at hc
    exact ⟨.own b.name, mem_entryKeys.2 (Or.inl ⟨b, hb, rfl, by rw [hc]⟩)⟩
  · exact ⟨.shared g.contributors c.variant,
      mem_entryKeys.2 (Or.inr ⟨fun b hb => hone ⟨b, hb⟩, rfl, c, hc, rfl⟩)⟩

theorem exists_contributor_of_mem_entryKeys {k : ClassKey} {v : Variant}
    (h : (k, v) ∈ g.entryKeys) : ∃ c ∈ g.contributors, c.variant = v := by
  rcases mem_entryKeys.1 h with ⟨c, hc, _, rfl⟩ | ⟨_, _, hc⟩
  · exact ⟨c, by simp [hc], rfl⟩
  · exact hc

theorem nodup_variants (g : Group) : (g.entryKeys.map (·.2)).Nodup := by
  unfold entryKeys
  split
  · exact List.nodup_singleton _
  · simpa [Function.comp_def] using Sorted.nodup_ofList _

theorem mem_variants {v : Variant} :
    v ∈ g.entryKeys.map (·.2) ↔ ∃ c ∈ g.contributors, c.variant = v := by
  constructor
  · intro hv
    obtain ⟨⟨k, _⟩, hk, rfl⟩ := List.mem_map.1 hv
    exact exists_contributor_of_mem_entryKeys hk
  · rintro ⟨c, hc, rfl⟩
    obtain ⟨k, hk⟩ := exists_mem_entryKeys hc
    exact List.mem_map.2 ⟨_, hk, rfl⟩

/-- Who has a key from one group contributes to every group that has the key. -/
theorem contributes_of_key {f : Group} {k : ClassKey} {v : Variant} {c : Contributor}
    (hk : (k, v) ∈ g.entryKeys) (hf : (k, c.variant) ∈ f.entryKeys) (hc : c ∈ f.contributors) :
    ⟨c.name, v⟩ ∈ g.contributors := by
  rcases mem_entryKeys.1 hk with ⟨a, ha, rfl, rfl⟩ | ⟨_, rfl, _⟩
  · rcases mem_entryKeys.1 hf with ⟨b, hb, hkey, _⟩ | ⟨_, hkey, _⟩
    · rw [hb, List.mem_singleton] at hc
      rw [ha, hc, ← ClassKey.own.inj hkey]
      simp
    · cases hkey
  · rcases mem_entryKeys.1 hf with ⟨b, hb, hkey, _⟩ | ⟨_, hkey, _⟩
    · cases hkey
    · obtain ⟨hset, hv⟩ := ClassKey.shared.inj hkey
      rw [hset, hv]
      exact hc

end AtomicCss.Group

namespace AtomicCss

theorem Rule.collected_of_nodup {r : Rule} (h : (r.declarations.map Declaration.property).Nodup) :
    r.collected = r.declarations.map fun d => (d.property, d.value) := by
  refine OrderedMap.ofList_of_nodup ?_
  simpa [Function.comp_def] using h

theorem Record.key_eq {r t : Record} (hs : r.site.scope = t.site.scope)
    (hc : r.contributor = t.contributor) (hp : r.property = t.property) : r.key = t.key := by
  obtain ⟨⟨_, _, _⟩, _, _, _⟩ := r
  obtain ⟨⟨_, _, _⟩, _, _, _⟩ := t
  simp_all [Record.contributor, Record.key]

namespace Model.WellFormed

variable {m : Model} (h : m.WellFormed)
include h

theorem nodup_properties {s : ScopeId} {g : Group}
    (hg : g ∈ Group.ofRecords (m.recordsInScope s)) :
    (g.declarations.map Declaration.property).Nodup := by
  refine (Group.nodup_declarations hg).map_on fun d hd e he hproperty => ?_
  obtain ⟨c, hc⟩ := Group.exists_contributor hg
  obtain ⟨r, hr, rfl, hrc⟩ := Group.declared_of_mem hg hd hc
  obtain ⟨t, ht, rfl, htc⟩ := Group.declared_of_mem hg he hc
  obtain ⟨hrm, hrs⟩ := h.mem_recordsInScope.1 hr
  obtain ⟨htm, hts⟩ := h.mem_recordsInScope.1 ht
  have hkey := Record.key_eq (hrs.trans hts.symm) (hrc.trans htc.symm) hproperty
  rw [h.eq_of_key_eq hrm htm hkey]

end Model.WellFormed
end AtomicCss
