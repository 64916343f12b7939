import AtomicCss.Proofs.Compile.ClassNames
import AtomicCss.Proofs.Compile.Site
import AtomicCss.Proofs.Shorthand.Collapse
set_option autoImplicit false

/-!
Order of declarations: where the properties that a style keeps do not overlap, or overlap only where
the conflict tracker looks, the last declaration of a longhand is the one that counts in the end.
-/

namespace AtomicCss

/-- What the rules with these classes declare at a scope and suffix, in the order of emission. -/
def ScopeTree.emittedFor (rules : ScopeTree Rule) (classes : List Text) (s : ScopeId)
    (suffix : Text) : List (Text × Text) :=
  (rules.contents.filter fun c => c.1 = s ∧
    ∃ e ∈ c.2.entries, e.variant.suffix = suffix ∧ e.ident ∈ classes).flatMap (·.2.body)

/-- The rule emits the declaration `out`, which is `d`, or is folded from `d` and its fellows. -/
def Rule.EmitsFrom (rule : Rule) (d out : Text × Text) : Prop :=
  d ∈ rule.collected ∧ out ∈ rule.body ∧
    (out = d ∨ ∃ e ∈ Shorthand.expandable, e.shorthand = out.1 ∧ d.1 ∈ e.longhands ∧
      ∃ values, e.longhands.mapM rule.collected.get? = some values ∧
        e.form.gather? values = some out.2)

/--
Of two properties that are written and both set `l`, some declarations are compared by the tracker.
-/
def Compared (declared : List (Text × Text)) (l : Text) : Prop :=
  ∀ p ∈ (writtenBy declared).map (·.1), ∀ q ∈ (writtenBy declared).map (·.1), p ≠ q →
    Shorthand.sets p l = true → Shorthand.sets q l = true →
      ∃ a ∈ declared, ∃ b ∈ declared, p ∈ (Shorthand.expansion a.1 a.2).map (·.1) ∧
        q ∈ (Shorthand.expansion b.1 b.2).map (·.1) ∧ Shorthand.Clash a.1 b.1

/-- `l` is a shorthand that can be folded from what is written. -/
def Complete (declared : List (Text × Text)) (l : Text) : Prop :=
  ∃ e ∈ Shorthand.expandable, e.shorthand = l ∧
    ∀ p ∈ e.longhands, p ∈ (writtenBy declared).map (·.1)

def Unset (declared : List (Text × Text)) (l : Text) : Prop :=
  ∀ p ∈ (writtenBy declared).map (·.1), Shorthand.sets p l = false

/-- `kept` comes of `last`, and none of the declarations `after` it overwrites it. -/
def KeptFrom (last : Text × Text) (after : List (Text × Text)) (kept : Text × Text) : Prop :=
  kept ∈ Shorthand.expansion last.1 last.2 ∧
    ∀ e ∈ after, kept.1 ∉ (Shorthand.expansion e.1 e.2).map (·.1)

/-- All that the rule declares is declared at the site. -/
def Rule.Within (rule : Rule) (m : Model) (site : Site) : Prop :=
  ∀ q ∈ rule.collected, ∃ t ∈ m.recordsForName site.name,
    t.site = site ∧ t.property = q.1 ∧ t.value = q.2

theorem Rule.nodup_keys_collected (rule : Rule) : rule.collected.keys.Nodup :=
  OrderedMap.nodup_keys_ofList _

theorem ScopeTree.mem_emittedFor {rules : ScopeTree Rule} {classes : List Text} {s : ScopeId}
    {suffix : Text} {out : Text × Text} :
    out ∈ rules.emittedFor classes s suffix ↔ ∃ rule, (s, rule) ∈ rules.contents ∧
      (∃ e ∈ rule.entries, e.variant.suffix = suffix ∧ e.ident ∈ classes) ∧ out ∈ rule.body := by
  simp only [emittedFor, List.mem_flatMap, List.mem_filter, decide_eq_true_eq, Prod.exists]
  constructor
  · rintro ⟨t, rule, ⟨hrule, rfl, he⟩, hout⟩
    exact ⟨rule, hrule, he, hout⟩
  · rintro ⟨rule, hrule, he, hout⟩
    exact ⟨s, rule, ⟨hrule, rfl, he⟩, hout⟩

theorem Rule.emitsFrom_of_sets {rule : Rule} {kept out : Text × Text} {l : Text}
    (hout : out ∈ rule.body) (hsets : Shorthand.sets out.1 l = true)
    (honly : ∀ d ∈ rule.collected, Shorthand.sets d.1 l = true → d = kept)
    (hfold : ∀ e ∈ Shorthand.expandable, e.shorthand = l →
      ∃ p ∈ e.longhands, p ∉ rule.collected.keys) : rule.EmitsFrom kept out := by
  rcases Shorthand.mem_collapse rule.nodup_keys_collected hout with
    hmem | ⟨e, he, hname, values, hvalues, hgather⟩
  · have hkept := honly out hmem hsets
    exact ⟨hkept ▸ hmem, hout, Or.inl hkept⟩
  · rw [← hname, Shorthand.sets_shorthand he] at hsets
    rcases hsets with hl | hl
    · obtain ⟨p, hp, hnone⟩ := hfold e he hl
      obtain ⟨v, hv⟩ := OrderedMap.exists_mem_of_mapM_get? hvalues hp
      exact absurd (List.mem_map_of_mem (f := Prod.fst) hv) hnone
    · obtain ⟨v, hv⟩ := OrderedMap.exists_mem_of_mapM_get? hvalues hl
      have hkept := honly (l, v) hv (Shorthand.sets_self l)
      subst hkept
      exact ⟨hv, hout, Or.inr ⟨e, he, hname, hl, values, hvalues, hgather⟩⟩

theorem Rule.emitsFrom_of_folds {rule : Rule} {kept out : Text × Text} {e : Shorthand.Entry}
    (he : e ∈ Shorthand.expandable) (hout : out ∈ rule.body)
    (hsets : Shorthand.sets out.1 e.shorthand = true)
    (hnone : ∀ d ∈ rule.collected, Shorthand.sets d.1 e.shorthand = false)
    (hkept : kept.1 ∈ e.longhands) (honly : ∀ d ∈ rule.collected, d.1 = kept.1 → d = kept) :
    rule.EmitsFrom kept out := by
  rcases Shorthand.mem_collapse rule.nodup_keys_collected hout with
    hmem | ⟨f, hf, hname, values, hvalues, hgather⟩
  · rw [hnone out hmem] at hsets
    cases hsets
  · rw [← hname, Shorthand.sets_shorthand hf] at hsets
    have heq := hsets.resolve_right (Shorthand.shorthand_not_mem_longhands he hf)
    obtain rfl := Shorthand.eq_of_shorthand_eq hf he heq
    obtain ⟨v, hv⟩ := OrderedMap.exists_mem_of_mapM_get? hvalues hkept
    exact ⟨honly _ hv rfl ▸ hv, hout, Or.inr ⟨f, hf, hname, hkept, values, hvalues, hgather⟩⟩

theorem Rule.exists_mem_body_sets {rule : Rule} {kept : Text × Text} {l : Text}
    (h : kept ∈ rule.collected) (hsets : Shorthand.sets kept.1 l = true) :
    ∃ out ∈ rule.body, Shorthand.sets out.1 l = true := by
  rcases Shorthand.mem_collapse_of_mem h with hmem | ⟨e, he, hp, y, hy⟩
  · exact ⟨kept, hmem, hsets⟩
  · rw [Shorthand.sets_leaf he hp] at hsets
    exact ⟨(e.shorthand, y), hy, (Shorthand.sets_shorthand he).2 (Or.inr (hsets ▸ hp))⟩

theorem exists_keptFrom {first after : List (Text × Text)} {last : Text × Text} {l : Text}
    (hlast : Shorthand.sets last.1 l = true)
    (hafter : ∀ e ∈ after, Shorthand.sets e.1 l = false)
    (hcomplete : Complete (first ++ last :: after) l →
      Unset (first ++ last :: after) l ∧ ∃ kept, KeptFrom last after kept) :
    ∃ kept, KeptFrom last after kept ∧
      (¬Complete (first ++ last :: after) l ∧ Shorthand.sets kept.1 l = true ∨
        Complete (first ++ last :: after) l ∧ Unset (first ++ last :: after) l ∧
          ∃ e ∈ Shorthand.expandable, e.shorthand = l ∧ kept.1 ∈ e.longhands) := by
  have hwritten : ∀ p ∈ (Shorthand.expansion last.1 last.2).map (·.1),
      p ∈ (writtenBy (first ++ last :: after)).map (·.1) := by
    intro p hp
    rw [writtenBy_append_cons, List.map_append, List.map_append]
    exact List.mem_append_right _ (List.mem_append_left _ hp)
  rcases Shorthand.exists_mem_expansion_sets (v := last.2) hlast with
    ⟨p, x, hp, hsets⟩ | ⟨e, he, hl, hkeys⟩
  · -- a later declaration that overwrites it would set `l` too
    refine ⟨(p, x), ⟨hp, fun e he hmem => ?_⟩, Or.inl ⟨fun hall => ?_, hsets⟩⟩
    · obtain ⟨⟨_, y⟩, hy, rfl⟩ := List.mem_map.1 hmem
      have hset := Shorthand.sets_of_mem_expansion hy hsets
      rw [hafter e he] at hset
      cases hset
    · have hunset := (hcomplete hall).1 p (hwritten p (List.mem_map_of_mem (f := Prod.fst) hp))
      rw [hsets] at hunset
      cases hunset
  · -- the last setter is `l` itself, written out as all its longhands
    have hall : Complete (first ++ last :: after) l :=
      ⟨e, he, hl, fun p hp => hwritten p (hkeys ▸ hp)⟩
    obtain ⟨hunset, kept, hkept⟩ := hcomplete hall
    exact ⟨kept, hkept, Or.inr ⟨hall, hunset, e, he, hl,
      hkeys ▸ List.mem_map_of_mem (f := Prod.fst) hkept.1⟩⟩

namespace Description.Holds

variable {m before : Model} {i : NameId} {style : StyleName × Text} {nodes : List Node}
  (h : Holds m i style nodes before) {s : ScopeId} {suffix l : Text}
include h

theorem record_unique (hm : m.WellFormed) (hwarn : ∀ w ∈ m.warnings, w.style ≠ style.1)
    (hcompared : Compared (m.declaredAt s suffix (Spot.root.walkAll nodes).steps) l)
    {r t : Record} (hr : r ∈ m.recordsForName i) (ht : t ∈ m.recordsForName i)
    (hrs : r.site = ⟨s, i, suffix⟩) (hts : t.site = ⟨s, i, suffix⟩)
    (hrl : Shorthand.sets r.property l = true) (htl : Shorthand.sets t.property l = true) :
    r = t := by
  have hrw := List.mem_map_of_mem (f := Prod.fst) (h.mem_writtenBy hr hrs)
  have htw := List.mem_map_of_mem (f := Prod.fst) (h.mem_writtenBy ht hts)
  by_cases heq : r.property = t.property
  · refine hm.eq_of_key_eq (hm.mem_recordsForName.1 hr).1 (hm.mem_recordsForName.1 ht).1 ?_
    rw [Record.key, Record.key, hrs, hts, heq]
  · obtain ⟨a, ha, b, hb, _, _, hclash⟩ := hcompared _ hrw _ htw heq hrl htl
    obtain ⟨w, hw, hstyle⟩ := h.exists_warning ha hb hclash
    exact absurd hstyle (hwarn w hw)

theorem exists_record_of_kept {first after : List (Text × Text)} {last kept : Text × Text}
    (hsplit : m.declaredAt s suffix (Spot.root.walkAll nodes).steps = first ++ last :: after)
    (hkept : KeptFrom last after kept) :
    ∃ r ∈ m.recordsForName i, r.site = ⟨s, i, suffix⟩ ∧ r.property = kept.1 ∧
      r.value = kept.2 := by
  obtain ⟨hkept, hlater⟩ := hkept
  obtain ⟨u, v, huv⟩ := List.append_of_mem hkept
  have hv : kept.1 ∉ v.map (·.1) := by
    have hnodup := Shorthand.nodup_keys_expansion last.1 last.2
    rw [huv, List.map_append, List.map_cons] at hnodup
    exact (List.nodup_cons.1 (List.nodup_append.1 hnodup).2.1).1
  refine h.exists_record (u := writtenBy first ++ u) (v := v ++ writtenBy after) ?_ ?_
  · rw [hsplit, writtenBy_append_cons, huv]
    simp
  · rw [List.map_append, List.mem_append]
    rintro (hmem | hmem)
    · exact hv hmem
    · obtain ⟨w, hw, hname⟩ := List.mem_map.1 hmem
      obtain ⟨e, he, hw⟩ := AtomicCss.mem_writtenBy.1 hw
      exact hlater e he (hname ▸ List.mem_map_of_mem hw)

theorem written_of_within {rule : Rule} (hrule : rule.Within m ⟨s, i, suffix⟩) {q : Text × Text}
    (hq : q ∈ rule.collected) :
    q.1 ∈ (writtenBy (m.declaredAt s suffix (Spot.root.walkAll nodes).steps)).map (·.1) := by
  obtain ⟨t, ht, htsite, htp, _⟩ := hrule q hq
  rw [← htp]
  exact List.mem_map_of_mem (f := Prod.fst) (h.mem_writtenBy ht htsite)

/-- A kept setter of `l`, if `l` cannot be folded, is what the rules emit for `l`. -/
theorem emitsFrom_of_sets (hm : m.WellFormed) (hwarn : ∀ w ∈ m.warnings, w.style ≠ style.1)
    (hcompared : Compared (m.declaredAt s suffix (Spot.root.walkAll nodes).steps) l)
    (hcomplete : ¬Complete (m.declaredAt s suffix (Spot.root.walkAll nodes).steps) l)
    {r : Record} (hr : r ∈ m.recordsForName i) (hsite : r.site = ⟨s, i, suffix⟩)
    (hsets : Shorthand.sets r.property l = true) {rule : Rule}
    (hrule : rule.Within m ⟨s, i, suffix⟩) {out : Text × Text} (hout : out ∈ rule.body)
    (hout_sets : Shorthand.sets out.1 l = true) :
    rule.EmitsFrom (r.property, r.value) out := by
  refine Rule.emitsFrom_of_sets hout hout_sets (fun q hq hql => ?_) fun e he hl => ?_
  · obtain ⟨t, ht, htsite, htp, htx⟩ := hrule q hq
    rw [← htp] at hql
    have htr := h.record_unique hm hwarn hcompared ht hr htsite hsite hql hsets
    rw [htr] at htp htx
    exact Prod.ext htp.symm htx.symm
  · by_contra hall
    refine hcomplete ⟨e, he, hl, fun p hp => ?_⟩
    by_contra hnone
    refine hall ⟨p, hp, fun hkey => hnone ?_⟩
    obtain ⟨q, hq, rfl⟩ := List.mem_map.1 hkey
    exact h.written_of_within hrule hq

theorem emitsFrom_of_folds (hm : m.WellFormed) {e : Shorthand.Entry}
    (he : e ∈ Shorthand.expandable)
    (hunset : Unset (m.declaredAt s suffix (Spot.root.walkAll nodes).steps) e.shorthand)
    {r : Record} (hr : r ∈ m.recordsForName i) (hsite : r.site = ⟨s, i, suffix⟩)
    (hp : r.property ∈ e.longhands) {rule : Rule} (hrule : rule.Within m ⟨s, i, suffix⟩)
    {out : Text × Text} (hout : out ∈ rule.body)
    (hsets : Shorthand.sets out.1 e.shorthand = true) :
    rule.EmitsFrom (r.property, r.value) out := by
  refine Rule.emitsFrom_of_folds he hout hsets
    (fun q hq => hunset _ (h.written_of_within hrule hq)) hp fun q hq heq => ?_
  obtain ⟨t, ht, htsite, htp, htx⟩ := hrule q hq
  have htr : t = r := by
    refine hm.eq_of_key_eq (hm.mem_recordsForName.1 ht).1 (hm.mem_recordsForName.1 hr).1 ?_
    rw [Record.key, Record.key, htsite, hsite, htp, heq]
  rw [htr] at htp htx
  exact Prod.ext htp.symm htx.symm

end Description.Holds

namespace Model.WellFormed

variable {m : Model} (hm : m.WellFormed) (preferred : List Text) (allocator : Allocator)
  {i : NameId} {s : ScopeId} {suffix : Text}
include hm

theorem within {rule : Rule} (hrule : (s, rule) ∈ (m.sheet preferred allocator).1.contents)
    (he : ∃ e ∈ rule.entries, e.variant.suffix = suffix ∧
      e.ident ∈ (m.sheet preferred allocator).2.classesOf i) :
    rule.Within m ⟨s, i, suffix⟩ := by
  intro q hq
  obtain ⟨e, he, rfl, hident⟩ := he
  exact ⟨_, hm.mem_recordsForName_of_delivers preferred allocator (d := ⟨q.1, q.2⟩)
    ⟨rule, hrule, ⟨e, he, rfl, hident⟩, hq⟩, rfl, rfl, rfl⟩

theorem exists_emitted_sets {r : Record} (hr : r ∈ m.recordsForName i)
    (hsite : r.site = ⟨s, i, suffix⟩) {l : Text} (hl : Shorthand.sets r.property l = true) :
    ∃ out ∈ (m.sheet preferred allocator).1.emittedFor
      ((m.sheet preferred allocator).2.classesOf i) s suffix, Shorthand.sets out.1 l = true := by
  have hname : r.site.name = i := by rw [hsite]
  rw [← hname] at hr
  obtain ⟨rule, hcontents, ⟨e, he, hv, hident⟩, hcollected⟩ :=
    hm.delivers_of_mem_recordsForName preferred allocator hr
  obtain ⟨out, hout, hsets⟩ := Rule.exists_mem_body_sets hcollected hl
  rw [hsite] at hcontents hident
  have hsuffix : e.variant.suffix = suffix := by
    rw [hv, Record.contributor, hsite]
  exact ⟨out, ScopeTree.mem_emittedFor.2 ⟨rule, hcontents, ⟨e, he, hsuffix, hident⟩, hout⟩, hsets⟩

end Model.WellFormed

/--
A style gets no warning, and where properties that it keeps overlap on `l` the tracker compares
them. If `l` is a shorthand that can be folded, only the fold sets it, and a part of it is from the
last declaration in the source that sets `l`. Then, of what the rules of the style emit at a scope
and suffix, the last declaration that sets `l` stems from that last one in the source.
-/
theorem Description.last_setter_emitted {d : Description} {stem : Text} {c : Compilation}
    (hc : d.compilation stem = .ok c) {i : NameId} {style : StyleName × Text}
    (hstyle : d.styles[i]? = some style) {nodes : List Node} (hparse : parse style.2 = .ok nodes)
    (hwarn : ∀ w ∈ c.model.warnings, w.style ≠ style.1) {s : ScopeId} {suffix l : Text}
    {first after : List (Text × Text)} {last : Text × Text}
    (hsplit : c.model.declaredAt s suffix (Spot.root.walkAll nodes).steps =
      first ++ last :: after)
    (hlast : Shorthand.sets last.1 l = true)
    (hafter : ∀ e ∈ after, Shorthand.sets e.1 l = false)
    (hcompared : Compared (first ++ last :: after) l)
    (hcomplete : Complete (first ++ last :: after) l →
      Unset (first ++ last :: after) l ∧ ∃ kept, KeptFrom last after kept) :
    ∃ kept, KeptFrom last after kept ∧
      (¬Complete (first ++ last :: after) l →
        ∃ out ∈ c.rules.emittedFor (c.allocation.classesOf i) s suffix,
          Shorthand.sets out.1 l = true) ∧
      ∀ out, ((c.rules.emittedFor (c.allocation.classesOf i) s suffix).filter
          (Shorthand.sets ·.1 l)).getLast? = some out →
        ∃ rule, (s, rule) ∈ c.rules.contents ∧ rule.EmitsFrom kept out := by
  obtain ⟨reserved, m, _, _, hmodel, rfl⟩ := compilation_ok hc
  have hm := (model_reachable hmodel).wellFormed
  obtain ⟨nodes', before, h⟩ := model_holds hmodel hstyle
  obtain rfl : nodes = nodes' := Except.ok.inj (hparse.symm.trans h.parsed)
  obtain ⟨⟨p, x⟩, hkept, hcase⟩ := exists_keptFrom hlast hafter hcomplete
  obtain ⟨r, hr, hsite, rfl, rfl⟩ := h.exists_record_of_kept hsplit hkept
  rw [← hsplit] at hcompared hcase ⊢
  refine ⟨_, hkept, fun hincomplete => ?_, fun out hout => ?_⟩
  · rcases hcase with ⟨_, hsets⟩ | ⟨hall, _⟩
    · exact hm.exists_emitted_sets d.atRules ⟨stem, reserved, 0⟩ hr hsite hsets
    · exact absurd hall hincomplete
  · obtain ⟨hmem, hout_sets⟩ := List.mem_filter.1 (List.mem_of_getLast? hout)
    obtain ⟨rule, hcontents, he, hbody⟩ := ScopeTree.mem_emittedFor.1 hmem
    have hrule := hm.within d.atRules ⟨stem, reserved, 0⟩ hcontents he
    refine ⟨rule, hcontents, ?_⟩
    rcases hcase with ⟨hincomplete, hsets⟩ | ⟨_, hunset, e, he, rfl, hp⟩
    · exact h.emitsFrom_of_sets hm hwarn hcompared hincomplete hr hsite hsets hrule hbody hout_sets
    · exact h.emitsFrom_of_folds hm he hunset hr hsite hp hrule hbody hout_sets

theorem Description.last_setter_emitted_margin :
    let text := "margin-top: 1px; margin: 2px".toList
    let d : Description :=
      { prologue := none, epilogue := none, atRules := [], namespaces := [([], [(['A'], text)])] }
    let last := ("margin".toList, "2px".toList)
    ∃ c, d.compilation [] = .ok c ∧ ∃ kept, KeptFrom last [] kept ∧
      (∃ out ∈ c.rules.emittedFor (c.allocation.classesOf 0) rootScope [],
        Shorthand.sets out.1 "margin-top".toList = true) ∧
      ∀ out, ((c.rules.emittedFor (c.allocation.classesOf 0) rootScope []).filter
          (Shorthand.sets ·.1 "margin-top".toList)).getLast? = some out →
        ∃ rule, (rootScope, rule) ∈ c.rules.contents ∧ rule.EmitsFrom kept out := by
  intro text d last
  let first := ("margin-top".toList, "1px".toList)
  have hrun : (d.compilation []).toOption.any (fun c => (parse text).toOption.any fun nodes =>
      c.model.warnings = [] ∧
      c.model.declaredAt rootScope [] (Spot.root.walkAll nodes).steps = [first, last]) = true := by
    decide +kernel
  cases hc : d.compilation [] with
  | error e => simp [hc, Except.toOption] at hrun
  | ok c =>
    cases hparse : parse text with
    | error e => simp [hparse, Except.toOption] at hrun
    | ok nodes =>
      simp only [hc, hparse, Except.toOption, Option.any_some, decide_eq_true_eq] at hrun
      obtain ⟨hwarnings, hdeclared⟩ := hrun
      have hcompared : Compared ([first] ++ [last]) "margin-top".toList := by
        unfold Compared Shorthand.Clash
        decide +kernel
      have hincomplete : ¬Complete ([first] ++ [last]) "margin-top".toList := by
        unfold Complete
        decide +kernel
      obtain ⟨kept, hkept, hsome, hlast⟩ := last_setter_emitted hc (i := 0) rfl hparse
        (by simp [hwarnings]) hdeclared (by decide +kernel) (by simp) hcompared
        fun h => absurd h hincomplete
      exact ⟨c, rfl, kept, hkept, hsome hincomplete, hlast⟩

/-- A later `margin` with a variable is emitted before the `margin-top` that it should override. -/
theorem Description.last_setter_not_emitted :
    let text := "margin-top: 1px; margin: var(--x)".toList
    let d : Description :=
      { prologue := none, epilogue := none, atRules := [], namespaces := [([], [(['A'], text)])] }
    let first := ("margin-top".toList, "1px".toList)
    let last := ("margin".toList, "var(--x)".toList)
    ∃ c nodes, d.compilation [] = .ok c ∧ parse text = .ok nodes ∧ c.model.warnings = [] ∧
      c.model.declaredAt rootScope [] (Spot.root.walkAll nodes).steps = [first, last] ∧
      Shorthand.sets last.1 first.1 = true ∧
      ((c.rules.emittedFor (c.allocation.classesOf 0) rootScope []).filter
        (Shorthand.sets ·.1 first.1)).getLast? = some first ∧
      ∀ kept ∈ Shorthand.expansion last.1 last.2, ∀ rule : Rule, ¬rule.EmitsFrom kept first := by
  intro text d first last
  have hrun : (d.compilation []).toOption.any (fun c => (parse text).toOption.any fun nodes =>
      c.model.warnings = [] ∧
      c.model.declaredAt rootScope [] (Spot.root.walkAll nodes).steps = [first, last] ∧
      ((c.rules.emittedFor (c.allocation.classesOf 0) rootScope []).filter
        (Shorthand.sets ·.1 first.1)).getLast? = some first) = true := by
    decide +kernel
  cases hc : d.compilation [] with
  | error e => simp [hc, Except.toOption] at hrun
  | ok c =>
    cases hparse : parse text with
    | error e => simp [hparse, Except.toOption] at hrun
    | ok nodes =>
      simp only [hc, hparse, Except.toOption, Option.any_some, decide_eq_true_eq] at hrun
      obtain ⟨hwarnings, hdeclared, hgetLast⟩ := hrun
      have hname : ∀ e ∈ Shorthand.expandable, e.shorthand ≠ first.1 := by decide +kernel
      refine ⟨c, nodes, rfl, rfl, hwarnings, hdeclared, by decide +kernel, hgetLast, ?_⟩
      rintro kept hkept rule ⟨_, _, rfl | ⟨e, he, heq, _⟩⟩
      · exact absurd hkept (by decide +kernel)
      · exact hname e he heq

end AtomicCss
