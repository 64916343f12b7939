import AtomicCss.Proofs.Model.Reachable
set_option autoImplicit false

namespace AtomicCss

namespace Record

/-- Takes the place of the record with its key, or else comes last. -/
def write : List Record → Record → List Record
  | [], r => [r]
  | s :: l, r => if s.key = r.key then r :: l else s :: write l r

theorem write_of_forall_ne {l : List Record} {r : Record} (h : ∀ s ∈ l, s.key ≠ r.key) :
    write l r = l ++ [r] := by
  induction l with
  | nil => rfl
  | cons s l ih =>
    rw [write, if_neg (h s List.mem_cons_self), ih fun t ht => h t (List.mem_cons_of_mem _ ht)]
    rfl

theorem write_eq_modify {l : List Record} {r old : Record} {i : Nat} (hi : l[i]? = some old)
    (hk : old.key = r.key) (hfirst : ∀ j < i, ∀ s, l[j]? = some s → s.key ≠ r.key) :
    write l r = l.modify i fun _ => r := by
  induction l generalizing i with
  | nil => simp at hi
  | cons s l ih =>
    cases i with
    | zero =>
      obtain rfl : s = old := by simpa using hi
      simp [write, hk]
    | succ i =>
      have hs : s.key ≠ r.key := hfirst 0 (Nat.succ_pos i) s rfl
      have hrest := ih (i := i) (by simpa using hi) fun j hj t ht =>
        hfirst (j + 1) (Nat.succ_lt_succ hj) t (by simpa using ht)
      simp [write, hs, hrest]

theorem filter_write {p : Record → Bool} {r : Record} (hp : ∀ s : Record, s.key = r.key → p s = p r)
    (l : List Record) :
    (write l r).filter p = if p r = true then write (l.filter p) r else l.filter p := by
  induction l with
  | nil => cases hr : p r <;> simp [write, hr]
  | cons s l ih =>
    by_cases hs : s.key = r.key
    · have heq := hp s hs
      cases hr : p r <;> simp [write, hs, hr, heq]
    · rw [write, if_neg hs]
      cases hps : p s
      · simp [hps, ih]
      · simp only [List.filter_cons_of_pos hps, ih]
        split
        · rw [write, if_neg hs]
        · rfl

theorem filter_foldl_write {p : Record → Bool} {ws : List Record}
    (hp : ∀ r s : Record, s.key = r.key → p s = p r) (l : List Record) :
    (ws.foldl write l).filter p = (ws.filter p).foldl write (l.filter p) := by
  induction ws generalizing l with
  | nil => rfl
  | cons r ws ih =>
    rw [List.foldl_cons, ih, filter_write (hp r)]
    cases hr : p r <;> simp [hr]

theorem mem_write {l : List Record} (h : (l.map key).Nodup) {r t : Record} :
    r ∈ write l t ↔ r = t ∨ r ∈ l ∧ r.key ≠ t.key := by
  induction l with
  | nil => simp [write]
  | cons s l ih =>
    obtain ⟨hs, hl⟩ := List.nodup_cons.1 h
    by_cases hk : s.key = t.key
    · rw [write, if_pos hk, List.mem_cons, List.mem_cons]
      have hne : r ∈ l → r.key ≠ t.key := fun hr heq =>
        hs (hk.trans heq.symm ▸ List.mem_map_of_mem hr)
      constructor
      · rintro (rfl | hr)
        · exact Or.inl rfl
        · exact Or.inr ⟨Or.inr hr, hne hr⟩
      · rintro (rfl | ⟨rfl | hr, hrk⟩)
        · exact Or.inl rfl
        · exact absurd hk hrk
        · exact Or.inr hr
    · rw [write, if_neg hk, List.mem_cons, ih hl, List.mem_cons]
      constructor
      · rintro (rfl | rfl | ⟨hr, hrk⟩)
        · exact Or.inr ⟨Or.inl rfl, hk⟩
        · exact Or.inl rfl
        · exact Or.inr ⟨Or.inr hr, hrk⟩
      · rintro (rfl | ⟨rfl | hr, hrk⟩)
        · exact Or.inr (Or.inl rfl)
        · exact Or.inl rfl
        · exact Or.inr (Or.inr ⟨hr, hrk⟩)

theorem nodup_write {l : List Record} (h : (l.map key).Nodup) (t : Record) :
    ((write l t).map key).Nodup := by
  induction l with
  | nil => simp [write]
  | cons s l ih =>
    obtain ⟨hs, hl⟩ := List.nodup_cons.1 h
    by_cases hk : s.key = t.key
    · rw [write, if_pos hk, List.map_cons, ← hk]
      exact h
    · rw [write, if_neg hk, List.map_cons, List.nodup_cons]
      refine ⟨fun hm => ?_, ih hl⟩
      obtain ⟨u, hu, hkey⟩ := List.mem_map.1 hm
      rcases (mem_write hl).1 hu with rfl | ⟨hu, _⟩
      · exact hk hkey.symm
      · exact hs (hkey ▸ List.mem_map_of_mem hu)

theorem mem_foldl_write {ws l : List Record} (h : (l.map key).Nodup) {r : Record} :
    r ∈ ws.foldl write l ↔ (r ∈ l ∧ ∀ t ∈ ws, t.key ≠ r.key) ∨
      ∃ before after, ws = before ++ r :: after ∧ ∀ t ∈ after, t.key ≠ r.key := by
  induction ws generalizing l with
  | nil => simp
  | cons t ws ih =>
    rw [List.foldl_cons, ih (nodup_write h t), mem_write h]
    constructor
    · rintro (⟨rfl | ⟨hr, hk⟩, hws⟩ | ⟨before, after, rfl, hafter⟩)
      · exact Or.inr ⟨[], ws, rfl, hws⟩
      · refine Or.inl ⟨hr, fun u hu => ?_⟩
        rcases List.mem_cons.1 hu with rfl | hu
        · exact hk.symm
        · exact hws u hu
      · exact Or.inr ⟨t :: before, after, rfl, hafter⟩
    · rintro (⟨hr, hws⟩ | ⟨before, after, heq, hafter⟩)
      · exact Or.inl ⟨Or.inr ⟨hr, (hws t List.mem_cons_self).symm⟩,
          fun u hu => hws u (List.mem_cons_of_mem _ hu)⟩
      · cases before with
        | nil =>
          cases heq
          exact Or.inl ⟨Or.inl rfl, hafter⟩
        | cons u before =>
          cases heq
          exact Or.inr ⟨before, after, rfl, hafter⟩

theorem mem_foldl_write_nil {ws : List Record} {r : Record} :
    r ∈ ws.foldl write [] ↔
      ∃ before after, ws = before ++ r :: after ∧ ∀ t ∈ after, t.key ≠ r.key := by
  rw [mem_foldl_write (by simp)]
  simp

end Record

def Step.path : Step → List Text
  | .enter path _ => path
  | .declare spot _ _ => spot.path

namespace Model

/-- Every step stands in at-rules that have been met before it. -/
def Follows (style : StyleName) (name : NameId) (m : Model) : List Step → Prop
  | [] => True
  | step :: rest =>
    (∃ s, m.scopeAt? step.path = some s) ∧ (m.perform style name step).Follows style name rest

theorem follows_append {style : StyleName} {name : NameId} {m : Model} {a b : List Step} :
    m.Follows style name (a ++ b) ↔
      m.Follows style name a ∧ (m.performAll style name a).Follows style name b := by
  induction a generalizing m with
  | nil => exact by simp [Follows, performAll]
  | cons step a ih => rw [List.cons_append, Follows, ih, Follows, and_assoc]; rfl

theorem Grows.site_eq {m n : Model} (h : m.Grows n) {spot : Spot} {name : NameId}
    (hs : ∃ s, m.scopeAt? spot.path = some s) : spot.site n name = spot.site m name := by
  obtain ⟨s, hs⟩ := hs
  rw [Spot.site, Spot.site, scopeAt_eq (h.scopeAt? hs), scopeAt_eq hs]

theorem Follows.scopeAt? {style : StyleName} {name : NameId} {m n : Model} {steps : List Step}
    (h : m.Follows style name steps) (hg : (m.performAll style name steps).Grows n) {step : Step}
    (hs : step ∈ steps) : ∃ s, n.scopeAt? step.path = some s := by
  induction steps generalizing m with
  | nil => cases hs
  | cons first steps ih =>
    rcases List.mem_cons.1 hs with rfl | hs
    · obtain ⟨s, hscope⟩ := h.1
      have hlater := (grows_performAll style name m (step :: steps)).trans hg
      exact ⟨s, hlater.scopeAt? hscope⟩
    · exact ih h.2 hg hs

theorem Follows.andThen {style : StyleName} {name : NameId} {m : Model} {a b : Walk}
    (ha : m.Follows style name a.steps)
    (hb : (m.performAll style name a.steps).Follows style name b.steps) :
    m.Follows style name (a.andThen b).steps := by
  obtain ⟨steps, stop⟩ := a
  cases stop with
  | some fault => exact ha
  | none => exact follows_append.2 ⟨ha, hb⟩

end Model

namespace Spot

mutual

theorem follows_walk (style : StyleName) (name : NameId) (spot : Spot) (m : Model)
    (h : ∃ s, m.scopeAt? spot.path = some s) (node : Node) :
    m.Follows style name (spot.walk node).steps := by
  match node with
  | .declaration property value => exact ⟨h, trivial⟩
  | .rule selector children =>
    have hall := fun t n ht => follows_walkAll style name t n ht children
    rw [walk]
    by_cases hs : spot.suffix.isEmpty
    · rw [if_pos hs]
      induction Selector.entries selector generalizing m with
      | nil => trivial
      | cons entry r ih =>
        rw [List.foldr_cons]
        cases he : Selector.Pseudo.ofEntry? entry with
        | none => trivial
        | some s =>
          obtain ⟨scope, hscope⟩ := h
          have hgrows := Model.grows_performAll style name m
            (walkAll (spot.withPseudo s) children).steps
          exact (hall (spot.withPseudo s) m ⟨scope, hscope⟩).andThen
            (ih _ ⟨scope, hgrows.scopeAt? hscope⟩)
    · rw [if_neg hs]
      trivial
  | .atRule header children =>
    obtain ⟨scope, hscope⟩ := h
    have hinside := Model.scopeAt?_inside hscope header
    rw [← Model.scopeAt_eq hscope] at hinside
    rw [walk]
    exact Model.Follows.andThen ⟨⟨scope, hscope⟩, trivial⟩
      (follows_walkAll style name (spot.inside header) _ ⟨_, hinside⟩ children)
  | .statement header => trivial

theorem follows_walkAll (style : StyleName) (name : NameId) (spot : Spot) (m : Model)
    (h : ∃ s, m.scopeAt? spot.path = some s) (nodes : List Node) :
    m.Follows style name (spot.walkAll nodes).steps := by
  match nodes with
  | [] => trivial
  | node :: r =>
    obtain ⟨scope, hscope⟩ := h
    have hgrows := Model.grows_performAll style name m (spot.walk node).steps
    exact (follows_walk style name spot m ⟨scope, hscope⟩ node).andThen
      (follows_walkAll style name spot _ ⟨scope, hgrows.scopeAt? hscope⟩ r)

end

end Spot

/-- What a step writes, when `m` knows the scopes. -/
def Step.writes (m : Model) (name : NameId) : Step → List Record
  | .enter _ _ => []
  | .declare spot property value =>
    (Shorthand.expansion property value).map fun d => ⟨spot.site m name, spot.repeats, d.1, d.2⟩

theorem Step.mem_writes {m : Model} {name : NameId} {steps : List Step} {r : Record} :
    r ∈ steps.flatMap (Step.writes m name) ↔
      ∃ spot property value, .declare spot property value ∈ steps ∧
        r.site = spot.site m name ∧ r.repeats = spot.repeats ∧
          (r.property, r.value) ∈ Shorthand.expansion property value := by
  rw [List.mem_flatMap]
  constructor
  · rintro ⟨step, hstep, hr⟩
    cases step with
    | enter path header => cases hr
    | declare spot property value =>
      obtain ⟨d, hd, rfl⟩ := List.mem_map.1 hr
      exact ⟨spot, property, value, hstep, rfl, rfl, hd⟩
  · rintro ⟨spot, property, value, hstep, hsite, hrepeats, hd⟩
    refine ⟨_, hstep, List.mem_map.2 ⟨_, hd, ?_⟩⟩
    rw [← hsite, ← hrepeats]

theorem Step.name_of_mem_writes {m : Model} {name : NameId} {steps : List Step} {r : Record}
    (h : r ∈ steps.flatMap (Step.writes m name)) : r.site.name = name := by
  obtain ⟨spot, property, value, _, hsite, _⟩ := Step.mem_writes.1 h
  rw [hsite]
  rfl

namespace Model

theorem WellFormed.records_insert {m : Model} (h : m.WellFormed) (r : Record) :
    (m.insert r).records = Record.write m.records r := by
  unfold Model.insert
  cases hk : m.keyIndex.get? r.key with
  | some i =>
    obtain ⟨old, hold, hkey⟩ := Option.map_eq_some_iff.1 ((h.keyIndex _ _).1 hk)
    refine (Record.write_eq_modify hold hkey fun j hj s hs heq => ?_).symm
    have hij := h.position_unique hs hold (heq.trans hkey.symm)
    omega
  | none =>
    refine (Record.write_of_forall_ne fun s hs heq => ?_).symm
    obtain ⟨j, hj⟩ := List.mem_iff_getElem?.1 hs
    rw [(h.keyIndex r.key j).2 (by simp [hj, heq])] at hk
    cases hk

theorem WellFormed.records_declare {m : Model} (h : m.WellFormed) (style : StyleName) {site : Site}
    {repeats : Nat} (hs : site.scope < m.scopes.length) (hn : site.name < m.names.length)
    (hr : 1 ≤ repeats) (property value : Text) :
    (m.declare style site repeats property value).records =
      ((Shorthand.expansion property value).map fun d =>
        (⟨site, repeats, d.1, d.2⟩ : Record)).foldl Record.write m.records := by
  have key : ∀ (l : List (Text × Text)) (n : Model), n.WellFormed → n.scopes = m.scopes →
      n.names = m.names →
      (l.foldl (fun n d => n.insert ⟨site, repeats, d.1, d.2⟩) n).records =
        (l.map fun d => (⟨site, repeats, d.1, d.2⟩ : Record)).foldl Record.write n.records := by
    intro l
    induction l with
    | nil => intros; rfl
    | cons d l ih =>
      intro n hwf hscopes hnames
      have hnext := hwf.insert (r := ⟨site, repeats, d.1, d.2⟩) (by rw [hscopes]; exact hs)
        (by rw [hnames]; exact hn) hr
      rw [List.foldl_cons, ih _ hnext (by simp [hscopes]) (by simp [hnames]),
        hwf.records_insert]
      rfl
  exact key _ _ (h.warn style site property) rfl rfl

theorem WellFormed.records_perform {m n : Model} (h : m.WellFormed) (style : StyleName)
    {name : NameId} (hn : name < m.names.length) {step : Step}
    (hr : ∀ spot property value, step = .declare spot property value → 1 ≤ spot.repeats)
    (hf : ∃ s, m.scopeAt? step.path = some s) (hg : m.Grows n) :
    (m.perform style name step).records = (step.writes n name).foldl Record.write m.records := by
  cases step with
  | enter path header =>
    rw [Model.perform, Model.resolveScope]
    split <;> rfl
  | declare spot property value =>
    rw [Model.perform, Step.writes, hg.site_eq hf]
    exact h.records_declare style (h.scopeAt_lt _) hn (hr _ _ _ rfl) _ _

/-- `n` is any later model, for scopes stay what they are. -/
theorem WellFormed.records_performAll {m n : Model} (h : m.WellFormed) (style : StyleName)
    {name : NameId} (hn : name < m.names.length) {steps : List Step}
    (hr : ∀ spot property value, .declare spot property value ∈ steps → 1 ≤ spot.repeats)
    (hf : m.Follows style name steps) (hg : (m.performAll style name steps).Grows n) :
    (m.performAll style name steps).records =
      (steps.flatMap (Step.writes n name)).foldl Record.write m.records := by
  induction steps generalizing m with
  | nil => rfl
  | cons step steps ih =>
    have hstep : ∀ spot property value, step = .declare spot property value → 1 ≤ spot.repeats :=
      fun spot property value hs => hr spot property value (hs ▸ List.mem_cons_self)
    have hlater : m.Grows n := (grows_perform style name m step).trans
      ((grows_performAll style name _ steps).trans hg)
    have hrest := ih (h.perform style hn hstep) (by rw [names_perform]; exact hn)
      (fun spot property value hs => hr spot property value (List.mem_cons_of_mem _ hs)) hf.2 hg
    rw [List.flatMap_cons, List.foldl_append, ← h.records_perform style hn hstep hf.1 hlater,
      ← hrest]
    rfl

theorem Follows.ingest (m : Model) (style : StyleName) (nodes : List Node) :
    (m.addName style).Follows style m.names.length (Spot.root.walkAll nodes).steps :=
  Spot.follows_walkAll style _ .root _ ⟨rootScope, rfl⟩ nodes

theorem exists_scopeAt?_ingest (m : Model) (style : StyleName) {nodes : List Node} {step : Step}
    (hs : step ∈ (Spot.root.walkAll nodes).steps) :
    ∃ s, (m.ingest style nodes).2.scopeAt? step.path = some s := by
  rw [ingest_eq]
  exact (Follows.ingest m style nodes).scopeAt? (.refl _) hs

namespace WellFormed

variable {m : Model} (h : m.WellFormed) (style : StyleName) (nodes : List Node)
include h

theorem records_ingest {n : Model} (hg : (m.ingest style nodes).2.Grows n) :
    (m.ingest style nodes).2.records =
      ((Spot.root.walkAll nodes).steps.flatMap (Step.writes n m.names.length)).foldl
        Record.write m.records := by
  rw [ingest_eq] at hg ⊢
  refine (h.addName style).records_performAll style ?_
    (Spot.declares_repeats_pos .root (Nat.le_refl 1) nodes) (.ingest m style nodes) hg
  simp [Model.addName]

theorem name_ne_of_mem {r : Record} (hr : r ∈ m.records) : r.site.name ≠ m.names.length :=
  Nat.ne_of_lt (h.placed r hr).2.1

theorem recordsForName_ingest {n : Model} (hg : (m.ingest style nodes).2.Grows n) :
    (m.ingest style nodes).2.recordsForName m.names.length =
      ((Spot.root.walkAll nodes).steps.flatMap (Step.writes n m.names.length)).foldl
        Record.write [] := by
  rw [(h.ingest style nodes).recordsForName_eq, h.records_ingest style nodes hg,
    Record.filter_foldl_write fun r s hk => by rw [(Prod.mk.inj hk).1]]
  rw [List.filter_eq_nil_iff.2 fun r hr => by simpa using h.name_ne_of_mem hr,
    List.filter_eq_self.2 fun r hr => by simpa using Step.name_of_mem_writes hr]

theorem recordsForName_ingest_of_ne {name : NameId} (hname : name ≠ m.names.length) :
    (m.ingest style nodes).2.recordsForName name = m.recordsForName name := by
  have hnone : ((Spot.root.walkAll nodes).steps.flatMap
      (Step.writes (m.ingest style nodes).2 m.names.length)).filter (·.site.name = name) = [] := by
    refine List.filter_eq_nil_iff.2 fun r hr => ?_
    rw [Step.name_of_mem_writes hr]
    simpa using hname.symm
  rw [(h.ingest style nodes).recordsForName_eq, h.records_ingest style nodes (.refl _),
    Record.filter_foldl_write fun r s hk => by rw [(Prod.mk.inj hk).1], hnone,
    h.recordsForName_eq]
  rfl

end WellFormed

end Model
end AtomicCss
