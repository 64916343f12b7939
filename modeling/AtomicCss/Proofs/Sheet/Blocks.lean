import AtomicCss.Proofs.Model.History
import AtomicCss.Proofs.Sheet.Preference
import AtomicCss.Proofs.Sheet.Regeneration
set_option autoImplicit false

namespace AtomicCss

namespace Model

/-- There is a record in the scope or below it. -/
def Lives (m : Model) (s : ScopeId) : Prop := ∃ r ∈ m.records, m.Below r.site.scope s

/-- In the scope `s`, at-rules that share the block of `header` were met before those of `other`. -/
def MetBefore (met : List (ScopeId × Text)) (s : ScopeId) (header other : Text) : Prop :=
  met.findIdx (sameBlock s header) < met.findIdx (sameBlock s other)

/--
A tree of blocks as they have to be laid out. In each scope stand its rules and then, in the order
of preference, one block for each of its child scopes that lives, with the header that was met
first.
-/
inductive Lays (m : Model) (preferred : List Text) (met : List (ScopeId × Text))
    (rules : ScopeId → List Rule) : ScopeTree Rule → Prop where
  | node {s : ScopeId} {blocks : List (ScopeTree Rule)} :
      (∀ c, c ∈ blocks.map ScopeTree.scope ↔ c ∈ m.childrenOf s ∧ m.Lives c) →
      (∀ t ∈ blocks, met.find? (sameBlock s t.header) = some (s, t.header)) →
      (blocks.Pairwise fun t u => Precedes preferred (MetBefore met s) t.header u.header) →
      (∀ t ∈ blocks, Lays m preferred met rules t) →
      Lays m preferred met rules (.node s (m.headerOf s) (rules s) blocks)

theorem Lives.of_below {m : Model} {s p : ScopeId} (h : m.Lives s) (hs : m.Below s p) :
    m.Lives p := by
  obtain ⟨r, hr, hbelow⟩ := h
  exact ⟨r, hr, hbelow.trans hs⟩

theorem Lays.mem_scopes {m : Model} {preferred : List Text} {met : List (ScopeId × Text)}
    {rules : ScopeId → List Rule} {t : ScopeTree Rule} (h : m.Lays preferred met rules t)
    {s : ScopeId} :
    s ∈ t.blocks.map (·.1) ↔ s = t.scope ∨ m.Lives s ∧ m.Below s t.scope := by
  induction h with
  | @node p blocks hscopes _ _ _ ih =>
    have hmem : s ∈ (ScopeTree.node p (m.headerOf p) (rules p) blocks).blocks.map (·.1) ↔
        s = p ∨ ∃ t ∈ blocks, s ∈ t.blocks.map (·.1) := by
      rw [ScopeTree.blocks, ScopeTree.blocksAll_eq_flatMap, List.map_cons, List.mem_cons,
        List.map_flatMap, List.mem_flatMap]
    rw [hmem]
    constructor
    · rintro (rfl | ⟨t, ht, hs⟩)
      · exact Or.inl rfl
      · obtain ⟨hchild, hlives⟩ := (hscopes t.scope).1 (List.mem_map_of_mem ht)
        rcases (ih t ht).1 hs with rfl | ⟨hs, hbelow⟩
        · exact Or.inr ⟨hlives, .single hchild⟩
        · exact Or.inr ⟨hs, hbelow.tail hchild⟩
    · rintro (rfl | ⟨hs, hbelow⟩)
      · exact Or.inl rfl
      · rcases Relation.ReflTransGen.cases_tail hbelow with rfl | ⟨c, hbelow, hchild⟩
        · exact Or.inl rfl
        · obtain ⟨t, ht, rfl⟩ := List.mem_map.1 ((hscopes c).2 ⟨hchild, hs.of_below hbelow⟩)
          exact Or.inr ⟨t, ht, (ih t ht).2 (Or.inr ⟨hs, hbelow⟩)⟩

namespace WellFormed

variable {m : Model} (h : m.WellFormed)
include h

/-- Enough levels at a scope are enough, with one level less, at its children. -/
theorem length_le_add {depth : Nat} {s c : ScopeId} (hdepth : m.scopes.length ≤ s + (depth + 1))
    (hc : c ∈ m.childrenOf s) : m.scopes.length ≤ c + depth := by
  have hlt : s.succ ≤ c := h.parent_lt hc
  rw [Nat.add_succ, ← Nat.succ_add] at hdepth
  exact Nat.le_trans hdepth (Nat.add_le_add_right hlt depth)

theorem mem_blocks_treeAt_iff {depth : Nat} {root s : ScopeId} {l : List Record}
    (hroot : root < m.scopes.length) (hdepth : m.scopes.length ≤ root + depth) :
    (s, l) ∈ (m.treeAt depth root).blocks ↔ m.Below s root ∧ l = m.recordsInScope s := by
  refine ⟨fun hs => ⟨below_of_mem_blocks_treeAt hs, (h.of_mem_blocks_treeAt hroot hs).2⟩, ?_⟩
  rintro ⟨hs, rfl⟩
  induction depth generalizing root with
  | zero => exact absurd hroot (Nat.not_lt.2 hdepth)
  | succ depth ih =>
    rcases Relation.ReflTransGen.cases_tail hs with rfl | ⟨c, hbelow, hc⟩
    · exact mem_blocks_treeAt_self m _ _
    · obtain ⟨_, hget, _⟩ := h.mem_childrenOf.1 hc
      have henough := h.length_le_add hdepth hc
      exact mem_blocks_treeAt_succ.2
        (Or.inr ⟨c, hc, ih (List.getElem?_eq_some_iff.1 hget).1 henough hbelow⟩)

theorem contents_treeAt {depth : Nat} {s : ScopeId} (hs : s < m.scopes.length)
    (hdepth : m.scopes.length ≤ s + depth) :
    (m.treeAt depth s).contents ≠ [] ↔ m.Lives s := by
  rw [ne_eq, ScopeTree.contents_eq_nil]
  constructor
  · intro hsome
    simp only [not_forall] at hsome
    obtain ⟨⟨p, l⟩, hb, hl⟩ := hsome
    obtain ⟨hbelow, rfl⟩ := (h.mem_blocks_treeAt_iff hs hdepth).1 hb
    obtain ⟨r, hr⟩ := List.exists_mem_of_ne_nil _ hl
    obtain ⟨hmem, rfl⟩ := h.mem_recordsInScope.1 hr
    exact ⟨r, hmem, hbelow⟩
  · rintro ⟨r, hr, hbelow⟩ hnone
    have hmem := h.mem_recordsInScope.2 ⟨hr, rfl⟩
    exact List.ne_nil_of_mem hmem (hnone _ ((h.mem_blocks_treeAt_iff hs hdepth).2 ⟨hbelow, rfl⟩))

theorem isBlock_of_mem_childrenOf {s c : ScopeId} (hc : c ∈ m.childrenOf s) :
    m.IsBlock c s (m.headerOf c) := by
  obtain ⟨t, ht, hparent⟩ := h.mem_childrenOf.1 hc
  exact ⟨t, ht, hparent, by rw [headerOf, ht]; rfl⟩

theorem pairwise_childrenOf (s : ScopeId) : (m.childrenOf s).Pairwise (· < ·) := by
  rw [h.children]
  exact pairwise_positions _ _

theorem below_root {s : ScopeId} (hs : s < m.scopes.length) : m.Below s rootScope :=
  below_of_mem_blocks_treeAt (h.mem_blocks_tree.2 ⟨hs, rfl⟩)

theorem lives_lt_length {s : ScopeId} (hs : m.Lives s) : s < m.scopes.length := by
  obtain ⟨r, hr, hbelow⟩ := hs
  exact Nat.lt_of_le_of_lt (h.le_of_below hbelow) (h.placed r hr).1

end WellFormed

/-- The tree at a scope with what is made of the records, in the order of preference. -/
def arrangedAt (m : Model) (f : List Record → List Rule) (preferred : List Text) (depth : Nat)
    (s : ScopeId) : ScopeTree Rule :=
  ((m.treeAt depth s).mapContent f).arrange (preferred.map Header.key)

section

variable (m : Model) (f : List Record → List Rule) (preferred : List Text) (depth : Nat)
  (s : ScopeId)

theorem scope_arrangedAt : (m.arrangedAt f preferred depth s).scope = s := by
  cases depth <;> rfl

theorem header_arrangedAt : (m.arrangedAt f preferred depth s).header = m.headerOf s := by
  cases depth <;> rfl

theorem arrangedAt_succ : m.arrangedAt f preferred (depth + 1) s =
    .node s (m.headerOf s) (f (m.recordsInScope s))
      (ScopeTree.byPreference (preferred.map Header.key)
        ((m.childrenOf s).map (m.arrangedAt f preferred depth))) := by
  rw [arrangedAt, treeAt, ScopeTree.mapContent, ScopeTree.arrange, ScopeTree.mapContentAll_eq_map,
    ScopeTree.arrangeAll_eq_map, List.map_map, List.map_map]
  rfl

end

/-- The blocks of the child scopes, those that live, in the order of preference. -/
def blocksIn (m : Model) (f : List Record → List Rule) (preferred : List Text) (depth : Nat)
    (s : ScopeId) : List (ScopeTree Rule) :=
  ScopeTree.prunedAll (ScopeTree.byPreference (preferred.map Header.key)
    ((m.childrenOf s).map (m.arrangedAt f preferred depth)))

section

variable {m : Model} {met : List (ScopeId × Text)} {f : List Record → List Rule}
  {preferred : List Text} {depth : Nat} {s : ScopeId}

theorem WellFormed.mem_blocksIn (hm : m.WellFormed) (hf : ∀ l, f l = [] ↔ l = [])
    (hdepth : m.scopes.length ≤ s + (depth + 1)) {t : ScopeTree Rule} :
    t ∈ m.blocksIn f preferred depth s ↔
      ∃ c ∈ m.childrenOf s, m.Lives c ∧ (m.arrangedAt f preferred depth c).pruned = t := by
  have hlive : ∀ c ∈ m.childrenOf s,
      ((m.arrangedAt f preferred depth c).contents.isEmpty = false ↔ m.Lives c) := by
    intro c hc
    obtain ⟨_, hget, _⟩ := hm.mem_childrenOf.1 hc
    rw [← hm.contents_treeAt (List.getElem?_eq_some_iff.1 hget).1 (hm.length_le_add hdepth hc),
      arrangedAt, Bool.eq_false_iff, ne_eq, List.isEmpty_iff, ScopeTree.contents_arrange_eq_nil,
      ScopeTree.contents_mapContent_eq_nil hf]
  simp only [blocksIn, ScopeTree.prunedAll_eq, List.mem_map, List.mem_filter,
    ScopeTree.mem_byPreference]
  constructor
  · rintro ⟨_, ⟨⟨c, hc, rfl⟩, hsome⟩, rfl⟩
    exact ⟨c, hc, (hlive c hc).1 (by simpa using hsome), rfl⟩
  · rintro ⟨c, hc, hlives, rfl⟩
    exact ⟨_, ⟨⟨c, hc, rfl⟩, by simpa using (hlive c hc).2 hlives⟩, rfl⟩

theorem Recalls.pairwise_metBefore (h : m.Recalls met) (hm : m.WellFormed) (s : ScopeId) :
    (m.childrenOf s).Pairwise fun c d => MetBefore met s (m.headerOf c) (m.headerOf d) :=
  (hm.pairwise_childrenOf s).imp_of_mem fun hc hd hlt =>
    h.order _ _ _ _ _ _ hlt (hm.isBlock_of_mem_childrenOf hc) (hm.isBlock_of_mem_childrenOf hd)

theorem MetBefore.key_ne {header other : Text} (h : MetBefore met s header other) :
    Header.key header ≠ Header.key other := by
  intro heq
  have hsame : sameBlock s header = sameBlock s other := by
    funext e
    rw [sameBlock, sameBlock, heq]
  rw [MetBefore, hsame] at h
  exact Nat.lt_irrefl _ h

theorem Recalls.pairwise_blocksIn (h : m.Recalls met) (hm : m.WellFormed) :
    (m.blocksIn f preferred depth s).Pairwise fun t u =>
      Precedes preferred (MetBefore met s) t.header u.header := by
  have hmet : ((m.childrenOf s).map (m.arrangedAt f preferred depth)).Pairwise fun t u =>
      MetBefore met s t.header u.header := by
    refine List.pairwise_map.2 ((h.pairwise_metBefore hm s).imp fun hlt => ?_)
    rw [header_arrangedAt, header_arrangedAt]
    exact hlt
  have hordered := ScopeTree.pairwise_byPreference preferred hmet
    (hmet.imp MetBefore.key_ne)
  rw [blocksIn, ScopeTree.prunedAll_eq, List.pairwise_map]
  refine (hordered.sublist List.filter_sublist).imp fun {t u} hlt => ?_
  rw [ScopeTree.header_pruned, ScopeTree.header_pruned]
  exact hlt

theorem Recalls.lays_arrangedAt (h : m.Recalls met) (hm : m.WellFormed)
    (hf : ∀ l, f l = [] ↔ l = []) (hs : s < m.scopes.length)
    (hdepth : m.scopes.length ≤ s + depth) :
    m.Lays preferred met (fun s => f (m.recordsInScope s))
      (m.arrangedAt f preferred depth s).pruned := by
  induction depth generalizing s with
  | zero => exact absurd hs (Nat.not_lt.2 hdepth)
  | succ depth ih =>
    have hmem : ∀ t, t ∈ m.blocksIn f preferred depth s ↔ ∃ c ∈ m.childrenOf s, m.Lives c ∧
        (m.arrangedAt f preferred depth c).pruned = t := fun _ => hm.mem_blocksIn hf hdepth
    rw [arrangedAt_succ, ScopeTree.pruned]
    refine .node (fun c => ?_) (fun t ht => ?_) (h.pairwise_blocksIn hm) fun t ht => ?_
    · rw [List.mem_map]
      constructor
      · rintro ⟨t, ht, rfl⟩
        obtain ⟨d, hd, hlives, rfl⟩ := (hmem t).1 ht
        rw [ScopeTree.scope_pruned, scope_arrangedAt]
        exact ⟨hd, hlives⟩
      · rintro ⟨hc, hlives⟩
        exact ⟨_, (hmem _).2 ⟨c, hc, hlives, rfl⟩,
          by rw [ScopeTree.scope_pruned, scope_arrangedAt]⟩
    · obtain ⟨c, hc, _, rfl⟩ := (hmem t).1 ht
      rw [ScopeTree.header_pruned, header_arrangedAt]
      exact h.header _ _ _ (hm.isBlock_of_mem_childrenOf hc)
    · obtain ⟨c, hc, hlives, rfl⟩ := (hmem t).1 ht
      exact ih (hm.lives_lt_length hlives) (hm.length_le_add hdepth hc)

end

/--
The text of a reachable model. The root scope and every scope that lives have one block each, and no
other scope has any. A block stands in the block of the scope around it, begins with the rules of
its scope, and has the header that was met first. Behind the rules stand the blocks of the child
scopes: those whose key is not preferred, in the order in which they were met, and then the others
by the position of the first preferred header with their key.
-/
theorem Reachable.generate_blocks {m : Model} (hm : m.Reachable) :
    (∃ met, m.Meets met) ∧ ∀ met, m.Meets met → ∀ (preferred : List Text) (a : Allocation),
      ∃ sheet : ScopeTree Rule, (m.generate preferred a).1 = sheet.print ∧
        sheet.scope = rootScope ∧ (sheet.blocks.map (·.1)).Nodup ∧
        (∀ s, s ∈ sheet.blocks.map (·.1) ↔ s = rootScope ∨ m.Lives s) ∧
        m.Lays preferred met (fun s => (Group.ofRecords (m.recordsInScope s)).map
          (Group.rule (m.emit preferred a).2.nameOf)) sheet := by
  refine ⟨hm.exists_meets, fun met hmet preferred a => ?_⟩
  have hw := hm.wellFormed
  let f : List Record → List Rule := fun l =>
    (Group.ofRecords l).map (Group.rule (m.emit preferred a).2.nameOf)
  have hf : ∀ l, f l = [] ↔ l = [] := by
    intro l
    rw [List.map_eq_nil_iff]
    constructor
    · intro hnone
      refine List.eq_nil_iff_forall_not_mem.2 fun r hr => ?_
      obtain ⟨g, hg, _⟩ := Group.exists_mem_ofRecords hr
      rw [hnone] at hg
      cases hg
    · rintro rfl
      rfl
  have htree : (m.emit preferred a).1 = m.arrangedAt f preferred m.scopes.length rootScope := by
    rw [rules_emit_eq_arrange, groups, ScopeTree.mapContent_mapContent]
    rfl
  have hlays : m.Lays preferred met (fun s => f (m.recordsInScope s))
      (m.arrangedAt f preferred m.scopes.length rootScope).pruned :=
    hmet.recalls.lays_arrangedAt hw hf hw.scopes_pos (Nat.le_add_left _ _)
  have hscope : (m.arrangedAt f preferred m.scopes.length rootScope).pruned.scope = rootScope := by
    rw [ScopeTree.scope_pruned, scope_arrangedAt]
  refine ⟨(m.arrangedAt f preferred m.scopes.length rootScope).pruned, ?_, hscope, ?_, fun s => ?_,
    hlays⟩
  · rw [← htree, ← ScopeTree.render_eq_print]
    rfl
  · have hperm := (ScopeTree.perm_blocks_arrange (preferred.map Header.key)
      (m.tree.mapContent f)).map (·.1)
    rw [ScopeTree.scopes_mapContent] at hperm
    exact ((ScopeTree.blocks_pruned_sublist _).map _).nodup
      (hperm.nodup_iff.2 (hw.nodup_scopes_treeAt _ _))
  · rw [hlays.mem_scopes, hscope]
    exact or_congr_right (and_iff_left_of_imp fun hs => hw.below_root (hw.lives_lt_length hs))

theorem Reachable.generate_blocks_print :
    let block (header : String) (value : Char) : Node :=
      .atRule header.toList [.declaration "top".toList [value]]
    let m := (Model.empty.ingest ⟨[], ['a']⟩ [block "@media (a: b)" '1', block "@media print" '2',
      .atRule "@media tv".toList [], .declaration "top".toList ['0'], block "@media (a:b)" '3']).2
    let text := (m.generate ["@media ( a:b )".toList] (.fresh ⟨[], [], 0⟩ 1)).1
    m.Reachable ∧
      (∃ sheet : ScopeTree Rule, text = sheet.print ∧ (sheet.blocks.map (·.1)).Nodup ∧
        ∀ s, s ∈ sheet.blocks.map (·.1) ↔ s = rootScope ∨ m.Lives s) ∧
      text = (".a\x7btop:0\x7d\n@media print\x7b.a\x7btop:2\x7d\x7d\n" ++
        "@media (a: b)\x7b.a\x7btop:3\x7d\x7d").toList := by
  intro block m text
  have hm : m.Reachable := .ingest _ _ .empty
  obtain ⟨⟨met, hmet⟩, hblocks⟩ := hm.generate_blocks
  obtain ⟨sheet, htext, _, hnodup, hscopes, _⟩ := hblocks met hmet ["@media ( a:b )".toList]
    (.fresh ⟨[], [], 0⟩ 1)
  exact ⟨hm, ⟨sheet, htext, hnodup, hscopes⟩, by decide +kernel⟩

end Model
end AtomicCss
