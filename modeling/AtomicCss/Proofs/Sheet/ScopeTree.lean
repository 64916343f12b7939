import AtomicCss.Proofs.Data.Distinct
import AtomicCss.Proofs.Model.Invariant
import AtomicCss.Sheet.Generate
import Mathlib.Logic.Relation
set_option autoImplicit false

namespace AtomicCss

namespace ScopeTree

variable {α β : Type}

mutual

def blocks : ScopeTree α → List (ScopeId × List α)
  | .node scope _ content children => (scope, content) :: blocksAll children

def blocksAll : List (ScopeTree α) → List (ScopeId × List α)
  | [] => []
  | t :: r => t.blocks ++ blocksAll r

end

def contents (t : ScopeTree α) : List (ScopeId × α) :=
  t.blocks.flatMap fun b => b.2.map fun a => (b.1, a)

def contentAt (t : ScopeTree α) (s : ScopeId) : List α :=
  t.blocks.flatMap fun b => if b.1 = s then b.2 else []

theorem mem_contents {t : ScopeTree α} {s : ScopeId} {a : α} :
    (s, a) ∈ t.contents ↔ ∃ l, (s, l) ∈ t.blocks ∧ a ∈ l := by
  simp only [contents, List.mem_flatMap, List.mem_map, Prod.mk.injEq, Prod.exists]
  constructor
  · rintro ⟨b, l, hb, c, hc, rfl, rfl⟩
    exact ⟨l, hb, hc⟩
  · rintro ⟨l, hl, ha⟩
    exact ⟨s, l, hl, a, ha, rfl, rfl⟩

theorem contentAt_of_notMem {t : ScopeTree α} {s : ScopeId} (h : s ∉ t.blocks.map (·.1)) :
    t.contentAt s = [] := by
  refine List.flatMap_eq_nil_iff.2 fun b hb => if_neg fun heq => h ?_
  exact List.mem_map.2 ⟨b, hb, heq⟩

theorem contentAt_of_mem {t : ScopeTree α} (hnodup : (t.blocks.map (·.1)).Nodup) {s : ScopeId}
    {l : List α} (h : (s, l) ∈ t.blocks) : t.contentAt s = l := by
  unfold contentAt
  obtain ⟨before, after, heq⟩ := List.append_of_mem h
  rw [heq, List.map_append, List.map_cons, List.nodup_middle, List.nodup_cons] at hnodup
  have hother : ∀ b ∈ before ++ after, b.1 ≠ s := fun b hb hs => hnodup.1 <| by
    rw [← List.map_append]
    exact List.mem_map.2 ⟨b, hb, hs⟩
  have hbefore : (before.flatMap fun b => if b.1 = s then b.2 else []) = [] :=
    List.flatMap_eq_nil_iff.2 fun b hb => if_neg (hother b (List.mem_append_left _ hb))
  have hafter : (after.flatMap fun b => if b.1 = s then b.2 else []) = [] :=
    List.flatMap_eq_nil_iff.2 fun b hb => if_neg (hother b (List.mem_append_right _ hb))
  rw [heq, List.flatMap_append, List.flatMap_cons, hbefore, hafter]
  simp

theorem blocksAll_eq_flatMap (l : List (ScopeTree α)) : blocksAll l = l.flatMap blocks := by
  induction l with
  | nil => rfl
  | cons t r ih => rw [blocksAll, ih, List.flatMap_cons]

theorem mem_blocksAll {l : List (ScopeTree α)} {b : ScopeId × List α} :
    b ∈ blocksAll l ↔ ∃ t ∈ l, b ∈ t.blocks := by
  rw [blocksAll_eq_flatMap, List.mem_flatMap]

mutual

theorem blocks_mapContent (f : List α → List β) (t : ScopeTree α) :
    (t.mapContent f).blocks = t.blocks.map fun b => (b.1, f b.2) := by
  match t with
  | .node scope header content children =>
    simp [mapContent, blocks, blocksAll_mapContentAll f children]

theorem blocksAll_mapContentAll (f : List α → List β) (l : List (ScopeTree α)) :
    blocksAll (mapContentAll f l) = (blocksAll l).map fun b => (b.1, f b.2) := by
  match l with
  | [] => rfl
  | t :: r =>
    simp [mapContentAll, blocksAll, blocks_mapContent f t, blocksAll_mapContentAll f r]

end

theorem contents_mapContent_map (f : α → β) (t : ScopeTree α) :
    (t.mapContent (List.map f)).contents = t.contents.map fun c => (c.1, f c.2) := by
  simp [contents, blocks_mapContent, List.flatMap_map, List.map_flatMap, Function.comp_def]

theorem scopes_mapContent (f : List α → List β) (t : ScopeTree α) :
    (t.mapContent f).blocks.map (·.1) = t.blocks.map (·.1) := by
  rw [blocks_mapContent, List.map_map]
  rfl

theorem contentAt_mapContent {f : List α → List β} (hf : f [] = []) (t : ScopeTree α)
    (hnodup : (t.blocks.map (·.1)).Nodup) (s : ScopeId) :
    (t.mapContent f).contentAt s = f (t.contentAt s) := by
  have hscopes := scopes_mapContent f t
  by_cases hs : s ∈ t.blocks.map (·.1)
  · obtain ⟨b, hb, rfl⟩ := List.mem_map.1 hs
    rw [contentAt_of_mem hnodup hb]
    refine contentAt_of_mem (hscopes ▸ hnodup) ?_
    rw [blocks_mapContent]
    exact List.mem_map_of_mem hb
  · rw [contentAt_of_notMem hs, hf, contentAt_of_notMem (hscopes ▸ hs)]

theorem perm_byPreference (preferred : List Text) (l : List (ScopeTree α)) :
    (byPreference preferred l).Perm l := by
  -- the siblings with the keys of a list without repeats, key by key
  have hkeys : ∀ keys : List Text, keys.Nodup →
      (keys.flatMap fun k => l.filter (·.key = k)).Perm (l.filter (·.key ∈ keys)) := by
    intro keys hnodup
    induction keys with
    | nil => simp
    | cons k keys ih =>
      obtain ⟨hk, hnodup⟩ := List.nodup_cons.1 hnodup
      have hsplit := List.filter_append_perm (fun t : ScopeTree α => t.key = k)
        (l.filter (·.key ∈ k :: keys))
      have hfirst : (l.filter (·.key ∈ k :: keys)).filter (·.key = k) = l.filter (·.key = k) := by
        rw [List.filter_filter]
        exact List.filter_congr fun t _ => by by_cases ht : t.key = k <;> simp [ht]
      have hrest : (l.filter (·.key ∈ k :: keys)).filter (fun t => !(t.key = k)) =
          l.filter (·.key ∈ keys) := by
        rw [List.filter_filter]
        refine List.filter_congr fun t _ => ?_
        by_cases ht : t.key = k <;> simp [ht, hk]
      rw [hfirst, hrest] at hsplit
      exact (List.Perm.append_left _ (ih hnodup)).trans hsplit
  have hlisted := hkeys _ (nodup_eraseDups preferred)
  simp only [List.mem_eraseDups] at hlisted
  refine (List.Perm.append_left _ hlisted).trans ?_
  simpa using List.filter_append_perm (fun t : ScopeTree α => t.key ∉ preferred) l

theorem mem_byPreference {preferred : List Text} {l : List (ScopeTree α)} {t : ScopeTree α} :
    t ∈ byPreference preferred l ↔ t ∈ l :=
  (perm_byPreference preferred l).mem_iff

mutual

theorem perm_blocks_arrange (preferred : List Text) (t : ScopeTree α) :
    (t.arrange preferred).blocks.Perm t.blocks := by
  match t with
  | .node scope header content children =>
    have hall := perm_blocksAll_arrangeAll preferred children
    rw [arrange, blocks, blocks, blocksAll_eq_flatMap]
    rw [blocksAll_eq_flatMap (arrangeAll _ _)] at hall
    exact (((perm_byPreference _ _).flatMap_right _).trans hall).cons _

theorem perm_blocksAll_arrangeAll (preferred : List Text) (l : List (ScopeTree α)) :
    (blocksAll (arrangeAll preferred l)).Perm (blocksAll l) := by
  match l with
  | [] => exact .refl _
  | t :: r =>
    have ht := perm_blocks_arrange preferred t
    exact ht.append (perm_blocksAll_arrangeAll preferred r)

end

end ScopeTree

namespace Model

theorem mem_blocks_treeAt_succ {m : Model} {depth : Nat} {s : ScopeId}
    {b : ScopeId × List Record} :
    b ∈ (m.treeAt (depth + 1) s).blocks ↔
      b = (s, m.recordsInScope s) ∨ ∃ c ∈ m.childrenOf s, b ∈ (m.treeAt depth c).blocks := by
  simp [treeAt, ScopeTree.blocks, ScopeTree.mem_blocksAll]

theorem mem_blocks_treeAt_self (m : Model) (depth : Nat) (s : ScopeId) :
    (s, m.recordsInScope s) ∈ (m.treeAt depth s).blocks := by
  cases depth <;> simp [treeAt, ScopeTree.blocks]

theorem mem_blocks_treeAt_child {m : Model} {depth : Nat} {root p c : ScopeId} {l : List Record}
    (hp : (p, l) ∈ (m.treeAt depth root).blocks) (hc : c ∈ m.childrenOf p) :
    (c, m.recordsInScope c) ∈ (m.treeAt (depth + 1) root).blocks := by
  induction depth generalizing root with
  | zero =>
    simp only [treeAt, ScopeTree.blocks, ScopeTree.blocksAll, List.mem_singleton,
      Prod.mk.injEq] at hp
    rw [hp.1] at hc
    exact mem_blocks_treeAt_succ.2 (Or.inr ⟨c, hc, mem_blocks_treeAt_self m 0 c⟩)
  | succ depth ih =>
    rcases mem_blocks_treeAt_succ.1 hp with hp | ⟨d, hd, hp⟩
    · rw [(Prod.mk.inj hp).1] at hc
      exact mem_blocks_treeAt_succ.2 (Or.inr ⟨c, hc, mem_blocks_treeAt_self m _ c⟩)
    · exact mem_blocks_treeAt_succ.2 (Or.inr ⟨d, hd, ih hp⟩)

/-- One scope is another or lies inside it. -/
def Below (m : Model) : ScopeId → ScopeId → Prop :=
  Relation.ReflTransGen fun c p => c ∈ m.childrenOf p

theorem below_of_mem_blocks_treeAt {m : Model} {depth : Nat} {root s : ScopeId} {l : List Record}
    (hs : (s, l) ∈ (m.treeAt depth root).blocks) : m.Below s root := by
  induction depth generalizing root with
  | zero =>
    simp only [treeAt, ScopeTree.blocks, ScopeTree.blocksAll, List.mem_singleton,
      Prod.mk.injEq] at hs
    rw [hs.1]
    exact .refl
  | succ depth ih =>
    rcases mem_blocks_treeAt_succ.1 hs with hs | ⟨c, hc, hs⟩
    · rw [(Prod.mk.inj hs).1]
      exact .refl
    · exact (ih hs).tail hc

namespace WellFormed

variable {m : Model} (h : m.WellFormed)
include h

theorem parent_lt {c p : ScopeId} (hc : c ∈ m.childrenOf p) : p < c := by
  obtain ⟨t, ht, hparent⟩ := h.mem_childrenOf.1 hc
  cases c with
  | zero =>
    rw [h.root] at ht
    cases ht
    cases hparent
  | succ c =>
    obtain ⟨_, q, hq, hq'⟩ := h.nested _ t ht (Nat.succ_pos c)
    rw [hparent] at hq'
    cases hq'
    exact hq

theorem parent_unique {c p q : ScopeId} (hp : c ∈ m.childrenOf p) (hq : c ∈ m.childrenOf q) :
    p = q := by
  obtain ⟨t, ht, hparent⟩ := h.mem_childrenOf.1 hp
  obtain ⟨u, hu, hparent'⟩ := h.mem_childrenOf.1 hq
  rw [ht] at hu
  cases hu
  exact Option.some.inj (hparent.symm.trans hparent')

theorem le_of_below {s p : ScopeId} (hs : m.Below s p) : p ≤ s := by
  induction hs with
  | refl => exact Nat.le_refl s
  | tail _ hc ih => exact Nat.le_of_lt (Nat.lt_of_lt_of_le (h.parent_lt hc) ih)

theorem below_total {s p q : ScopeId} (hp : m.Below s p) (hq : m.Below s q) :
    m.Below p q ∨ m.Below q p := by
  have hunique : Relator.RightUnique fun c p => c ∈ m.childrenOf p :=
    fun _ _ _ hp hq => h.parent_unique hp hq
  exact Relation.ReflTransGen.total_of_right_unique hunique hp hq

theorem eq_of_below {c d p : ScopeId} (hc : c ∈ m.childrenOf p) (hd : d ∈ m.childrenOf p)
    (hbelow : m.Below c d) : c = d := by
  rcases Relation.ReflTransGen.cases_head hbelow with heq | ⟨q, hq, hbelow⟩
  · exact heq
  · have hle := h.le_of_below hbelow
    rw [h.parent_unique hq hc] at hle
    exact absurd (h.parent_lt hd) (Nat.not_lt.2 hle)

theorem nodup_scopes_treeAt (depth : Nat) (root : ScopeId) :
    ((m.treeAt depth root).blocks.map (·.1)).Nodup := by
  induction depth generalizing root with
  | zero => simp [treeAt, ScopeTree.blocks, ScopeTree.blocksAll]
  | succ depth ih =>
    rw [treeAt, ScopeTree.blocks, ScopeTree.blocksAll_eq_flatMap, List.map_cons, List.nodup_cons,
      List.map_flatMap, List.flatMap_map, List.nodup_flatMap]
    have hbelow : ∀ {c s : ScopeId}, s ∈ (m.treeAt depth c).blocks.map (·.1) → m.Below s c := by
      intro c s hs
      obtain ⟨b, hb, rfl⟩ := List.mem_map.1 hs
      exact below_of_mem_blocks_treeAt hb
    refine ⟨fun hroot => ?_, fun c _ => ih c, ?_⟩
    · obtain ⟨c, hc, hroot⟩ := List.mem_flatMap.1 hroot
      exact Nat.not_le_of_lt (h.parent_lt hc) (h.le_of_below (hbelow hroot))
    · have hsiblings : (m.childrenOf root).Nodup := by
        rw [h.children]
        exact nodup_positions _ _
      refine List.Pairwise.imp_of_mem (fun {c d} hc hd hne => ?_) hsiblings
      intro s hs ht
      rcases h.below_total (hbelow hs) (hbelow ht) with hcd | hdc
      · exact hne (h.eq_of_below hc hd hcd)
      · exact hne (h.eq_of_below hd hc hdc).symm

theorem mem_blocks_treeAt {depth s : Nat} (hs : s < m.scopes.length) (hd : s ≤ depth) :
    (s, m.recordsInScope s) ∈ (m.treeAt depth rootScope).blocks := by
  induction depth generalizing s with
  | zero =>
    cases Nat.le_zero.1 hd
    exact mem_blocks_treeAt_self m 0 rootScope
  | succ depth ih =>
    cases s with
    | zero => exact mem_blocks_treeAt_self m _ rootScope
    | succ s =>
      have hget := List.getElem?_eq_getElem hs
      obtain ⟨_, p, hp, hparent⟩ := h.nested _ _ hget (Nat.succ_pos s)
      have hlt : p < s + 1 := hp
      have hblock := ih (s := p) (by omega) (by omega)
      exact mem_blocks_treeAt_child hblock (h.mem_childrenOf.2 ⟨_, hget, hparent⟩)

theorem of_mem_blocks_treeAt {depth : Nat} {root s : ScopeId} {l : List Record}
    (hroot : root < m.scopes.length) (hs : (s, l) ∈ (m.treeAt depth root).blocks) :
    s < m.scopes.length ∧ l = m.recordsInScope s := by
  induction depth generalizing root with
  | zero =>
    simp only [treeAt, ScopeTree.blocks, ScopeTree.blocksAll, List.mem_singleton,
      Prod.mk.injEq] at hs
    obtain ⟨rfl, rfl⟩ := hs
    exact ⟨hroot, rfl⟩
  | succ depth ih =>
    rcases mem_blocks_treeAt_succ.1 hs with hs | ⟨c, hc, hs⟩
    · obtain ⟨rfl, rfl⟩ := Prod.mk.inj hs
      exact ⟨hroot, rfl⟩
    · obtain ⟨t, ht, _⟩ := h.mem_childrenOf.1 hc
      exact ih (List.getElem?_eq_some_iff.1 ht).1 hs

theorem mem_blocks_tree {s : ScopeId} {l : List Record} :
    (s, l) ∈ m.tree.blocks ↔ s < m.scopes.length ∧ l = m.recordsInScope s := by
  constructor
  · exact h.of_mem_blocks_treeAt h.scopes_pos
  · rintro ⟨hs, rfl⟩
    exact h.mem_blocks_treeAt hs (Nat.le_of_lt hs)

theorem perm_scopes_arrange (preferred : List Text) :
    ((m.tree.arrange preferred).blocks.map (·.1)).Perm (List.range m.scopes.length) := by
  have hnodup := h.nodup_scopes_treeAt m.scopes.length rootScope
  have htree : (m.tree.blocks.map (·.1)).Perm (List.range m.scopes.length) := by
    refine (List.perm_ext_iff_of_nodup hnodup List.nodup_range).2 fun s => ?_
    simp only [List.mem_map, Prod.exists, exists_and_right, exists_eq_right, List.mem_range]
    constructor
    · rintro ⟨l, hl⟩
      exact (h.mem_blocks_tree.1 hl).1
    · intro hs
      exact ⟨_, h.mem_blocks_tree.2 ⟨hs, rfl⟩⟩
  exact ((ScopeTree.perm_blocks_arrange preferred m.tree).map _).trans htree

theorem contentAt_arrange (preferred : List Text) (s : ScopeId) :
    (m.tree.arrange preferred).contentAt s = m.recordsInScope s := by
  have hscopes := h.perm_scopes_arrange preferred
  by_cases hs : s < m.scopes.length
  · refine ScopeTree.contentAt_of_mem (hscopes.nodup_iff.2 List.nodup_range) ?_
    exact (ScopeTree.perm_blocks_arrange _ _).mem_iff.2 (h.mem_blocks_tree.2 ⟨hs, rfl⟩)
  · have hnone : m.recordsInScope s = [] := by
      refine List.eq_nil_iff_forall_not_mem.2 fun r hr => hs ?_
      obtain ⟨hmem, rfl⟩ := h.mem_recordsInScope.1 hr
      exact (h.placed r hmem).1
    rw [hnone]
    exact ScopeTree.contentAt_of_notMem fun hmem => hs (List.mem_range.1 (hscopes.mem_iff.1 hmem))

theorem mem_contents_plan {preferred : List Text} {s : ScopeId} {g : Group} :
    (s, g) ∈ (m.plan preferred).contents ↔
      s < m.scopes.length ∧ g ∈ Group.ofRecords (m.recordsInScope s) := by
  rw [ScopeTree.mem_contents, plan, ScopeTree.blocks_mapContent]
  simp only [List.mem_map, Prod.mk.injEq, Prod.exists,
    (ScopeTree.perm_blocks_arrange _ _).mem_iff, h.mem_blocks_tree]
  constructor
  · rintro ⟨l, ⟨a, b, ⟨hs, rfl⟩, rfl, rfl⟩, hg⟩
    exact ⟨hs, hg⟩
  · rintro ⟨hs, hg⟩
    exact ⟨_, ⟨s, _, ⟨hs, rfl⟩, rfl, rfl⟩, hg⟩

end WellFormed
end Model
end AtomicCss
