import AtomicCss.Proofs.Sheet.Arrangement
import AtomicCss.Proofs.Sheet.ReadBack
set_option autoImplicit false

namespace AtomicCss

/-- The position of the first preferred header with the key of this one. -/
def rank? (preferred : List Text) (header : Text) : Option Nat :=
  preferred.findIdx? (Header.key · = Header.key header)

/-- Of two siblings the one with this header comes first; without ranks `before` decides. -/
def Precedes (preferred : List Text) (before : Text → Text → Prop) (header other : Text) : Prop :=
  match rank? preferred header, rank? preferred other with
  | none, none => before header other
  | none, some _ => True
  | some _, none => False
  | some i, some j => i < j

section Rank

variable {preferred : List Text} {header other : Text}

theorem rank?_eq_none : rank? preferred header = none ↔
    Header.key header ∉ preferred.map Header.key := by
  rw [rank?, List.findIdx?_eq_none_iff]
  simp

theorem rank?_of_mem (h : Header.key header ∈ preferred.map Header.key) :
    rank? preferred header = some ((preferred.map Header.key).idxOf (Header.key header)) := by
  obtain ⟨p, hp, hkey⟩ := List.mem_map.1 h
  rw [rank?, List.findIdx?_eq_some_of_exists ⟨p, hp, by simpa using hkey⟩, List.idxOf,
    List.findIdx_map]
  congr 2
  funext q
  rw [Bool.eq_iff_iff]
  simp

end Rank

namespace ScopeTree

variable {α β : Type}

theorem arrangeAll_eq_map (preferred : List Text) (l : List (ScopeTree α)) :
    arrangeAll preferred l = l.map (arrange preferred) := by
  induction l with
  | nil => rfl
  | cons t r ih => rw [arrangeAll, ih, List.map_cons]

theorem pairwise_byPreference (preferred : List Text) {before : Text → Text → Prop}
    {l : List (ScopeTree α)} (hbefore : l.Pairwise fun t u => before t.header u.header)
    (hkeys : l.Pairwise fun t u => t.key ≠ u.key) :
    (byPreference (preferred.map Header.key) l).Pairwise fun t u =>
      Precedes preferred before t.header u.header := by
  let keys := preferred.map Header.key
  have hnone : ∀ t : ScopeTree α, t.key ∉ keys → rank? preferred t.header = none := fun t ht =>
    rank?_eq_none.2 ht
  have hsome : ∀ t : ScopeTree α, ∀ k ∈ keys, t.key = k →
      rank? preferred t.header = some (keys.idxOf k) := by
    rintro t _ hk rfl
    exact rank?_of_mem hk
  rw [byPreference, List.pairwise_append]
  refine ⟨?_, List.pairwise_flatMap.2 ⟨fun k _ => ?_, ?_⟩, fun t ht u hu => ?_⟩
  · refine (hbefore.sublist List.filter_sublist).imp_of_mem fun {t u} ht hu h => ?_
    rw [Precedes, hnone t (of_decide_eq_true (List.mem_filter.1 ht).2),
      hnone u (of_decide_eq_true (List.mem_filter.1 hu).2)]
    exact h
  · -- siblings with one key are one sibling
    refine (hkeys.sublist List.filter_sublist).imp_of_mem fun {t u} ht hu h => absurd ?_ h
    have ht : t.key = k := of_decide_eq_true (List.mem_filter.1 ht).2
    have hu : u.key = k := of_decide_eq_true (List.mem_filter.1 hu).2
    exact ht.trans hu.symm
  · refine (pairwise_eraseDups keys).imp_of_mem fun {j k} hj hk hlt t ht u hu => ?_
    rw [Precedes, hsome t j (List.mem_eraseDups.1 hj) (of_decide_eq_true (List.mem_filter.1 ht).2),
      hsome u k (List.mem_eraseDups.1 hk) (of_decide_eq_true (List.mem_filter.1 hu).2)]
    exact hlt
  · obtain ⟨k, hk, hu⟩ := List.mem_flatMap.1 hu
    rw [Precedes, hnone t (of_decide_eq_true (List.mem_filter.1 ht).2),
      hsome u k (List.mem_eraseDups.1 hk) (of_decide_eq_true (List.mem_filter.1 hu).2)]
    trivial

mutual

/-- The tree without the blocks that have nothing in them. -/
def pruned : ScopeTree α → ScopeTree α
  | .node scope header content children => .node scope header content (prunedAll children)

def prunedAll : List (ScopeTree α) → List (ScopeTree α)
  | [] => []
  | t :: r => if t.contents.isEmpty then prunedAll r else pruned t :: prunedAll r

end

mutual

def print : ScopeTree Rule → Text
  | .node _ _ rules children => Text.join ['\n'] (rules.map Rule.render ++ printBlocks children)

def printBlocks : List (ScopeTree Rule) → List Text
  | [] => []
  | t :: r => (t.header ++ '{' :: (print t ++ ['}'])) :: printBlocks r

end

theorem scope_pruned (t : ScopeTree α) : t.pruned.scope = t.scope := by
  cases t
  rfl

theorem header_pruned (t : ScopeTree α) : t.pruned.header = t.header := by
  cases t
  rfl

theorem prunedAll_eq (l : List (ScopeTree α)) :
    prunedAll l = (l.filter (!·.contents.isEmpty)).map pruned := by
  induction l with
  | nil => rfl
  | cons t r ih =>
    rw [prunedAll, ih]
    cases h : t.contents.isEmpty <;> simp [h]

theorem contents_eq_nil {t : ScopeTree α} : t.contents = [] ↔ ∀ b ∈ t.blocks, b.2 = [] := by
  simp [contents, List.flatMap_eq_nil_iff]

theorem contents_mapContent_eq_nil {f : List α → List β} (hf : ∀ l, f l = [] ↔ l = [])
    {t : ScopeTree α} : (t.mapContent f).contents = [] ↔ t.contents = [] := by
  rw [contents_eq_nil, contents_eq_nil, blocks_mapContent, List.forall_mem_map]
  exact forall₂_congr fun b _ => hf b.2

theorem contents_arrange_eq_nil {preferred : List Text} {t : ScopeTree α} :
    (t.arrange preferred).contents = [] ↔ t.contents = [] := by
  simp only [contents_eq_nil, (perm_blocks_arrange preferred t).mem_iff]

mutual

theorem toNodes_eq_nil (t : ScopeTree Rule) : t.toNodes = [] ↔ t.contents = [] := by
  match t with
  | .node scope header rules children =>
    have hall := blockNodes_eq_nil children
    rw [toNodes, List.append_eq_nil_iff, List.map_eq_nil_iff, hall, contents_eq_nil, blocks,
      List.forall_mem_cons]

theorem blockNodes_eq_nil (l : List (ScopeTree Rule)) :
    blockNodes l = [] ↔ ∀ b ∈ blocksAll l, b.2 = [] := by
  match l with
  | [] => simp [blockNodes, blocksAll]
  | t :: r =>
    have ht := toNodes_eq_nil t
    have hr := blockNodes_eq_nil r
    rw [contents_eq_nil] at ht
    rw [blocksAll, List.forall_mem_append, ← ht, ← hr, blockNodes]
    by_cases hempty : t.toNodes = [] <;> simp [hempty]

end

mutual

theorem render_eq_print (t : ScopeTree Rule) : t.render = t.pruned.print := by
  match t with
  | .node scope header rules children =>
    rw [render, pruned, print, renderBlocks_eq_printBlocks children]

theorem renderBlocks_eq_printBlocks (l : List (ScopeTree Rule)) :
    renderBlocks l = printBlocks (prunedAll l) := by
  match l with
  | [] => rfl
  | t :: r =>
    have hempty : t.render.isEmpty = t.contents.isEmpty := by
      rw [Bool.eq_iff_iff, List.isEmpty_iff, List.isEmpty_iff, render_eq_nil, toNodes_eq_nil]
    have ht := render_eq_print t
    have hr := renderBlocks_eq_printBlocks r
    rw [renderBlocks, prunedAll, hempty]
    cases t.contents.isEmpty with
    | true => exact hr
    | false => simp [printBlocks, header_pruned, ht, hr]

end

mutual

theorem blocks_pruned_sublist (t : ScopeTree α) : t.pruned.blocks.Sublist t.blocks := by
  match t with
  | .node scope header content children =>
    exact (blocksAll_prunedAll_sublist children).cons_cons _

theorem blocksAll_prunedAll_sublist (l : List (ScopeTree α)) :
    (blocksAll (prunedAll l)).Sublist (blocksAll l) := by
  match l with
  | [] => exact .slnil
  | t :: r =>
    have ht := blocks_pruned_sublist t
    have hr := blocksAll_prunedAll_sublist r
    rw [prunedAll]
    split
    · exact hr.trans (List.sublist_append_right _ _)
    · exact ht.append hr

end

end ScopeTree
end AtomicCss
