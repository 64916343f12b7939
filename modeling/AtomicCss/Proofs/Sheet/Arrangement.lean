import AtomicCss.Proofs.Sheet.Emission
import Mathlib.Data.List.Perm.Basic
set_option autoImplicit false

namespace AtomicCss.ScopeTree

variable {α β γ : Type}

theorem header_arrange (preferred : List Text) (t : ScopeTree α) :
    (t.arrange preferred).header = t.header := by
  cases t
  rfl

theorem header_mapContent (f : List α → List β) (t : ScopeTree α) :
    (t.mapContent f).header = t.header := by
  cases t
  rfl

theorem key_mapContent (f : List α → List β) (t : ScopeTree α) : (t.mapContent f).key = t.key :=
  congrArg Header.key (header_mapContent f t)

theorem mapContentAll_eq_map (f : List α → List β) (l : List (ScopeTree α)) :
    mapContentAll f l = l.map (mapContent f) := by
  induction l with
  | nil => rfl
  | cons t r ih => rw [mapContentAll, ih, List.map_cons]

theorem mapContentAll_byPreference (f : List α → List β) (preferred : List Text)
    (l : List (ScopeTree α)) :
    mapContentAll f (byPreference preferred l) = byPreference preferred (mapContentAll f l) := by
  simp only [mapContentAll_eq_map, byPreference, List.map_append, List.map_flatMap, List.filter_map,
    Function.comp_def, key_mapContent]

mutual

theorem mapContent_arrange (f : List α → List β) (preferred : List Text) (t : ScopeTree α) :
    (t.arrange preferred).mapContent f = (t.mapContent f).arrange preferred := by
  match t with
  | .node scope header content children =>
    rw [arrange, mapContent, mapContentAll_byPreference,
      mapContentAll_arrangeAll f preferred children, mapContent, arrange]

theorem mapContentAll_arrangeAll (f : List α → List β) (preferred : List Text)
    (l : List (ScopeTree α)) :
    mapContentAll f (arrangeAll preferred l) = arrangeAll preferred (mapContentAll f l) := by
  match l with
  | [] => rfl
  | t :: r =>
    rw [arrangeAll, mapContentAll, mapContent_arrange f preferred t,
      mapContentAll_arrangeAll f preferred r, mapContentAll, arrangeAll]

end

mutual

theorem mapContent_mapContent (f : List α → List β) (g : List β → List γ) (t : ScopeTree α) :
    (t.mapContent f).mapContent g = t.mapContent (g ∘ f) := by
  match t with
  | .node scope header content children =>
    rw [mapContent, mapContent, mapContent, mapContentAll_mapContentAll f g children]
    rfl

theorem mapContentAll_mapContentAll (f : List α → List β) (g : List β → List γ)
    (l : List (ScopeTree α)) :
    mapContentAll g (mapContentAll f l) = mapContentAll (g ∘ f) l := by
  match l with
  | [] => rfl
  | t :: r =>
    rw [mapContentAll, mapContentAll, mapContentAll, mapContent_mapContent f g t,
      mapContentAll_mapContentAll f g r]

end

mutual

theorem mapContent_congr {f g : List α → List β} (t : ScopeTree α)
    (h : ∀ b ∈ t.blocks, f b.2 = g b.2) : t.mapContent f = t.mapContent g := by
  match t with
  | .node scope header content children =>
    have hcontent : f content = g content := h (scope, content) List.mem_cons_self
    rw [mapContent, mapContent, hcontent,
      mapContentAll_congr children fun b hb => h b (List.mem_cons_of_mem _ hb)]

theorem mapContentAll_congr {f g : List α → List β} (l : List (ScopeTree α))
    (h : ∀ b ∈ blocksAll l, f b.2 = g b.2) : mapContentAll f l = mapContentAll g l := by
  match l with
  | [] => rfl
  | t :: r =>
    have hfirst := mapContent_congr t fun b hb => h b (List.mem_append_left _ hb)
    have hrest := mapContentAll_congr r fun b hb => h b (List.mem_append_right _ hb)
    rw [mapContentAll, mapContentAll, hfirst, hrest]

end

/-- The same scopes with the same content, but for the order of siblings at every depth. -/
inductive Shuffled : ScopeTree α → ScopeTree α → Prop where
  | node {scope : ScopeId} {header : Text} {content : List α} {l k r : List (ScopeTree α)} :
      List.Forall₂ Shuffled l k → k.Perm r →
        Shuffled (.node scope header content l) (.node scope header content r)

mutual

theorem shuffled_arrange (p q : List Text) (t : ScopeTree α) :
    (t.arrange p).Shuffled (t.arrange q) := by
  match t with
  | .node scope header content children =>
    have hall := forall₂_shuffled_arrangeAll p q children
    obtain ⟨k, hk, hperm⟩ := List.perm_comp_forall₂ (perm_byPreference p _) hall
    rw [arrange, arrange]
    exact .node hk (hperm.trans (perm_byPreference q _).symm)

theorem forall₂_shuffled_arrangeAll (p q : List Text) (l : List (ScopeTree α)) :
    List.Forall₂ Shuffled (arrangeAll p l) (arrangeAll q l) := by
  match l with
  | [] => exact .nil
  | t :: r => exact .cons (shuffled_arrange p q t) (forall₂_shuffled_arrangeAll p q r)

end

end AtomicCss.ScopeTree

namespace AtomicCss.Model

/-- The groups of every scope, before the siblings are arranged. -/
def groups (m : Model) : ScopeTree Group := m.tree.mapContent Group.ofRecords

theorem plan_eq_arrange (m : Model) (preferred : List Text) :
    m.plan preferred = m.groups.arrange (preferred.map Header.key) :=
  ScopeTree.mapContent_arrange _ _ _

end AtomicCss.Model
