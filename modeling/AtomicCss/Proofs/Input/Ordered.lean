import AtomicCss.Compile
import AtomicCss.Input.Load
import AtomicCss.Proofs.Data.Outcome
import Mathlib.Data.List.Nodup
set_option autoImplicit false

namespace AtomicCss

namespace SortedMap

variable {κ ν : Type} [Ord κ]

def Ascending (m : SortedMap κ ν) : Prop := m.Pairwise (compare ·.1 ·.1 = .lt)

theorem mem_foldl_insert {l : List (κ × ν)} {m : SortedMap κ ν} {e : κ × ν}
    (h : e ∈ l.foldl (fun m e => insert e.1 e.2 m) m) : e ∈ l ∨ e ∈ m := by
  induction l generalizing m with
  | nil => exact Or.inr h
  | cons f l ih =>
    rcases ih h with h | h
    · exact Or.inl (List.mem_cons_of_mem _ h)
    · rcases mem_insert h with rfl | h
      · exact Or.inl List.mem_cons_self
      · exact Or.inr h

theorem mem_ofList {l : List (κ × ν)} {e : κ × ν} (h : e ∈ ofList l) : e ∈ l :=
  (mem_foldl_insert h).resolve_right List.not_mem_nil

theorem ascending_ofList [Std.TransOrd κ] (l : List (κ × ν)) : (ofList l).Ascending := by
  have key : ∀ m : SortedMap κ ν, m.Ascending →
      (l.foldl (fun m e => insert e.1 e.2 m) m).Ascending := by
    induction l with
    | nil => exact fun m hm => hm
    | cons e l ih => exact fun m hm => ih _ (pairwise_insert hm)
  exact key [] List.Pairwise.nil

theorem Ascending.nodup_keys [Std.TransOrd κ] {m : SortedMap κ ν} (h : m.Ascending) :
    (m.map (·.1)).Nodup :=
  Sorted.nodup_of_pairwise (List.pairwise_map.2 h)

end SortedMap

def Binding.Ordered : Binding → Prop
  | .text _ | .list _ => True
  | .styles s => SortedMap.Ascending s

namespace Description

/-- Both maps of a description ascend, as they do if it is accepted (`Accepted.ordered`). -/
structure Ordered (d : Description) : Prop where
  namespaces : SortedMap.Ascending d.namespaces
  styles : ∀ n ∈ d.namespaces, SortedMap.Ascending n.2

theorem ordered_empty : empty.Ordered := ⟨List.Pairwise.nil, fun _ h => absurd h List.not_mem_nil⟩

theorem add_ok {d e : Description} {name : Text} {b : Binding} (h : d.add name b = .ok e) :
    e.namespaces = d.namespaces ∨
      ∃ s, b = .styles s ∧ isExportName name = true ∧
        e.namespaces = d.namespaces ++ [(name, s)] := by
  unfold add at h
  split at h
  · cases b <;> cases h
    exact Or.inl rfl
  split at h
  · cases b <;> cases h
    exact Or.inl rfl
  split at h
  · cases b <;> cases h
    exact Or.inl rfl
  split at h
  · cases h
    exact Or.inl rfl
  cases b with
  | text | list => cases h
  | styles s =>
    dsimp only at h
    split at h
    next hname =>
      cases h
      exact Or.inr ⟨s, rfl, hname, rfl⟩
    next => cases h

theorem Ordered.add {d e : Description} (hd : d.Ordered) {name : Text} {b : Binding}
    (hb : b.Ordered) (hbelow : ∀ n ∈ d.namespaces, compare n.1 name = .lt)
    (h : d.add name b = .ok e) : e.Ordered := by
  rcases add_ok h with heq | ⟨s, rfl, _, heq⟩
  · exact ⟨heq ▸ hd.namespaces, heq ▸ hd.styles⟩
  · refine ⟨?_, ?_⟩
    · rw [heq]
      refine List.pairwise_append.2 ⟨hd.namespaces, List.pairwise_singleton _ _, ?_⟩
      exact fun n hn m hm => List.mem_singleton.1 hm ▸ hbelow n hn
    · intro n hn
      rw [heq] at hn
      rcases List.mem_append.1 hn with hn | hn
      · exact hd.styles n hn
      · rw [List.mem_singleton.1 hn]
        exact hb

theorem Ordered.foldlM_add {l : SortedMap Text Binding} {d e : Description} (hd : d.Ordered)
    (hl : l.Ascending) (hb : ∀ b ∈ l, b.2.Ordered)
    (hbelow : ∀ n ∈ d.namespaces, ∀ b ∈ l, compare n.1 b.1 = .lt)
    (h : l.foldlM (fun d b => d.add b.1 b.2) d = .ok e) : e.Ordered := by
  induction l generalizing d with
  | nil =>
    cases h
    exact hd
  | cons b l ih =>
    obtain ⟨hfirst, hrest⟩ := List.pairwise_cons.1 hl
    rw [List.foldlM_cons] at h
    obtain ⟨f, hf, h⟩ := bind_ok h
    have hstep := hd.add (hb b List.mem_cons_self)
      (fun n hn => hbelow n hn b List.mem_cons_self) hf
    refine ih hstep hrest (fun c hc => hb c (List.mem_cons_of_mem _ hc)) (fun n hn c hc => ?_) h
    have hold : ∀ n ∈ d.namespaces, compare n.1 c.1 = .lt := fun n hn =>
      hbelow n hn c (List.mem_cons_of_mem _ hc)
    rcases add_ok hf with heq | ⟨s, _, _, heq⟩
    · rw [heq] at hn
      exact hold n hn
    · rw [heq] at hn
      rcases List.mem_append.1 hn with hn | hn
      · exact hold n hn
      · rw [List.mem_singleton.1 hn]
        exact hfirst c hc

/-- The description of a document, whatever it is read from: of bindings whose names ascend, each
with its styles in ascending order. -/
def Accepted (d : Description) : Prop :=
  ∃ bindings, SortedMap.Ascending bindings ∧ (∀ b ∈ bindings, b.2.Ordered) ∧
    ofBindings bindings = .ok d

theorem Accepted.ordered {d : Description} (h : d.Accepted) : d.Ordered := by
  obtain ⟨bindings, hascending, hb, h⟩ := h
  exact ordered_empty.foldlM_add hascending hb (fun n hn => absurd hn List.not_mem_nil) h

theorem accepted_ofMembers {members : List (Text × Binding)} {d : Description}
    (hb : ∀ b ∈ members, b.2.Ordered) (h : ofMembers members = .ok d) : d.Accepted :=
  ⟨.ofList members, SortedMap.ascending_ofList members,
    fun b hmem => hb b (SortedMap.mem_ofList hmem), mapError_ok h⟩

end Description

namespace Json

theorem ordered_binding? {v : Json} {b : Binding} (h : v.binding? = some b) : b.Ordered := by
  cases v with
  | string t =>
    cases h
    trivial
  | array l =>
    obtain ⟨_, _, rfl⟩ := Option.map_eq_some_iff.1 h
    trivial
  | object l =>
    obtain ⟨_, _, rfl⟩ := Option.map_eq_some_iff.1 h
    exact SortedMap.ascending_ofList _
  | _ => cases h

theorem ordered_bindings {fuel : Nat} {isFirst : Bool} {t : Text} {l : List (Text × Binding)}
    {rest : Text} (h : bindings fuel isFirst t = .ok (l, rest)) : ∀ b ∈ l, b.2.Ordered := by
  induction fuel generalizing isFirst t l rest with
  | zero => cases h
  | succ fuel ih =>
    unfold bindings at h
    split at h
    next =>
      cases h
      exact fun b hb => absurd hb List.not_mem_nil
    next heq _ =>
      cases heq
      split at h
      next => cases h
      split at h
      next => cases h
      next k r hk v s hv =>
      split at h
      next => cases h
      next b hb =>
      obtain ⟨⟨tail, last⟩, htail, heq⟩ := map_ok h
      cases heq
      exact List.forall_mem_cons.2 ⟨ordered_binding? hb, ih htail⟩
    next => cases h

theorem ordered_document {t : Text} {l : List (Text × Binding)} (h : document t = .ok l) :
    ∀ b ∈ l, b.2.Ordered := by
  unfold document at h
  split at h
  next r =>
    split at h
    next m rest hm =>
      split at h
      · cases h
        exact ordered_bindings hm
      · cases h
    next => cases h
  next => cases h
  next =>
    split at h
    · cases h
    · cases h

end Json

namespace Toml

theorem Slot.ordered_binding? {s : Slot} {b : Binding} (h : s.binding? = some b) : b.Ordered := by
  cases s with
  | closed v =>
    cases v with
    | text | list =>
      cases h
      trivial
    | table m =>
      rw [binding?] at h
      split at h
      · cases h
        exact SortedMap.ascending_ofList m
      · cases h
    | dateTime t =>
      cases h
      exact List.pairwise_singleton _ _
  | dotted m | headed m =>
    cases h
    exact SortedMap.ascending_ofList m

theorem ordered_bindings? {t : Text} {l : List (Text × Binding)} (h : bindings? t = some l) :
    ∀ b ∈ l, b.2.Ordered := by
  obtain ⟨statements, _, h⟩ := Option.bind_eq_some_iff.1 h
  obtain ⟨draft, _, h⟩ := Option.bind_eq_some_iff.1 h
  intro b hb
  obtain ⟨e, _, he⟩ := exists_of_mem_mapM h hb
  obtain ⟨v, hv, rfl⟩ := Option.map_eq_some_iff.1 he
  exact e.2.ordered_binding? hv

end Toml

namespace Description

theorem accepted_load {format : SourceFormat} {source : Text} {d : Description}
    (h : load format source = .ok d) : d.Accepted := by
  cases format with
  | json =>
    unfold load at h
    dsimp only at h
    split at h
    next members hm => exact accepted_ofMembers (Json.ordered_document hm) h
    next => cases h
  | toml =>
    unfold load at h
    dsimp only at h
    split at h
    next members hm => exact accepted_ofMembers (Toml.ordered_bindings? hm) h
    next => cases h

theorem ordered_load {format : SourceFormat} {source : Text} {d : Description}
    (h : load format source = .ok d) : d.Ordered := (accepted_load h).ordered

theorem Ordered.nodup_styles {d : Description} (h : d.Ordered) : (d.styles.map (·.1)).Nodup := by
  have hspaces : d.namespaces.Pairwise fun n m => n.1 ≠ m.1 :=
    List.pairwise_map.1 h.namespaces.nodup_keys
  rw [Description.styles, List.map_flatMap, List.nodup_flatMap]
  refine ⟨fun n hn => ?_, hspaces.imp fun {n m} hne => ?_⟩
  · rw [List.map_map]
    exact List.pairwise_map.2 ((List.pairwise_map.1 (h.styles n hn).nodup_keys).imp
      fun hne heq => hne (StyleName.mk.inj heq).2)
  · simp only [Function.onFun, List.disjoint_left, List.mem_map]
    rintro _ ⟨_, ⟨s, _, rfl⟩, rfl⟩ ⟨_, ⟨t, _, rfl⟩, heq⟩
    exact hne (StyleName.mk.inj heq).1.symm

end Description
end AtomicCss
