import AtomicCss.Compile
import AtomicCss.Proofs.Data.Outcome
import AtomicCss.Proofs.Model.Warnings
set_option autoImplicit false

namespace AtomicCss

namespace Model

/-- What ingestions leave of an earlier model. -/
structure Extends (m n : Model) : Prop where
  grows : m.Grows n
  names : m.names <+: n.names
  warnings : m.warnings <+: n.warnings
  records : ∀ name < m.names.length, n.recordsForName name = m.recordsForName name

theorem Extends.refl (m : Model) : m.Extends m :=
  ⟨.refl m, List.prefix_refl _, List.prefix_refl _, fun _ _ => rfl⟩

theorem Extends.trans {m n o : Model} (h : m.Extends n) (g : n.Extends o) : m.Extends o where
  grows := h.grows.trans g.grows
  names := h.names.trans g.names
  warnings := h.warnings.trans g.warnings
  records name hn :=
    (g.records name (Nat.lt_of_lt_of_le hn h.names.length_le)).trans (h.records name hn)

theorem WellFormed.extends_ingest {m : Model} (h : m.WellFormed) (style : StyleName)
    (nodes : List Node) : m.Extends (m.ingest style nodes).2 where
  grows := grows_ingest m style nodes
  names := by
    rw [names_ingest]
    exact List.prefix_append _ _
  warnings := by
    rw [ingest_eq]
    exact warnings_prefix_performAll (m.addName style) _
  records name hn := h.recordsForName_ingest_of_ne style nodes (Nat.ne_of_lt hn)

theorem addStyle_ok {m n : Model} {style : StyleName × Text} (h : m.addStyle style = .ok n) :
    ∃ nodes, parse style.2 = .ok nodes ∧ n = (m.ingest style.1 nodes).2 := by
  unfold addStyle at h
  obtain ⟨nodes, hparse, h⟩ := bind_ok h
  refine ⟨nodes, mapError_ok hparse, ?_⟩
  split at h
  next id o heq =>
    rw [heq]
    exact (Except.ok.inj h).symm
  next => cases h

theorem foldlM_addStyle_cons {style : StyleName × Text} {l : List (StyleName × Text)} {m n : Model}
    (h : (style :: l).foldlM addStyle m = .ok n) :
    ∃ nodes, parse style.2 = .ok nodes ∧
      l.foldlM addStyle (m.ingest style.1 nodes).2 = .ok n := by
  rw [List.foldlM_cons] at h
  obtain ⟨o, ho, h⟩ := bind_ok h
  obtain ⟨nodes, hparse, rfl⟩ := addStyle_ok ho
  exact ⟨nodes, hparse, h⟩

theorem Reachable.foldlM_addStyle {l : List (StyleName × Text)} {m n : Model} (hm : m.Reachable)
    (h : l.foldlM addStyle m = .ok n) :
    n.Reachable ∧ m.Extends n ∧ n.names = m.names ++ l.map (·.1) := by
  induction l generalizing m with
  | nil =>
    cases h
    exact ⟨hm, .refl _, (List.append_nil _).symm⟩
  | cons style l ih =>
    obtain ⟨nodes, _, h⟩ := foldlM_addStyle_cons h
    obtain ⟨hreach, hextends, hnames⟩ := ih (hm.ingest style.1 nodes) h
    refine ⟨hreach, (hm.wellFormed.extends_ingest style.1 nodes).trans hextends, ?_⟩
    rw [hnames, names_ingest, List.map_cons, List.append_assoc]
    rfl

end Model

namespace Description

variable {d : Description} {m : Model}

theorem model_reachable (h : d.model = .ok m) : m.Reachable :=
  (Model.Reachable.empty.foldlM_addStyle h).1

/-- How a style stands in the model of all styles: its number is its place among them. -/
structure Holds (m : Model) (i : NameId) (style : StyleName × Text) (nodes : List Node)
    (before : Model) : Prop where
  parsed : parse style.2 = .ok nodes
  reachable : before.Reachable
  number : before.names.length = i
  extends_ingest : (before.ingest style.1 nodes).2.Extends m

theorem model_holds (h : d.model = .ok m) {i : NameId} {style : StyleName × Text}
    (hi : d.styles[i]? = some style) : ∃ nodes before, Holds m i style nodes before := by
  obtain ⟨hlt, hget⟩ := List.getElem?_eq_some_iff.1 hi
  have hsplit : d.styles = d.styles.take i ++ style :: d.styles.drop (i + 1) := by
    rw [← hget, List.getElem_cons_drop, List.take_append_drop]
  rw [model, hsplit, List.foldlM_append] at h
  obtain ⟨before, hbefore, h⟩ := bind_ok h
  obtain ⟨hreach, _, hnames⟩ := Model.Reachable.empty.foldlM_addStyle hbefore
  obtain ⟨nodes, hparse, h⟩ := Model.foldlM_addStyle_cons h
  obtain ⟨_, hextends, _⟩ := (hreach.ingest style.1 nodes).foldlM_addStyle h
  refine ⟨nodes, before, hparse, hreach, ?_, hextends⟩
  rw [hnames]
  simp [Model.empty, Nat.min_eq_left (Nat.le_of_lt hlt)]

end Description
end AtomicCss
