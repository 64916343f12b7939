import AtomicCss.Proofs.Model.Spelling
import AtomicCss.Proofs.Sheet.Arrangement
import AtomicCss.Proofs.Sheet.Delivery
import AtomicCss.Proofs.Sheet.Nodes
import AtomicCss.Proofs.Shorthand.Collapse
set_option autoImplicit false

namespace AtomicCss

namespace ScopeTree

variable {α β : Type} {p : Text → Prop} {q : α → Prop}

theorem eachAll_iff {l : List (ScopeTree α)} :
    EachAll p q l ↔ ∀ t ∈ l, p t.header ∧ t.Each p q := by
  induction l with
  | nil => simp [EachAll]
  | cons t r ih => simp [EachAll, ih]

mutual

theorem Each.arrange (preferred : List Text) (t : ScopeTree α) (h : t.Each p q) :
    (t.arrange preferred).Each p q := by
  match t with
  | .node scope header content children =>
    have hall := eachAll_iff.1 (Each.arrangeAll preferred children h.2)
    exact ⟨h.1, eachAll_iff.2 fun t ht => hall t (mem_byPreference.1 ht)⟩

theorem Each.arrangeAll (preferred : List Text) (l : List (ScopeTree α)) (h : EachAll p q l) :
    EachAll p q (arrangeAll preferred l) := by
  match l with
  | [] => trivial
  | t :: r =>
    have hheader := header_arrange preferred t
    exact ⟨⟨hheader ▸ h.1.1, Each.arrange preferred t h.1.2⟩, Each.arrangeAll preferred r h.2⟩

end

mutual

theorem Each.mapContent {f : List α → List β} {q' : β → Prop}
    (hf : ∀ l, (∀ a ∈ l, q a) → ∀ b ∈ f l, q' b) (t : ScopeTree α) (h : t.Each p q) :
    (t.mapContent f).Each p q' := by
  match t with
  | .node scope header content children =>
    exact ⟨hf content h.1, Each.mapContentAll hf children h.2⟩

theorem Each.mapContentAll {f : List α → List β} {q' : β → Prop}
    (hf : ∀ l, (∀ a ∈ l, q a) → ∀ b ∈ f l, q' b) (l : List (ScopeTree α))
    (h : EachAll p q l) : EachAll p q' (mapContentAll f l) := by
  match l with
  | [] => trivial
  | t :: r =>
    have hheader := header_mapContent f t
    exact ⟨⟨hheader ▸ h.1.1, Each.mapContent hf t h.1.2⟩, Each.mapContentAll hf r h.2⟩

end

end ScopeTree

namespace Model

theorem header_treeAt (m : Model) (depth : Nat) (s : ScopeId) :
    (m.treeAt depth s).header = m.headerOf s := by
  cases depth <;> rfl

variable {m : Model}

theorem WellFormed.isHeader_headerOf (h : m.WellFormed) (hm : m.Spelled) {s c : ScopeId}
    (hc : c ∈ m.childrenOf s) : IsHeader (m.headerOf c) := by
  obtain ⟨scope, hscope, hparent⟩ := h.mem_childrenOf.1 hc
  rw [headerOf, hscope]
  exact hm.headers scope (List.mem_of_getElem? hscope) s hparent

theorem WellFormed.each_treeAt (h : m.WellFormed) (hm : m.Spelled) (depth : Nat) (s : ScopeId) :
    (m.treeAt depth s).Each IsHeader Record.Spelled := by
  have hrecords : ∀ s, ∀ r ∈ m.recordsInScope s, r.Spelled := fun s r hr =>
    hm.records r (h.mem_recordsInScope.1 hr).1
  induction depth generalizing s with
  | zero => exact ⟨hrecords s, trivial⟩
  | succ depth ih =>
    refine ⟨hrecords s, ScopeTree.eachAll_iff.2 fun t ht => ?_⟩
    obtain ⟨c, hc, rfl⟩ := List.mem_map.1 ht
    rw [header_treeAt]
    exact ⟨h.isHeader_headerOf hm hc, ih c⟩

end Model

theorem OrderedMap.mem_ofList {κ ν : Type} [DecidableEq κ] {l : List (κ × ν)} {e : κ × ν}
    (h : e ∈ OrderedMap.ofList l) : e ∈ l := by
  have hput : ∀ (m : OrderedMap κ ν) (k : κ) (v : ν), e ∈ m.put k v → e ∈ m ∨ e = (k, v) := by
    intro m k v he
    induction m with
    | nil => exact Or.inr (List.mem_singleton.1 he)
    | cons d r ih =>
      rw [put] at he
      split at he
      · exact (List.mem_cons.1 he).symm.imp_left (List.mem_cons_of_mem d)
      · rcases List.mem_cons.1 he with rfl | he
        · exact Or.inl List.mem_cons_self
        · exact (ih he).imp_left (List.mem_cons_of_mem d)
  have key : ∀ m : OrderedMap κ ν, e ∈ l.foldl (fun m e => m.put e.1 e.2) m → e ∈ m ∨ e ∈ l := by
    clear h
    induction l with
    | nil => exact fun m he => Or.inl he
    | cons d r ih =>
      intro m he
      rcases ih _ he with he | he
      · rcases hput m _ _ he with he | rfl
        · exact Or.inl he
        · exact Or.inr List.mem_cons_self
      · exact Or.inr (List.mem_cons_of_mem _ he)
  exact (key [] h).resolve_left List.not_mem_nil

theorem Rule.isProperty_of_mem_body {r : Rule} (h : ∀ d ∈ r.declarations, IsProperty d.property)
    {d : Text × Text} (hd : d ∈ r.body) : IsProperty d.1 := by
  rcases Shorthand.mem_collapse (OrderedMap.nodup_keys_ofList _) hd with hd | ⟨e, he, heq, _⟩
  · obtain ⟨declaration, hmem, rfl⟩ := List.mem_map.1 (OrderedMap.mem_ofList hd)
    exact h declaration hmem
  · exact heq ▸ Shorthand.isProperty_shorthand he

theorem isBlank_of_isNameChar {c : Char} (h : isNameChar c = true) : isBlank c = false := by
  rw [isNameChar, Bool.or_eq_true, Bool.or_eq_true] at h
  rcases h with (h | h) | h
  · have hbounds : ((decide ('A'.val ≤ c.val ∧ c.val ≤ 'Z'.val) ||
        decide ('a'.val ≤ c.val) && decide (c.val ≤ 'z'.val)) ||
        decide ('0'.val ≤ c.val) && decide (c.val ≤ '9'.val)) = true := h
    simp only [Bool.or_eq_true, Bool.and_eq_true, decide_eq_true_eq,
      UInt32.le_iff_toNat_le] at hbounds
    simp only [isBlank, Char.toNat]
    simp at hbounds ⊢
    omega
  · rw [of_decide_eq_true h]
    decide
  · rw [of_decide_eq_true h]
    decide

namespace Selector

theorem ChainState.last_of_mayEnd {s e : ChainState} {c : Char} (h : s.step c = some e)
    (he : e.mayEnd = true) : isNameChar c = true ∨ c = ')' := by
  cases s with
  | boundary =>
    simp only [step] at h
    split at h <;> cases h
    cases he
  | colon =>
    simp only [step] at h
    split at h
    · cases h
      cases he
    · split at h
      next hc => exact Or.inl hc
      next => cases h
  | doubleColon =>
    simp only [step] at h
    split at h
    next hc => exact Or.inl hc
    next => cases h
  | name =>
    simp only [step] at h
    split at h
    next hc => exact Or.inl hc
    next =>
      split at h
      · cases h
        cases he
      · split at h <;> cases h
        cases he
  | arguments depth quoting =>
    simp only [step] at h
    split at h
    · split at h
      next hc => exact Or.inr hc
      next =>
        split at h <;> cases h <;> cases he
    · cases h
      cases he

theorem IsSuffix.isBlank_getLast? {t : Text} (h : IsSuffix t) : t.getLast?.any isBlank = false := by
  rcases List.eq_nil_or_concat t with rfl | ⟨r, c, rfl⟩
  · rfl
  · rcases h with h | h
    · simp at h
    · rw [isChain, List.concat_eq_append, List.foldlM_append] at h
      obtain ⟨e, he, hend⟩ := (Option.any_eq_true _ _).1 h
      obtain ⟨s, _, he⟩ := Option.bind_eq_some_iff.1 he
      have hstep : s.step c = some e := by simpa using he
      rw [List.concat_eq_append, List.getLast?_concat]
      rcases ChainState.last_of_mayEnd hstep hend with hc | rfl
      · exact isBlank_of_isNameChar hc
      · decide

end Selector

namespace SelectorEntry

theorem head?_render (e : SelectorEntry) : e.render.head? = some '.' := by
  obtain ⟨n, hn⟩ : ∃ n, max e.variant.repeats 1 = n + 1 := ⟨_, (Nat.succ_pred (by omega)).symm⟩
  rw [render, hn, List.replicate_succ]
  rfl

theorem isBlank_getLast?_render {e : SelectorEntry} (hident : e.ident.getLast?.any isBlank = false)
    (hsuffix : Selector.IsSuffix e.variant.suffix) : e.render.getLast?.any isBlank = false := by
  obtain ⟨n, hn⟩ : ∃ n, max e.variant.repeats 1 = n + 1 := ⟨_, (Nat.succ_pred (by omega)).symm⟩
  have hlast := hsuffix.isBlank_getLast?
  rw [render, hn, List.replicate_succ', List.flatten_append, List.flatten_singleton,
    List.getLast?_append]
  cases hs : e.variant.suffix.getLast? with
  | some c => rwa [hs] at hlast
  | none =>
    rw [List.getLast?_append, List.getLast?_cons]
    cases hi : e.ident.getLast? with
    | some c => rwa [hi] at hident
    | none => exact (by decide : isBlank '.' = false)

end SelectorEntry

structure Group.Spelled (g : Group) : Prop where
  properties : ∀ d ∈ g.declarations, IsProperty d.property
  contributor : ∃ c, c ∈ g.contributors
  suffixes : ∀ c ∈ g.contributors, Selector.IsSuffix c.variant.suffix

theorem Group.spelled_ofRecords {records : List Record} (h : ∀ r ∈ records, r.Spelled) {g : Group}
    (hg : g ∈ ofRecords records) : g.Spelled where
  properties d hd := by
    obtain ⟨⟨r, hr, rfl⟩, _⟩ := (mem_declarations hg).1 hd
    exact (h r hr).property
  contributor := exists_contributor hg
  suffixes c hc := by
    obtain ⟨d, hd⟩ := exists_declaration hg
    obtain ⟨r, hr, _, rfl⟩ := declared_of_mem hg hd hc
    exact (h r hr).suffix

theorem SelectorEntry.render_ne_nil (e : SelectorEntry) : e.render ≠ [] := by
  intro hnil
  have hdot := e.head?_render
  rw [hnil] at hdot
  cases hdot

theorem Group.Spelled.rule {g : Group} (h : g.Spelled) {nameOf : ClassKey → Text}
    (hname : ∀ k, (nameOf k).getLast?.any isBlank = false) : (g.rule nameOf).Spelled := by
  obtain ⟨c, hc⟩ := h.contributor
  obtain ⟨k, hk⟩ := exists_mem_entryKeys hc
  have hentry : (⟨nameOf k, c.variant⟩ : SelectorEntry) ∈ (g.rule nameOf).entries :=
    List.mem_map.2 ⟨_, hk, rfl⟩
  have hne : ∀ x ∈ (g.rule nameOf).entries.map SelectorEntry.render, x ≠ [] := by
    intro x hx
    obtain ⟨e, _, rfl⟩ := List.mem_map.1 hx
    exact e.render_ne_nil
  have hdot : (g.rule nameOf).selector.head? = some '.' := by
    cases hentries : (g.rule nameOf).entries with
    | nil =>
      rw [hentries] at hentry
      cases hentry
    | cons e r =>
      rw [Rule.selector, hentries, List.map_cons, Text.head?_join e.render_ne_nil, e.head?_render]
  refine ⟨hdot, Text.trim_eq_self.2 ⟨?_, ?_⟩, fun d hd =>
    Rule.isProperty_of_mem_body h.properties hd⟩
  · rw [hdot]
    decide
  · obtain ⟨x, hx, hlast⟩ := Text.exists_getLast?_join [','] hne
      (List.ne_nil_of_mem (List.mem_map.2 ⟨_, hentry, rfl⟩))
    obtain ⟨e, he, rfl⟩ := List.mem_map.1 hx
    obtain ⟨⟨l, v⟩, hl, rfl⟩ := List.mem_map.1 he
    obtain ⟨b, hb, rfl⟩ := exists_contributor_of_mem_entryKeys hl
    rw [Rule.selector, hlast]
    exact SelectorEntry.isBlank_getLast?_render (hname l) (h.suffixes b hb)

namespace Model.WellFormed

variable {m : Model}

theorem spelled_plan (h : m.WellFormed) (hm : m.Spelled) (preferred : List Text) :
    (m.plan preferred).Each IsHeader Group.Spelled :=
  ScopeTree.Each.mapContent (fun _ hl _ hg => Group.spelled_ofRecords hl hg) _
    (ScopeTree.Each.arrange _ _ (h.each_treeAt hm _ _))

end Model.WellFormed
end AtomicCss
