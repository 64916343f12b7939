import AtomicCss.Proofs.Shorthand.Sets
set_option autoImplicit false

namespace AtomicCss.Shorthand

theorem mem_replaceGroup {properties : List Text} {e d : Text × Text} {m : Declarations}
    (h : d ∈ replaceGroup properties e m) : d ∈ m ∨ d = e := by
  induction m with
  | nil => cases h
  | cons c m ih =>
    unfold replaceGroup at h
    split at h
    · rcases List.mem_cons.1 h with rfl | h
      · exact Or.inr rfl
      · exact Or.inl (List.mem_cons_of_mem _ (List.mem_filter.1 h).1)
    · rcases List.mem_cons.1 h with rfl | h
      · exact Or.inl List.mem_cons_self
      · exact (ih h).imp_left (List.mem_cons_of_mem _)

theorem mem_replaceGroup_of_not_mem {properties : List Text} {e d : Text × Text} {m : Declarations}
    (h : d ∈ m) (hd : d.1 ∉ properties) : d ∈ replaceGroup properties e m := by
  induction m with
  | nil => cases h
  | cons c m ih =>
    unfold replaceGroup
    rcases List.mem_cons.1 h with rfl | h
    · rw [if_neg hd]
      exact List.mem_cons_self
    · split
      · exact List.mem_cons_of_mem _ (List.mem_filter.2 ⟨h, by simpa using hd⟩)
      · exact List.mem_cons_of_mem _ (ih h)

theorem self_mem_replaceGroup {properties : List Text} {e d : Text × Text} {m : Declarations}
    (h : d ∈ m) (hd : d.1 ∈ properties) : e ∈ replaceGroup properties e m := by
  induction m with
  | nil => cases h
  | cons c m ih =>
    unfold replaceGroup
    split
    · exact List.mem_cons_self
    · rcases List.mem_cons.1 h with rfl | h
      · contradiction
      · exact List.mem_cons_of_mem _ (ih h)

theorem Entry.gather?_of_fold? {e : Entry} {m : Declarations} {y : Text}
    (h : e.fold? m = some y) :
    ∃ values, e.longhands.mapM m.get? = some values ∧ e.form.gather? values = some y := by
  unfold Entry.fold? at h
  split at h
  · cases h
  · obtain ⟨values, hvalues, h⟩ := Option.bind_eq_some_iff.1 h
    split at h
    · cases h
    · exact ⟨values, hvalues, h⟩

theorem mem_entryCollapse {e : Entry} {m : Declarations} {d : Text × Text}
    (h : d ∈ e.collapse m) : d ∈ m ∨ d.1 = e.shorthand ∧ e.fold? m = some d.2 := by
  unfold Entry.collapse at h
  split at h
  · exact Or.inl h
  next y hy =>
    rcases mem_replaceGroup h with h | rfl
    · exact Or.inl h
    · exact Or.inr ⟨rfl, hy⟩

theorem mem_entryCollapse_of_mem {e : Entry} {m : Declarations} {d : Text × Text} (h : d ∈ m) :
    d ∈ e.collapse m ∨ d.1 ∈ e.longhands ∧ ∃ y, (e.shorthand, y) ∈ e.collapse m := by
  unfold Entry.collapse
  split
  · exact Or.inl h
  next y _ =>
    by_cases hd : d.1 ∈ e.longhands
    · exact Or.inr ⟨hd, y, self_mem_replaceGroup h hd⟩
    · exact Or.inl (mem_replaceGroup_of_not_mem h hd)

theorem shorthand_not_mem_longhands {e f : Entry} (he : e ∈ expandable) (hf : f ∈ expandable) :
    e.shorthand ∉ f.longhands := by
  intro h
  have hleaf := (longhands_leaf hf h).1
  rw [expandableLonghands_shorthand he] at hleaf
  cases hleaf

theorem shorthand_mem_foldl_collapse {l : List Entry} (hl : ∀ f ∈ l, f ∈ expandable) {e : Entry}
    (he : e ∈ expandable) {m : Declarations} {y : Text} (h : (e.shorthand, y) ∈ m) :
    (e.shorthand, y) ∈ l.foldl Entry.collapse m := by
  induction l generalizing m with
  | nil => exact h
  | cons f l ih =>
    refine ih (fun g hg => hl g (List.mem_cons_of_mem _ hg)) ?_
    rcases mem_entryCollapse_of_mem (e := f) h with h | ⟨hf, _⟩
    · exact h
    · exact absurd hf (shorthand_not_mem_longhands he (hl f List.mem_cons_self))

theorem mem_collapse_of_mem {m : Declarations} {d : Text × Text} (h : d ∈ m) :
    d ∈ collapse m ∨
      ∃ e ∈ expandable, d.1 ∈ e.longhands ∧ ∃ y, (e.shorthand, y) ∈ collapse m := by
  have key : ∀ l : List Entry, (∀ f ∈ l, f ∈ expandable) → ∀ m : Declarations, d ∈ m →
      d ∈ l.foldl Entry.collapse m ∨ ∃ e ∈ expandable, d.1 ∈ e.longhands ∧
        ∃ y, (e.shorthand, y) ∈ l.foldl Entry.collapse m := by
    intro l
    induction l with
    | nil => exact fun _ m hd => Or.inl hd
    | cons f l ih =>
      intro hl m hd
      have hrest : ∀ g ∈ l, g ∈ expandable := fun g hg => hl g (List.mem_cons_of_mem _ hg)
      have hf := hl f List.mem_cons_self
      rcases mem_entryCollapse_of_mem (e := f) hd with hd | ⟨hmem, y, hy⟩
      · exact ih hrest _ hd
      · exact Or.inr ⟨f, hf, hmem, y, shorthand_mem_foldl_collapse hrest hf hy⟩
  exact key expandable (fun _ hf => hf) m h

theorem mem_collapse {m : Declarations} (hm : m.keys.Nodup) {d : Text × Text}
    (h : d ∈ collapse m) :
    d ∈ m ∨ ∃ e ∈ expandable, e.shorthand = d.1 ∧
      ∃ values, e.longhands.mapM m.get? = some values ∧ e.form.gather? values = some d.2 := by
  have key : ∀ l : List Entry, (∀ f ∈ l, f ∈ expandable) → ∀ n : Declarations,
      (∀ c ∈ n, c ∈ m ∨ ∃ e ∈ expandable, e.shorthand = c.1 ∧
        ∃ values, e.longhands.mapM m.get? = some values ∧ e.form.gather? values = some c.2) →
      ∀ c ∈ l.foldl Entry.collapse n, c ∈ m ∨ ∃ e ∈ expandable, e.shorthand = c.1 ∧
        ∃ values, e.longhands.mapM m.get? = some values ∧ e.form.gather? values = some c.2 := by
    intro l
    induction l with
    | nil => exact fun _ n hn => hn
    | cons f l ih =>
      intro hl n hn
      have hf := hl f List.mem_cons_self
      refine ih (fun g hg => hl g (List.mem_cons_of_mem _ hg)) _ fun c hc => ?_
      rcases mem_entryCollapse hc with hc | ⟨hc, hfold⟩
      · exact hn c hc
      · obtain ⟨values, hvalues, hgather⟩ := Entry.gather?_of_fold? hfold
        refine Or.inr ⟨f, hf, hc.symm, values, OrderedMap.mapM_get?_of_get? ?_ hvalues, hgather⟩
        intro p hp v hv
        rcases hn (p, v) (OrderedMap.mem_of_get? hv) with hmem | ⟨e, he, heq, _⟩
        · exact OrderedMap.get?_of_mem hm hmem
        · exact absurd (heq ▸ hp) (shorthand_not_mem_longhands he hf)
  exact key expandable (fun _ hf => hf) m (fun c hc => Or.inl hc) d h

end AtomicCss.Shorthand
