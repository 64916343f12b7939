import AtomicCss.Proofs.Shorthand.Collapse
set_option autoImplicit false

/-!
The groups of longhands fold independently of each other.

Whatever one looks at in a list of declarations, only the groups that show up there matter. If just
one of them does, collapsing looks like folding that one group; hence a shorthand is written with
the value that the declarations before collapsing give to it.
-/

namespace AtomicCss.Shorthand

namespace Entry

/-- Collapsing writes the shorthand, which was not there before, with this value. -/
def Writes (e : Entry) (m : Declarations) (value : Text) : Prop :=
  e.shorthand ∉ m.keys ∧ (e.shorthand, value) ∈ Shorthand.collapse m

instance (e : Entry) (m : Declarations) (value : Text) : Decidable (e.Writes m value) :=
  inferInstanceAs (Decidable (_ ∧ _))

def values (e : Entry) (m : Declarations) : List Text := e.longhands.filterMap m.get?

def owns (e : Entry) (property : Text) : Bool :=
  property = e.shorthand || e.longhands.contains property

/-- What is looked at has no property of the group. -/
def Apart (e : Entry) (look : Text → Bool) : Prop :=
  ∀ p, e.owns p = true → look p = false

/-- What is looked at has all properties of the group. -/
def Within (e : Entry) (look : Text → Bool) : Prop :=
  ∀ p, e.owns p = true → look p = true

theorem owns_shorthand (e : Entry) : e.owns e.shorthand = true := by simp [owns]

theorem owns_longhand {e : Entry} {p : Text} (h : p ∈ e.longhands) : e.owns p = true := by
  simp [owns, h]

theorem owns_iff {e : Entry} {p : Text} : e.owns p = true ↔ p = e.shorthand ∨ p ∈ e.longhands := by
  simp [owns]

end Entry

theorem eq_of_mem_longhands {e f : Entry} (he : e ∈ expandable) (hf : f ∈ expandable) {p : Text}
    (hep : p ∈ e.longhands) (hfp : p ∈ f.longhands) : e = f := by
  have hall : ∀ e ∈ expandable, ∀ f ∈ expandable, ∀ p ∈ e.longhands, p ∈ f.longhands → e = f := by
    decide +kernel
  exact hall e he f hf p hep hfp

theorem longhands_ne_nil {e : Entry} (he : e ∈ expandable) : e.longhands ≠ [] := by
  revert e
  decide +kernel

theorem form_ne_composite {e : Entry} (he : e ∈ expandable) : e.form ≠ .composite := by
  revert e
  decide +kernel

theorem Entry.apart_of_ne {e f : Entry} (he : e ∈ expandable) (hf : f ∈ expandable) (h : f ≠ e) :
    f.Apart e.owns := by
  intro p hp
  rw [Bool.eq_false_iff, ne_eq, owns_iff]
  rintro (rfl | hep)
  · rcases owns_iff.1 hp with hs | hl
    · exact h (eq_of_shorthand_eq hf he hs.symm)
    · exact shorthand_not_mem_longhands he hf hl
  · rcases owns_iff.1 hp with rfl | hl
    · exact shorthand_not_mem_longhands hf he hep
    · exact h (eq_of_mem_longhands hf he hl hep)

section Looking

variable {e : Entry} {look : Text → Bool}

theorem filter_replaceGroup {properties : List Text} {d : Text × Text} (hd : look d.1 = true)
    (h : ∀ p ∈ properties, look p = true) (m : Declarations) :
    (replaceGroup properties d m).filter (look ·.1) =
      replaceGroup properties d (m.filter (look ·.1)) := by
  induction m with
  | nil => rfl
  | cons c m ih =>
    by_cases hc : c.1 ∈ properties
    · have hlook := h _ hc
      simp only [replaceGroup, if_pos hc, List.filter_cons, hd, hlook, if_true, List.filter_filter,
        Bool.and_comm]
    · rw [replaceGroup, if_neg hc]
      cases hlook : look c.1 with
      | true => simp only [List.filter_cons, hlook, if_true, replaceGroup, if_neg hc, ih]
      | false => simp [hlook, ih]

theorem filter_replaceGroup_of_apart {properties : List Text} {d : Text × Text}
    (hd : look d.1 = false) (h : ∀ p ∈ properties, look p = false) (m : Declarations) :
    (replaceGroup properties d m).filter (look ·.1) = m.filter (look ·.1) := by
  induction m with
  | nil => rfl
  | cons c m ih =>
    by_cases hc : c.1 ∈ properties
    · rw [replaceGroup, if_pos hc, List.filter_cons_of_neg (by simp [hd]),
        List.filter_cons_of_neg (by simp [h _ hc]), List.filter_filter]
      refine List.filter_congr fun b _ => ?_
      by_cases hb : b.1 ∈ properties
      · simp [h _ hb]
      · simp [hb]
    · rw [replaceGroup, if_neg hc, List.filter_cons, List.filter_cons, ih]

theorem Entry.fold?_filter (h : e.Within look) (m : Declarations) :
    e.fold? (m.filter (look ·.1)) = e.fold? m := by
  have hget : ∀ p, e.owns p = true → OrderedMap.get? (m.filter (look ·.1)) p = m.get? p := by
    intro p hp
    rw [OrderedMap.get?_filter_keys, if_pos (h p hp)]
  have hkey : e.shorthand ∈ OrderedMap.keys (m.filter (look ·.1)) ↔ e.shorthand ∈ m.keys := by
    rw [← OrderedMap.isSome_get?, ← OrderedMap.isSome_get?, hget _ e.owns_shorthand]
  have hvalues : e.longhands.mapM (OrderedMap.get? (m.filter (look ·.1))) =
      e.longhands.mapM m.get? := by
    ext values
    rw [mapM_eq_some, mapM_eq_some, List.map_congr_left fun p hp => hget p (owns_longhand hp)]
  rw [fold?, fold?, hvalues]
  simp only [hkey]

theorem Entry.filter_collapse (h : e.Within look) (m : Declarations) :
    (Entry.collapse m e).filter (look ·.1) = Entry.collapse (m.filter (look ·.1)) e := by
  rw [collapse, collapse, e.fold?_filter h]
  split
  · rfl
  · exact filter_replaceGroup (h _ e.owns_shorthand) (fun p hp => h p (owns_longhand hp)) m

theorem Entry.filter_collapse_of_apart (h : e.Apart look) (m : Declarations) :
    (Entry.collapse m e).filter (look ·.1) = m.filter (look ·.1) := by
  rw [collapse]
  split
  · rfl
  · exact filter_replaceGroup_of_apart (h _ e.owns_shorthand)
      (fun p hp => h p (owns_longhand hp)) m

theorem filter_foldl_of_apart {l : List Entry} (h : ∀ f ∈ l, f.Apart look) (m : Declarations) :
    (l.foldl Entry.collapse m).filter (look ·.1) = m.filter (look ·.1) := by
  induction l generalizing m with
  | nil => rfl
  | cons f l ih =>
    rw [List.foldl_cons, ih (fun g hg => h g (List.mem_cons_of_mem _ hg)),
      f.filter_collapse_of_apart (h f List.mem_cons_self)]

theorem filter_collapse_eq_self (h : ∀ f ∈ expandable, f.Apart look) (m : Declarations) :
    (collapse m).filter (look ·.1) = m.filter (look ·.1) :=
  filter_foldl_of_apart h m

theorem filter_collapse_eq (he : e ∈ expandable) (h : e.Within look)
    (hother : ∀ f ∈ expandable, f ≠ e → f.Apart look) (m : Declarations) :
    (collapse m).filter (look ·.1) = Entry.collapse (m.filter (look ·.1)) e := by
  have hnodup : expandable.Nodup := by decide +kernel
  obtain ⟨before, after, hsplit⟩ := List.append_of_mem he
  rw [hsplit] at hnodup
  have hne : ∀ f ∈ before ++ after, f ≠ e := by
    rintro f hf rfl
    exact (List.nodup_cons.1 (List.perm_middle.nodup_iff.1 hnodup)).1 hf
  have hin : ∀ f ∈ before ++ after, f ∈ expandable := by
    intro f hf
    rw [hsplit]
    exact List.perm_middle.mem_iff.2 (List.mem_cons_of_mem _ hf)
  have hapart : ∀ f ∈ before ++ after, f.Apart look := fun f hf => hother f (hin f hf) (hne f hf)
  rw [collapse, hsplit, List.foldl_append, List.foldl_cons,
    filter_foldl_of_apart fun f hf => hapart f (List.mem_append_right _ hf), e.filter_collapse h,
    filter_foldl_of_apart fun f hf => hapart f (List.mem_append_left _ hf)]

end Looking

theorem Entry.fold?_eq_some {e : Entry} {m : Declarations} {y : Text} : e.fold? m = some y ↔
    e.shorthand ∉ m.keys ∧ ∃ values, e.longhands.mapM m.get? = some values ∧
      (∀ v ∈ values, hasPriority v = false) ∧ mixesWideKeywords values = false ∧
        e.form.gather? values = some y := by
  unfold fold?
  split
  next hkey => simp [hkey]
  next hkey =>
    simp only [hkey, not_false_eq_true, true_and, Option.bind_eq_bind, Option.bind_eq_some_iff]
    refine exists_congr fun values => and_congr_right fun _ => ?_
    split
    next h =>
      simp only [reduceCtorEq, false_iff, not_and]
      intro hpriority hmix
      simp [hmix] at h
      obtain ⟨v, hv, h⟩ := h
      rw [hpriority v hv] at h
      cases h
    next h =>
      simp only [Bool.or_eq_true, not_or, List.any_eq_true, not_exists, not_and,
        Bool.not_eq_true] at h
      exact ⟨fun hy => ⟨h.1, h.2, hy⟩, fun hy => hy.2.2⟩

theorem Entry.values_eq {e : Entry} {m : Declarations} {l : List Text}
    (h : e.longhands.mapM m.get? = some l) : e.values m = l :=
  filterMap_of_map (mapM_eq_some.1 h)

theorem Entry.exists_mem_of_fold? {e : Entry} {m : Declarations} {y : Text}
    (h : e.fold? m = some y) {p : Text} (hp : p ∈ e.longhands) : ∃ v, (p, v) ∈ m := by
  obtain ⟨_, values, hvalues, _⟩ := fold?_eq_some.1 h
  exact OrderedMap.exists_mem_of_mapM_get? hvalues hp

theorem Entry.writes_iff {e : Entry} (he : e ∈ expandable) {m : Declarations} {y : Text} :
    e.Writes m y ↔ e.fold? m = some y := by
  have hwithin : e.Within e.owns := fun _ hp => hp
  have hlook := filter_collapse_eq he hwithin (fun f hf hne => apart_of_ne he hf hne) m
  have hfold := e.fold?_filter hwithin m
  have hmem : (e.shorthand, y) ∈ Shorthand.collapse m ↔
      (e.shorthand, y) ∈ Entry.collapse (m.filter (e.owns ·.1)) e := by
    rw [← hlook, List.mem_filter]
    exact (and_iff_left e.owns_shorthand).symm
  constructor
  · rintro ⟨hkey, h⟩
    rcases mem_entryCollapse (hmem.1 h) with h | ⟨_, h⟩
    · exact absurd (List.mem_map_of_mem (f := Prod.fst) (List.mem_filter.1 h).1) hkey
    · rwa [hfold] at h
  · intro h
    obtain ⟨p, hp⟩ := List.exists_mem_of_ne_nil _ (longhands_ne_nil he)
    rw [← hfold] at h
    obtain ⟨v, hv⟩ := exists_mem_of_fold? h hp
    refine ⟨(fold?_eq_some.1 (hfold ▸ h)).1, hmem.2 ?_⟩
    rw [collapse, h]
    exact self_mem_replaceGroup hv hp

theorem replaceGroup_eq_singleton {properties : List Text} {d : Text × Text} {m : Declarations}
    (hm : m ≠ []) (h : ∀ c ∈ m, c.1 ∈ properties) : replaceGroup properties d m = [d] := by
  cases m with
  | nil => contradiction
  | cons c m =>
    rw [replaceGroup, if_pos (h c List.mem_cons_self), List.filter_eq_nil_iff.2]
    exact fun b hb => by simpa using h b (List.mem_cons_of_mem _ hb)

section Alone

variable {e : Entry} (he : e ∈ expandable) {m : Declarations} (hm : m.keys.Perm e.longhands)
include he hm

theorem collapse_group : collapse m = Entry.collapse m e := by
  have hwithin : e.Within e.owns := fun _ hp => hp
  have hkey : ∀ d ∈ m, d.1 ∈ e.longhands := fun d hd =>
    hm.mem_iff.1 (List.mem_map_of_mem (f := Prod.fst) hd)
  have hfilter : m.filter (e.owns ·.1) = m :=
    List.filter_eq_self.2 fun d hd => Entry.owns_longhand (hkey d hd)
  have hlook := filter_collapse_eq he hwithin (fun f hf hne => Entry.apart_of_ne he hf hne) m
  rw [hfilter] at hlook
  rw [← hlook, eq_comm, List.filter_eq_self]
  intro d hd
  have hnodup : m.keys.Nodup := hm.nodup_iff.2 (nodup_longhands he)
  rcases mem_collapse hnodup hd with hd | ⟨f, hf, hshort, values, hvalues, _⟩
  · exact Entry.owns_longhand (hkey d hd)
  · obtain ⟨p, hp⟩ := List.exists_mem_of_ne_nil _ (longhands_ne_nil hf)
    obtain ⟨v, hv⟩ := OrderedMap.exists_mem_of_mapM_get? hvalues hp
    obtain rfl := eq_of_mem_longhands hf he hp (hkey _ hv)
    exact hshort ▸ f.owns_shorthand

theorem collapse_eq_self (h : e.fold? m = none) : collapse m = m := by
  rw [collapse_group he hm, Entry.collapse, h]

theorem collapse_eq_singleton {y : Text} (h : e.fold? m = some y) :
    collapse m = [(e.shorthand, y)] := by
  have hne : m ≠ [] := by
    rintro rfl
    exact longhands_ne_nil he (List.nil_perm.1 hm)
  rw [collapse_group he hm, Entry.collapse, h]
  exact replaceGroup_eq_singleton hne fun d hd =>
    hm.mem_iff.1 (List.mem_map_of_mem (f := Prod.fst) hd)

end Alone

end AtomicCss.Shorthand
