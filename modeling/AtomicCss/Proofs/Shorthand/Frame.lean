import AtomicCss.Proofs.Shorthand.Cascade
set_option autoImplicit false

/-!
What folding keeps: every declaration that no folded group takes in, in its order.

Where a folded shorthand goes can also be said by counting. It is then put back at the index of the
first longhand of its group into a map that has become shorter; that index is never too large.
-/

namespace AtomicCss

namespace OrderedMap

variable {κ ν : Type} [DecidableEq κ]

def indexOf? (m : OrderedMap κ ν) (k : κ) : Option Nat := m.findIdx? (·.1 = k)

def insertAt? (m : OrderedMap κ ν) (i : Nat) (e : κ × ν) : Option (OrderedMap κ ν) :=
  if i ≤ m.length then some (m.insertIdx i e) else none

theorem indexOf?_append {l : OrderedMap κ ν} {k : κ} (h : k ∉ l.keys) (r : OrderedMap κ ν) :
    indexOf? (l ++ r) k = (indexOf? r k).map (· + l.length) := by
  have hnone : l.findIdx? (·.1 = k) = none :=
    List.findIdx?_eq_none_iff.2 fun e he => by
      simpa using fun heq : e.1 = k => h (List.mem_map.2 ⟨e, he, heq⟩)
  rw [indexOf?, List.findIdx?_append, hnone]
  rfl

omit [DecidableEq κ] in
theorem insertAt?_append (l r : OrderedMap κ ν) (e : κ × ν) :
    insertAt? (l ++ r) l.length e = some (l ++ e :: r) := by
  have hle : l.length ≤ (l ++ r).length := by simp
  rw [insertAt?, if_pos hle]
  exact congrArg some (List.modifyTailIdx_add (List.cons e) 0 l r)

end OrderedMap

namespace Shorthand

variable {m n : Declarations} {e : Entry}

namespace Entry

/-- The group folds: its shorthand was not there and is written. -/
def Folds (e : Entry) (m : Declarations) : Prop := ∃ y, e.Writes m y

theorem folds_iff :
    e.Folds m ↔ e.shorthand ∉ m.keys ∧ e.shorthand ∈ OrderedMap.keys (Shorthand.collapse m) := by
  simp [Folds, Writes, OrderedMap.keys]

instance (e : Entry) (m : Declarations) : Decidable (e.Folds m) := decidable_of_iff _ folds_iff.symm

/-- The least index of a longhand of the group. -/
def position? (e : Entry) (m : Declarations) : Option Nat :=
  (e.longhands.filterMap m.indexOf?).min?

/-- Takes the longhands out of the map and puts the shorthand in at their least index. -/
def collapseAt? (m : Declarations) (e : Entry) : Option Declarations :=
  match e.fold? m with
  | none => some m
  | some value =>
    match e.position? m with
    | none => some m
    | some i => OrderedMap.insertAt? (m.filter (·.1 ∉ e.longhands)) i (e.shorthand, value)

end Entry

/-- The property is a longhand of a group that folds. -/
def Folded (m : Declarations) (p : Text) : Prop := ∃ e ∈ expandable, e.Folds m ∧ p ∈ e.longhands

instance (m : Declarations) (p : Text) : Decidable (Folded m p) :=
  inferInstanceAs (Decidable (∃ e ∈ expandable, _))

section Position

variable {properties : List Text} {before after : Declarations} {c d : Text × Text}

theorem exists_first (hd : d ∈ m) (h : d.1 ∈ properties) : ∃ before c after,
    m = before ++ c :: after ∧ c.1 ∈ properties ∧ ∀ b ∈ before, b.1 ∉ properties := by
  have hfound : (m.find? (·.1 ∈ properties)).isSome := by
    rw [List.find?_isSome]
    exact ⟨d, hd, by simpa using h⟩
  obtain ⟨c, hc⟩ := Option.isSome_iff_exists.1 hfound
  obtain ⟨hmem, before, after, hsplit, hbefore⟩ := List.find?_eq_some_iff_append.1 hc
  exact ⟨before, c, after, hsplit, by simpa using hmem, fun b hb => by simpa using hbefore b hb⟩

theorem replaceGroup_append (hc : c.1 ∈ properties) (hbefore : ∀ b ∈ before, b.1 ∉ properties) :
    replaceGroup properties d (before ++ c :: after) =
      before ++ d :: after.filter (·.1 ∉ properties) := by
  induction before with
  | nil => rw [List.nil_append, replaceGroup, if_pos hc, List.nil_append]
  | cons b before ih =>
    obtain ⟨hb, hbefore⟩ := List.forall_mem_cons.1 hbefore
    rw [List.cons_append, replaceGroup, if_neg hb, ih hbefore, List.cons_append]

theorem Entry.position?_append (hc : c.1 ∈ e.longhands)
    (hbefore : ∀ b ∈ before, b.1 ∉ e.longhands) :
    e.position? (before ++ c :: after) = some before.length := by
  have hindex : ∀ p ∈ e.longhands, OrderedMap.indexOf? (before ++ c :: after) p =
      (OrderedMap.indexOf? (c :: after) p).map (· + before.length) := by
    intro p hp
    refine OrderedMap.indexOf?_append (fun hkey => ?_) _
    obtain ⟨b, hb, rfl⟩ := List.mem_map.1 hkey
    exact hbefore b hb hp
  rw [position?, List.min?_eq_some_iff]
  constructor
  · refine List.mem_filterMap.2 ⟨c.1, hc, ?_⟩
    rw [hindex c.1 hc]
    simp [OrderedMap.indexOf?, List.findIdx?_cons]
  · intro i hi
    obtain ⟨p, hp, hi⟩ := List.mem_filterMap.1 hi
    rw [hindex p hp] at hi
    obtain ⟨j, _, rfl⟩ := Option.map_eq_some_iff.1 hi
    exact Nat.le_add_left _ _

theorem Entry.collapseAt?_eq (he : e ∈ expandable) (m : Declarations) :
    e.collapseAt? m = some (e.collapse m) := by
  rw [collapseAt?, collapse]
  cases hy : e.fold? m with
  | none => rfl
  | some y =>
    obtain ⟨p, hp⟩ := List.exists_mem_of_ne_nil _ (longhands_ne_nil he)
    obtain ⟨v, hv⟩ := exists_mem_of_fold? hy hp
    obtain ⟨before, c, after, rfl, hc, hbefore⟩ := exists_first hv hp
    have hfilter : (before ++ c :: after).filter (·.1 ∉ e.longhands) =
        before ++ after.filter (·.1 ∉ e.longhands) := by
      rw [List.filter_append, List.filter_cons_of_neg (by simpa using hc),
        List.filter_eq_self.2 fun b hb => by simpa using hbefore b hb]
    simp only [position?_append hc hbefore, hfilter]
    rw [OrderedMap.insertAt?_append, replaceGroup_append hc hbefore]

theorem foldlM_collapseAt? {l : List Entry} (hl : ∀ f ∈ l, f ∈ expandable) (m : Declarations) :
    l.foldlM Entry.collapseAt? m = some (l.foldl Entry.collapse m) := by
  induction l generalizing m with
  | nil => rfl
  | cons f l ih =>
    obtain ⟨hf, hl⟩ := List.forall_mem_cons.1 hl
    rw [List.foldlM_cons, Entry.collapseAt?_eq hf]
    exact ih hl _

end Position

section Idle

variable {look : Text → Bool}

/-- A group is idle where one looks if it does not show there, or does not fold. -/
def Entry.Idle (e : Entry) (look : Text → Bool) (m : Declarations) : Prop :=
  e.Apart look ∨ e.Within look ∧ e.fold? m = none

theorem filter_foldl_of_idle {l : List Entry} (h : ∀ f ∈ l, f.Idle look m) :
    (l.foldl Entry.collapse m).filter (look ·.1) = m.filter (look ·.1) := by
  induction l generalizing m with
  | nil => rfl
  | cons f l ih =>
    obtain ⟨hf, hl⟩ := List.forall_mem_cons.1 h
    have hstep : (f.collapse m).filter (look ·.1) = m.filter (look ·.1) := by
      rcases hf with hapart | ⟨_, hnone⟩
      · exact f.filter_collapse_of_apart hapart m
      · rw [Entry.collapse, hnone]
    -- What a group folds to is read off what one looks at, and that has not changed.
    have hrest : ∀ g ∈ l, g.Idle look (f.collapse m) := by
      intro g hg
      rcases hl g hg with hapart | ⟨hwithin, hnone⟩
      · exact Or.inl hapart
      · refine Or.inr ⟨hwithin, ?_⟩
        rw [← g.fold?_filter hwithin, hstep, g.fold?_filter hwithin, hnone]
    rw [List.foldl_cons, ih hrest, hstep]

theorem Entry.fold?_foldl {l : List Entry} (he : e ∈ expandable)
    (hl : ∀ f ∈ l, f ∈ expandable ∧ f ≠ e) (m : Declarations) :
    e.fold? (l.foldl Entry.collapse m) = e.fold? m := by
  have hwithin : e.Within e.owns := fun _ hp => hp
  have hapart : ∀ f ∈ l, f.Apart e.owns := fun f hf => apart_of_ne he (hl f hf).1 (hl f hf).2
  rw [← e.fold?_filter hwithin, filter_foldl_of_apart hapart, e.fold?_filter hwithin]

/-- Where only one group is not idle, collapsing looks like folding this group. -/
theorem filter_collapse_of_idle (he : e ∈ expandable) (hwithin : e.Within look)
    (h : ∀ f ∈ expandable, f ≠ e → f.Idle look m) :
    (collapse m).filter (look ·.1) = Entry.collapse (m.filter (look ·.1)) e := by
  have hnodup : expandable.Nodup := by decide +kernel
  obtain ⟨before, after, hsplit⟩ := List.append_of_mem he
  have hin : ∀ f, f ∈ before ∨ f ∈ after → f ∈ expandable := by
    intro f hf
    rw [hsplit, List.mem_append, List.mem_cons]
    exact hf.imp_right Or.inr
  rw [hsplit, List.nodup_append, List.nodup_cons] at hnodup
  obtain ⟨_, ⟨hafter, _⟩, hdisjoint⟩ := hnodup
  have hne : ∀ f, f ∈ before ∨ f ∈ after → f ≠ e := by
    rintro f (hf | hf) rfl
    · exact hdisjoint f hf f List.mem_cons_self rfl
    · exact hafter hf
  have hfront : ∀ f ∈ before, f.Idle look m := fun f hf =>
    h f (hin f (Or.inl hf)) (hne f (Or.inl hf))
  have hback : ∀ f ∈ after, f.Idle look (Entry.collapse (before.foldl Entry.collapse m) e) := by
    intro f hf
    have hf' := hin f (Or.inr hf)
    have hothers : ∀ g ∈ before ++ [e], g ∈ expandable ∧ g ≠ f := by
      intro g hg
      rcases List.mem_append.1 hg with hg | hg
      · exact ⟨hin g (Or.inl hg), hdisjoint g hg f (List.mem_cons_of_mem _ hf)⟩
      · obtain rfl := List.mem_singleton.1 hg
        exact ⟨he, (hne f (Or.inr hf)).symm⟩
    have hsame := Entry.fold?_foldl hf' hothers m
    rw [List.foldl_append] at hsame
    exact (h f hf' (hne f (Or.inr hf))).imp_right (And.imp_right hsame.trans)
  rw [collapse, hsplit, List.foldl_append, List.foldl_cons, filter_foldl_of_idle hback,
    e.filter_collapse hwithin, filter_foldl_of_idle hfront]

end Idle

section Survivors

/-- None of these groups folds and has the property. -/
def spares (l : List Entry) (m : Declarations) (p : Text) : Bool :=
  decide (∀ f ∈ l, f.Folds m → f.owns p = false)

theorem spares_iff {l : List Entry} {p : Text} :
    spares l m p = true ↔ ∀ f ∈ l, f.Folds m → f.owns p = false := decide_eq_true_iff

theorem Entry.fold?_eq_none (he : e ∈ expandable) (h : ¬e.Folds m) : e.fold? m = none :=
  Option.eq_none_iff_forall_ne_some.2 fun y hy => h ⟨y, (writes_iff he).2 hy⟩

theorem Entry.idle_of_spares {l : List Entry} (he : e ∈ l) (hl : ∀ f ∈ l, f ∈ expandable) :
    e.Idle (spares l m) m := by
  by_cases hfolds : e.Folds m
  · refine Or.inl fun p hp => Bool.eq_false_iff.2 fun hspares => ?_
    rw [spares_iff.1 hspares e he hfolds] at hp
    cases hp
  · refine Or.inr ⟨fun p hp => spares_iff.2 fun f hf hfold => ?_, fold?_eq_none (hl e he) hfolds⟩
    have hne : e ≠ f := by
      rintro rfl
      exact hfolds hfold
    exact apart_of_ne (hl f hf) (hl e he) hne p hp

theorem filter_owns_collapse (he : e ∈ expandable) (m : Declarations) :
    (collapse m).filter (e.owns ·.1) = Entry.collapse (m.filter (e.owns ·.1)) e :=
  filter_collapse_eq he (fun _ hp => hp) (fun _ hf hne => Entry.apart_of_ne he hf hne) m

theorem filter_owns_of_writes (he : e ∈ expandable) {y : Text} (h : e.Writes m y) :
    (collapse m).filter (e.owns ·.1) = [(e.shorthand, y)] := by
  have hy : e.fold? (m.filter (e.owns ·.1)) = some y := by
    rw [e.fold?_filter fun _ hp => hp]
    exact (Entry.writes_iff he).1 h
  obtain ⟨p, hp⟩ := List.exists_mem_of_ne_nil _ (longhands_ne_nil he)
  obtain ⟨v, hv⟩ := Entry.exists_mem_of_fold? hy hp
  rw [filter_owns_collapse he, Entry.collapse, hy]
  refine replaceGroup_eq_singleton (List.ne_nil_of_mem hv) fun d hd => ?_
  obtain ⟨hd, howns⟩ := List.mem_filter.1 hd
  refine (Entry.owns_iff.1 howns).resolve_left fun heq => h.1 ?_
  exact heq ▸ List.mem_map_of_mem (f := Prod.fst) hd

theorem filter_owns_of_not_folds (he : e ∈ expandable) (h : ¬e.Folds m) :
    (collapse m).filter (e.owns ·.1) = m.filter (e.owns ·.1) := by
  rw [filter_owns_collapse he, Entry.collapse, e.fold?_filter fun _ hp => hp,
    Entry.fold?_eq_none he h]

theorem filter_spares_collapse (m : Declarations) :
    (collapse m).filter (spares expandable m ·.1) = m.filter (spares expandable m ·.1) :=
  filter_foldl_of_idle fun _ he => Entry.idle_of_spares he fun _ hf => hf

theorem spares_of_mem {d : Text × Text} (hd : d ∈ m) :
    spares expandable m d.1 = true ↔ ¬Folded m d.1 := by
  rw [spares_iff]
  constructor
  · rintro h ⟨f, hf, hfolds, hlonghand⟩
    have howns := h f hf hfolds
    rw [Entry.owns_longhand hlonghand] at howns
    cases howns
  · intro h f hf hfolds
    rw [Bool.eq_false_iff, ne_eq, Entry.owns_iff]
    rintro (heq | hlonghand)
    · exact (Entry.folds_iff.1 hfolds).1 (heq ▸ List.mem_map_of_mem (f := Prod.fst) hd)
    · exact h ⟨f, hf, hfolds, hlonghand⟩

theorem spares_of_mem_collapse {d : Text × Text} (hd : d ∈ collapse m) :
    spares expandable m d.1 = true ↔ d.1 ∈ m.keys := by
  constructor
  · intro h
    have hmem : d ∈ m.filter (spares expandable m ·.1) :=
      filter_spares_collapse m ▸ List.mem_filter.2 ⟨hd, h⟩
    exact List.mem_map_of_mem (f := Prod.fst) (List.mem_filter.1 hmem).1
  · intro hkey
    refine spares_iff.2 fun f hf ⟨y, hy⟩ => Bool.eq_false_iff.2 fun howns => ?_
    have hmem : d ∈ (collapse m).filter (f.owns ·.1) := List.mem_filter.2 ⟨hd, howns⟩
    rw [filter_owns_of_writes hf hy, List.mem_singleton] at hmem
    rw [hmem] at hkey
    exact hy.1 hkey

theorem filter_mem_keys {l : Declarations} (h : ∀ d ∈ l, d ∈ collapse m) :
    l.filter (·.1 ∈ m.keys) = l.filter (spares expandable m ·.1) :=
  List.filter_congr fun d hd => by
    rw [Bool.eq_iff_iff, spares_of_mem_collapse (h d hd), decide_eq_true_iff]

theorem filter_not_folded {l : Declarations} (h : ∀ d ∈ l, d ∈ m) :
    l.filter (¬Folded m ·.1) = l.filter (spares expandable m ·.1) :=
  List.filter_congr fun d hd => by
    rw [Bool.eq_iff_iff, spares_of_mem (h d hd), decide_eq_true_iff]

theorem filter_survivors (m : Declarations) :
    (collapse m).filter (·.1 ∈ m.keys) = m.filter (¬Folded m ·.1) := by
  rw [filter_mem_keys fun _ hd => hd, filter_not_folded fun _ hd => hd, filter_spares_collapse]

def Entry.others (e : Entry) : List Entry := expandable.filter (· ≠ e)

theorem Entry.mem_others {f : Entry} : f ∈ e.others ↔ f ∈ expandable ∧ f ≠ e := by
  simp [others]

section Others

variable (he : e ∈ expandable)
include he

theorem filter_spares_of_folds (hfolds : e.Folds m) (l : Declarations) :
    l.filter (spares expandable m ·.1) =
      (l.filter (spares e.others m ·.1)).filter (!e.owns ·.1) := by
  have hspares : ∀ p, spares expandable m p = true ↔
      spares e.others m p = true ∧ e.owns p = false := by
    intro p
    simp only [spares_iff, Entry.mem_others]
    constructor
    · exact fun h => ⟨fun f hf => h f hf.1, h e he hfolds⟩
    · rintro ⟨hrest, howns⟩ f hf
      by_cases hfe : f = e
      · exact fun _ => hfe ▸ howns
      · exact hrest f ⟨hf, hfe⟩
  rw [List.filter_filter]
  refine List.filter_congr fun d _ => ?_
  rw [Bool.eq_iff_iff, hspares, Bool.and_eq_true, Bool.not_eq_true', and_comm]

theorem Entry.within_others : e.Within (spares e.others m) := fun p hp =>
  spares_iff.2 fun _ hf _ =>
    apart_of_ne (mem_others.1 hf).1 he (mem_others.1 hf).2.symm p hp

/-- Without what other groups make of theirs, one sees the shorthand take the place of the first
longhand. -/
theorem filter_others_collapse {y : Text} (hy : e.Writes m y) {before after : Declarations}
    {c : Text × Text} (hm : m = before ++ c :: after) (hc : c.1 ∈ e.longhands)
    (hbefore : ∀ b ∈ before, b.1 ∉ e.longhands) :
    (collapse m).filter (spares e.others m ·.1) =
      before.filter (spares e.others m ·.1) ++ (e.shorthand, y) ::
        (after.filter (spares e.others m ·.1)).filter (·.1 ∉ e.longhands) := by
  have hwithin := Entry.within_others (m := m) he
  have hcollapse := filter_collapse_of_idle (m := m) he hwithin fun f hf hne =>
    Entry.idle_of_spares (Entry.mem_others.2 ⟨hf, hne⟩) fun _ hg => (Entry.mem_others.1 hg).1
  have hfold : e.fold? (m.filter (spares e.others m ·.1)) = some y := by
    rw [e.fold?_filter hwithin]
    exact (Entry.writes_iff he).1 hy
  have hsplit : ∀ look : Text → Bool, look c.1 = true → m.filter (look ·.1) =
      before.filter (look ·.1) ++ c :: after.filter (look ·.1) := by
    intro look hlook
    rw [hm, List.filter_append, List.filter_cons_of_pos (by exact hlook)]
  rw [hcollapse, Entry.collapse, hfold, hsplit _ (hwithin c.1 (Entry.owns_longhand hc))]
  exact replaceGroup_append hc fun b hb => hbefore b (List.mem_filter.1 hb).1

theorem exists_split_collapse {y : Text} (hy : e.Writes m y) {before after : Declarations}
    {c : Text × Text} (hm : m = before ++ c :: after) (hc : c.1 ∈ e.longhands)
    (hbefore : ∀ b ∈ before, b.1 ∉ e.longhands) :
    ∃ front back, collapse m = front ++ (e.shorthand, y) :: back ∧
      front.filter (·.1 ∈ m.keys) = before.filter (¬Folded m ·.1) ∧
      back.filter (·.1 ∈ m.keys) = after.filter (¬Folded m ·.1) := by
  obtain ⟨front, rest, hcollapse, hfront, hrest⟩ :=
    List.filter_eq_append_iff.1 (filter_others_collapse he hy hm hc hbefore)
  obtain ⟨gap, back, rfl, hgap, _, hback⟩ := List.filter_eq_cons_iff.1 hrest
  have hold : ∀ d, d ∈ before ∨ d ∈ after → d ∈ m := by
    intro d hd
    rw [hm, List.mem_append, List.mem_cons]
    exact hd.imp_right Or.inr
  have hnew : ∀ d, d ∈ front ++ gap ∨ d ∈ back → d ∈ collapse m := by
    intro d hd
    rw [hcollapse, ← List.append_assoc, List.mem_append, List.mem_cons]
    exact hd.imp_right Or.inr
  have hsurvive := filter_spares_of_folds he ⟨y, hy⟩
  refine ⟨front ++ gap, back, by rw [hcollapse, List.append_assoc], ?_, ?_⟩
  · rw [filter_mem_keys fun d hd => hnew d (Or.inl hd), hsurvive, List.filter_append, hfront,
      List.filter_eq_nil_iff.2 hgap, List.append_nil, ← hsurvive,
      filter_not_folded fun d hd => hold d (Or.inl hd)]
  · have hrest : ∀ l : Declarations, (l.filter (·.1 ∉ e.longhands)).filter (!e.owns ·.1) =
        l.filter (!e.owns ·.1) := by
      intro l
      rw [List.filter_filter]
      refine List.filter_congr fun d _ => ?_
      by_cases hd : d.1 ∈ e.longhands
      · simp [hd, Entry.owns_longhand hd]
      · simp [hd]
    rw [filter_mem_keys fun d hd => hnew d (Or.inr hd), hsurvive, hback, hrest, ← hsurvive,
      filter_not_folded fun d hd => hold d (Or.inr hd)]

end Others

end Survivors

theorem collapse_eq_self_of_fold? (h : ∀ e ∈ expandable, e.fold? m = none) : collapse m = m := by
  have hidle : ∀ e ∈ expandable, e.Idle (fun _ => true) m := fun e he =>
    Or.inr ⟨fun _ _ => rfl, h e he⟩
  have hall : ∀ l : Declarations, l.filter (fun _ => true) = l := fun l =>
    List.filter_eq_self.2 fun _ _ => rfl
  have hsame := filter_foldl_of_idle hidle
  rwa [hall, hall] at hsame

theorem fold?_collapse (he : e ∈ expandable) (m : Declarations) :
    e.fold? (collapse m) = none := by
  by_cases hfolds : e.Folds m
  · refine Option.eq_none_iff_forall_ne_some.2 fun y hy => ?_
    exact (Entry.fold?_eq_some.1 hy).1 (Entry.folds_iff.1 hfolds).2
  · rw [← e.fold?_filter fun _ hp => hp, filter_owns_of_not_folds he hfolds,
      e.fold?_filter fun _ hp => hp, Entry.fold?_eq_none he hfolds]

theorem collapse_collapse (m : Declarations) : collapse (collapse m) = collapse m :=
  collapse_eq_self_of_fold? fun _ he => fold?_collapse he m

theorem Entry.fold?_of_perm (hm : m.keys.Nodup) (h : n.Perm m) (e : Entry) :
    e.fold? n = e.fold? m := by
  have hkey : e.shorthand ∈ n.keys ↔ e.shorthand ∈ m.keys := (h.map Prod.fst).mem_iff
  have hget : n.get? = m.get? := funext fun k => (OrderedMap.get?_of_perm hm h.symm k).symm
  rw [fold?, fold?, hget]
  simp only [hkey]

/--
Collapsing changes nothing but the groups that fold, and each of them as a whole.

Collapsing twice is collapsing once. What is not a longhand of a folded group stays, in its order.
A folded shorthand stands where the first longhand of its group stood. A group has only its
shorthand afterwards, or what it had; a shorthand that was there keeps its value. The order does
not decide what is written. Putting the shorthands in by index never fails, and does the same.
-/
theorem collapse_frame (hm : m.keys.Nodup) :
    collapse (collapse m) = collapse m ∧
    (collapse m).filter (·.1 ∈ m.keys) = m.filter (¬Folded m ·.1) ∧
    (∀ e ∈ expandable, ∀ y, e.Writes m y → ∀ before c after, m = before ++ c :: after →
      c.1 ∈ e.longhands → (∀ b ∈ before, b.1 ∉ e.longhands) →
      ∃ front back, collapse m = front ++ (e.shorthand, y) :: back ∧
        front.filter (·.1 ∈ m.keys) = before.filter (¬Folded m ·.1) ∧
        back.filter (·.1 ∈ m.keys) = after.filter (¬Folded m ·.1)) ∧
    (∀ e ∈ expandable,
      (∃ y, e.Writes m y ∧ (∀ p ∈ e.longhands, p ∈ m.keys) ∧
        (collapse m).filter (e.owns ·.1) = [(e.shorthand, y)]) ∨
      ¬e.Folds m ∧ (collapse m).filter (e.owns ·.1) = m.filter (e.owns ·.1)) ∧
    (∀ e ∈ expandable, ∀ v, m.get? e.shorthand = some v →
      OrderedMap.get? (collapse m) e.shorthand = some v) ∧
    (∀ n : Declarations, n.Perm m → ∀ e ∈ expandable, ∀ y, e.Writes n y ↔ e.Writes m y) ∧
    expandable.foldlM Entry.collapseAt? m = some (collapse m) := by
  refine ⟨collapse_collapse m, filter_survivors m, ?_, ?_, ?_, ?_,
    foldlM_collapseAt? (fun _ he => he) m⟩
  · intro e he y hy before c after hsplit hc hbefore
    exact exists_split_collapse he hy hsplit hc hbefore
  · intro e he
    by_cases hfolds : e.Folds m
    · obtain ⟨y, hy⟩ := hfolds
      refine Or.inl ⟨y, hy, fun p hp => ?_, filter_owns_of_writes he hy⟩
      obtain ⟨v, hv⟩ := Entry.exists_mem_of_fold? ((Entry.writes_iff he).1 hy) hp
      exact List.mem_map_of_mem (f := Prod.fst) hv
    · exact Or.inr ⟨hfolds, filter_owns_of_not_folds he hfolds⟩
  · intro e he v hv
    have hkey : e.shorthand ∈ m.keys := OrderedMap.isSome_get?.1 (by rw [hv]; rfl)
    have hsame := filter_owns_of_not_folds he fun hfolds => (Entry.folds_iff.1 hfolds).1 hkey
    have hget : ∀ l : Declarations,
        OrderedMap.get? (l.filter (e.owns ·.1)) e.shorthand = l.get? e.shorthand := fun l => by
      rw [OrderedMap.get?_filter_keys, if_pos e.owns_shorthand]
    rw [← hget, hsame, hget, hv]
  · intro n hn e he y
    rw [Entry.writes_iff he, Entry.writes_iff he, Entry.fold?_of_perm hm hn]

def interleaved : Declarations :=
  [("overflow-y", "auto"), ("margin-top", "1px"), ("padding", "0"), ("padding-top", "2px"),
    ("border-top-width", "thin"), ("margin-left", "1px"), ("overflow-x", "clip"),
    ("padding-right", "2px"), ("margin-right", "3px"), ("padding-bottom", "2px"),
    ("margin-bottom", "1px"), ("padding-left", "2px")].map fun d => (d.1.toList, d.2.toList)

theorem collapse_frame_interleaved :
    collapse interleaved =
      ([("overflow", "clip auto"), ("margin", "1px 3px 1px 1px"), ("padding", "0"),
        ("padding-top", "2px"), ("border-top-width", "thin"), ("padding-right", "2px"),
        ("padding-bottom", "2px"), ("padding-left", "2px")].map
          fun d => (d.1.toList, d.2.toList)) ∧
    (collapse interleaved).filter (·.1 ∈ interleaved.keys) =
      interleaved.filter (¬Folded interleaved ·.1) ∧
    expandable.foldlM Entry.collapseAt? interleaved = some (collapse interleaved) := by
  have hm : interleaved.keys.Nodup := by decide
  obtain ⟨_, hframe, _, _, _, _, hindex⟩ := collapse_frame hm
  exact ⟨by decide +kernel, hframe, hindex⟩

end Shorthand
end AtomicCss
