import AtomicCss.Proofs.Shorthand.Groups
import Mathlib.Tactic.ByContra
set_option autoImplicit false

/-!
What folding does to the declaration that counts.

Of the declarations that give a property its value the last one counts. A folded group moves to the
place of its first longhand, so it loses against a composite shorthand between there and the
longhand that counted, and nowhere else. The other way round, a shorthand that appears by folding
hides a composite shorthand in front of the group that resets it as one of its own longhands.
-/

namespace AtomicCss.Shorthand

/-- The last declaration that gives `l` a value. -/
def winner (m : Declarations) (l : Text) : Option (Text × Text) :=
  (m.filter (sets ·.1 l)).getLast?

/-- The declarations from the first longhand of the group on. -/
def Entry.onwards (e : Entry) (m : Declarations) : Declarations :=
  m.dropWhile (·.1 ∉ e.longhands)

theorem replaceGroup_eq {properties : List Text} {d c : Text × Text} {m : Declarations}
    (h : d ∈ m) (hd : d.1 ∈ properties) : replaceGroup properties c m =
      m.takeWhile (·.1 ∉ properties) ++
        c :: (m.dropWhile (·.1 ∉ properties)).filter (·.1 ∉ properties) := by
  induction m with
  | nil => cases h
  | cons b m ih =>
    by_cases hb : b.1 ∈ properties
    · simp [replaceGroup, hb]
    · have hmem : d ∈ m := (List.mem_cons.1 h).resolve_left fun heq => hb (heq ▸ hd)
      simp [replaceGroup, hb, ih hmem]

theorem sets_longhand {e : Entry} (he : e ∈ expandable) {p l : Text} (hl : l ∈ e.longhands) :
    sets p l = true ↔ p = l ∨ p = e.shorthand ∨ resets p l = true := by
  have hlist : (expandableLonghands p).any (·.contains l) = true ↔ p = e.shorthand := by
    constructor
    · intro h
      obtain ⟨longhands, hfind, hmem⟩ := (Option.any_eq_true _ _).1 h
      obtain ⟨f, hf, rfl⟩ := Option.map_eq_some_iff.1 hfind
      have hp : f.shorthand = p := by simpa using List.find?_some hf
      rw [← hp, eq_of_mem_longhands (List.mem_of_find?_eq_some hf) he (by simpa using hmem) hl]
    · rintro rfl
      simp [expandableLonghands_shorthand he, hl]
  rw [sets, Bool.or_eq_true, Bool.or_eq_true, decide_eq_true_eq, hlist, or_assoc]

theorem sets_of_owns {e : Entry} (he : e ∈ expandable) {p l : Text} (hp : e.owns p = true)
    (h : sets p l = true) : e.owns l = true := by
  rcases Entry.owns_iff.1 hp with rfl | hp
  · exact Entry.owns_iff.2 (((sets_shorthand he).1 h).imp_left Eq.symm)
  · exact (sets_leaf he hp).1 h ▸ Entry.owns_longhand hp

theorem sets_shorthand_of_owns {e : Entry} (he : e ∈ expandable) {l : Text}
    (h : e.owns l = true) : sets e.shorthand l = true :=
  (sets_shorthand he).2 ((Entry.owns_iff.1 h).imp_left Eq.symm)

theorem eq_of_owns {e f : Entry} (he : e ∈ expandable) (hf : f ∈ expandable) {p : Text}
    (hep : e.owns p = true) (hfp : f.owns p = true) : f = e := by
  by_contra hne
  have happart := Entry.apart_of_ne he hf hne p hfp
  rw [hep] at happart
  cases happart

variable {m : Declarations} {l : Text}

theorem filter_sets_collapse_of_apart (h : ∀ e ∈ expandable, e.owns l = false) :
    (collapse m).filter (sets ·.1 l) = m.filter (sets ·.1 l) := by
  have happart : ∀ f ∈ expandable, f.Apart (sets · l) := by
    intro f hf p hp
    rw [Bool.eq_false_iff]
    intro hsets
    have howns := sets_of_owns hf hp hsets
    rw [h f hf] at howns
    cases howns
  exact filter_collapse_eq_self happart m

theorem filter_sets_collapse {e : Entry} (he : e ∈ expandable) (hl : e.owns l = true) :
    (collapse m).filter (sets ·.1 l) = (Entry.collapse m e).filter (sets ·.1 l) := by
  have hwithin : e.Within fun p => sets p l || e.owns p := fun p hp => by simp [hp]
  have hapart : ∀ f ∈ expandable, f ≠ e → f.Apart fun p => sets p l || e.owns p := by
    intro f hf hne p hp
    rw [Bool.or_eq_false_iff]
    refine ⟨Bool.eq_false_iff.2 fun hsets => ?_, Entry.apart_of_ne he hf hne p hp⟩
    exact hne (eq_of_owns he hf hl (sets_of_owns hf hp hsets))
  have hlook : ∀ n : Declarations, n.filter (sets ·.1 l) =
      (n.filter fun c => sets c.1 l || e.owns c.1).filter (sets ·.1 l) := by
    intro n
    rw [List.filter_filter]
    exact List.filter_congr fun c _ => by cases sets c.1 l <;> simp
  rw [hlook, filter_collapse_eq he hwithin hapart, ← e.filter_collapse hwithin, ← hlook]

/-- Who sets `l` after a group is folded: what did in front of it, the shorthand, and what did
behind and is not folded. -/
theorem filter_sets_of_fold {e : Entry} (he : e ∈ expandable) (hl : e.owns l = true) {y : Text}
    (hy : e.fold? m = some y) : (collapse m).filter (sets ·.1 l) =
      (m.takeWhile (·.1 ∉ e.longhands)).filter (sets ·.1 l) ++ (e.shorthand, y) ::
        ((e.onwards m).filter (sets ·.1 l)).filter (·.1 ∉ e.longhands) := by
  obtain ⟨p, hp⟩ := List.exists_mem_of_ne_nil _ (longhands_ne_nil he)
  obtain ⟨v, hv⟩ := Entry.exists_mem_of_fold? hy hp
  have hcollapse : Entry.collapse m e = replaceGroup e.longhands (e.shorthand, y) m := by
    rw [Entry.collapse, hy]
  rw [filter_sets_collapse he hl, hcollapse, replaceGroup_eq hv hp, List.filter_append,
    List.filter_cons_of_pos (by exact sets_shorthand_of_owns he hl), List.filter_filter,
    List.filter_filter]
  simp only [Bool.and_comm, Entry.onwards]

theorem filter_sets_split (e : Entry) : m.filter (sets ·.1 l) =
    (m.takeWhile (·.1 ∉ e.longhands)).filter (sets ·.1 l) ++ (e.onwards m).filter (sets ·.1 l) := by
  rw [← List.filter_append, Entry.onwards, List.takeWhile_append_dropWhile]

theorem mem_of_onwards {e : Entry} {c : Text × Text} (h : c ∈ e.onwards m) : c ∈ m :=
  (List.dropWhile_suffix _).subset h

theorem mem_onwards {e : Entry} {c : Text × Text} (h : c ∈ m) (hc : c.1 ∈ e.longhands) :
    c ∈ e.onwards m := by
  rw [← List.takeWhile_append_dropWhile (p := (·.1 ∉ e.longhands)) (l := m)] at h
  refine (List.mem_append.1 h).resolve_left fun hfront => ?_
  have hnot := List.all_eq_true.1 List.all_takeWhile c hfront
  exact absurd hc (by simpa using hnot)

theorem sets_of_winner {w : Text × Text} (hw : winner m l = some w) : sets w.1 l = true := by
  simpa using (List.mem_filter.1 (List.mem_of_getLast? hw)).2

theorem getLast?_onwards {e : Entry} {w c : Text × Text} (hw : winner m l = some w)
    (hc : c ∈ e.onwards m) (hsets : sets c.1 l = true) :
    ((e.onwards m).filter (sets ·.1 l)).getLast? = some w := by
  have hne : (e.onwards m).filter (sets ·.1 l) ≠ [] :=
    List.ne_nil_of_mem (List.mem_filter.2 ⟨hc, hsets⟩)
  rw [winner, filter_sets_split e, List.getLast?_append, List.getLast?_eq_some_getLast hne,
    Option.some_or] at hw
  rw [List.getLast?_eq_some_getLast hne, hw]

theorem mem_onwards_of_winner {e : Entry} {w c : Text × Text} (hw : winner m l = some w)
    (hc : c ∈ e.onwards m) (hsets : sets c.1 l = true) : w ∈ e.onwards m :=
  (List.mem_filter.1 (List.mem_of_getLast? (getLast?_onwards hw hc hsets))).1

theorem winner_eq_shorthand {e : Entry} (he : e ∈ expandable) (hl : e.owns l = true) {y : Text}
    (hy : e.fold? m = some y) : winner (collapse m) l = some (e.shorthand, y) ↔
      ∀ c ∈ e.onwards m, sets c.1 l = true → c.1 ∈ e.longhands := by
  have hkey := (Entry.fold?_eq_some.1 hy).1
  rw [winner, filter_sets_of_fold he hl hy, List.getLast?_append, List.getLast?_cons]
  simp only [Option.some_or, Option.some.injEq]
  constructor
  · intro h c hc hsets
    by_contra hnot
    cases hlast : (((e.onwards m).filter (sets ·.1 l)).filter (·.1 ∉ e.longhands)).getLast? with
    | none =>
      have hnil := List.getLast?_eq_none_iff.1 hlast
      have hmem : c ∈ ((e.onwards m).filter (sets ·.1 l)).filter (·.1 ∉ e.longhands) := by
        simp [hc, hsets, hnot]
      rw [hnil] at hmem
      cases hmem
    | some d =>
      rw [hlast] at h
      have hd := (List.mem_filter.1 (List.mem_filter.1 (List.mem_of_getLast? hlast)).1).1
      obtain rfl : d = (e.shorthand, y) := h
      exact hkey (List.mem_map_of_mem (f := Prod.fst) (mem_of_onwards hd))
  · intro h
    have hnil : ((e.onwards m).filter (sets ·.1 l)).filter (·.1 ∉ e.longhands) = [] := by
      rw [List.filter_filter, List.filter_eq_nil_iff]
      intro c hc hboth
      simp only [Bool.and_eq_true, decide_eq_true_eq] at hboth
      exact hboth.1 (h c hc hboth.2)
    rw [hnil]
    rfl

theorem winner_eq_kept {e : Entry} (he : e ∈ expandable) (hl : e.owns l = true) {y : Text}
    (hy : e.fold? m = some y) {w : Text × Text} (hw : winner m l = some w)
    (hkept : w.1 ∉ e.longhands) : winner (collapse m) l = some w ↔ w ∈ e.onwards m := by
  have hsets := sets_of_winner hw
  constructor
  · intro h
    by_contra hnot
    have hshorthand := (winner_eq_shorthand he hl hy).2 fun c hc hcsets =>
      absurd (mem_onwards_of_winner hw hc hcsets) hnot
    rw [h, Option.some.injEq] at hshorthand
    have hmem := (List.mem_filter.1 (List.mem_of_getLast? hw)).1
    exact (Entry.fold?_eq_some.1 hy).1
      (List.mem_map.2 ⟨w, hmem, congrArg Prod.fst hshorthand⟩)
  · intro hmem
    obtain ⟨front, hfront⟩ := List.getLast?_eq_some_iff.1 (getLast?_onwards hw hmem hsets)
    rw [winner, filter_sets_of_fold he hl hy, hfront, List.filter_append,
      List.filter_cons_of_pos (by simpa using hkept), List.filter_nil, List.getLast?_append,
      List.getLast?_cons, List.getLast?_append]
    rfl

theorem winner_collapse_of_not_folded (h : ∀ e ∈ expandable, ∀ y, e.fold? m = some y →
    e.owns l = false) : winner (collapse m) l = winner m l := by
  by_cases hl : ∃ e ∈ expandable, e.owns l = true
  · obtain ⟨e, he, hl⟩ := hl
    rw [winner, winner, filter_sets_collapse he hl]
    cases hy : e.fold? m with
    | none => rw [Entry.collapse, hy]
    | some y =>
      rw [h e he y hy] at hl
      cases hl
  · rw [winner, winner, filter_sets_collapse_of_apart fun e he =>
      Bool.eq_false_iff.2 fun howns => hl ⟨e, he, howns⟩]

/--
Let `w` count for `l` before collapsing. If `w` is folded, its shorthand counts afterwards just if
no composite shorthand that resets `l` stands behind the first longhand of the group. If `w` is not
folded it still counts, unless `l` is itself a shorthand that is written and `w` stands in front of
the group. Then that shorthand counts.
-/
theorem winner_collapse {w : Text × Text} (hw : winner m l = some w) :
    (∀ e ∈ expandable, ∀ y, e.Writes m y → w.1 ∈ e.longhands →
      (winner (collapse m) l = some (e.shorthand, y) ↔
        ∀ c ∈ e.onwards m, resets c.1 l = false)) ∧
    ((∀ e ∈ expandable, ∀ y, e.Writes m y → w.1 ∉ e.longhands) →
      (winner (collapse m) l = some w ↔
        ∀ e ∈ expandable, ∀ y, e.Writes m y → e.shorthand = l → w ∈ e.onwards m)) ∧
    ∀ e ∈ expandable, ∀ y, e.Writes m y → e.shorthand = l → w ∉ e.onwards m →
      winner (collapse m) l = some (e.shorthand, y) := by
  have hsets := sets_of_winner hw
  refine ⟨fun e he y hy hfolded => ?_, fun hkept => ?_, fun e he y hy hl hnot => ?_⟩
  · obtain rfl : w.1 = l := (sets_leaf he hfolded).1 hsets
    rw [winner_eq_shorthand he (Entry.owns_longhand hfolded) ((Entry.writes_iff he).1 hy)]
    refine forall₂_congr fun c hc => ?_
    have hne : c.1 ≠ e.shorthand := fun heq =>
      hy.1 (heq ▸ List.mem_map_of_mem (f := Prod.fst) (mem_of_onwards hc))
    rw [sets_longhand he hfolded, Bool.eq_false_iff]
    constructor
    · intro h hresets
      have hc := h (Or.inr (Or.inr hresets))
      rw [resets, (longhands_leaf he hc).2] at hresets
      cases hresets
    · rintro h (heq | heq | hresets)
      · exact heq ▸ hfolded
      · exact absurd heq hne
      · exact absurd hresets h
  · by_cases hfold : ∃ e ∈ expandable, e.owns l = true ∧ ∃ y, e.fold? m = some y
    · obtain ⟨e, he, hl, y, hy⟩ := hfold
      have hwrites := (Entry.writes_iff he).2 hy
      rw [winner_eq_kept he hl hy hw (hkept e he y hwrites)]
      constructor
      · rintro honwards f hf _ _ rfl
        rwa [eq_of_owns he hf hl f.owns_shorthand]
      · intro h
        rcases Entry.owns_iff.1 hl with rfl | hlonghand
        · exact h e he y hwrites rfl
        · obtain ⟨v, hv⟩ := Entry.exists_mem_of_fold? hy hlonghand
          exact mem_onwards_of_winner hw (mem_onwards hv hlonghand) (sets_self l)
    · have hsame := winner_collapse_of_not_folded (m := m) (l := l) fun e he y hy =>
        Bool.eq_false_iff.2 fun howns => hfold ⟨e, he, howns, y, hy⟩
      rw [hsame]
      refine iff_of_true hw fun e he y hy heq => ?_
      exact absurd ⟨e, he, heq ▸ e.owns_shorthand, y, (Entry.writes_iff he).1 hy⟩ hfold
  · have howns : e.owns l = true := hl ▸ e.owns_shorthand
    refine (winner_eq_shorthand he howns ((Entry.writes_iff he).1 hy)).2 fun c hc hcsets => ?_
    exact absurd (mem_onwards_of_winner hw hc hcsets) hnot

def borders : Declarations :=
  [("border", "thin"), ("border-bottom-color", "red"), ("border-left", "thick"),
    ("border-left-color", "blue"), ("border-right-color", "red"), ("border-top-color", "red")].map
    fun d => (d.1.toList, d.2.toList)

theorem winner_collapse_bottom :
    winner borders "border-bottom-color".toList =
      some ("border-bottom-color".toList, "red".toList) ∧
    winner (collapse borders) "border-bottom-color".toList =
      some ("border-color".toList, "red red red blue".toList) := by
  have hw : winner borders "border-bottom-color".toList =
      some ("border-bottom-color".toList, "red".toList) := by decide +kernel
  obtain ⟨e, he, hname⟩ : ∃ e ∈ expandable, e.shorthand = "border-color".toList ∧
      e.fold? borders = some "red red red blue".toList ∧
      "border-bottom-color".toList ∈ e.longhands ∧
      ∀ c ∈ e.onwards borders, resets c.1 "border-bottom-color".toList = false := by
    decide +kernel
  obtain ⟨hname, hfold, hmem, hnone⟩ := hname
  exact ⟨hw, hname ▸ ((winner_collapse hw).1 e he _ ((Entry.writes_iff he).2 hfold) hmem).2 hnone⟩

/--
The color of the left border counts before folding and `border-left` afterwards; and `border`, the
only one that resets `border-color`, stands in front of the folded `border-color`.
-/
theorem winner_lost : borders.keys.Pairwise (· < ·) ∧
    winner borders "border-left-color".toList =
      some ("border-left-color".toList, "blue".toList) ∧
    winner (collapse borders) "border-left-color".toList =
      some ("border-left".toList, "thick".toList) ∧
    winner borders "border-color".toList = some ("border".toList, "thin".toList) ∧
    winner (collapse borders) "border-color".toList =
      some ("border-color".toList, "red red red blue".toList) := by
  decide +kernel

end AtomicCss.Shorthand
