import AtomicCss.Proofs.Shorthand.Groups
import AtomicCss.Proofs.Shorthand.Misread
import Mathlib.Data.List.Forall2
set_option autoImplicit false

/-!
Writing out what was folded.

A group folds whatever its values are, if only they have no priority and mix no keyword. Main
statement: what is written for it gives the longhands their values back just if the values that are
written are legible.
-/

namespace AtomicCss.Shorthand

/-- Two values of a longhand mean the same; for a corner, if they give the same two radii. -/
def Form.Same : Form → Text → Text → Prop
  | .corners, x, y => ∃ r, radii? x = some r ∧ radii? y = some r
  | _, x, y => x = y

/-- What it takes to read the text that is written for values. -/
def Form.Legible : Form → List Text → Prop
  | .corners, values => Readable (values.filterMap radii?)
  | _, values => Shorthand.Legible (fewest values)

instance (form : Form) (values : List Text) : Decidable (form.Legible values) :=
  match form with
  | .corners => inferInstanceAs (Decidable (Readable _))
  | .sides | .axes | .composite => inferInstanceAs (Decidable (Shorthand.Legible _))

/-- The value of the shorthand is written out, and each longhand gets what it had. -/
def Entry.Restores (e : Entry) (m : Declarations) (value : Text) : Prop :=
  ∃ pairs, expand? e.shorthand value = some pairs ∧ pairs.map (·.1) = e.longhands ∧
    ∀ d ∈ pairs, ∃ x, m.get? d.1 = some x ∧ e.form.Same d.2 x

theorem expand?_eq_some {e : Entry} (he : e ∈ expandable) {value : Text}
    {pairs : List (Text × Text)} : expand? e.shorthand value = some pairs ↔
      hasPriority value = false ∧
        ∃ values, e.form.spread? value = some values ∧ e.longhands.zip values = pairs := by
  rw [expand?, find?_shorthand he]
  simp only [Option.bind_eq_bind, Option.bind_some]
  split
  next h => simp [h]
  next h => simp [h, Option.bind_eq_some_iff]

theorem hasPriority_eq_false {value : Text} : hasPriority value = false ↔ '!' ∉ value := by
  simp [hasPriority]

theorem mem_of_gather? {form : Form} {values : List Text} {y : Text}
    (h : form.gather? values = some y) {c : Char} (hblank : isBlank c = false) (hslash : c ≠ '/')
    (hc : c ∈ y) : ∃ v ∈ values, c ∈ v := by
  have hspace : c ≠ ' ' := (ne_of_isBlank (by decide) hblank).symm
  by_cases hcorners : form = .corners
  · subst hcorners
    obtain ⟨radii, _, hradii, rfl⟩ := exists_radii_of_gather? h
    obtain ⟨r, hr, hc⟩ := mem_of_mem_writeCorners hspace hslash hc
    obtain ⟨v, hv, hread⟩ := List.mem_map.1 (hradii ▸ List.mem_map_of_mem (f := some) hr)
    obtain ⟨hfst, hsnd⟩ := mem_tokens_of_radii? hread
    rcases hc with hc | hc
    · exact ⟨v, hv, (mem_iff_mem_tokens hblank).2 ⟨r.1, hfst, hc⟩⟩
    · exact ⟨v, hv, (mem_iff_mem_tokens hblank).2 ⟨r.2, hsnd, hc⟩⟩
  · obtain ⟨_, _, rfl⟩ := (Form.gather?_eq_some hcorners).1 h
    exact mem_of_mem_join_fewest hspace hc

theorem same_eq {form : Form} (h : form ≠ .corners) : form.Same = Eq := by
  cases form with
  | corners => contradiction
  | sides | axes | composite => rfl

theorem legible_eq {form : Form} (h : form ≠ .corners) (values : List Text) :
    form.Legible values = Shorthand.Legible (fewest values) := by
  cases form with
  | corners => contradiction
  | sides | axes | composite => rfl

theorem forall_zip_iff {f : Text → Option Text} {R : Text → Text → Prop}
    {keys values out : List Text} (h : keys.map f = values.map some)
    (hlength : out.length = keys.length) :
    (∀ d ∈ keys.zip out, ∃ x, f d.1 = some x ∧ R d.2 x) ↔ List.Forall₂ R out values := by
  induction keys generalizing values out with
  | nil =>
    obtain rfl := List.map_eq_nil_iff.1 h.symm
    obtain rfl := List.length_eq_zero_iff.1 hlength
    simp
  | cons k keys ih =>
    match values, out, hlength with
    | v :: values, o :: out, hlength =>
      obtain ⟨hk, h⟩ := List.cons.inj h
      rw [List.zip_cons_cons, List.forall_mem_cons, List.forall₂_cons,
        ih h (Nat.succ.inj hlength)]
      simp [hk]

theorem forall₂_same_iff {values out : List Text} {radii : List (Text × Text)}
    (h : values.map radii? = radii.map some) :
    List.Forall₂ Form.corners.Same out values ↔ out.map radii? = radii.map some := by
  induction values generalizing out radii with
  | nil =>
    obtain rfl := List.map_eq_nil_iff.1 h.symm
    simp
  | cons v values ih =>
    cases radii with
    | nil => cases h
    | cons r radii =>
      obtain ⟨hv, h⟩ := List.cons.inj h
      cases out with
      | nil => simp
      | cons o out => simp [Form.Same, hv, ih h]

theorem Entry.restores_iff {e : Entry} (he : e ∈ expandable) {m : Declarations} {y : Text}
    {values : List Text} (hvalues : e.longhands.mapM m.get? = some values)
    (hpriority : hasPriority y = false) : e.Restores m y ↔
      ∃ out, e.form.spread? y = some out ∧ List.Forall₂ e.form.Same out values := by
  have hmap := mapM_eq_some.1 hvalues
  have hpairs : ∀ out, e.form.spread? y = some out →
      ((∀ d ∈ e.longhands.zip out, ∃ x, m.get? d.1 = some x ∧ e.form.Same d.2 x) ↔
        List.Forall₂ e.form.Same out values) :=
    fun out hout => forall_zip_iff hmap (length_of_spread? he hout)
  constructor
  · rintro ⟨pairs, hexpand, -, hsame⟩
    obtain ⟨_, out, hout, rfl⟩ := (expand?_eq_some he).1 hexpand
    exact ⟨out, hout, (hpairs out hout).1 hsame⟩
  · rintro ⟨out, hout, hsame⟩
    exact ⟨_, (expand?_eq_some he).2 ⟨hpriority, out, hout, rfl⟩,
      OrderedMap.keys_zip (length_of_spread? he hout).symm, (hpairs out hout).2 hsame⟩

/-- What was folded is written out as it was just if the values are legible. -/
theorem restores_iff_legible {e : Entry} (he : e ∈ expandable) {m : Declarations} {y : Text}
    (h : e.Writes m y) : e.Restores m y ↔ e.form.Legible (e.values m) := by
  obtain ⟨_, values, hvalues, hplain, _, hgather⟩ :=
    Entry.fold?_eq_some.1 ((Entry.writes_iff he).1 h)
  have hpriority : hasPriority y = false := by
    rw [hasPriority_eq_false]
    intro hmem
    obtain ⟨v, hv, hmem⟩ := mem_of_gather? hgather (by decide) (by decide) hmem
    exact hasPriority_eq_false.1 (hplain v hv) hmem
  rw [Entry.restores_iff he hvalues hpriority, Entry.values_eq hvalues]
  by_cases hcorners : e.form = .corners
  · rw [hcorners] at hgather ⊢
    obtain ⟨radii, hlength, hradii, rfl⟩ := exists_radii_of_gather? hgather
    simp only [forall₂_same_iff hradii, spread?_corners, Option.map_eq_some_iff]
    rw [Form.Legible, filterMap_of_map hradii]
    constructor
    · rintro ⟨_, ⟨read, hread, rfl⟩, hsame⟩
      refine readable_of_corners? hlength (fun r hr => ?_) hread ?_
      · obtain ⟨v, _, hv⟩ := List.mem_map.1 (hradii ▸ List.mem_map_of_mem (f := some) hr)
        exact (keepApart_tokens v).isToken _ (mem_tokens_of_radii? hv).1
      · rwa [List.map_map] at hsame
    · intro hreadable
      refine ⟨_, ⟨radii, corners?_writeCorners hreadable hlength, rfl⟩, ?_⟩
      rw [List.map_map]
      exact List.map_congr_left fun r hr => hreadable.radii?_corner hlength hr
  · obtain ⟨hcomposite, hlength, rfl⟩ := (Form.gather?_eq_some hcorners).1 hgather
    rw [Form.spread?_eq_axis? hcorners, same_eq hcorners, legible_eq hcorners,
      legible_iff (fewest_ne_nil hcomposite hlength), ← axis?_join_fewest hcomposite hlength]
    simp

def rounded : Declarations :=
  [("border-top-left-radius", "1px 2px"), ("border-top-right-radius", "3px"),
    ("border-bottom-left-radius", "3px  \"a b\""), ("border-bottom-right-radius", "1px 2px")].map
    fun d => (d.1.toList, d.2.toList)

theorem restores_rounded : ∃ e ∈ expandable,
    e.Writes rounded "1px 3px / 2px 3px 2px \"a b\"".toList ∧
      e.Restores rounded "1px 3px / 2px 3px 2px \"a b\"".toList := by
  obtain ⟨e, he, hwrites, hlegible⟩ : ∃ e ∈ expandable,
      e.Writes rounded "1px 3px / 2px 3px 2px \"a b\"".toList ∧
        e.form.Legible (e.values rounded) := by
    decide +kernel
  exact ⟨e, he, hwrites, (restores_iff_legible he hwrites).2 hlegible⟩

def margins : Declarations :=
  [("margin-top", "1px 2px"), ("margin-right", "1px"), ("margin-bottom", "1px"),
    ("margin-left", "1px")].map fun d => (d.1.toList, d.2.toList)

/-- The second length at the top becomes the margin on the right. -/
theorem not_restores_margins : ∃ e ∈ expandable,
    e.Writes margins "1px 2px 1px 1px".toList ∧
      ¬e.Restores margins "1px 2px 1px 1px".toList := by
  obtain ⟨e, he, hwrites, hform, hget, hspread⟩ : ∃ e ∈ expandable,
      e.Writes margins "1px 2px 1px 1px".toList ∧ e.form = .sides ∧
        e.longhands.mapM margins.get? =
          some (["1px 2px", "1px", "1px", "1px"].map String.toList) ∧
        e.form.spread? "1px 2px 1px 1px".toList =
          some (["1px", "2px", "1px", "1px"].map String.toList) := by
    decide +kernel
  refine ⟨e, he, hwrites, ?_⟩
  rw [Entry.restores_iff he hget (by decide), hspread, hform]
  rintro ⟨out, hout, hsame⟩
  have heq : out = _ := List.forall₂_eq_eq_eq ▸ hsame
  rw [← Option.some.inj hout] at heq
  exact absurd heq (by decide)

end AtomicCss.Shorthand
