import AtomicCss.Proofs.Shorthand.Keywords
import AtomicCss.Proofs.Shorthand.WriteOut
set_option autoImplicit false

namespace AtomicCss.Shorthand

/-- How many tokens a value has on each axis. -/
def Form.counts : Form → Text → List Nat
  | .corners, value => (slashParts value).map fun part => (tokens part).length
  | _, value => [(tokens value).length]

theorem legible_fewest {form : Form} (h : form ≠ .composite) {value : Text} {values : List Text}
    (hvalue : form.axis? value = some values) : Legible (fewest values) := by
  obtain ⟨l, _, hfill⟩ := axis?_eq_some.1 hvalue
  have hne := fewest_ne_nil h (length_of_fill? hfill)
  obtain ⟨extra, hextra⟩ := tokens?_of_axis? hvalue
  exact (legible_iff hne).2 (tokens?_join_of_append hextra hne)

section Plain

variable {part : Text} {values : List Text} (hbox : box? part = some values)

include hbox in
theorem legible_fewest_of_box? : Legible (fewest values) :=
  legible_fewest corners_ne_composite (axis?_of_box? hbox)

include hbox in
theorem mem_tokens_of_mem_fewest {t : Text} (ht : t ∈ fewest values) : t ∈ tokens part :=
  (tokens?_of_mem_axis? (axis?_of_box? hbox)
    ((fewest_isPrefix_self values).subset ht)).1

variable (hpart : '\\' ∉ part)
include hbox hpart

theorem plain_of_mem_fewest {t : Text} (ht : t ∈ fewest values) : '\\' ∉ t := fun hc =>
  hpart ((mem_iff_mem_tokens (by decide)).2 ⟨t, mem_tokens_of_mem_fewest hbox ht, hc⟩)

theorem isWhole_fewest (hwhole : slashCutter.IsWhole part) :
    slashCutter.IsWhole (Text.join [' '] (fewest values)) :=
  isWhole_join_space
    (fun _ ht => isWhole_of_mem_tokens hpart hwhole (mem_tokens_of_mem_fewest hbox ht))
    fun t ht => (isClosed_slashCutter
      (plain_of_mem_fewest hbox hpart (List.dropLast_subset _ ht))).2
      ((legible_fewest_of_box? hbox).isClosed t ht)

theorem isClosed_fewest (hclosed : slashCutter.IsClosed part) :
    slashCutter.IsClosed (Text.join [' '] (fewest values)) ∧
      ∀ t ∈ fewest values, tokenCutter.IsClosed t := by
  have htoken : ∀ t ∈ fewest values, tokenCutter.IsClosed t := fun t ht =>
    isClosed_iff_tokens.1 ((isClosed_slashCutter hpart).1 hclosed) t
      (mem_tokens_of_mem_fewest hbox ht)
  exact ⟨isClosed_join_space fun t ht =>
    (isClosed_slashCutter (plain_of_mem_fewest hbox hpart ht)).2 (htoken t ht), htoken⟩

end Plain

theorem readable_of_plain {value : Text} (hvalue : '\\' ∉ value) {radii : List (Text × Text)}
    (h : corners? value = some radii) : Readable radii := by
  rcases corners?_eq_some.1 h with
    ⟨hwhole, l, hl, rfl⟩ | ⟨a, b, top, side, rfl, hwhole, hclosed, hwhole', ha, hb, rfl⟩
  · have hjoin := isWhole_fewest hl hvalue hwhole
    have hsame := (horizontals_same l).trans (verticals_same l).symm
    rw [← horizontals_same] at hjoin
    have hlegible := legible_fewest_of_box? hl
    rw [← horizontals_same] at hlegible
    exact ⟨hlegible, hsame ▸ hlegible, hjoin, hsame ▸ hjoin, fun hne => absurd hsame hne⟩
  · have hfour := (length_of_box? ha).trans (length_of_box? hb).symm
    have hback : '\\' ∉ a := fun hc => hvalue (List.mem_append_left _ hc)
    have hback' : '\\' ∉ b := fun hc => hvalue (List.mem_append_right _ (List.mem_cons_of_mem _ hc))
    constructor
    · exact horizontals_zip hfour ▸ legible_fewest_of_box? ha
    · exact verticals_zip hfour ▸ legible_fewest_of_box? hb
    · exact horizontals_zip hfour ▸ isWhole_fewest ha hback hwhole
    · exact verticals_zip hfour ▸ isWhole_fewest hb hback' hwhole'
    · exact fun _ => horizontals_zip hfour ▸ isClosed_fewest ha hback hclosed

section Characters

variable {value : Text} {c : Char} (hblank : isBlank c = false)
include hblank

theorem mem_iff_of_axis? {form : Form} {values : List Text} (h : form.axis? value = some values) :
    c ∈ value ↔ ∃ x ∈ values, c ∈ x := by
  obtain ⟨l, hl, hfill⟩ := axis?_eq_some.1 h
  rw [mem_iff_mem_tokens hblank, (tokens?_eq_some.1 hl).1]
  simp only [mem_of_fill? hfill]

theorem mem_corner {x y : Text} : c ∈ corner x y ↔ c ∈ x ∨ c ∈ y := by
  have hspace : c ≠ ' ' := (ne_of_isBlank (by decide) hblank).symm
  by_cases hxy : x = y <;> simp [corner, hxy, hspace]

theorem mem_iff_of_corners? {radii : List (Text × Text)} (h : corners? value = some radii)
    (hslash : c ≠ '/') : c ∈ value ↔ ∃ r ∈ radii, c ∈ r.1 ∨ c ∈ r.2 := by
  rcases corners?_eq_some.1 h with
    ⟨-, l, hl, rfl⟩ | ⟨a, b, top, side, rfl, -, -, -, ha, hb, rfl⟩
  · simp [mem_iff_of_axis? hblank (axis?_of_box? hl)]
  · have hfour := (length_of_box? ha).trans (length_of_box? hb).symm
    have hfst := List.map_fst_zip (Nat.le_of_eq hfour)
    have hsnd := List.map_snd_zip (Nat.le_of_eq hfour.symm)
    have hhorizontal := mem_iff_of_axis? hblank (axis?_of_box? ha)
    have hvertical := mem_iff_of_axis? hblank (axis?_of_box? hb)
    rw [← hfst] at hhorizontal
    rw [← hsnd] at hvertical
    rw [List.mem_append, List.mem_cons, or_iff_right hslash, hhorizontal, hvertical]
    simp only [List.mem_map, exists_exists_and_eq_and, and_or_left, exists_or]

theorem mem_iff_of_spread? {form : Form} {values : List Text}
    (h : form.spread? value = some values) (hslash : c ≠ '/') :
    c ∈ value ↔ ∃ x ∈ values, c ∈ x := by
  by_cases hcorners : form = .corners
  · subst hcorners
    rw [spread?_corners, Option.map_eq_some_iff] at h
    obtain ⟨radii, hradii, rfl⟩ := h
    simp [mem_iff_of_corners? hblank hradii hslash, mem_corner hblank]
  · rw [Form.spread?_eq_axis? hcorners] at h
    exact mem_iff_of_axis? hblank h

end Characters

section Counting

theorem length_fewest_le {form : Form} {value : Text} {values : List Text}
    (h : form.axis? value = some values) : (fewest values).length ≤ (tokens value).length := by
  obtain ⟨extra, hextra⟩ := tokens?_of_axis? h
  rw [(tokens?_eq_some.1 hextra).1, List.length_append]
  exact Nat.le_add_right _ _

theorem counts_eq {form : Form} (h : form ≠ .corners) (value : Text) :
    form.counts value = [(tokens value).length] := by
  cases form with
  | corners => contradiction
  | sides | axes | composite => rfl

theorem Readable.counts_writeCorners {radii : List (Text × Text)} (h : Readable radii) :
    Form.corners.counts (writeCorners radii) =
      if Shorthand.horizontals radii = Shorthand.verticals radii then
        [(Shorthand.horizontals radii).length]
      else [(Shorthand.horizontals radii).length, (Shorthand.verticals radii).length] := by
  have hspace : isBlank ' ' = true := by decide
  rw [Form.counts]
  split
  next hsame => simp [h.slashParts_same hsame, h.horizontals.keepApart.tokens_join]
  next hne =>
    simp [h.slashParts_apart hne, tokens_append_blank (h.isClosed_horizontals hne) hspace,
      tokens_blank hspace, h.horizontals.keepApart.tokens_join,
      h.verticals.keepApart.tokens_join]

theorem Readable.counts_le {radii : List (Text × Text)} (h : Readable radii) {value : Text}
    (hvalue : corners? value = some radii) (i : Nat) :
    (Form.corners.counts (writeCorners radii)).getD i 0 ≤
      (Form.corners.counts value).getD i 0 := by
  rw [h.counts_writeCorners]
  rcases corners?_eq_some.1 hvalue with
    ⟨hwhole, l, hl, rfl⟩ | ⟨a, b, top, side, rfl, hwhole, hclosed, hwhole', ha, hb, rfl⟩
  · have hle := length_fewest_le (axis?_of_box? hl)
    rw [if_pos ((horizontals_same l).trans (verticals_same l).symm), Form.counts,
      slashParts_of_isWhole hwhole, horizontals_same]
    cases i <;> simp [hle]
  · have hfour := (length_of_box? ha).trans (length_of_box? hb).symm
    have hle := length_fewest_le (axis?_of_box? ha)
    have hle' := length_fewest_le (axis?_of_box? hb)
    rw [Form.counts, slashParts_eq_pair.2 ⟨rfl, hwhole, hclosed, hwhole'⟩, horizontals_zip hfour,
      verticals_zip hfour]
    split
    · rcases i with _ | i <;> simp [hle]
    · rcases i with _ | _ | i <;> simp [hle, hle']

end Counting

/-- Gathered from values and spread as these again, with the fewest tokens on each axis. -/
structure Form.Shortest (form : Form) (values : List Text) (w : Text) : Prop where
  gather? : form.gather? values = some w
  spread? : form.spread? w = some values
  counts_le : ∀ u, form.spread? u = some values → ∀ i : Nat,
    (form.counts w).getD i 0 ≤ (form.counts u).getD i 0

section Gathering

variable {v : Text} {values : List Text}

theorem shortest_of_axis? {form : Form} (hcorners : form ≠ .corners)
    (h : form.axis? v = some values) :
    form.Shortest values (Text.join [' '] (fewest values)) := by
  obtain ⟨l, hl, hfill⟩ := axis?_eq_some.1 h
  have hcomposite : form ≠ .composite := by
    rintro rfl
    cases hfill
  have hlength := length_of_fill? hfill
  have hlegible := legible_fewest hcomposite h
  constructor
  · exact (Form.gather?_eq_some hcorners).2 ⟨hcomposite, hlength, rfl⟩
  · rw [Form.spread?_eq_axis? hcorners, axis?_join_fewest hcomposite hlength]
    exact (legible_iff (fewest_ne_nil hcomposite hlength)).1 hlegible
  · intro u hu i
    rw [Form.spread?_eq_axis? hcorners] at hu
    rw [counts_eq hcorners, counts_eq hcorners, hlegible.keepApart.tokens_join]
    cases i <;> simp [length_fewest_le hu]

theorem map_radii?_of_corners? (hv : '\\' ∉ v) {radii : List (Text × Text)}
    (h : corners? v = some radii) :
    (radii.map fun r => corner r.1 r.2).map radii? = radii.map some := by
  rw [List.map_map]
  exact List.map_congr_left fun r hr =>
    (readable_of_plain hv h).radii?_corner (length_of_corners? h) hr

theorem shortest_of_corners? (hv : '\\' ∉ v) {radii : List (Text × Text)}
    (h : corners? v = some radii) :
    Form.corners.Shortest (radii.map fun r => corner r.1 r.2) (writeCorners radii) := by
  have hlength := length_of_corners? h
  have hreadable := readable_of_plain hv h
  have hmap := map_radii?_of_corners? hv h
  have hspread : ∀ u other, corners? u = some other →
      Form.corners.spread? u = some (other.map fun r => corner r.1 r.2) := fun u other hu => by
    rw [spread?_corners, hu, Option.map_some]
  refine ⟨gather?_corners hmap hlength, hspread _ _ (corners?_writeCorners hreadable hlength),
    fun u hu => ?_⟩
  have hplain : '\\' ∉ u := fun hc => hv
    ((mem_iff_of_spread? (by decide) (hspread v radii h) (by decide)).2
      ((mem_iff_of_spread? (by decide) hu (by decide)).1 hc))
  rw [spread?_corners, Option.map_eq_some_iff] at hu
  obtain ⟨other, hother, heq⟩ := hu
  have hmap' := map_radii?_of_corners? hplain hother
  rw [heq, hmap] at hmap'
  obtain rfl := (List.map_inj_right fun _ _ => Option.some.inj).1 hmap'
  exact hreadable.counts_le hother

theorem exists_shortest {form : Form} (h : form.spread? v = some values)
    (hback : form = .corners → '\\' ∉ v) : ∃ w, form.Shortest values w := by
  by_cases hcorners : form = .corners
  · subst hcorners
    rw [spread?_corners, Option.map_eq_some_iff] at h
    obtain ⟨radii, hradii, rfl⟩ := h
    exact ⟨_, shortest_of_corners? (hback rfl) hradii⟩
  · rw [Form.spread?_eq_axis? hcorners] at h
    exact ⟨_, shortest_of_axis? hcorners h⟩

theorem hasPriority_of_spread? {form : Form} (h : form.spread? v = some values) :
    hasPriority v = false ↔ ∀ x ∈ values, hasPriority x = false := by
  simp only [hasPriority_eq_false, mem_iff_of_spread? (by decide : isBlank '!' = false) h
    (by decide), not_exists, not_and]

theorem isTight_of_spread? {form : Form} (h : form.spread? v = some values)
    (hback : form = .corners → '\\' ∉ v) {x : Text} (hx : x ∈ values) : IsTight x := by
  by_cases hcorners : form = .corners
  · subst hcorners
    simp only [spread?_corners, Option.map_eq_some_iff] at h
    obtain ⟨radii, hradii, rfl⟩ := h
    obtain ⟨r, hr, rfl⟩ := List.mem_map.1 hx
    have hlength := length_of_corners? hradii
    have hreadable := readable_of_plain (hback rfl) hradii
    have htoken := hreadable.horizontals.tokens? _ (mem_fewest_map hlength (·.1) hr)
    rcases radii?_eq_some.1 (hreadable.radii?_corner hlength hr) with ⟨_, heq⟩ | hpair
    · rw [← heq, corner_self]
      exact isTight_of_tokens (tokens?_eq_some.1 htoken).1
    · exact isTight_of_two_tokens (tokens?_eq_some.1 hpair).1
  · rw [Form.spread?_eq_axis? hcorners] at h
    exact isTight_of_tokens (tokens?_eq_some.1 (tokens?_of_mem_axis? h hx).2).1

end Gathering

/-- The longhands that a shorthand is written out as fold back into it, with the fewest tokens on
each axis, unless a keyword stands among different values; then they stay. -/
theorem collapse_expand {e : Entry} (he : e ∈ expandable) {v : Text} {pairs : List (Text × Text)}
    (hback : e.form = .corners → '\\' ∉ v) (h : expand? e.shorthand v = some pairs)
    {m : Declarations} (hm : m.Perm pairs) :
    (MixesKeyword (pairs.map (·.2)) → collapse m = m) ∧
      (¬MixesKeyword (pairs.map (·.2)) → ∃ w, collapse m = [(e.shorthand, w)] ∧
        expand? e.shorthand w = some pairs ∧ ∀ u, expand? e.shorthand u = some pairs → ∀ i : Nat,
          (e.form.counts w).getD i 0 ≤ (e.form.counts u).getD i 0) := by
  obtain ⟨hpriority, values, hvalues, rfl⟩ := (expand?_eq_some he).1 h
  have hlength := length_of_spread? he hvalues
  have hsnd : (e.longhands.zip values).map (·.2) = values :=
    List.map_snd_zip (Nat.le_of_eq hlength)
  obtain ⟨hkeys, hget⟩ := OrderedMap.mapM_get?_of_perm (nodup_longhands he) hlength.symm hm
  have hshort : e.shorthand ∉ m.keys := fun hmem =>
    shorthand_not_mem_longhands he he (hkeys.mem_iff.1 hmem)
  have hplain := (hasPriority_of_spread? hvalues).1 hpriority
  obtain ⟨w, hw⟩ := exists_shortest hvalues hback
  have hmix := mixesWideKeywords_iff fun x hx => isTight_of_spread? hvalues hback hx
  rw [hsnd]
  constructor
  · intro hmixes
    have hfold : e.fold? m = none := by
      simp [Entry.fold?, hshort, hget, hmix.2 hmixes]
    exact collapse_eq_self he hkeys hfold
  · intro hmixes
    have hfold : e.fold? m = some w := Entry.fold?_eq_some.2
      ⟨hshort, values, hget, hplain, Bool.eq_false_iff.2 (mt hmix.1 hmixes), hw.gather?⟩
    have hpriority' := (hasPriority_of_spread? hw.spread?).2 hplain
    refine ⟨w, collapse_eq_singleton he hkeys hfold,
      (expand?_eq_some he).2 ⟨hpriority', values, hw.spread?, rfl⟩, fun u hu => ?_⟩
    obtain ⟨_, out, hout, hzip⟩ := (expand?_eq_some he).1 hu
    have hmap := congrArg (List.map Prod.snd) hzip
    rw [List.map_snd_zip (Nat.le_of_eq (length_of_spread? he hout)), hsnd] at hmap
    exact hw.counts_le u (hmap ▸ hout)

def cornerPairs : Declarations :=
  [("border-top-left-radius", "1px 2px"), ("border-top-right-radius", "1px 3px"),
    ("border-bottom-right-radius", "1px 2px"), ("border-bottom-left-radius", "1px 3px")].map
    fun d => (d.1.toList, d.2.toList)

theorem collapse_expand_corners : ∃ e ∈ expandable, ∃ w,
    expand? e.shorthand "1px  1px/2px 3px 2px".toList = some cornerPairs ∧
      collapse cornerPairs.reverse = [(e.shorthand, w)] ∧ expand? e.shorthand w = some cornerPairs ∧
        ∀ i, (e.form.counts w).getD i 0 ≤
          (e.form.counts "1px  1px/2px 3px 2px".toList).getD i 0 := by
  obtain ⟨e, he, hexpand, hback, hmix⟩ : ∃ e ∈ expandable,
      expand? e.shorthand "1px  1px/2px 3px 2px".toList = some cornerPairs ∧
        (e.form = .corners → '\\' ∉ "1px  1px/2px 3px 2px".toList) ∧
          ¬MixesKeyword (cornerPairs.map (·.2)) := by
    decide +kernel
  obtain ⟨w, hcollapse, hagain, hfewest⟩ :=
    (collapse_expand he hback hexpand (List.reverse_perm cornerPairs)).2 hmix
  exact ⟨e, he, w, hexpand, hcollapse, hagain, hfewest _ hexpand⟩

end AtomicCss.Shorthand
