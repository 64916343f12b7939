import AtomicCss.Proofs.Data.Outcome
import AtomicCss.Proofs.Shorthand.Axes
import AtomicCss.Proofs.Shorthand.Slashes
set_option autoImplicit false

/-!
The values of `border-radius`: two axes with a slash between, or one axis for both.

Radii are readable if the tokens of both axes are legible and the scanner of slashes finds no slash
but the one between the axes. Main statement: the text that is written for them is then read as
these radii.
-/

namespace AtomicCss.Shorthand

/-- The horizontal and the vertical radius of each corner. -/
def corners? (value : Text) : Option (List (Text × Text)) :=
  match slashParts value with
  | [both] => (box? both).map fun l => l.map fun t => (t, t)
  | [horizontal, vertical] =>
    (box? horizontal).bind fun h => (box? vertical).map fun v => h.zip v
  | _ => none

def horizontals (radii : List (Text × Text)) : List Text := fewest (radii.map (·.1))

def verticals (radii : List (Text × Text)) : List Text := fewest (radii.map (·.2))

def writeCorners (radii : List (Text × Text)) : Text :=
  let horizontal := Text.join [' '] (horizontals radii)
  let vertical := Text.join [' '] (verticals radii)
  if horizontal = vertical then horizontal else horizontal ++ " / ".toList ++ vertical

theorem map_corner_zip (h v : List Text) :
    (h.zip v).map (fun r => corner r.1 r.2) = List.zipWith corner h v :=
  List.map_zip_eq_zipWith

theorem corner_self (t : Text) : corner t t = t := if_pos rfl

theorem spread?_corners (value : Text) : Form.corners.spread? value =
    (corners? value).map fun radii => radii.map fun r => corner r.1 r.2 := by
  rw [Form.spread?, corners?]
  rcases slashParts value with _ | ⟨a, _ | ⟨b, _ | ⟨c, more⟩⟩⟩
  · rfl
  · cases hl : box? a with
    | none => simp [hl]
    | some l => simp [hl, Function.comp_def, corner_self]
  · cases hl : box? a with
    | none => simp [hl]
    | some l => cases hr : box? b <;> simp [hl, hr, map_corner_zip]
  · rfl

theorem gather?_corners {values : List Text} {radii : List (Text × Text)}
    (h : values.map radii? = radii.map some) (hlength : radii.length = 4) :
    Form.corners.gather? values = some (writeCorners radii) := by
  match radii, hlength with
  | [(h₁, v₁), (h₂, v₂), (h₃, v₃), (h₄, v₄)], _ =>
    simp only [Form.gather?, mapM_eq_some.2 h, Option.bind_eq_bind, Option.bind_some]
    rw [writeCorners]
    simp only [horizontals, verticals, fewest, List.map_cons, List.map_nil]
    split <;> rfl

theorem exists_radii_of_gather? {values : List Text} {y : Text}
    (h : Form.corners.gather? values = some y) : ∃ radii : List (Text × Text),
      radii.length = 4 ∧ values.map radii? = radii.map some ∧ y = writeCorners radii := by
  obtain ⟨radii, hradii, hwrite⟩ := Option.bind_eq_some_iff.1 h
  have hmap := mapM_eq_some.1 hradii
  have hlength : radii.length = 4 := by
    split at hwrite
    · rfl
    · cases hwrite
  exact ⟨radii, hlength, hmap, Option.some.inj (h.symm.trans (gather?_corners hmap hlength))⟩

theorem corners?_eq_some {value : Text} {radii : List (Text × Text)} :
    corners? value = some radii ↔
      (slashCutter.IsWhole value ∧ ∃ l, box? value = some l ∧ l.map (fun t => (t, t)) = radii) ∨
      ∃ a b h v, value = a ++ '/' :: b ∧ slashCutter.IsWhole a ∧ slashCutter.IsClosed a ∧
        slashCutter.IsWhole b ∧ box? a = some h ∧ box? b = some v ∧ h.zip v = radii := by
  constructor
  · intro h
    unfold corners? at h
    split at h
    next both hparts =>
      obtain ⟨rfl, hwhole⟩ := slashParts_eq_singleton.1 hparts
      obtain ⟨l, hl, rfl⟩ := Option.map_eq_some_iff.1 h
      exact Or.inl ⟨hwhole, l, hl, rfl⟩
    next a b hparts =>
      obtain ⟨hvalue, ha, hclosed, hb⟩ := slashParts_eq_pair.1 hparts
      obtain ⟨l, hl, h⟩ := Option.bind_eq_some_iff.1 h
      obtain ⟨r, hr, rfl⟩ := Option.map_eq_some_iff.1 h
      exact Or.inr ⟨a, b, l, r, hvalue, ha, hclosed, hb, hl, hr, rfl⟩
    next => cases h
  · rintro (⟨hwhole, l, hl, rfl⟩ | ⟨a, b, h, v, hvalue, ha, hclosed, hb, hh, hv, rfl⟩)
    · simp [corners?, slashParts_of_isWhole hwhole, hl]
    · simp [corners?, slashParts_eq_pair.2 ⟨hvalue, ha, hclosed, hb⟩, hh, hv]

theorem corners_ne_composite : Form.corners ≠ .composite := by simp

theorem length_of_box? {value : Text} {l : List Text} (h : box? value = some l) :
    l.length = 4 := by
  obtain ⟨_, _, hfill⟩ := axis?_eq_some.1 (axis?_of_box? h)
  exact length_of_fill? hfill

theorem length_of_corners? {value : Text} {radii : List (Text × Text)}
    (h : corners? value = some radii) : radii.length = 4 := by
  rcases corners?_eq_some.1 h with
    ⟨_, l, hl, rfl⟩ | ⟨a, b, h, v, rfl, _, _, _, ha, hb, rfl⟩
  · rw [List.length_map, length_of_box? hl]
  · rw [List.length_zip, length_of_box? ha, length_of_box? hb]
    rfl

/-- What it takes to read the text of the radii: legible axes without slashes of their own, the
first of them closed if there are two. -/
structure Readable (radii : List (Text × Text)) : Prop where
  horizontals : Legible (horizontals radii)
  verticals : Legible (verticals radii)
  whole_horizontals : slashCutter.IsWhole (Text.join [' '] (Shorthand.horizontals radii))
  whole_verticals : slashCutter.IsWhole (Text.join [' '] (Shorthand.verticals radii))
  closed : Shorthand.horizontals radii ≠ Shorthand.verticals radii →
    slashCutter.IsClosed (Text.join [' '] (Shorthand.horizontals radii)) ∧
      ∀ t ∈ Shorthand.horizontals radii, tokenCutter.IsClosed t

instance (radii : List (Text × Text)) : Decidable (Readable radii) :=
  decidable_of_iff (Legible (horizontals radii) ∧ Legible (verticals radii) ∧
    slashCutter.IsWhole (Text.join [' '] (horizontals radii)) ∧
    slashCutter.IsWhole (Text.join [' '] (verticals radii)) ∧
    (horizontals radii ≠ verticals radii →
      slashCutter.IsClosed (Text.join [' '] (horizontals radii)) ∧
        ∀ t ∈ horizontals radii, tokenCutter.IsClosed t))
    ⟨fun ⟨a, b, c, d, e⟩ => ⟨a, b, c, d, e⟩, fun ⟨a, b, c, d, e⟩ => ⟨a, b, c, d, e⟩⟩

section Axis

variable {radii : List (Text × Text)} (hlength : radii.length = 4) (f : Text × Text → Text)
include hlength

theorem length_map_radii : (radii.map f).length = Form.corners.width := by
  rw [List.length_map, hlength, Form.width]

theorem fewest_map_ne_nil : fewest (radii.map f) ≠ [] :=
  fewest_ne_nil corners_ne_composite (length_map_radii hlength f)

theorem mem_fewest_map {r : Text × Text} (hr : r ∈ radii) : f r ∈ fewest (radii.map f) :=
  (mem_fewest corners_ne_composite (length_map_radii hlength f)).2 (List.mem_map_of_mem hr)

theorem box?_fewest_map : box? (Text.join [' '] (fewest (radii.map f))) = some (radii.map f) ↔
    Legible (fewest (radii.map f)) := by
  rw [legible_iff (fewest_map_ne_nil hlength f), box?_eq_axis?]
  exact axis?_join_fewest corners_ne_composite (length_map_radii hlength f)

end Axis

theorem horizontals_same (l : List Text) : horizontals (l.map fun t => (t, t)) = fewest l := by
  simp [horizontals, Function.comp_def]

theorem verticals_same (l : List Text) : verticals (l.map fun t => (t, t)) = fewest l := by
  simp [verticals, Function.comp_def]

theorem horizontals_zip {h v : List Text} (heq : h.length = v.length) :
    horizontals (h.zip v) = fewest h := by
  rw [horizontals, List.map_fst_zip (Nat.le_of_eq heq)]

theorem verticals_zip {h v : List Text} (heq : h.length = v.length) :
    verticals (h.zip v) = fewest v := by
  rw [verticals, List.map_snd_zip (Nat.le_of_eq heq.symm)]

theorem zip_map_fst_map_snd (radii : List (Text × Text)) :
    (radii.map (·.1)).zip (radii.map (·.2)) = radii := by
  simpa [List.unzip_eq_map] using List.zip_unzip radii

theorem box?_append_space {value : Text} (h : tokenCutter.IsClosed value) :
    box? (value ++ [' ']) = box? value := by
  have hsame : tokens (value ++ [' ']) = tokens value := by
    rw [tokens_append_blank h (by decide), tokens_nil, List.append_nil]
  rw [box?, box?, tokens?_congr hsame]

theorem box?_space (value : Text) : box? (' ' :: value) = box? value := by
  rw [box?, box?, tokens?_congr (tokens_blank (by decide) value)]

section Written

variable {radii : List (Text × Text)} (h : Readable radii)
include h

theorem Readable.eq_of_join (heq : Text.join [' '] (Shorthand.horizontals radii) =
    Text.join [' '] (Shorthand.verticals radii)) :
    Shorthand.horizontals radii = Shorthand.verticals radii := by
  rw [← h.horizontals.keepApart.tokens_join, heq, h.verticals.keepApart.tokens_join]

theorem Readable.slashParts_same
    (hsame : Shorthand.horizontals radii = Shorthand.verticals radii) :
    slashParts (writeCorners radii) = [Text.join [' '] (Shorthand.horizontals radii)] := by
  rw [writeCorners, if_pos (congrArg _ hsame), slashParts_of_isWhole h.whole_horizontals]

theorem Readable.isClosed_horizontals
    (hne : Shorthand.horizontals radii ≠ Shorthand.verticals radii) :
    tokenCutter.IsClosed (Text.join [' '] (Shorthand.horizontals radii)) := by
  rw [isClosed_iff_tokens, h.horizontals.keepApart.tokens_join]
  exact (h.closed hne).2

theorem Readable.slashParts_apart
    (hne : Shorthand.horizontals radii ≠ Shorthand.verticals radii) :
    slashParts (writeCorners radii) = [Text.join [' '] (Shorthand.horizontals radii) ++ [' '],
      ' ' :: Text.join [' '] (Shorthand.verticals radii)] := by
  have hclosed := (h.closed hne).1
  rw [slashParts_eq_pair, writeCorners, if_neg fun heq => hne (h.eq_of_join heq)]
  refine ⟨by simp, ?_, ?_, ?_⟩
  · exact (hclosed.isWhole_append _).2 ⟨h.whole_horizontals, by decide⟩
  · exact (hclosed.append _).2 closed_space
  · exact (closed_space.isWhole_append _).2 ⟨by decide, h.whole_verticals⟩

theorem corners?_writeCorners (hlength : radii.length = 4) :
    corners? (writeCorners radii) = some radii := by
  have hbox : box? (Text.join [' '] (Shorthand.horizontals radii)) = some (radii.map (·.1)) :=
    (box?_fewest_map hlength _).2 h.horizontals
  have hbox' : box? (Text.join [' '] (Shorthand.verticals radii)) = some (radii.map (·.2)) :=
    (box?_fewest_map hlength _).2 h.verticals
  by_cases hsame : Shorthand.horizontals radii = Shorthand.verticals radii
  · have hmap : radii.map (·.1) = radii.map (·.2) := by
      rw [hsame, hbox'] at hbox
      exact (Option.some.inj hbox).symm
    have hpair : ∀ r ∈ radii, (r.1, r.1) = r := fun r hr =>
      Prod.ext rfl (List.map_inj_left.1 hmap r hr)
    simp only [corners?, h.slashParts_same hsame, hbox, Option.map_some, List.map_map]
    exact congrArg some ((List.map_congr_left hpair).trans (List.map_id radii))
  · simp only [corners?, h.slashParts_apart hsame, box?_append_space (h.isClosed_horizontals hsame),
      box?_space, hbox, hbox', Option.bind_some, Option.map_some, zip_map_fst_map_snd]

end Written

theorem radii?_of_token {t : Text} (h : tokens? t = some [t]) : radii? t = some (t, t) := by
  rw [radii?, h]

theorem radii?_corner {h v : Text} (hh : tokens? h = some [h]) (hv : tokens? v = some [v])
    (hclosed : tokenCutter.IsClosed h) : radii? (corner h v) = some (h, v) := by
  obtain ⟨htoken, hvar⟩ := tokens?_eq_self.1 hh
  obtain ⟨htoken', hvar'⟩ := tokens?_eq_self.1 hv
  by_cases heq : h = v
  · rw [corner, if_pos heq, radii?_of_token hh, heq]
  · have htokens : tokens? (h ++ ' ' :: v) = some [h, v] := by
      rw [tokens?_eq_some, tokens_append htoken hclosed (by decide), tokens_of_isToken htoken']
      simp [hvar, hvar']
    rw [corner, if_neg heq, radii?, htokens]

theorem radii?_eq_some {value : Text} {r : Text × Text} : radii? value = some r ↔
    tokens? value = some [r.1] ∧ r.1 = r.2 ∨ tokens? value = some [r.1, r.2] := by
  constructor
  · intro h
    unfold radii? at h
    split at h
    next both hboth =>
      cases h
      exact Or.inl ⟨hboth, rfl⟩
    next x y hpair =>
      cases h
      exact Or.inr hpair
    next => cases h
  · rintro (⟨hboth, heq⟩ | hpair)
    · rw [radii?, hboth]
      exact congrArg some (Prod.ext rfl heq)
    · rw [radii?, hpair]

theorem mem_tokens_of_radii? {value : Text} {r : Text × Text} (h : radii? value = some r) :
    r.1 ∈ tokens value ∧ r.2 ∈ tokens value := by
  rcases radii?_eq_some.1 h with ⟨hboth, heq⟩ | hpair
  · simp [(tokens?_eq_some.1 hboth).1, heq]
  · simp [(tokens?_eq_some.1 hpair).1]

theorem Readable.radii?_corner {radii : List (Text × Text)} (hlength : radii.length = 4)
    (h : Readable radii) {r : Text × Text} (hr : r ∈ radii) :
    radii? (corner r.1 r.2) = some r := by
  have hmem := mem_fewest_map hlength (·.1) hr
  have hfst := h.horizontals.tokens? _ hmem
  by_cases hsame : Shorthand.horizontals radii = Shorthand.verticals radii
  · have hmap : radii.map (·.1) = radii.map (·.2) :=
      eq_of_fewest_eq corners_ne_composite (length_map_radii hlength _)
        (length_map_radii hlength _) hsame
    have heq : r.1 = r.2 := List.map_inj_left.1 hmap r hr
    rw [← heq, corner_self, radii?_of_token hfst]
    exact congrArg some (Prod.ext rfl heq)
  · exact Shorthand.radii?_corner hfst (h.verticals.tokens? _ (mem_fewest_map hlength (·.2) hr))
      ((h.closed hsame).2 _ hmem)

theorem mem_of_mem_writeCorners {radii : List (Text × Text)} {c : Char} (hspace : c ≠ ' ')
    (hslash : c ≠ '/') (h : c ∈ writeCorners radii) : ∃ r ∈ radii, c ∈ r.1 ∨ c ∈ r.2 := by
  have hhorizontal : c ∈ Text.join [' '] (horizontals radii) → ∃ r ∈ radii, c ∈ r.1 ∨ c ∈ r.2 := by
    intro h
    obtain ⟨t, ht, hc⟩ := mem_of_mem_join_fewest hspace h
    obtain ⟨r, hr, rfl⟩ := List.mem_map.1 ht
    exact ⟨r, hr, Or.inl hc⟩
  rw [writeCorners] at h
  split at h
  · exact hhorizontal h
  · rcases List.mem_append.1 h with h | h
    · rcases List.mem_append.1 h with h | h
      · exact hhorizontal h
      · simp [hspace, hslash] at h
    · obtain ⟨t, ht, hc⟩ := mem_of_mem_join_fewest hspace h
      obtain ⟨r, hr, rfl⟩ := List.mem_map.1 ht
      exact ⟨r, hr, Or.inr hc⟩

end AtomicCss.Shorthand
