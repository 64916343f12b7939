import AtomicCss.Proofs.Shorthand.Radii
import Mathlib.Tactic.ByContra
set_option autoImplicit false

/-!
Radii that are read as they were written.

The scanners of tokens and of slashes may find the slash of a text at another place than it was
written at. Main statement: then the radii that are read are others, so only readable radii are read
as themselves. The text behind the slash is too short, or the first axis that is read ends open and
has a slash among its tokens.
-/

namespace AtomicCss.Shorthand

theorem eq_of_slash {h v a b : Text} (hh : h.length ≤ a.length) (hv : v.length ≤ b.length)
    (heq : h ++ " / ".toList ++ v = a ++ '/' :: b) : a = h ++ [' '] ∧ b = ' ' :: v := by
  have hlength := congrArg List.length heq
  rw [List.append_assoc] at heq
  rcases List.append_eq_append_iff.1 heq with ⟨w, rfl, hw⟩ | ⟨w, rfl, hw⟩
  · rcases w with _ | ⟨c, _ | ⟨d, _ | ⟨e, w⟩⟩⟩
    · simp at hw
    · obtain ⟨rfl, rfl⟩ : ' ' = c ∧ ' ' :: v = b := by simpa using hw
      exact ⟨rfl, rfl⟩
    · simp at hw
    · simp at hlength
      omega
  · rw [List.length_append] at hh
    have hnil : w = [] := List.length_eq_zero_iff.1 (by omega)
    subst hnil
    simp at hw

theorem tokens?_of_slash {radii : List (Text × Text)} (hlength : radii.length = 4) {a b : Text}
    (hvalue : writeCorners radii = a ++ '/' :: b) (ha : box? a = some (radii.map (·.1)))
    (hb : box? b = some (radii.map (·.2))) :
    tokens? a = some (horizontals radii) ∧ tokens? b = some (verticals radii) ∧
      a = Text.join [' '] (horizontals radii) ++ [' '] ∧
        b = ' ' :: Text.join [' '] (verticals radii) := by
  obtain ⟨more, hmore⟩ := tokens?_of_axis? (axis?_of_box? ha)
  obtain ⟨extra, hextra⟩ := tokens?_of_axis? (axis?_of_box? hb)
  obtain ⟨hroom, hroom'⟩ := length_le_of_tokens? hmore (fewest_map_ne_nil hlength _)
  obtain ⟨hspace, hspace'⟩ := length_le_of_tokens? hextra (fewest_map_ne_nil hlength _)
  obtain ⟨hsplit, hsplit'⟩ : a = Text.join [' '] (horizontals radii) ++ [' '] ∧
      b = ' ' :: Text.join [' '] (verticals radii) := by
    rw [writeCorners] at hvalue
    split at hvalue
    · have hshort := congrArg List.length hvalue
      simp only [List.length_append, List.length_cons] at hshort
      exact absurd hroom (by rw [horizontals] at hshort; omega)
    · exact eq_of_slash hroom hspace hvalue
  have hnil : more = [] := by
    by_contra hne
    have hlong := hroom' hne
    rw [hsplit, List.length_append, List.length_singleton, horizontals] at hlong
    omega
  have hnil' : extra = [] := by
    by_contra hne
    have hlong := hspace' hne
    rw [hsplit', List.length_cons, verticals] at hlong
    omega
  rw [hnil, List.append_nil] at hmore
  rw [hnil', List.append_nil] at hextra
  exact ⟨hmore, hextra, hsplit, hsplit'⟩

/-- The horizontal radius that is read begins with the one that was written. -/
def Begins (t u : Text) : Prop :=
  (tokenCutter.IsClosed t → u = t) ∧ ∃ z, u ++ [' '] = t ++ ' ' :: z

theorem begins_of_radii?_corner {h v : Text} (hh : tokens? h = some [h])
    (hv : tokens? v = some [v]) {r : Text × Text} (hr : radii? (corner h v) = some r) :
    Begins h r.1 := by
  by_cases hclosed : tokenCutter.IsClosed h
  · obtain rfl : (h, v) = r := Option.some.inj ((radii?_corner hh hv hclosed).symm.trans hr)
    exact ⟨fun _ => rfl, [], rfl⟩
  · refine ⟨fun hc => absurd hc hclosed, ?_⟩
    by_cases heq : h = v
    · rw [corner, if_pos heq, radii?_of_token hh] at hr
      cases hr
      exact ⟨[], rfl⟩
    · rw [corner, if_neg heq] at hr
      obtain ⟨z, l, htokens⟩ :=
        exists_tokens_append (isToken_append_of_open (tokens?_eq_self.1 hh).1 hclosed ' ') v
      rw [List.append_assoc, List.singleton_append] at htokens
      have hfirst : r.1 = h ++ [' '] ++ z := by
        rcases radii?_eq_some.1 hr with ⟨hboth, _⟩ | hpair
        · exact (List.cons.inj ((tokens?_eq_some.1 hboth).1.symm.trans htokens)).1
        · exact (List.cons.inj ((tokens?_eq_some.1 hpair).1.symm.trans htokens)).1
      exact ⟨z ++ [' '], by simp [hfirst]⟩

theorem head_of_isToken {t : Text} (h : IsToken t) : ∃ c u, t = c :: u ∧ isBlank c = false := by
  match t, h with
  | c :: u, h =>
    refine ⟨c, u, rfl, ?_⟩
    rw [Bool.eq_false_iff]
    exact fun hc => Cutter.not_isWhole_separator (k := tokenCutter) hc u h.2

/-- Where the first axis is open, what is written for it ends before a token that is a slash. -/
theorem exists_slash_of_open {a b tail : Text} {l : List Text}
    (hopen : ¬tokenCutter.IsClosed a) (htoken : ∀ t ∈ l, IsToken t) (hl : l ≠ [])
    (hbegins : ∀ (i : Nat) (t u : Text), (tokens a)[i]? = some t → l[i]? = some u → Begins t u)
    (htail : tail = [] ∨ ∃ r, tail = ' ' :: '/' :: ' ' :: r)
    (h : Text.join [' '] l ++ tail = a ++ '/' :: b) :
    ∃ rest, tokens a = l ++ ['/'] :: rest := by
  obtain ⟨u, l, rfl⟩ := List.exists_cons_of_ne_nil hl
  induction a using token_induction generalizing u l with
  | nil => exact absurd rfl hopen
  | blank c r hc ih =>
    obtain ⟨d, v, rfl, hd⟩ := head_of_isToken (htoken u List.mem_cons_self)
    have hhead : d = c := by
      cases l <;> exact (List.cons.inj h).1
    rw [hhead, hc] at hd
    cases hd
  | last t ht =>
    -- behind `t` the written text goes on with a space or ends, the other with the slash
    obtain ⟨_, z, hz⟩ := hbegins 0 t u (by simp [tokens_of_isToken ht]) rfl
    obtain ⟨w, hw⟩ : ∃ w, Text.join [' '] (u :: l) ++ tail ++ [' '] = u ++ [' '] ++ w := by
      cases l with
      | nil => rcases htail with rfl | ⟨q, rfl⟩ <;> simp
      | cons v l => simp
    rw [h, hz, List.append_assoc, List.append_assoc] at hw
    exact absurd (List.cons.inj (List.append_cancel_left hw)).1 (by decide)
  | token t c r ht hclosed hc ih =>
    rw [tokens_append ht hclosed hc] at hbegins ⊢
    obtain rfl : u = t := (hbegins 0 t u rfl rfl).1 hclosed
    have hopen' : ¬tokenCutter.IsClosed r := fun hr =>
      hopen ((hclosed.append _).2 ((Cutter.isClosed_separator hc r).2 hr))
    cases l with
    | nil =>
      rw [Text.join_singleton, List.append_assoc] at h
      have hrest : tail = c :: (r ++ '/' :: b) := List.append_cancel_left h
      rcases htail with rfl | ⟨q, rfl⟩
      · cases hrest
      · rcases r with _ | ⟨d, _ | ⟨e, r⟩⟩
        · exact absurd rfl hopen'
        · simp at hrest
        · obtain ⟨-, rfl, rfl, -⟩ : ' ' = c ∧ '/' = d ∧ ' ' = e ∧ q = r ++ '/' :: b := by
            simpa using hrest
          have hslash : tokens (['/'] ++ ' ' :: r) = ['/'] :: tokens r :=
            tokens_append (by decide) (by decide) (by decide) r
          exact ⟨tokens r, by simpa using hslash⟩
    | cons v l =>
      rw [Text.join_cons_cons, List.append_assoc, List.append_assoc, List.append_assoc] at h
      obtain ⟨-, h⟩ := List.cons.inj (List.append_cancel_left h)
      obtain ⟨rest, hrest⟩ := ih hopen' v l (fun w hw => htoken w (List.mem_cons_of_mem _ hw))
        (by simp) (fun i => hbegins (i + 1)) (by simpa using h)
      exact ⟨rest, by rw [hrest]; rfl⟩

theorem writeCorners_eq (radii : List (Text × Text)) : ∃ tail,
    writeCorners radii = Text.join [' '] (horizontals radii) ++ tail ∧
      (tail = [] ∨ ∃ r, tail = ' ' :: '/' :: ' ' :: r) := by
  rw [writeCorners]
  split
  · exact ⟨[], by simp⟩
  · exact ⟨_, List.append_assoc .., Or.inr ⟨_, rfl⟩⟩

theorem getElem?_of_isPrefix {l m : List Text} (h : l <+: m) {i : Nat} {t : Text}
    (ht : l[i]? = some t) : m[i]? = some t := by
  obtain ⟨hi, rfl⟩ := List.getElem?_eq_some_iff.1 ht
  exact List.prefix_iff_getElem?.1 h i hi

theorem head?_of_slash {values : List Text} (hlength : values.length = 4) {t : Text}
    {rest h : List Text} (hrest : rest ≠ [])
    (hspread : spread? (fewest values ++ t :: rest) = some h)
    (ht : ∀ i : Nat, h[i]? = some t → values[i]? = some t) : values.head? = some t := by
  have hstart := isPrefix_of_spread? hspread
  have hnext := ht (fewest values).length (getElem?_of_isPrefix hstart (by simp))
  have hroom : (fewest values).length + 2 ≤ 4 := by
    have hle := hstart.length_le
    have hfill : Form.corners.fill? (fewest values ++ t :: rest) = some h := hspread
    have hfour : h.length = 4 := length_of_fill? hfill
    have hpos := List.length_pos_iff.2 hrest
    simp only [List.length_append, List.length_cons] at hle
    omega
  match values, hlength with
  | [top, right, bottom, left], _ =>
    by_cases hlr : left = right
    · by_cases hb : bottom = top
      · by_cases hr : right = top <;> simp_all [fewest, shorten]
      · simp [fewest, shorten, hlr, hb] at hroom
    · simp [fewest, shorten, hlr] at hroom

theorem ne_nil_of_open {a : Text} {l rest : List Text} (hopen : ¬tokenCutter.IsClosed a)
    (h : tokens a = l ++ ['/'] :: rest) : rest ≠ [] := by
  rintro rfl
  refine hopen (isClosed_iff_tokens.2 fun t ht => ?_)
  rw [h] at ht
  rcases List.mem_append.1 ht with ht | ht
  · refine (keepApart_tokens a).isClosed t ?_
    rwa [h, List.dropLast_concat]
  · obtain rfl := List.mem_singleton.1 ht
    decide

theorem head?_ne_slash {radii : List (Text × Text)} {a b : Text} (hne : a ≠ [])
    (hvalue : writeCorners radii = a ++ '/' :: b) (hwhole : slashCutter.IsWhole a) :
    (horizontals radii).head? ≠ some ['/'] := by
  intro hhead
  obtain ⟨l, hl⟩ := List.head?_eq_some_iff.1 hhead
  obtain ⟨tail, htail, -⟩ := writeCorners_eq radii
  have hsplit : Text.join [' '] (['/'] :: l) ++ tail = a ++ '/' :: b := by
    rw [← hvalue, htail, hl]
  cases a with
  | nil => contradiction
  | cons c a =>
    have hc : c = '/' := by cases l <;> exact (List.cons.inj hsplit).1.symm
    exact Cutter.not_isWhole_separator (k := slashCutter) (c := c) (by simp [slashCutter, hc]) a
      hwhole

theorem isClosed_of_begins {radii : List (Text × Text)} (hlength : radii.length = 4)
    (htoken : ∀ r ∈ radii, IsToken r.1) {a b : Text} {h : List Text}
    (hvalue : writeCorners radii = a ++ '/' :: b) (hwhole : slashCutter.IsWhole a)
    (ha : box? a = some h) (hbegins : ∀ (i : Nat) (t u : Text), h[i]? = some t →
      (radii.map (·.1))[i]? = some u → Begins t u) : tokenCutter.IsClosed a := by
  refine Decidable.byContradiction fun hopen => ?_
  obtain ⟨tail, htail, htail'⟩ := writeCorners_eq radii
  obtain ⟨l, hl, hspread⟩ := Option.bind_eq_some_iff.1 ha
  obtain ⟨rfl, -, -⟩ := tokens?_eq_some.1 hl
  have hlength' : (radii.map (·.1)).length = 4 := by rw [List.length_map, hlength]
  have hstart : horizontals radii <+: radii.map (·.1) := fewest_isPrefix_self _
  have hne : horizontals radii ≠ [] := fewest_map_ne_nil hlength _
  have hwritten : ∀ t ∈ horizontals radii, IsToken t := by
    intro t ht
    obtain ⟨r, hr, rfl⟩ := List.mem_map.1 (hstart.subset ht)
    exact htoken r hr
  obtain ⟨rest, hrest⟩ := exists_slash_of_open hopen hwritten hne
    (fun i t u ht hu => hbegins i t u (getElem?_of_isPrefix (isPrefix_of_spread? hspread) ht)
      (getElem?_of_isPrefix hstart hu)) htail' (htail.symm.trans hvalue)
  have hhead := head?_of_slash hlength' (ne_nil_of_open hopen hrest) (hrest ▸ hspread)
      fun i hi => by
    have hlt : i < (radii.map (·.1)).length := by
      rw [hlength', ← length_of_box? ha]
      exact (List.getElem?_eq_some_iff.1 hi).1
    have hget := List.getElem?_eq_getElem hlt
    rw [hget, (hbegins i _ _ hi hget).1 (by decide)]
  refine head?_ne_slash (fun hnil => hopen (by rw [hnil]; rfl)) hvalue hwhole ?_
  obtain ⟨t, l, hl⟩ := List.exists_cons_of_ne_nil hne
  have hfirst := getElem?_of_isPrefix hstart (i := 0) (t := t) (by rw [hl]; rfl)
  rw [← List.head?_eq_getElem?, hhead] at hfirst
  rw [hl, List.head?_cons, hfirst]

section Reading

variable {radii : List (Text × Text)} (hlength : radii.length = 4)
include hlength

theorem readable_of_one_axis {l : List Text} (hwhole : slashCutter.IsWhole (writeCorners radii))
    (hl : box? (writeCorners radii) = some l)
    (hsame : l.map (fun t => radii? (corner t t)) = radii.map some) : Readable radii := by
  obtain rfl : l.map (fun t => (t, t)) = radii := by
    refine (List.map_inj_right fun _ _ => Option.some.inj).1 (hsame ▸ ?_)
    rw [List.map_map]
    refine List.map_congr_left fun t ht => ?_
    have htoken := (tokens?_of_mem_axis? (axis?_of_box? hl) ht).2
    simp [corner_self, radii?_of_token htoken]
  have heq := (horizontals_same l).trans (verticals_same l).symm
  rw [writeCorners, if_pos (congrArg _ heq)] at hwhole hl
  have hlegible := (box?_fewest_map hlength (·.1)).1 (by
    simpa [Function.comp_def, horizontals_same] using hl)
  exact ⟨hlegible, heq ▸ hlegible, hwhole, heq ▸ hwhole, fun hne => absurd heq hne⟩

theorem readable_of_two_axes {a b : Text} {h v : List Text}
    (htoken : ∀ r ∈ radii, IsToken r.1) (hvalue : writeCorners radii = a ++ '/' :: b)
    (hwhole : slashCutter.IsWhole a) (hclosed : slashCutter.IsClosed a)
    (hwhole' : slashCutter.IsWhole b) (ha : box? a = some h) (hb : box? b = some v)
    (hsame : (h.zip v).map (fun r => radii? (corner r.1 r.2)) = radii.map some) :
    Readable radii := by
  have hh := fun t => tokens?_of_mem_axis? (t := t) (axis?_of_box? ha)
  have hv := fun t => tokens?_of_mem_axis? (t := t) (axis?_of_box? hb)
  have hstop : tokenCutter.IsClosed a := by
    refine isClosed_of_begins hlength htoken hvalue hwhole ha fun i t u ht hu => ?_
    rw [List.getElem?_map, Option.map_eq_some_iff] at hu
    obtain ⟨r, hr, rfl⟩ := hu
    have hget := congrArg (·[i]?) hsame
    simp only [List.getElem?_map, hr, Option.map_some, Option.map_eq_some_iff,
      List.getElem?_zip_eq_some] at hget
    obtain ⟨p, ⟨hp, hp'⟩, hcorner⟩ := hget
    rw [ht, Option.some.injEq] at hp
    subst hp
    exact begins_of_radii?_corner (hh p.1 (List.mem_of_getElem? ht)).2
      (hv p.2 (List.mem_of_getElem? hp')).2 hcorner
  obtain rfl : h.zip v = radii := by
    refine (List.map_inj_right fun _ _ => Option.some.inj).1
      (hsame ▸ List.map_congr_left fun r hr => ?_)
    obtain ⟨hmem, hmem'⟩ := List.of_mem_zip hr
    obtain ⟨htoken, hread⟩ := hh r.1 hmem
    exact (radii?_corner hread (hv r.2 hmem').2 (isClosed_iff_tokens.1 hstop _ htoken)).symm
  have hfour := (length_of_box? ha).trans (length_of_box? hb).symm
  obtain ⟨htokens, htokens', rfl, rfl⟩ := tokens?_of_slash hlength hvalue
    (by rw [List.map_fst_zip (Nat.le_of_eq hfour)]; exact ha)
    (by rw [List.map_snd_zip (Nat.le_of_eq hfour.symm)]; exact hb)
  constructor
  · exact (legible_iff (fewest_map_ne_nil hlength _)).2 (tokens?_join_self htokens)
  · exact (legible_iff (fewest_map_ne_nil hlength _)).2 (tokens?_join_self htokens')
  · exact Cutter.isWhole_of_append hwhole
  · exact ((closed_space.isWhole_append _).1 hwhole').2
  · intro _
    rw [isClosed_append_space] at hclosed
    rw [isClosed_iff_tokens, (tokens?_eq_some.1 htokens).1] at hstop
    exact ⟨hclosed, hstop⟩

theorem readable_of_corners? {read : List (Text × Text)} (htoken : ∀ r ∈ radii, IsToken r.1)
    (hread : corners? (writeCorners radii) = some read)
    (hsame : read.map (fun r => radii? (corner r.1 r.2)) = radii.map some) : Readable radii := by
  rcases corners?_eq_some.1 hread with
    ⟨hwhole, l, hl, rfl⟩ | ⟨a, b, h, v, hvalue, hwhole, hclosed, hwhole', ha, hb, rfl⟩
  · rw [List.map_map] at hsame
    exact readable_of_one_axis hlength hwhole hl hsame
  · exact readable_of_two_axes hlength htoken hvalue hwhole hclosed hwhole' ha hb hsame

end Reading

end AtomicCss.Shorthand
