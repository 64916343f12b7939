import AtomicCss.Proofs.Shorthand.Sets
import AtomicCss.Proofs.Shorthand.Tokens
import AtomicCss.Proofs.Text.Words
set_option autoImplicit false

namespace AtomicCss.Shorthand

/-- The values on an axis that the tokens stand for. -/
def Form.fill? : Form → List Text → Option (List Text)
  | .sides, l | .corners, l => Shorthand.spread? l
  | .axes, [both] => some [both, both]
  | .axes, [x, y] => some [x, y]
  | .axes, _ | .composite, _ => none

/-- The tokens that are written for the values on an axis. -/
def fewest : List Text → List Text
  | [x, y] => if x = y then [x] else [x, y]
  | [top, right, bottom, left] => shorten top right bottom left
  | values => values

def Form.axis? (form : Form) (value : Text) : Option (List Text) := (tokens? value).bind form.fill?

theorem box?_eq_axis? (value : Text) : box? value = Form.corners.axis? value := rfl

theorem axis?_of_box? {value : Text} {l : List Text} (h : box? value = some l) :
    Form.corners.axis? value = some l := h

theorem axis?_eq_some {form : Form} {value : Text} {values : List Text} :
    form.axis? value = some values ↔
      ∃ l, tokens? value = some l ∧ form.fill? l = some values :=
  Option.bind_eq_some_iff

theorem exists_of_spread? {l values : List Text} (h : spread? l = some values) :
    ∃ top right bottom left, values = [top, right, bottom, left] := by
  unfold spread? at h
  split at h <;> cases h <;> exact ⟨_, _, _, _, rfl⟩

theorem shorten_ne_nil (top right bottom left : Text) : shorten top right bottom left ≠ [] := by
  unfold shorten
  split
  · simp
  split
  · simp
  split <;> simp

theorem shorten_isPrefix {l : List Text} {top right bottom left : Text}
    (h : spread? l = some [top, right, bottom, left]) : shorten top right bottom left <+: l := by
  unfold spread? at h
  split at h <;> cases h
  · simp [shorten]
  · by_cases hr : right = top <;> simp [shorten, hr]
  · by_cases hb : bottom = top <;> by_cases hr : right = top <;> simp [shorten, hb, hr]
  · unfold shorten
    split
    · simp
    split
    · simp
    split <;> simp

theorem length_of_fill? {form : Form} {l values : List Text} (h : form.fill? l = some values) :
    values.length = form.width := by
  unfold Form.fill? at h
  split at h
  · obtain ⟨_, _, _, _, rfl⟩ := exists_of_spread? h
    rfl
  · obtain ⟨_, _, _, _, rfl⟩ := exists_of_spread? h
    rfl
  all_goals cases h <;> rfl

theorem mem_of_fill? {form : Form} {l values : List Text} (h : form.fill? l = some values)
    {t : Text} : t ∈ values ↔ t ∈ l := by
  have hspread : spread? l = some values → (t ∈ values ↔ t ∈ l) := by
    intro h
    unfold spread? at h
    split at h <;> cases h <;> simp only [List.mem_cons] <;> grind
  unfold Form.fill? at h
  split at h
  · exact hspread h
  · exact hspread h
  all_goals cases h <;> simp

theorem isPrefix_of_spread? {l values : List Text} (h : spread? l = some values) :
    l <+: values := by
  unfold spread? at h
  split at h <;> cases h <;> simp

theorem width_cases {form : Form} (h : form ≠ .composite) (values : List Text)
    (hlength : values.length = form.width) :
    form = .axes ∧ (∃ x y, values = [x, y]) ∨ form.fill? = spread? ∧
      ∃ top right bottom left, values = [top, right, bottom, left] := by
  cases form with
  | axes =>
    match values, hlength with
    | [x, y], _ => exact Or.inl ⟨rfl, x, y, rfl⟩
  | composite => contradiction
  | sides | corners =>
    match values, hlength with
    | [top, right, bottom, left], _ => exact Or.inr ⟨rfl, top, right, bottom, left, rfl⟩

theorem fill?_fewest {form : Form} (h : form ≠ .composite) {values : List Text}
    (hlength : values.length = form.width) : form.fill? (fewest values) = some values := by
  rcases width_cases h values hlength with ⟨rfl, x, y, rfl⟩ | ⟨hfill, _, _, _, _, rfl⟩
  · by_cases hxy : x = y <;> simp [fewest, Form.fill?, hxy]
  · rw [hfill, fewest, spread?_shorten]

theorem eq_of_fewest_eq {form : Form} (h : form ≠ .composite) {x y : List Text}
    (hx : x.length = form.width) (hy : y.length = form.width) (heq : fewest x = fewest y) :
    x = y := by
  have hfill := fill?_fewest h hx
  rw [heq, fill?_fewest h hy] at hfill
  exact (Option.some.inj hfill).symm

theorem fewest_ne_nil {form : Form} (h : form ≠ .composite) {values : List Text}
    (hlength : values.length = form.width) : fewest values ≠ [] := by
  rcases width_cases h values hlength with ⟨rfl, x, y, rfl⟩ | ⟨_, top, right, bottom, left, rfl⟩
  · by_cases hxy : x = y <;> simp [fewest, hxy]
  · exact shorten_ne_nil top right bottom left

/-- Other tokens that stand for the same values begin with those that are written. -/
theorem fewest_isPrefix {form : Form} {l values : List Text} (h : form.fill? l = some values) :
    fewest values <+: l := by
  unfold Form.fill? at h
  split at h
  · obtain ⟨_, _, _, _, rfl⟩ := exists_of_spread? h
    exact shorten_isPrefix h
  · obtain ⟨_, _, _, _, rfl⟩ := exists_of_spread? h
    exact shorten_isPrefix h
  next both => cases h; simp [fewest]
  next x y => cases h; by_cases hxy : x = y <;> simp [fewest, hxy]
  all_goals cases h

theorem tokens?_of_mem_axis? {form : Form} {value : Text} {values : List Text}
    (h : form.axis? value = some values) {t : Text} (ht : t ∈ values) :
    t ∈ tokens value ∧ tokens? t = some [t] := by
  obtain ⟨l, hl, hfill⟩ := axis?_eq_some.1 h
  obtain ⟨rfl, _, hvar⟩ := tokens?_eq_some.1 hl
  have hmem := (mem_of_fill? hfill).1 ht
  exact ⟨hmem, tokens?_eq_self.2 ⟨(keepApart_tokens value).isToken t hmem, hvar t hmem⟩⟩

theorem mem_fewest {form : Form} (h : form ≠ .composite) {values : List Text}
    (hlength : values.length = form.width) {t : Text} : t ∈ fewest values ↔ t ∈ values :=
  (mem_of_fill? (fill?_fewest h hlength)).symm

theorem fewest_isPrefix_self (values : List Text) : fewest values <+: values := by
  unfold fewest
  split
  · split <;> simp
  · exact shorten_isPrefix rfl
  · exact List.prefix_rfl

theorem mem_of_mem_join_fewest {values : List Text} {c : Char} (hspace : c ≠ ' ')
    (h : c ∈ Text.join [' '] (fewest values)) : ∃ v ∈ values, c ∈ v := by
  rcases Text.mem_of_mem_join h with h | ⟨t, ht, hc⟩
  · exact absurd (List.mem_singleton.1 h) hspace
  · exact ⟨t, (fewest_isPrefix_self values).subset ht, hc⟩

theorem tokens?_of_axis? {form : Form} {value : Text} {values : List Text}
    (h : form.axis? value = some values) :
    ∃ extra, tokens? value = some (fewest values ++ extra) := by
  obtain ⟨l, hl, hfill⟩ := axis?_eq_some.1 h
  obtain ⟨extra, rfl⟩ := fewest_isPrefix hfill
  exact ⟨extra, hl⟩

theorem tokens?_join_of_append {value : Text} {l extra : List Text}
    (h : tokens? value = some (l ++ extra)) (hl : l ≠ []) :
    tokens? (Text.join [' '] l) = some l := by
  obtain ⟨htokens, _, hvar⟩ := tokens?_eq_some.1 h
  have hkeep := htokens ▸ keepApart_tokens value
  refine tokens?_eq_some.2 ⟨KeepApart.tokens_join ⟨fun t ht => ?_, fun t ht => ?_⟩, hl,
    fun t ht => hvar t (List.mem_append_left _ ht)⟩
  · exact hkeep.isToken t (List.mem_append_left _ ht)
  · refine hkeep.isClosed t ?_
    cases extra with
    | nil => rwa [List.append_nil]
    | cons u extra =>
      rw [List.dropLast_append_of_ne_nil (by simp)]
      exact List.mem_append_left _ (List.dropLast_subset l ht)

theorem tokens?_join_self {value : Text} {l : List Text} (h : tokens? value = some l) :
    tokens? (Text.join [' '] l) = some l := by
  have hne := (tokens?_eq_some.1 h).2.1
  rw [← List.append_nil l] at h
  exact tokens?_join_of_append h hne

theorem length_le_of_tokens? {value : Text} {l extra : List Text}
    (h : tokens? value = some (l ++ extra)) (hl : l ≠ []) :
    (Text.join [' '] l).length ≤ value.length ∧
      (extra ≠ [] → (Text.join [' '] l).length + 2 ≤ value.length) := by
  have hlength := length_join_tokens_le value
  have htokens := (tokens?_eq_some.1 h).1
  rw [htokens] at hlength
  cases extra with
  | nil =>
    rw [List.append_nil] at hlength
    exact ⟨hlength, fun hne => absurd rfl hne⟩
  | cons u extra =>
    have hu : u ≠ [] := ((htokens ▸ keepApart_tokens value).isToken u (by simp)).1
    have hroom : 1 ≤ (Text.join [' '] (u :: extra)).length := by
      have hpos := List.length_pos_iff.2 hu
      cases extra <;> simp <;> omega
    rw [Text.join_append hl (by simp), List.length_append, List.length_append,
      List.length_singleton] at hlength
    omega

/-- The written tokens of an axis stand for its values just if they are read back from the text. -/
theorem axis?_join_fewest {form : Form} (h : form ≠ .composite) {values : List Text}
    (hlength : values.length = form.width) :
    form.axis? (Text.join [' '] (fewest values)) = some values ↔
      tokens? (Text.join [' '] (fewest values)) = some (fewest values) := by
  constructor
  · intro haxis
    obtain ⟨extra, hextra⟩ := tokens?_of_axis? haxis
    cases extra with
    | nil => rwa [List.append_nil] at hextra
    | cons u extra =>
      have hroom := (length_le_of_tokens? hextra (fewest_ne_nil h hlength)).2 (by simp)
      omega
  · exact fun hread => axis?_eq_some.2 ⟨_, hread, fill?_fewest h hlength⟩

theorem Form.spread?_eq_axis? {form : Form} (h : form ≠ .corners) (value : Text) :
    form.spread? value = form.axis? value := by
  cases form with
  | sides => rfl
  | corners => contradiction
  | axes =>
    rw [spread?, axis?]
    cases tokens? value with
    | none => rfl
    | some l => rcases l with _ | ⟨_, _ | ⟨_, _ | ⟨_, _⟩⟩⟩ <;> rfl
  | composite =>
    rw [axis?]
    cases tokens? value <;> rfl

theorem Form.gather?_eq_some {form : Form} (h : form ≠ .corners) {values : List Text} {y : Text} :
    form.gather? values = some y ↔ form ≠ .composite ∧ values.length = form.width ∧
      Text.join [' '] (fewest values) = y := by
  cases form with
  | corners => contradiction
  | composite => simp [gather?]
  | sides =>
    match values with
    | [_, _, _, _] => simp [gather?, fewest, width]
    | [] | [_] | [_, _] | [_, _, _] | _ :: _ :: _ :: _ :: _ :: _ => simp [gather?, width]
  | axes =>
    match values with
    | [x, y] => by_cases hxy : x = y <;> simp [gather?, fewest, width, hxy]
    | [] | [_] | _ :: _ :: _ :: _ => simp [gather?, width]

end AtomicCss.Shorthand
