import AtomicCss.Proofs.Style.Faithful
import AtomicCss.Proofs.Text.Words
set_option autoImplicit false

namespace AtomicCss

/-- What can stand before the colon of a declaration. -/
structure IsName (t : Text) : Prop where
  ne_nil : t ≠ []
  trim : Text.trim t = t
  colon : ':' ∉ t
  atHeader : isAtHeader t = false

/-- A name in the case that the parser puts it in. -/
structure IsProperty (t : Text) : Prop extends IsName t where
  name : propertyName t = t

instance IsProperty.decidable (t : Text) : Decidable (IsProperty t) :=
  decidable_of_iff (t ≠ [] ∧ Text.trim t = t ∧ ':' ∉ t ∧ isAtHeader t = false ∧ propertyName t = t)
    ⟨fun ⟨hne, htrim, hcolon, hat, hname⟩ => ⟨⟨hne, htrim, hcolon, hat⟩, hname⟩,
      fun h => ⟨h.ne_nil, h.trim, h.colon, h.atHeader, h.name⟩⟩

/-- A header as it is stored. -/
structure IsHeader (t : Text) : Prop where
  atHeader : isAtHeader t = true
  normalize : Header.normalize t = t

theorem IsHeader.trim {t : Text} (h : IsHeader t) : Text.trim t = t := by
  rw [← h.normalize]
  exact Header.trim_normalize t

theorem isAtHeader_ne_nil {t : Text} (h : isAtHeader t = true) : t ≠ [] := by
  rintro rfl
  cases h

theorem IsProperty.trim_declaration {p : Text} (h : IsProperty p) (v : Text) :
    Text.trim (p ++ ':' :: v) = p ++ ':' :: Text.trimEnd v := by
  have hcolon : isBlank ':' = false := by decide
  have hstart : Text.trimStart (p ++ ':' :: v) = p ++ ':' :: v := by
    have hhead := (Text.trim_eq_self.1 h.trim).1
    cases hp : p with
    | nil => exact absurd hp h.ne_nil
    | cons c r =>
      rw [hp] at hhead
      exact List.dropWhile_cons_of_neg (by simpa using hhead)
  rw [Text.trim, hstart, Text.trimEnd_append_cons hcolon]

theorem IsProperty.ofStatement {p : Text} (h : IsProperty p) (v : Text) :
    Node.ofStatement (Text.trim (p ++ ':' :: v)) = .ok (.declaration p (Text.trim v)) := by
  have hne : ∀ c ∈ p, (c != ':') = true := by
    intro c hc
    simp only [bne_iff_ne, ne_eq]
    rintro rfl
    exact h.colon hc
  have hat : isAtHeader (p ++ ':' :: Text.trimEnd v) = false := by
    have hp := h.atHeader
    cases p with
    | nil => exact absurd rfl h.ne_nil
    | cons c r => exact hp
  rw [h.trim_declaration, Node.ofStatement, hat, if_neg (by simp),
    List.dropWhile_append_of_pos hne, List.takeWhile_append_of_pos hne,
    List.dropWhile_cons_of_neg (by simp), List.takeWhile_cons_of_neg (by simp)]
  simp [h.trim, h.ne_nil, Text.trim_trimEnd]

theorem Text.toLower_eq_iff {c d : Char} (hd : d.toNat < 65) : c.toLower = d ↔ c = d := by
  have hlower : d.toLower = d := by
    rcases toNat_toLower d with h | ⟨h, _⟩
    · exact h
    · omega
  constructor
  · rintro rfl
    rcases toNat_toLower c with h | ⟨h₁, _, h⟩
    · exact h.symm
    · omega
  · rintro rfl
    exact hlower

theorem Text.trim_lower {t : Text} (h : trim t = t) : trim t.lower = t.lower := by
  obtain ⟨hhead, hlast⟩ := trim_eq_self.1 h
  have hblank : (fun c : Char => isBlank c.toLower) = isBlank := funext isBlank_toLower
  refine trim_eq_self.2 ⟨?_, ?_⟩
  · rw [lower, List.head?_map, Option.any_map, hblank]
    exact hhead
  · rw [lower, List.getLast?_map, Option.any_map, hblank]
    exact hlast

theorem IsName.lower {t : Text} (h : IsName t) : IsName t.lower where
  ne_nil hnil := h.ne_nil (List.map_eq_nil_iff.1 hnil)
  trim := Text.trim_lower h.trim
  colon hmem := by
    obtain ⟨c, hc, hcolon⟩ := List.mem_map.1 hmem
    rw [Text.toLower_eq_iff (by decide)] at hcolon
    exact h.colon (hcolon ▸ hc)
  atHeader := by
    have hat := h.atHeader
    cases t with
    | nil => rfl
    | cons c r =>
      have hlower := Text.toLower_eq_iff (c := c) (d := '@') (by decide)
      simpa [isAtHeader, hlower] using hat

theorem IsName.isProperty {t : Text} (h : IsName t) : IsProperty (propertyName t) := by
  unfold propertyName
  split
  next hcustom => exact ⟨h, if_pos hcustom⟩
  next =>
    refine ⟨h.lower, ?_⟩
    unfold propertyName
    split
    · rfl
    · exact Text.lower_lower t

theorem Text.head?_trim {t : Text} (h : t.head?.any isBlank = false) (hne : t ≠ []) :
    (trim t).head? = t.head? := by
  cases t with
  | nil => contradiction
  | cons c r =>
    have hc : isBlank c = false := h
    have hstart : trimStart (c :: r) = [] ++ c :: r :=
      List.dropWhile_cons_of_neg (by simp [hc])
    rw [trim, hstart, trimEnd_append_cons hc]
    rfl

theorem isName_of_takeWhile {t : Text} (ht : Text.trim t = t) (hat : isAtHeader t = false)
    (hne : Text.trim (t.takeWhile (· != ':')) ≠ []) :
    IsName (Text.trim (t.takeWhile (· != ':'))) := by
  refine ⟨hne, Text.trim_trim _, fun hmem => ?_, ?_⟩
  · have hsub : (Text.trim (t.takeWhile (· != ':'))).Sublist (t.takeWhile (· != ':')) := by
      rw [Text.trim]
      exact (Text.trimEnd_prefix _).sublist.trans (List.dropWhile_suffix _).sublist
    have hcolon := List.all_eq_true.1 List.all_takeWhile _ (hsub.subset hmem)
    simp at hcolon
  · have hhead := (Text.trim_eq_self.1 ht).1
    cases t with
    | nil => exact absurd rfl hne
    | cons c r =>
      by_cases hc : c = ':'
      · have hnil : (c :: r).takeWhile (· != ':') = [] := List.takeWhile_cons_of_neg (by simp [hc])
        rw [hnil] at hne
        exact absurd rfl hne
      · have hcons : (c :: r).takeWhile (· != ':') = c :: r.takeWhile (· != ':') :=
          List.takeWhile_cons_of_pos (by simpa using hc)
        rw [isAtHeader, hcons,
          Text.head?_trim (t := c :: r.takeWhile (· != ':')) hhead (by simp)]
        exact hat

theorem isHeader_normalize {t : Text} (h : isAtHeader t = true) :
    IsHeader (Header.normalize t) where
  atHeader := by
    cases t with
    | nil => cases h
    | cons c r =>
      have hc : c = '@' := by simpa [isAtHeader] using h
      subst hc
      have hblank : isBlank '@' = false := by decide
      obtain ⟨w, l, hw⟩ := Text.wordsFrom_cons (List.cons_ne_nil '@' []) r
      rw [Header.normalize, Text.words, Text.wordsBy, Text.wordsFrom, if_neg (by simp [hblank]), hw]
      cases l <;> rfl
  normalize := Header.normalize_normalize t

/-- A mark whose property, if it has one, has `q`, and whose header is as it is stored. -/
def Mark.Spelled (q : Text → Prop) : Mark → Prop
  | .leaf (.declaration property _) => q property
  | .opening true head => IsHeader head
  | .leaf _ | .opening false _ | .closing => True

theorem Mark.Spelled.rename {m : Mark} (h : m.Spelled IsName) :
    (m.rename propertyName).Spelled IsProperty := by
  match m with
  | .leaf (.declaration property value) => exact IsName.isProperty h
  | .leaf (.statement _) | .leaf (.rule _ _) | .leaf (.atRule _ _) => trivial
  | .opening true head => exact h
  | .opening false _ | .closing => trivial

theorem spelled_ofHead (t : Text) : (Mark.ofHead t).Spelled IsName := by
  unfold Mark.ofHead
  split
  next hat => exact isHeader_normalize hat
  next => trivial

theorem spelled_ofStatement {t : Text} {n : Node} (ht : Text.trim t = t)
    (h : Node.ofStatement t = .ok n) : (Mark.leaf n).Spelled IsName := by
  unfold Node.ofStatement at h
  split at h
  · cases h
    trivial
  next hat =>
    split at h
    · cases h
    · dsimp only at h
      split at h
      · cases h
      next hne =>
        cases h
        exact isName_of_takeWhile ht (by simpa using hat) (by simpa using hne)

theorem Leaves.spelled {t : Text} {c : Char} {ms : List Mark} (h : Leaves t c ms)
    (ht : Text.trim t = t) : ∀ m ∈ ms, m.Spelled IsName := by
  cases h with
  | head _ =>
    intro m hm
    rw [List.mem_singleton.1 hm]
    exact spelled_ofHead t
  | nothing => exact fun m hm => absurd hm List.not_mem_nil
  | statement _ hn =>
    intro m hm
    rw [List.mem_singleton.1 hm]
    exact spelled_ofStatement ht hn
  | close =>
    intro m hm
    rw [List.mem_singleton.1 hm]
    trivial
  | last _ hn =>
    intro m hm
    rcases List.mem_cons.1 hm with rfl | hm
    · exact spelled_ofStatement ht hn
    · rw [List.mem_singleton.1 hm]
      trivial

namespace Reader

theorem spelled_readAll {r s : Reader} {t : Text} (h : r.readAll t = .ok s)
    (hr : ∀ m ∈ r.marks, m.Spelled IsName) : ∀ m ∈ s.marks, m.Spelled IsName := by
  induction t generalizing r with
  | nil =>
    cases h
    exact hr
  | cons c t ih =>
    obtain ⟨u, hu, h⟩ := readAll_cons_ok h
    obtain ⟨ms, hmarks, hms, _⟩ := step_marks hu
    refine ih h fun m hm => ?_
    rw [hmarks] at hm
    rcases List.mem_append.1 hm with hm | hm
    · exact hr m hm
    · rcases hms with rfl | hleaves
      · cases hm
      · exact hleaves.spelled (Text.trim_trim _) m hm

end Reader

theorem spelled_of_parse {t : Text} {nodes : List Node} (h : parse t = .ok nodes) :
    ∀ m ∈ Node.marksAll nodes, m.Spelled IsProperty := by
  obtain ⟨written, hwritten, rfl⟩ := map_ok h
  obtain ⟨s, hs, hfinish⟩ := bind_ok hwritten
  have hread := Reader.spelled_readAll hs (by simp [Reader.initial, Reader.marks, Node.marksAll])
  have hall : ∀ m ∈ Node.marksAll written, m.Spelled IsName := by
    rcases Reader.finish_ok hfinish with ⟨_, hmarks⟩ | ⟨n, hn, hmarks⟩
    · rwa [hmarks]
    · rw [hmarks]
      intro m hm
      rcases List.mem_append.1 hm with hm | hm
      · exact hread m hm
      · rw [List.mem_singleton.1 hm]
        exact spelled_ofStatement (Text.trim_trim _) hn
  rw [Node.marksAll_renameProperties]
  intro m hm
  obtain ⟨k, hk, rfl⟩ := List.mem_map.1 hm
  exact (hall k hk).rename

end AtomicCss
