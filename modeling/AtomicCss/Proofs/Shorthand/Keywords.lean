import AtomicCss.Proofs.Shorthand.Groups
import AtomicCss.Proofs.Shorthand.Radii
set_option autoImplicit false

namespace AtomicCss.Shorthand

/-- One of the CSS-wide keywords, in any case. -/
def IsKeyword (t : Text) : Prop := t.lower ∈ wideKeywords

instance (t : Text) : Decidable (IsKeyword t) := inferInstanceAs (Decidable (_ ∈ _))

/-- The characters that the scanners of values take notice of outside strings. -/
def isMark (c : Char) : Bool := isBlank c || isQuote c || c = '(' || c = ')'

theorem toLower_of_isMark {c : Char} (h : isMark c = true) : c.toLower = c := by
  refine (Text.toNat_toLower c).resolve_right ?_
  rintro ⟨hlow, hhigh, _⟩
  simp only [isMark, Bool.or_eq_true, decide_eq_true_eq] at h
  rcases h with ((hblank | hquote) | rfl) | rfl
  · simp only [isBlank, Bool.or_eq_true, Bool.and_eq_true, decide_eq_true_eq] at hblank
    omega
  · rcases (by simpa [isQuote] using hquote : c = '"' ∨ c = '\'') with rfl | rfl <;>
      exact absurd hlow (by decide)
  · exact absurd hlow (by decide)
  · exact absurd hlow (by decide)

theorem IsKeyword.plain {t : Text} (h : IsKeyword t) : ∀ c ∈ t, isMark c = false := by
  have hall : wideKeywords.all (·.all fun c => !isMark c) := by decide +kernel
  intro c hc
  rw [Bool.eq_false_iff]
  intro hmark
  have hlower : c ∈ t.lower := toLower_of_isMark hmark ▸ List.mem_map_of_mem hc
  have hplain := List.all_eq_true.1 (List.all_eq_true.1 hall _ h) c hlower
  rw [hmark] at hplain
  cases hplain

theorem IsKeyword.ne_nil {t : Text} (h : IsKeyword t) : t ≠ [] := by
  have hall : ([] : Text) ∉ wideKeywords := by decide +kernel
  rintro rfl
  exact hall h

theorem isToken_of_plain {t : Text} (hne : t ≠ []) (h : ∀ c ∈ t, isMark c = false) :
    IsToken t ∧ tokenCutter.IsClosed t := by
  have hstep : ∀ c, isMark c = false → tokenCutter.next tokenCutter.rest c = tokenCutter.rest ∧
      tokenCutter.separates c = false := by
    intro c hc
    simp only [isMark, Bool.or_eq_false_iff, decide_eq_false_iff_not] at hc
    obtain ⟨⟨⟨hblank, hquote⟩, hopen⟩, hclose⟩ := hc
    exact ⟨by simp [tokenCutter, Quoting.next, hquote, nesting_of_ne hopen hclose], hblank⟩
  have hall : tokenCutter.IsWhole t ∧ tokenCutter.IsClosed t := by
    clear hne
    induction t with
    | nil => exact ⟨rfl, rfl⟩
    | cons c t ih =>
      obtain ⟨hnext, hstay⟩ := hstep c (h c List.mem_cons_self)
      obtain ⟨hwhole, hclosed⟩ := ih fun d hd => h d (List.mem_cons_of_mem _ hd)
      refine ⟨?_, ?_⟩
      · rw [Cutter.IsWhole, Cutter.passes_cons, hstay, hnext, Bool.and_false]
        exact hwhole
      · rw [Cutter.IsClosed, Cutter.after_cons, hnext]
        exact hclosed
  exact ⟨⟨hne, hall.1⟩, hall.2⟩

theorem IsKeyword.isToken {t : Text} (h : IsKeyword t) : IsToken t ∧ tokenCutter.IsClosed t :=
  isToken_of_plain h.ne_nil h.plain

theorem IsKeyword.trim_eq {t : Text} (h : IsKeyword t) : Text.trim t = t := by
  have hblank : ∀ c ∈ t, isBlank c = false := fun c hc => by
    have hplain := h.plain c hc
    simp only [isMark, Bool.or_eq_false_iff] at hplain
    exact hplain.1.1.1
  rw [Text.trim_eq_self]
  constructor
  · cases hhead : t.head? with
    | none => rfl
    | some c => exact hblank c (List.mem_of_head? hhead)
  · cases hlast : t.getLast? with
    | none => rfl
    | some c => exact hblank c (List.mem_of_getLast? hlast)

theorem tokens_of_blank {t : Text} (h : ∀ c ∈ t, isBlank c = true) : tokens t = [] := by
  induction t with
  | nil => rfl
  | cons c t ih =>
    rw [tokens_blank (h c List.mem_cons_self)]
    exact ih fun d hd => h d (List.mem_cons_of_mem _ hd)

theorem tokens_blank_append {s : Text} (h : ∀ c ∈ s, isBlank c = true) (t : Text) :
    tokens (s ++ t) = tokens t := by
  induction s with
  | nil => rfl
  | cons c s ih =>
    rw [List.cons_append, tokens_blank (h c List.mem_cons_self)]
    exact ih fun d hd => h d (List.mem_cons_of_mem _ hd)

theorem IsKeyword.tokens_eq {value : Text} (h : IsKeyword (Text.trim value)) :
    tokens value = [Text.trim value] := by
  obtain ⟨u, v, hu, hv, hvalue⟩ := Text.exists_append_trim value
  obtain ⟨htoken, hclosed⟩ := h.isToken
  conv => lhs; rw [hvalue]
  rw [tokens_blank_append hu]
  cases v with
  | nil => rw [List.append_nil, tokens_of_isToken htoken]
  | cons c v =>
    rw [tokens_append htoken hclosed (hv c List.mem_cons_self),
      tokens_of_blank fun d hd => hv d (List.mem_cons_of_mem _ hd)]

/-- Two values say different things, and one of them is a keyword. -/
def MixesKeyword (values : List Text) : Prop :=
  ∃ v ∈ values, IsKeyword v ∧ ∃ w ∈ values, w.lower ≠ v.lower

instance (values : List Text) : Decidable (MixesKeyword values) :=
  inferInstanceAs (Decidable (∃ v ∈ values, _ ∧ ∃ w ∈ values, _))

/-- Only blanks could keep the value from being the keyword that it is when trimmed. -/
def IsTight (value : Text) : Prop := IsKeyword (Text.trim value) → Text.trim value = value

theorem isTight_of_tokens {value : Text} (h : tokens value = [value]) : IsTight value :=
  fun hkey => by
    rw [hkey.tokens_eq] at h
    exact (List.cons.inj h).1

theorem isTight_of_two_tokens {value t u : Text} (h : tokens value = [t, u]) : IsTight value :=
  fun hkey => by
    rw [hkey.tokens_eq] at h
    cases h

theorem isWideKeyword_iff {value : Text} :
    isWideKeyword value = true ↔ IsKeyword (Text.trim value) := by
  have hall : ∀ k ∈ wideKeywords, k.lower = k := by decide +kernel
  rw [isWideKeyword, List.any_eq_true, IsKeyword]
  constructor
  · rintro ⟨k, hk, h⟩
    rw [Text.sameLetters, beq_iff_eq, hall k hk] at h
    exact h ▸ hk
  · intro h
    exact ⟨_, h, by simp [Text.sameLetters]⟩

theorem mixesWideKeywords_iff {values : List Text} (h : ∀ v ∈ values, IsTight v) :
    mixesWideKeywords values = true ↔ MixesKeyword values := by
  have hkey : ∀ v ∈ values, isWideKeyword v = true ↔ IsKeyword v := by
    intro v hv
    rw [isWideKeyword_iff]
    exact ⟨fun hk => h v hv hk ▸ hk, fun hk => hk.trim_eq.symm ▸ hk⟩
  have hlower : ∀ k, IsKeyword k → ∀ v ∈ values,
      (Text.trim v).lower = k.lower ↔ v.lower = k.lower := by
    intro k hk v hv
    constructor
    · intro heq
      have htrim : IsKeyword (Text.trim v) := by rwa [IsKeyword, heq]
      rwa [h v hv htrim] at heq
    · intro heq
      have hv : IsKeyword v := by rwa [IsKeyword, heq]
      rwa [hv.trim_eq]
  cases values with
  | nil => simp [mixesWideKeywords, MixesKeyword]
  | cons u values =>
    rw [mixesWideKeywords, Bool.and_eq_true, Bool.not_eq_true', List.any_eq_true,
      List.all_eq_false]
    simp only [Text.sameLetters, beq_iff_eq]
    constructor
    · rintro ⟨⟨v, hv, hwide⟩, w, hw, hne⟩
      have hk := (hkey v hv).1 hwide
      refine ⟨v, hv, hk, ?_⟩
      by_cases hu : u.lower = v.lower
      · refine ⟨w, hw, fun heq => hne ?_⟩
        rw [(hlower v hk w hw).2 heq, (hlower v hk u List.mem_cons_self).2 hu]
      · exact ⟨u, List.mem_cons_self, hu⟩
    · rintro ⟨v, hv, hk, w, hw, hne⟩
      refine ⟨⟨v, hv, (hkey v hv).2 hk⟩, ?_⟩
      by_cases hu : (Text.trim v).lower = (Text.trim u).lower
      · refine ⟨w, hw, fun heq => hne ?_⟩
        rw [← hlower v hk w hw, heq, ← hu, hk.trim_eq]
      · exact ⟨v, hv, hu⟩

section Exposed

theorem quoting_after (s : Quoting × Nat) (t : Text) :
    (tokenCutter.after s t).1 = s.1.after t := by
  induction t generalizing s with
  | nil => rfl
  | cons c t ih => exact ih _

theorem passes_deeper {t : Text} {q : Quoting} {depth deeper : Nat}
    (h : tokenCutter.passes (q, depth) t = true) (hle : depth ≤ deeper) :
    tokenCutter.passes (q, deeper) t = true := by
  induction t generalizing q depth deeper with
  | nil => rfl
  | cons c t ih =>
    rw [Cutter.passes_cons, Bool.and_eq_true, Bool.not_eq_true'] at h ⊢
    refine ⟨?_, ih h.2 ?_⟩
    · have hstay := h.1
      simp only [tokenCutter, Bool.and_eq_false_iff, decide_eq_false_iff_not, Prod.mk.injEq,
        not_and] at hstay ⊢
      exact hstay.imp_left fun hne hq hzero => hne hq (by omega)
    · dsimp only
      split
      · unfold nesting
        split
        · omega
        split <;> omega
      · exact hle

theorem eq_of_mem_finishToken {read t : Text} (h : t ∈ finishToken read) : t = read.reverse := by
  unfold finishToken at h
  split at h
  · cases h
  · exact List.mem_singleton.1 h

/-- Where strings are closed, tokens with spaces between can only grow together: each token of the
text is one of them or has a blank in it. -/
theorem mem_tokensFrom_join {l : List Text} (htoken : ∀ t ∈ l, IsToken t)
    (hstrings : ∀ t ∈ l, Quoting.bare.after t = .bare) {depth : Nat} {read : Text}
    (hread : depth = 0 ∧ read = [] ∨ ∃ c ∈ read, isBlank c = true) {t : Text}
    (ht : t ∈ tokensFrom .bare depth read (Text.join [' '] l)) :
    t ∈ l ∨ ∃ c ∈ t, isBlank c = true := by
  induction l generalizing depth read with
  | nil =>
    rcases hread with ⟨rfl, rfl⟩ | ⟨c, hc, hblank⟩
    · cases ht
    · exact Or.inr ⟨c, eq_of_mem_finishToken ht ▸ List.mem_reverse.2 hc, hblank⟩
  | cons u l ih =>
    have hpass := passes_deeper (htoken u List.mem_cons_self).2 (Nat.zero_le depth)
    have hquoting := (quoting_after (.bare, depth) u).trans (hstrings u List.mem_cons_self)
    -- the token that ends with `u` is `u`, or it began earlier
    have hword : t ∈ finishToken (u.reverse ++ read) → t ∈ u :: l ∨ ∃ c ∈ t, isBlank c = true := by
      intro ht
      rw [eq_of_mem_finishToken ht]
      rcases hread with ⟨_, rfl⟩ | ⟨c, hc, hblank⟩
      · exact Or.inl (by simp)
      · exact Or.inr ⟨c, by simp [hc], hblank⟩
    have hstep := fun r => tokensFrom_append (s := (.bare, depth)) hpass read r
    rw [hquoting] at hstep
    cases l with
    | nil =>
      have hend := hstep []
      rw [List.append_nil] at hend
      rw [Text.join_singleton, hend] at ht
      exact hword ht
    | cons v l =>
      have hrest := fun w hw => htoken w (List.mem_cons_of_mem u hw)
      have hclosed := fun w hw => hstrings w (List.mem_cons_of_mem u hw)
      have hspace : isBlank ' ' = true := by decide
      have hbare : Quoting.bare.next ' ' = .bare := by decide
      rw [Text.join_cons_cons, List.append_assoc, List.singleton_append, hstep, tokensFrom,
        if_pos rfl, hbare] at ht
      split at ht
      · rcases List.mem_append.1 ht with ht | ht
        · exact hword ht
        · exact (ih hrest hclosed (Or.inl ⟨rfl, rfl⟩) ht).imp_left (List.mem_cons_of_mem u)
      · exact (ih hrest hclosed (Or.inr ⟨' ', List.mem_cons_self, hspace⟩) ht).imp_left
          (List.mem_cons_of_mem u)

theorem mem_of_isKeyword {l : List Text} (hsingle : ∀ t ∈ l, tokens t = [t])
    (hstrings : ∀ t ∈ l, Quoting.bare.after t = .bare) {t : Text}
    (ht : t ∈ tokens (Text.join [' '] l)) (hkey : IsKeyword t) : t ∈ l := by
  have htoken : ∀ u ∈ l, IsToken u := fun u hu =>
    (keepApart_tokens u).isToken u (by rw [hsingle u hu]; exact List.mem_singleton_self u)
  refine (mem_tokensFrom_join htoken hstrings (Or.inl ⟨rfl, rfl⟩) ht).resolve_right ?_
  rintro ⟨c, hc, hblank⟩
  have hplain := hkey.plain c hc
  rw [isMark, hblank] at hplain
  cases hplain

end Exposed

theorem eq_join_of_gather? {form : Form} {values : List Text} {y : Text}
    (h : form.gather? values = some y) (hsingle : ∀ x ∈ values, tokens x = [x]) :
    y = Text.join [' '] (fewest values) := by
  by_cases hcorners : form = .corners
  · subst hcorners
    obtain ⟨radii, hlength, hradii, rfl⟩ := exists_radii_of_gather? h
    obtain rfl : values.map (fun x => (x, x)) = radii := by
      refine (List.map_inj_right fun _ _ => Option.some.inj).1 (hradii ▸ ?_)
      rw [List.map_map]
      refine List.map_congr_left fun x hx => ?_
      obtain ⟨r, _, hr⟩ := List.mem_map.1 (hradii ▸ List.mem_map_of_mem (f := radii?) hx)
      have hmem := mem_tokens_of_radii? hr.symm
      simp only [hsingle x hx, List.mem_singleton] at hmem
      exact (congrArg some (Prod.ext hmem.1 hmem.2)).symm.trans hr
    rw [writeCorners, horizontals_same, verticals_same, if_pos rfl]
  · exact ((Form.gather?_eq_some hcorners).1 h).2.2.symm

section Written

variable {form : Form} (hform : form ≠ .composite) {values : List Text}
  (hlength : values.length = form.width)
include hform hlength

theorem fewest_of_forall_eq {t : Text} (hall : ∀ x ∈ values, x = t) : fewest values = [t] := by
  rcases width_cases hform values hlength with ⟨-, x, y, rfl⟩ | ⟨-, a, b, c, d, rfl⟩
  · simp_all [fewest]
  · simp_all [fewest, shorten]

theorem fewest_of_isKeyword (h : IsKeyword (Text.join [' '] (fewest values))) :
    fewest values = [Text.join [' '] (fewest values)] := by
  have hne := fewest_ne_nil hform hlength
  cases hfewest : fewest values with
  | nil => contradiction
  | cons t l =>
    cases l with
    | nil => rw [Text.join_singleton]
    | cons u l =>
      rw [hfewest] at h
      exact absurd (h.plain ' ' (by simp)) (by decide)

theorem mem_tokens_of_forall_isKeyword (hall : ∀ x ∈ values, IsKeyword x) {x : Text}
    (hx : x ∈ values) : x ∈ tokens (Text.join [' '] (fewest values)) := by
  have hkey : ∀ t ∈ fewest values, IsKeyword t := fun t ht =>
    hall t ((mem_fewest hform hlength).1 ht)
  have hkeep : KeepApart (fewest values) :=
    ⟨fun t ht => (hkey t ht).isToken.1, fun t ht => (hkey t (List.dropLast_subset _ ht)).isToken.2⟩
  rw [hkeep.tokens_join]
  exact (mem_fewest hform hlength).2 hx

end Written

/-- A keyword in a value that is written for single tokens stands alone just if the group spells it
in one way, and no keyword comes to light that was in a string; where strings are closed, none can.
-/
theorem keyword_alone_iff {e : Entry} (he : e ∈ expandable) {m : Declarations} {y : Text}
    (h : e.Writes m y) (hsingle : ∀ x ∈ e.values m, tokens x = [x]) :
    ((∀ t ∈ tokens y, IsKeyword t → t = y) ↔
      (∀ x ∈ e.values m, IsKeyword x → ∀ w ∈ e.values m, w = x) ∧
        ∀ t ∈ tokens y, IsKeyword t → t ∈ e.values m) ∧
      ((∀ x ∈ e.values m, Quoting.bare.after x = .bare) →
        ∀ t ∈ tokens y, IsKeyword t → t ∈ e.values m) := by
  obtain ⟨_, values, hvalues, _, hmix, hgather⟩ :=
    Entry.fold?_eq_some.1 ((Entry.writes_iff he).1 h)
  rw [Entry.values_eq hvalues] at hsingle ⊢
  obtain rfl := eq_join_of_gather? hgather hsingle
  have hform := form_ne_composite he
  have hlength : values.length = e.form.width := by
    have hmap := congrArg List.length (mapM_eq_some.1 hvalues)
    rw [List.length_map, List.length_map] at hmap
    rw [← hmap, width_form he]
  have hspelled : ∀ x ∈ values, IsKeyword x → ∀ w ∈ values, w.lower = x.lower := by
    rw [Bool.eq_false_iff, ne_eq,
      mixesWideKeywords_iff fun x hx => isTight_of_tokens (hsingle x hx)] at hmix
    exact fun x hx hkey w hw => Decidable.byContradiction fun hne => hmix ⟨x, hx, hkey, w, hw, hne⟩
  refine ⟨⟨fun halone => ⟨fun x hx hkey w hw => ?_, fun t ht hkey => ?_⟩, ?_⟩, ?_⟩
  · have hall : ∀ w ∈ values, IsKeyword w := fun w hw => by
      rw [IsKeyword, hspelled x hx hkey w hw]
      exact hkey
    have heq : ∀ w ∈ values, w = Text.join [' '] (fewest values) := fun w hw =>
      halone w (mem_tokens_of_forall_isKeyword hform hlength hall hw) (hall w hw)
    rw [heq w hw, heq x hx]
  · have heq := halone t ht hkey
    rw [← mem_fewest hform hlength, fewest_of_isKeyword hform hlength (heq ▸ hkey)]
    simp [← heq]
  · rintro ⟨hone, hin⟩ t ht hkey
    have hmem := hin t ht hkey
    rw [fewest_of_forall_eq hform hlength (hone t hmem hkey), Text.join_singleton]
  · intro hstrings t ht hkey
    have hmem : ∀ u ∈ fewest values, u ∈ values := fun u hu => (mem_fewest hform hlength).1 hu
    exact hmem t (mem_of_isKeyword (fun u hu => hsingle u (hmem u hu))
      (fun u hu => hstrings u (hmem u hu)) ht hkey)

def revertedCorners : Declarations :=
  ["border-top-left-radius", "border-top-right-radius", "border-bottom-left-radius",
    "border-bottom-right-radius"].map fun p => (p.toList, "Revert-Layer".toList)

theorem keyword_alone_corners : ∃ e ∈ expandable,
    e.Writes revertedCorners "Revert-Layer".toList ∧
      (∀ x ∈ e.values revertedCorners, tokens x = [x]) ∧
      ∀ t ∈ tokens "Revert-Layer".toList, IsKeyword t → t = "Revert-Layer".toList := by
  obtain ⟨e, he, hwrites, hsingle, hone, hstrings⟩ : ∃ e ∈ expandable,
      e.Writes revertedCorners "Revert-Layer".toList ∧
        (∀ x ∈ e.values revertedCorners, tokens x = [x]) ∧
        (∀ x ∈ e.values revertedCorners, IsKeyword x → ∀ w ∈ e.values revertedCorners, w = x) ∧
          ∀ x ∈ e.values revertedCorners, Quoting.bare.after x = .bare := by
    decide +kernel
  obtain ⟨halone, hclosed⟩ := keyword_alone_iff he hwrites hsingle
  exact ⟨e, he, hwrites, hsingle, halone.2 ⟨hone, hclosed hstrings⟩⟩

/-- A keyword in two spellings is no mixture, but both are written. -/
theorem keyword_beside_keyword :
    let m : Declarations := [("overflow-x".toList, "inherit".toList),
      ("overflow-y".toList, "INHERIT".toList)]
    ∃ e ∈ expandable, e.Writes m "inherit INHERIT".toList ∧
      (∀ x ∈ e.values m, tokens x = [x]) ∧
        ∃ t ∈ tokens "inherit INHERIT".toList, IsKeyword t ∧ t ≠ "inherit INHERIT".toList := by
  decide +kernel

end AtomicCss.Shorthand
