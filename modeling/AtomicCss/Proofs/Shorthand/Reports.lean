import AtomicCss.Proofs.Shorthand.Sets
import Mathlib.Data.List.Count
set_option autoImplicit false

/-!
How often a conflict is reported.

A declaration is reported once with each earlier one at its place that it clashes with. So over a
whole list of declarations, whichever comes first, a shorthand and one of its longhands are reported
as often as the two can be paired.
-/

namespace AtomicCss.Shorthand

section

variable {S L : Text} (h : resets S L = true)
include h

theorem ne_of_resets : S ≠ L := by
  rintro rfl
  rw [resets_self] at h
  cases h

theorem count_resetting (seen : List Text) (property : Text) :
    ((seen.filter (resets property)).map (Conflict.mk property)).count ⟨S, L⟩ =
      if property = S then seen.count L else 0 := by
  have hinj : Function.Injective (Conflict.mk property) := fun _ _ heq => (Conflict.mk.inj heq).2
  split
  next heq =>
    subst heq
    rw [List.count_map_of_injective _ _ hinj, List.count_filter h]
  next hne =>
    refine List.count_eq_zero.2 fun hmem => ?_
    obtain ⟨_, _, heq⟩ := List.mem_map.1 hmem
    exact hne (Conflict.mk.inj heq).1

theorem count_reset (seen : List Text) (property : Text) :
    ((seen.filter (resets · property)).map (Conflict.mk · property)).count ⟨S, L⟩ =
      if property = L then seen.count S else 0 := by
  have hinj : Function.Injective (Conflict.mk · property) := fun _ _ heq => (Conflict.mk.inj heq).1
  split
  next heq =>
    subst heq
    rw [List.count_map_of_injective _ _ hinj, List.count_filter (by exact h)]
  next hne =>
    refine List.count_eq_zero.2 fun hmem => ?_
    obtain ⟨_, _, heq⟩ := List.mem_map.1 hmem
    exact hne (Conflict.mk.inj heq).2

/-- One more declaration is reported with each of those that it makes a new pair with. -/
theorem count_conflictsWith (seen : List Text) (property : Text) :
    (conflictsWith seen property).count ⟨S, L⟩ + seen.count S * seen.count L =
      (seen ++ [property]).count S * (seen ++ [property]).count L := by
  have hne := ne_of_resets h
  rw [conflictsWith, List.count_append, count_resetting h, count_reset h, List.count_append,
    List.count_append, List.count_singleton, List.count_singleton]
  by_cases hS : property = S
  · have hL : property ≠ L := fun heq => hne (hS.symm.trans heq)
    simp [hS, hne, Nat.add_mul, Nat.add_comm]
  · by_cases hL : property = L
    · simp [hL, hne.symm, Nat.mul_add, Nat.add_comm]
    · simp [hS, hL]

end

theorem resets_of_mem_conflictsWith {seen : List Text} {property : Text} {c : Conflict}
    (h : c ∈ conflictsWith seen property) : resets c.shorthand c.longhand = true := by
  rcases List.mem_append.1 h with h | h
  · obtain ⟨q, hq, rfl⟩ := List.mem_map.1 h
    exact (List.mem_filter.1 hq).2
  · obtain ⟨q, hq, rfl⟩ := List.mem_map.1 h
    exact (List.mem_filter.1 hq).2

namespace ConflictTracker

variable {κ : Type} [DecidableEq κ]

/-- What is reported while the declarations are recorded, each with its place. -/
def reports (t : ConflictTracker κ) : List (κ × Text) → List (κ × Conflict)
  | [] => []
  | d :: l => (t.record d.1 d.2).1.map (d.1, ·) ++ (t.record d.1 d.2).2.reports l

/-- The properties that are declared at one place. -/
def propertiesAt (place : κ) (l : List (κ × Text)) : List Text :=
  (l.filter (·.1 = place)).map (·.2)

theorem count_reports {S L : Text} (h : resets S L = true) (t : ConflictTracker κ) (place : κ)
    (l : List (κ × Text)) :
    (t.reports l).count (place, ⟨S, L⟩) +
        (t.declaredAt place).count S * (t.declaredAt place).count L =
      (t.declaredAt place ++ propertiesAt place l).count S *
        (t.declaredAt place ++ propertiesAt place l).count L := by
  induction l generalizing t with
  | nil => simp [reports, propertiesAt]
  | cons d l ih =>
    have hrest := ih (t.record d.1 d.2).2
    rw [declaredAt_record] at hrest
    rw [reports, List.count_append]
    by_cases hd : d.1 = place
    · have hstep := count_conflictsWith h (t.declaredAt place) d.2
      have hnew : ((t.record d.1 d.2).1.map (d.1, ·)).count (place, ⟨S, L⟩) =
          (conflictsWith (t.declaredAt place) d.2).count ⟨S, L⟩ := by
        rw [hd]
        exact List.count_map_of_injective _ _ (fun _ _ heq => (Prod.mk.inj heq).2) _
      have hlist : t.declaredAt place ++ propertiesAt place (d :: l) =
          (t.declaredAt place ++ [d.2]) ++ propertiesAt place l := by
        simp [propertiesAt, hd]
      rw [if_pos hd, hd] at hrest
      rw [hnew, hlist, ← hrest, ← hstep, hd]
      omega
    · have hnew : ((t.record d.1 d.2).1.map (d.1, ·)).count (place, ⟨S, L⟩) = 0 := by
        refine List.count_eq_zero.2 fun hmem => ?_
        obtain ⟨_, _, heq⟩ := List.mem_map.1 hmem
        exact hd (Prod.mk.inj heq).1
      have hlist : propertiesAt place (d :: l) = propertiesAt place l := by
        simp [propertiesAt, hd]
      rw [if_neg hd] at hrest
      rw [hnew, hlist, Nat.zero_add, hrest]

theorem resets_of_mem_reports {t : ConflictTracker κ} {l : List (κ × Text)} {x : κ × Conflict}
    (h : x ∈ t.reports l) : resets x.2.shorthand x.2.longhand = true := by
  induction l generalizing t with
  | nil => cases h
  | cons d l ih =>
    rcases List.mem_append.1 h with h | h
    · obtain ⟨c, hc, rfl⟩ := List.mem_map.1 h
      exact resets_of_mem_conflictsWith hc
    · exact ih h

theorem place_of_mem_reports {t : ConflictTracker κ} {l : List (κ × Text)} {x : κ × Conflict}
    (h : x ∈ t.reports l) : x.1 ∈ l.map (·.1) := by
  induction l generalizing t with
  | nil => cases h
  | cons d l ih =>
    rw [List.map_cons]
    rcases List.mem_append.1 h with h | h
    · obtain ⟨c, hc, rfl⟩ := List.mem_map.1 h
      exact List.mem_cons_self
    · exact List.mem_cons_of_mem _ (ih h)

theorem reports_perm (t : ConflictTracker κ) {l r : List (κ × Text)} (h : l.Perm r) :
    (t.reports l).Perm (t.reports r) := by
  refine List.perm_iff_count.2 fun ⟨place, S, L⟩ => ?_
  by_cases hresets : resets S L = true
  · have hl := count_reports hresets t place l
    have hr := count_reports hresets t place r
    have hsame : (propertiesAt place l).Perm (propertiesAt place r) := (h.filter _).map _
    simp only [List.count_append, hsame.count_eq] at hl hr
    omega
  · have hnone : ∀ l, (t.reports l).count (place, ⟨S, L⟩) = 0 := fun l =>
      List.count_eq_zero.2 fun hmem => hresets (resets_of_mem_reports hmem)
    rw [hnone, hnone]

/-- Places can go by other names, if different places keep different names. -/
theorem reports_map {μ : Type} [DecidableEq μ] {f : κ → μ} {t : ConflictTracker κ}
    {u : ConflictTracker μ} {l : List (κ × Text)}
    (hinj : ∀ a ∈ l.map (·.1), ∀ b ∈ l.map (·.1), f a = f b → a = b)
    (hseen : ∀ a ∈ l.map (·.1), u.declaredAt (f a) = t.declaredAt a) :
    u.reports (l.map fun d => (f d.1, d.2)) = (t.reports l).map fun x => (f x.1, x.2) := by
  induction l generalizing t u with
  | nil => rfl
  | cons d l ih =>
    have hd : d.1 ∈ (d :: l).map (·.1) := List.mem_cons_self
    have hl : ∀ a ∈ l.map (·.1), a ∈ (d :: l).map (·.1) := fun a ha => List.mem_cons_of_mem _ ha
    have hnext : ∀ a ∈ l.map (·.1), (u.record (f d.1) d.2).2.declaredAt (f a) =
        (t.record d.1 d.2).2.declaredAt a := by
      intro a ha
      have hsame : f d.1 = f a ↔ d.1 = a := ⟨hinj d.1 hd a (hl a ha), congrArg f⟩
      rw [declaredAt_record, declaredAt_record, hseen d.1 hd, hseen a (hl a ha)]
      simp only [hsame]
    rw [List.map_cons, reports, reports, List.map_append,
      ih (fun a ha b hb => hinj a (hl a ha) b (hl b hb)) hnext]
    simp [record, hseen d.1 hd]

end ConflictTracker
end AtomicCss.Shorthand
