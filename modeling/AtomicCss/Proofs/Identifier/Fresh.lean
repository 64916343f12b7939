import AtomicCss.Identifier.Allocator
set_option autoImplicit false

namespace AtomicCss

namespace Word

theorem nodup_alphabet : alphabet.Nodup := by decide

theorem letter_injective {d e : Nat} (hd : d < 52) (he : e < 52) (h : letter d = letter e) :
    d = e := by
  have hlength : alphabet.length = 52 := by decide
  have hd' : d < alphabet.length := by omega
  have he' : e < alphabet.length := by omega
  simp only [letter, List.getD_eq_getElem?_getD, List.getElem?_eq_getElem hd',
    List.getElem?_eq_getElem he', Option.getD_some] at h
  exact (List.getElem_inj nodup_alphabet).1 h

theorem ofNumber_injective {m n : Nat} (h : ofNumber m = ofNumber n) : m = n := by
  induction m using Nat.strongRecOn generalizing n with
  | ind m ih =>
    cases m with
    | zero =>
      cases n with
      | zero => rfl
      | succ n => simp [ofNumber_succ] at h
    | succ m =>
      cases n with
      | zero => simp [ofNumber_succ] at h
      | succ n =>
        rw [ofNumber_succ, ofNumber_succ] at h
        obtain ⟨hquotient, hletter⟩ := List.append_inj' h rfl
        have hq := ih (m / 52) (by omega) hquotient
        have hr := letter_injective (Nat.mod_lt m (by omega)) (Nat.mod_lt n (by omega))
          (List.head_eq_of_cons_eq hletter)
        omega

theorem isAlpha_of_mem_alphabet {c : Char} (h : c ∈ alphabet) : c.isAlpha = true :=
  (List.all_eq_true.1 (by decide : alphabet.all Char.isAlpha = true)) c h

end Word

namespace Allocator

theorem candidate_injective (a : Allocator) {m n : Nat} (h : a.candidate m = a.candidate n) :
    m = n :=
  Word.ofNumber_injective (List.append_cancel_left h)

theorem candidate_nextNumber (a : Allocator) : a.candidate a.nextNumber ∉ a.reserved := by
  unfold nextNumber
  cases hfind : (List.range' (a.counter + 1) a.reserved.length).find?
      fun n => a.candidate n ∉ a.reserved with
  | some n => simpa using List.find?_some hfind
  | none =>
    intro hlast
    have hall : ∀ n ∈ List.range' (a.counter + 1) (a.reserved.length + 1),
        a.candidate n ∈ a.reserved := by
      intro n hn
      rw [List.range'_concat, List.mem_append] at hn
      rcases hn with hn | hn
      · simpa using List.find?_eq_none.1 hfind n hn
      · rw [List.mem_singleton.1 hn]
        simpa using hlast
    have hnodup : ((List.range' (a.counter + 1) (a.reserved.length + 1)).map a.candidate).Nodup :=
      List.pairwise_map.2 ((List.nodup_range').imp fun hmn h => hmn (candidate_injective a h))
    have hle := hnodup.length_le_of_subset fun t ht => by
      obtain ⟨n, hn, rfl⟩ := List.mem_map.1 ht
      exact hall n hn
    rw [List.length_map, List.length_range'] at hle
    omega

theorem next_eq (a : Allocator) : a.next.1 = a.candidate a.next.2.counter := rfl

theorem next_not_reserved (a : Allocator) : a.next.1 ∉ a.reserved := candidate_nextNumber a

theorem take_succ (a : Allocator) (n : Nat) :
    a.take (n + 1) = ((a.take n).1 ++ [(a.take n).2.next.1], (a.take n).2.next.2) := by
  induction n generalizing a with
  | zero => rfl
  | succ n ih =>
    rw [take]
    simp only [ih a.next.2]
    rfl

theorem candidate_mem_reserved {a : Allocator} {n : Nat} (hlow : a.counter < n)
    (hhigh : n < a.nextNumber) : a.candidate n ∈ a.reserved := by
  unfold nextNumber at hhigh
  cases hfind : (List.range' (a.counter + 1) a.reserved.length).find?
      fun n => a.candidate n ∉ a.reserved with
  | none =>
    rw [hfind, Option.getD_none] at hhigh
    simpa using List.find?_eq_none.1 hfind n (List.mem_range'_1.2 ⟨hlow, hhigh⟩)
  | some k =>
    rw [hfind, Option.getD_some] at hhigh
    simpa using (List.find?_range'_eq_some.1 hfind).2.2 n hlow hhigh

theorem counter_le_take (a : Allocator) (k : Nat) : a.counter ≤ (a.take k).2.counter := by
  induction k generalizing a with
  | zero => exact Nat.le_refl _
  | succ k ih => exact Nat.le_trans (Nat.le_of_lt a.counter_lt_next) (ih a.next.2)

theorem mem_take {a : Allocator} {k : Nat} {ident : Text} :
    ident ∈ (a.take k).1 ↔ ident ∉ a.reserved ∧
      ∃ n, a.counter < n ∧ n ≤ (a.take k).2.counter ∧ ident = a.candidate n := by
  induction k generalizing a with
  | zero =>
    simp only [take, List.not_mem_nil, false_iff]
    rintro ⟨_, n, hlow, hhigh, _⟩
    exact Nat.not_lt.2 hhigh hlow
  | succ k ih =>
    have hlt : a.counter < a.nextNumber := a.counter_lt_next
    have hle : a.nextNumber ≤ (a.next.2.take k).2.counter := a.next.2.counter_le_take k
    rw [take, List.mem_cons, ih]
    constructor
    · rintro (rfl | ⟨hfree, n, hlow, hhigh, rfl⟩)
      · exact ⟨a.next_not_reserved, a.nextNumber, hlt, hle, rfl⟩
      · exact ⟨hfree, n, Nat.lt_trans hlt hlow, hhigh, rfl⟩
    · rintro ⟨hfree, n, hlow, hhigh, rfl⟩
      rcases Nat.lt_trichotomy n a.nextNumber with hn | rfl | hn
      · exact absurd (candidate_mem_reserved hlow hn) hfree
      · exact .inl rfl
      · exact .inr ⟨hfree, n, hn, hhigh, rfl⟩

theorem candidate_counter_mem_take (a : Allocator) (k : Nat) :
    a.candidate (a.take (k + 1)).2.counter ∈ (a.take (k + 1)).1 := by
  induction k generalizing a with
  | zero => exact List.mem_singleton.2 rfl
  | succ k ih => exact List.mem_cons_of_mem _ (ih a.next.2)

end Allocator
end AtomicCss
