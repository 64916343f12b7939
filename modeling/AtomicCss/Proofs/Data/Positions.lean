import AtomicCss.Data.OrderedMap
import Mathlib.Data.List.Basic
import Mathlib.Data.List.Induction
import Mathlib.Data.List.Nodup
set_option autoImplicit false

namespace AtomicCss

variable {α : Type}

/-- Where a list holds something that `p` accepts, ascending. -/
def positions (p : α → Bool) (l : List α) : List Nat :=
  (List.range l.length).filter fun i => l[i]?.any p

theorem mem_positions {p : α → Bool} {l : List α} {i : Nat} :
    i ∈ positions p l ↔ ∃ a, l[i]? = some a ∧ p a = true := by
  simp only [positions, List.mem_filter, List.mem_range, Option.any_eq_true]
  constructor
  · rintro ⟨_, h⟩
    exact h
  · rintro ⟨a, ha, hp⟩
    exact ⟨(List.getElem?_eq_some_iff.1 ha).1, a, ha, hp⟩

theorem getElem?_concat (l : List α) (a : α) (i : Nat) :
    (l ++ [a])[i]? = if i = l.length then some a else l[i]? := by
  rcases Nat.lt_trichotomy i l.length with hlt | rfl | hgt
  · rw [List.getElem?_append_left hlt, if_neg (Nat.ne_of_lt hlt)]
  · simp
  · rw [if_neg (Nat.ne_of_gt hgt), List.getElem?_eq_none (Nat.le_of_lt hgt),
      List.getElem?_eq_none (by simp; omega)]

theorem get?_put_concat {κ : Type} [DecidableEq κ] {m : OrderedMap κ Nat} {f : α → Option κ}
    {l : List α} (h : ∀ k i, m.get? k = some i ↔ l[i]?.bind f = some k) {a : α} {k : κ}
    (ha : f a = some k) (hk : m.get? k = none) (j : κ) (i : Nat) :
    (m.put k l.length).get? j = some i ↔ (l ++ [a])[i]?.bind f = some j := by
  rw [OrderedMap.get?_put, getElem?_concat]
  by_cases hi : i = l.length
  · subst hi
    by_cases hj : k = j
    · simp [hj, ha]
    · rw [if_neg hj, h, List.getElem?_eq_none (Nat.le_refl _)]
      simp [ha, hj]
  · by_cases hj : k = j
    · subst hj
      rw [if_pos rfl, if_neg hi, ← h, hk]
      simp [Ne.symm hi]
    · rw [if_neg hj, if_neg hi, h]

theorem positions_append_singleton (p : α → Bool) (l : List α) (a : α) :
    positions p (l ++ [a]) = positions p l ++ if p a = true then [l.length] else [] := by
  have hold : (List.range l.length).filter (fun i => (l ++ [a])[i]?.any p) = positions p l := by
    apply List.filter_congr
    intro i hi
    rw [List.getElem?_append_left (List.mem_range.1 hi)]
  have hnew : (l ++ [a])[l.length]? = some a := by simp
  rw [positions, List.length_append, List.length_singleton, List.range_succ, List.filter_append,
    hold]
  cases hp : p a <;> simp [hp]

theorem filterMap_positions (p : α → Bool) (l : List α) :
    (positions p l).filterMap (fun i => l[i]?) = l.filter p := by
  induction l using List.reverseRecOn with
  | nil => rfl
  | append_singleton l a ih =>
    have hold : (positions p l).filterMap (fun i => (l ++ [a])[i]?) = l.filter p := by
      rw [← ih]
      apply List.filterMap_congr
      intro i hi
      obtain ⟨b, hb, _⟩ := mem_positions.1 hi
      rw [List.getElem?_append_left (List.getElem?_eq_some_iff.1 hb).1]
    rw [positions_append_singleton, List.filterMap_append, hold, List.filter_append]
    cases hp : p a <;> simp [hp]

theorem positions_modify {p : α → Bool} {l : List α} {i : Nat} {a b : α}
    (hi : l[i]? = some a) (h : p b = p a) :
    positions p (l.modify i fun _ => b) = positions p l := by
  unfold positions
  rw [List.length_modify]
  apply List.filter_congr
  intro j _
  rw [List.getElem?_modify]
  by_cases hj : i = j
  · subst hj
    simp [hi, h]
  · cases l[j]? <;> simp [hj]

theorem getD_modify_append {l : List (List Nat)} {i x : Nat} (h : i < l.length) (j : Nat) :
    (l.modify i (· ++ [x])).getD j [] = l.getD j [] ++ if i = j then [x] else [] := by
  rw [List.getD_eq_getElem?_getD, List.getD_eq_getElem?_getD, List.getElem?_modify]
  by_cases hj : i = j
  · subst hj
    simp [List.getElem?_eq_getElem h]
  · cases l[j]? <;> simp [hj]

theorem getD_append_nil (l : List (List Nat)) (j : Nat) : (l ++ [[]]).getD j [] = l.getD j [] := by
  rw [List.getD_eq_getElem?_getD, List.getD_eq_getElem?_getD]
  by_cases hj : j < l.length
  · rw [List.getElem?_append_left hj]
  · have hn : l.length ≤ j := Nat.le_of_not_lt hj
    rw [List.getElem?_append_right hn, List.getElem?_eq_none hn]
    cases j - l.length <;> rfl

/-- A table lists each of the positions `all` once, in the row of its owner, and rows ascend. -/
structure Tabulates (owner : Nat → Option Nat) (all : List Nat) (table : List (List Nat)) :
    Prop where
  once : table.flatten.Perm all
  ascending : ∀ row ∈ table, row.Pairwise (· < ·)
  owned : ∀ o row, table[o]? = some row → ∀ i ∈ row, owner i = some o

theorem pairwise_positions (p : α → Bool) (l : List α) : (positions p l).Pairwise (· < ·) :=
  List.pairwise_lt_range.filter _

theorem nodup_positions (p : α → Bool) (l : List α) : (positions p l).Nodup :=
  List.nodup_range.filter _

theorem tabulates_positions {f : α → Option Nat} {l : List α} {table : List (List Nat)}
    (hrow : ∀ o, table.getD o [] = positions (fun a => f a = some o) l)
    (hlt : ∀ a ∈ l, ∀ o, f a = some o → o < table.length) :
    Tabulates (fun i => l[i]?.bind f) (positions (fun a => (f a).isSome) l) table := by
  have hget : ∀ o row, table[o]? = some row → row = positions (fun a => f a = some o) l := by
    intro o row ho
    rw [← hrow, List.getD_eq_getElem?_getD, ho]
    rfl
  have howned : ∀ o row, table[o]? = some row → ∀ i ∈ row, l[i]?.bind f = some o := by
    intro o row ho i hi
    rw [hget o row ho] at hi
    obtain ⟨a, ha, hf⟩ := mem_positions.1 hi
    simpa [ha] using hf
  have hmem : ∀ row ∈ table, ∃ o, row = positions (fun a => f a = some o) l := by
    intro row h
    obtain ⟨o, ho⟩ := List.mem_iff_getElem?.1 h
    exact ⟨o, hget o row ho⟩
  refine ⟨(List.perm_ext_iff_of_nodup ?_ (nodup_positions _ _)).2 fun i => ?_, ?_, howned⟩
  · refine List.nodup_flatten.2 ⟨fun row h => ?_, List.pairwise_iff_getElem.2 ?_⟩
    · obtain ⟨o, rfl⟩ := hmem row h
      exact nodup_positions _ _
    · intro o q ho hq hlt i hi hi'
      have h₁ := howned o _ (List.getElem?_eq_getElem ho) i hi
      have h₂ := howned q _ (List.getElem?_eq_getElem hq) i hi'
      rw [h₁] at h₂
      exact Nat.ne_of_lt hlt (Option.some.inj h₂)
  · constructor
    · intro hi
      obtain ⟨row, hrow, hi⟩ := List.mem_flatten.1 hi
      obtain ⟨o, rfl⟩ := hmem row hrow
      obtain ⟨a, ha, hf⟩ := mem_positions.1 hi
      exact mem_positions.2 ⟨a, ha, by simp_all⟩
    · intro hi
      obtain ⟨a, ha, hf⟩ := mem_positions.1 hi
      obtain ⟨o, ho⟩ := Option.isSome_iff_exists.1 hf
      have hlen := hlt a (List.mem_of_getElem? ha) o ho
      refine List.mem_flatten.2 ⟨_, List.getElem_mem hlen, ?_⟩
      rw [hget o _ (List.getElem?_eq_getElem hlen)]
      exact mem_positions.2 ⟨a, ha, by simpa using ho⟩
  · intro row h
    obtain ⟨o, rfl⟩ := hmem row h
    exact pairwise_positions _ _
end AtomicCss
