set_option autoImplicit false

/-!
Ascending lists without repeats, built by insertion. They depend on the members of a list only, not
on their order or number (`Sorted.mem_ofList`).
-/

namespace AtomicCss.Sorted

variable {α : Type} [Ord α]

/-- Puts `a` in its place, unless it is there already. -/
def insert (a : α) : List α → List α
  | [] => [a]
  | b :: r =>
    match compare a b with
    | .lt => a :: b :: r
    | .eq => b :: r
    | .gt => b :: insert a r

def ofList (l : List α) : List α := l.foldr insert []

@[simp] theorem ofList_nil : ofList ([] : List α) = [] := rfl

@[simp] theorem ofList_cons (a : α) (l : List α) : ofList (a :: l) = insert a (ofList l) := rfl

theorem mem_of_mem_insert {a b : α} {l : List α} (h : b ∈ insert a l) : b = a ∨ b ∈ l := by
  induction l with
  | nil => simpa [insert] using h
  | cons c r ih =>
    unfold insert at h
    split at h
    · simpa using h
    · exact Or.inr h
    · rcases List.mem_cons.1 h with rfl | h
      · simp
      · rcases ih h with h | h <;> simp [h]

theorem mem_insert [Std.LawfulEqOrd α] {a b : α} {l : List α} :
    b ∈ insert a l ↔ b = a ∨ b ∈ l := by
  induction l with
  | nil => simp [insert]
  | cons c r ih =>
    simp only [insert]
    split
    · simp
    · rename_i h
      have hac := Std.LawfulEqOrd.eq_of_compare h
      subst hac
      simp
    · simp only [List.mem_cons, ih]
      constructor <;> rintro (h | h | h) <;> simp [h]

theorem mem_ofList [Std.LawfulEqOrd α] {b : α} {l : List α} : b ∈ ofList l ↔ b ∈ l := by
  induction l with
  | nil => simp
  | cons a l ih => simp [mem_insert, ih]

theorem pairwise_insert [Std.TransOrd α] {a : α} {l : List α}
    (h : l.Pairwise (compare · · = .lt)) : (insert a l).Pairwise (compare · · = .lt) := by
  induction l with
  | nil => simp [insert]
  | cons b r ih =>
    rw [List.pairwise_cons] at h
    unfold insert
    split
    · rename_i hab
      refine List.pairwise_cons.2 ⟨fun c hc => ?_, List.pairwise_cons.2 h⟩
      rcases List.mem_cons.1 hc with rfl | hc
      · exact hab
      · exact Std.TransCmp.lt_trans hab (h.1 c hc)
    · exact List.pairwise_cons.2 h
    · rename_i hab
      refine List.pairwise_cons.2 ⟨fun c hc => ?_, ih h.2⟩
      rcases mem_of_mem_insert hc with rfl | hc
      · exact Std.OrientedCmp.lt_of_gt hab
      · exact h.1 c hc

theorem pairwise_ofList [Std.TransOrd α] (l : List α) :
    (ofList l).Pairwise (compare · · = .lt) := by
  induction l with
  | nil => simp
  | cons a l ih => exact pairwise_insert ih

theorem nodup_of_pairwise [Std.TransOrd α] {l : List α} (h : l.Pairwise (compare · · = .lt)) :
    l.Nodup := by
  refine h.imp fun {a b} hlt heq => ?_
  subst heq
  simp at hlt

theorem nodup_ofList [Std.TransOrd α] (l : List α) : (ofList l).Nodup :=
  nodup_of_pairwise (pairwise_ofList l)

theorem eq_of_mem_iff [Std.TransOrd α] {l r : List α} (hl : l.Pairwise (compare · · = .lt))
    (hr : r.Pairwise (compare · · = .lt)) (h : ∀ a, a ∈ l ↔ a ∈ r) : l = r := by
  have hperm : l.Perm r :=
    (List.perm_ext_iff_of_nodup (nodup_of_pairwise hl) (nodup_of_pairwise hr)).2 h
  refine List.Perm.eq_of_pairwise (fun a b _ _ hab hba => ?_) hl hr hperm
  rw [Std.OrientedCmp.gt_of_lt hab] at hba
  cases hba

theorem ofList_congr [Std.TransOrd α] [Std.LawfulEqOrd α] {l r : List α}
    (h : ∀ a, a ∈ l ↔ a ∈ r) : ofList l = ofList r :=
  eq_of_mem_iff (pairwise_ofList l) (pairwise_ofList r) fun a => by rw [mem_ofList, mem_ofList, h]

end AtomicCss.Sorted
