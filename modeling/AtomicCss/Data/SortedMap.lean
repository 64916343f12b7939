set_option autoImplicit false

namespace AtomicCss

abbrev SortedMap (κ ν : Type) := List (κ × ν)

namespace SortedMap

variable {κ ν : Type} [Ord κ]

def insert (k : κ) (v : ν) : SortedMap κ ν → SortedMap κ ν
  | [] => [(k, v)]
  | e :: r =>
    match compare k e.1 with
    | .lt => (k, v) :: e :: r
    | .eq => (k, v) :: r
    | .gt => e :: insert k v r

def ofList (l : List (κ × ν)) : SortedMap κ ν := l.foldl (fun m e => insert e.1 e.2 m) []

theorem mem_insert {k : κ} {v : ν} {m : SortedMap κ ν} {e : κ × ν} (h : e ∈ insert k v m) :
    e = (k, v) ∨ e ∈ m := by
  induction m with
  | nil => simpa [insert] using h
  | cons f r ih =>
    unfold insert at h
    split at h
    · simpa using h
    · rcases List.mem_cons.1 h with rfl | h
      · simp
      · simp [h]
    · rcases List.mem_cons.1 h with rfl | h
      · simp
      · rcases ih h with h | h <;> simp [h]

theorem pairwise_insert [Std.TransOrd κ] {k : κ} {v : ν} {m : SortedMap κ ν}
    (h : m.Pairwise (compare ·.1 ·.1 = .lt)) :
    (insert k v m).Pairwise (compare ·.1 ·.1 = .lt) := by
  induction m with
  | nil => simp [insert]
  | cons f r ih =>
    rw [List.pairwise_cons] at h
    unfold insert
    split
    · rename_i hk
      refine List.pairwise_cons.2 ⟨fun e he => ?_, List.pairwise_cons.2 h⟩
      rcases List.mem_cons.1 he with rfl | he
      · exact hk
      · exact Std.TransCmp.lt_trans hk (h.1 e he)
    · rename_i hk
      refine List.pairwise_cons.2 ⟨fun e he => ?_, h.2⟩
      exact Std.TransCmp.lt_of_eq_of_lt hk (h.1 e he)
    · rename_i hk
      refine List.pairwise_cons.2 ⟨fun e he => ?_, ih h.2⟩
      rcases mem_insert he with rfl | he
      · exact Std.OrientedCmp.lt_of_gt hk
      · exact h.1 e he

@[simp] theorem ofList_nil : ofList ([] : List (κ × ν)) = [] := rfl

end SortedMap
end AtomicCss
