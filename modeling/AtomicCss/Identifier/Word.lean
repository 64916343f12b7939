import AtomicCss.Text.Basic
set_option autoImplicit false

/-!
The words over the 52 ASCII letters, counted from one: by length, and words of one length in the
order of the alphabet, small letters first.
-/

namespace AtomicCss.Word

def alphabet : Text := "abcdefghijklmnopqrstuvwxyzABCDEFGHIJKLMNOPQRSTUVWXYZ".toList

def letter (d : Nat) : Char := alphabet.getD d 'a'

def ofNumber (n : Nat) : Text :=
  if n = 0 then [] else ofNumber ((n - 1) / 52) ++ [letter ((n - 1) % 52)]
termination_by n
decreasing_by omega

@[simp] theorem ofNumber_zero : ofNumber 0 = [] := by rw [ofNumber]; rfl

theorem ofNumber_succ (n : Nat) : ofNumber (n + 1) = ofNumber (n / 52) ++ [letter (n % 52)] := by
  rw [ofNumber]; simp

theorem ofNumber_ne_nil {n : Nat} (h : n ≠ 0) : ofNumber n ≠ [] := by
  rw [ofNumber, if_neg h]
  simp

theorem letter_mem (d : Nat) : letter d ∈ alphabet := by
  unfold letter
  rw [List.getD_eq_getElem?_getD]
  by_cases h : d < alphabet.length
  · rw [List.getElem?_eq_getElem h]
    exact List.getElem_mem h
  · rw [List.getElem?_eq_none (Nat.le_of_not_lt h)]
    decide

theorem mem_alphabet_of_mem_ofNumber {n : Nat} {c : Char} (h : c ∈ ofNumber n) : c ∈ alphabet := by
  induction n using Nat.strongRecOn with
  | ind n ih =>
    rw [ofNumber] at h
    split at h
    · simp at h
    · rcases List.mem_append.1 h with h | h
      · exact ih _ (by omega) h
      · rw [List.mem_singleton.1 h]
        exact letter_mem _

end AtomicCss.Word
