set_option autoImplicit false

/-!
Text as a list of characters, with the ASCII operations on it.

Every scanner, printer and order of the library works on `Text`, one Unicode scalar value at a time;
strings appear only where text enters or leaves the program.
-/

namespace AtomicCss

abbrev Text := List Char

instance Text.lawfulBEq : LawfulBEq Text := inferInstance

namespace Text

def join (separator : Text) (pieces : List Text) : Text := separator.intercalate pieces

def lower (t : Text) : Text := t.map Char.toLower

def sameLetters (s t : Text) : Bool := s.lower == t.lower

def utf8Length (t : Text) : Nat := t.foldl (fun n c => n + c.utf8Size) 0

def hasInfix (piece : Text) : Text → Bool
  | [] => piece.isEmpty
  | c :: r => piece.isPrefixOf (c :: r) || hasInfix piece r

def afterFirst (piece : Text) : Text → Option Text
  | [] => if piece.isEmpty then some [] else none
  | c :: r =>
    if piece.isPrefixOf (c :: r) then some ((c :: r).drop piece.length) else afterFirst piece r

@[simp] theorem join_nil (separator : Text) : join separator [] = [] := rfl

@[simp] theorem join_singleton (separator piece : Text) : join separator [piece] = piece := by
  simp [join, List.intercalate]

@[simp] theorem join_cons_cons (separator s t : Text) (r : List Text) :
    join separator (s :: t :: r) = s ++ separator ++ join separator (t :: r) := by
  simp [join, List.intercalate]

theorem join_cons (separator s : Text) {r : List Text} (h : r ≠ []) :
    join separator (s :: r) = s ++ separator ++ join separator r := by
  cases r with
  | nil => exact absurd rfl h
  | cons t r => exact join_cons_cons separator s t r

@[simp] theorem lower_nil : lower [] = [] := rfl

@[simp] theorem lower_cons (c : Char) (t : Text) : lower (c :: t) = c.toLower :: lower t := rfl

theorem toLower_toLower (c : Char) : c.toLower.toLower = c.toLower := by
  unfold Char.toLower
  split
  · rename_i h
    rw [dif_neg]
    rintro ⟨_, h₂⟩
    obtain ⟨h₀, h₁⟩ := h
    simp [UInt32.le_iff_toNat_le] at h₀ h₁ h₂
    omega
  · rfl

theorem toNat_toLower (c : Char) :
    c.toLower = c ∨ 65 ≤ c.toNat ∧ c.toNat ≤ 90 ∧ c.toLower.toNat = c.toNat + 32 := by
  unfold Char.toLower
  split
  next h =>
    obtain ⟨h₁, h₂⟩ := h
    refine Or.inr ⟨h₁, h₂, ?_⟩
    simp only [UInt32.le_iff_toNat_le] at h₁ h₂
    simp only [Char.toNat, UInt32.toNat_add]
    simp at h₁ h₂ ⊢
    omega
  next => exact Or.inl rfl

@[simp] theorem lower_lower (t : Text) : (lower t).lower = lower t :=
  List.map_map.trans (List.map_congr_left fun c _ => toLower_toLower c)

end Text

theorem toNat_lt_of_isAlphanum {c : Char} (h : c.isAlphanum = true) : c.toNat < 128 := by
  delta Char.isAlphanum Char.isAlpha Char.isUpper Char.isLower Char.isDigit at h
  simp only [Bool.or_eq_true, Bool.and_eq_true, decide_eq_true_eq, UInt32.le_iff_toNat_le,
    ge_iff_le] at h
  change ((65 ≤ c.toNat ∧ c.toNat ≤ 90) ∨ (97 ≤ c.toNat ∧ c.toNat ≤ 122)) ∨
    (48 ≤ c.toNat ∧ c.toNat ≤ 57) at h
  omega

def isNameChar (c : Char) : Bool := c.isAlphanum || c = '-' || c = '_'

end AtomicCss
