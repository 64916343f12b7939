import AtomicCss.Text.Basic
set_option autoImplicit false

/-!
Blank characters, trimming and words.

`isBlank` is the Unicode property White_Space: 25 characters, of which six are ASCII. A trimmed text
neither starts nor ends with one of them, and words are the longest runs without them.
-/

namespace AtomicCss

def isBlank (c : Char) : Bool :=
  let n := c.toNat
  (9 ≤ n && n ≤ 13) || n = 0x20 || n = 0x85 || n = 0xA0 || n = 0x1680
    || (0x2000 ≤ n && n ≤ 0x200A) || n = 0x2028 || n = 0x2029 || n = 0x202F || n = 0x205F
    || n = 0x3000

/-- The blanks that separate tokens in CSS: space, tab, line feed, form feed, carriage return. -/
def isCssBlank (c : Char) : Bool :=
  c = ' ' || c = '\t' || c = '\n' || c = '\x0c' || c = '\r'

namespace Text

def trimStart (t : Text) : Text := t.dropWhile isBlank

def trimEnd (t : Text) : Text := (t.reverse.dropWhile isBlank).reverse

def trim (t : Text) : Text := trimEnd (trimStart t)

/-- The words of a text between separators, after the characters `read` of a first one, last first.
-/
def wordsFrom (isSeparator : Char → Bool) (read : Text) : Text → List Text
  | [] => if read.isEmpty then [] else [read.reverse]
  | c :: r =>
    if isSeparator c then
      if read.isEmpty then wordsFrom isSeparator [] r
      else read.reverse :: wordsFrom isSeparator [] r
    else wordsFrom isSeparator (c :: read) r

def wordsBy (isSeparator : Char → Bool) (t : Text) : List Text := wordsFrom isSeparator [] t

def words (t : Text) : List Text := wordsBy isBlank t

theorem isBlank_of_isCssBlank {c : Char} (h : isCssBlank c = true) : isBlank c = true := by
  simp only [isCssBlank, Bool.or_eq_true, decide_eq_true_eq] at h
  rcases h with (((rfl | rfl) | rfl) | rfl) | rfl <;> decide

theorem isBlank_head?_trimStart (t : Text) : (trimStart t).head?.any isBlank = false := by
  induction t with
  | nil => rfl
  | cons c r ih =>
    cases h : isBlank c with
    | true => simpa [trimStart, h] using ih
    | false => simp [trimStart, h]

theorem mem_wordsFrom {isSeparator : Char → Bool} {read t w : Text}
    (hread : ∀ c ∈ read, isSeparator c = false) (h : w ∈ wordsFrom isSeparator read t) :
    w ≠ [] ∧ ∀ c ∈ w, isSeparator c = false := by
  induction t generalizing read with
  | nil =>
    cases read with
    | nil => simp [wordsFrom] at h
    | cons d s =>
      simp only [wordsFrom, List.isEmpty_cons, Bool.false_eq_true, if_false,
        List.mem_singleton] at h
      subst h
      exact ⟨by simp, fun c hc => hread c (List.mem_reverse.1 hc)⟩
  | cons c r ih =>
    cases hc : isSeparator c with
    | false =>
      simp only [wordsFrom, hc, Bool.false_eq_true, if_false] at h
      refine ih (fun d hd => ?_) h
      rcases List.mem_cons.1 hd with rfl | hd
      · exact hc
      · exact hread d hd
    | true =>
      cases read with
      | nil =>
        simp only [wordsFrom, hc, if_true, List.isEmpty_nil] at h
        exact ih (by simp) h
      | cons d s =>
        simp only [wordsFrom, hc, if_true, List.isEmpty_cons, Bool.false_eq_true, if_false,
          List.mem_cons] at h
        rcases h with rfl | h
        · exact ⟨by simp, fun e he => hread e (List.mem_reverse.1 he)⟩
        · exact ih (by simp) h

theorem mem_wordsBy {isSeparator : Char → Bool} {t w : Text} (h : w ∈ wordsBy isSeparator t) :
    w ≠ [] ∧ ∀ c ∈ w, isSeparator c = false :=
  mem_wordsFrom (by simp) h

@[simp] theorem trimStart_nil : trimStart [] = [] := rfl

@[simp] theorem trim_nil : trim [] = [] := rfl

@[simp] theorem words_nil : words [] = [] := rfl

end Text
end AtomicCss
