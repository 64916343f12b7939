import AtomicCss.Input.JsonDocument
set_option autoImplicit false

/-!
Documents of bindings as texts: what may stand for a character of a literal, and where spaces may
stand. Every such text is read as the bindings that it states (`Json.IsDocument.document_eq`).
-/

namespace AtomicCss

/-- A binding with its styles in the order in which a document states them. -/
inductive StatedBinding where
  | text (t : Text)
  | list (l : List Text)
  | styles (l : List (Text × Text))
  deriving DecidableEq, Repr

def StatedBinding.binding : StatedBinding → Binding
  | .text t => .text t
  | .list l => .list l
  | .styles l => .styles (.ofList l)

namespace Json

abbrev Spaces (v : Text) : Prop := ∀ c ∈ v, isSpace c = true

/-- What may stand for one character in a literal. -/
inductive SpellsChar : Text → Char → Prop where
  | plain {c : Char} : 0x20 ≤ c.toNat → c ≠ '"' → c ≠ '\\' → SpellsChar [c] c
  | letter {e c : Char} : unescape? e = some c → SpellsChar ['\\', e] c
  | number {a b c d : Char} {n : Nat} : hexNumber? [a, b, c, d] = some n →
      isHighSurrogate n = false → isLowSurrogate n = false →
      SpellsChar ['\\', 'u', a, b, c, d] (Char.ofNat n)
  | pair {a b c d e f g h : Char} {high low : Nat} : hexNumber? [a, b, c, d] = some high →
      isHighSurrogate high = true → hexNumber? [e, f, g, h] = some low →
      isLowSurrogate low = true →
      SpellsChar ['\\', 'u', a, b, c, d, '\\', 'u', e, f, g, h] (joinSurrogates high low)

inductive Spells : Text → Text → Prop where
  | nil : Spells [] []
  | cons {s t u : Text} {c : Char} : SpellsChar s c → Spells t u → Spells (s ++ t) (c :: u)

/-- A literal of a text, between its quotes. -/
inductive IsLiteral : Text → Text → Prop where
  | mk {s t : Text} : Spells s t → IsLiteral ('"' :: (s ++ ['"'])) t

/-- A key and a value, with spaces around the colon. -/
inductive IsMember {α : Type} (IsValue : Text → α → Prop) : Text → Text × α → Prop where
  | mk {k v w x key : Text} {a : α} : IsLiteral k key → Spaces v → Spaces w → IsValue x a →
      IsMember IsValue (k ++ (v ++ ':' :: (w ++ x))) (key, a)

/-- Items with commas between them and spaces around them. A comma comes first unless `isFirst`. -/
inductive Items {α : Type} (IsItem : Text → α → Prop) : Bool → Text → List α → Prop where
  | nil {isFirst : Bool} {v : Text} : Spaces v → Items IsItem isFirst v []
  | first {v x t : Text} {a : α} {l : List α} : Spaces v → IsItem x a → Items IsItem false t l →
      Items IsItem true (v ++ (x ++ t)) (a :: l)
  | next {v w x t : Text} {a : α} {l : List α} : Spaces v → Spaces w → IsItem x a →
      Items IsItem false t l → Items IsItem false (v ++ ',' :: (w ++ (x ++ t))) (a :: l)

inductive States : Text → StatedBinding → Prop where
  | text {x t : Text} : IsLiteral x t → States x (.text t)
  | list {x : Text} {l : List Text} : Items IsLiteral true x l →
      States ('[' :: (x ++ [']'])) (.list l)
  | styles {x : Text} {l : List (Text × Text)} : Items (IsMember IsLiteral) true x l →
      States ('{' :: (x ++ ['}'])) (.styles l)

inductive IsDocument : Text → List (Text × StatedBinding) → Prop where
  | mk {v x w : Text} {l : List (Text × StatedBinding)} : Spaces v →
      Items (IsMember States) true x l → Spaces w → IsDocument (v ++ '{' :: (x ++ '}' :: w)) l

variable {v x r s t : Text}

theorem spaces_nil : Spaces [] := fun _ hc => absurd hc List.not_mem_nil

theorem skipSpace_append (hv : Spaces v) (t : Text) : skipSpace (v ++ t) = skipSpace t :=
  List.dropWhile_append_of_pos hv

theorem SpellsChar.unquote?_eq {c : Char} (h : SpellsChar s c) (r : Text) :
    unquote? (s ++ r) = (unquote? r).map fun p => (c :: p.1, p.2) := by
  cases h with
  | plain hc hquote hslash =>
    rw [List.singleton_append, unquote?]
    · simp [Nat.not_lt.2 hc, hslash]
    · simpa using hquote
    · rintro a b c d r rfl
      exact absurd rfl hslash
    · rintro d r rfl
      exact absurd rfl hslash
  | @letter e c he =>
    have hu : e ≠ 'u' := by
      rintro rfl
      cases he
    exact unquote?_letter hu he r
  | number hn hhigh hlow =>
    simp only [List.cons_append, List.nil_append]
    rw [unquote?, hn]
    simp only [Option.bind_eq_bind, Option.bind_some, hhigh, hlow, Bool.false_eq_true, if_false]
    cases unquote? r <;> rfl
  | pair hn hhigh hm hlow =>
    simp only [List.cons_append, List.nil_append]
    rw [unquote?, hn]
    simp only [Option.bind_eq_bind, Option.bind_some, hhigh, hm, hlow, if_true]
    cases unquote? r <;> rfl

theorem Spells.unquote?_eq (h : Spells s t) (r : Text) :
    unquote? (s ++ '"' :: r) = some (t, r) := by
  induction h with
  | nil => exact unquote?_close r
  | cons hc _ ih => rw [List.append_assoc, hc.unquote?_eq, ih]; rfl

theorem IsLiteral.atom?_eq (h : IsLiteral x t) (r : Text) :
    atom? (x ++ r) = some (.string t, r) := by
  cases h with
  | mk h =>
    rw [List.cons_append, atom?, List.append_assoc, List.singleton_append, h.unquote?_eq]
    rfl

theorem isLiteral_of_plain (h : ∀ c ∈ t, 0x20 ≤ c.toNat ∧ c ≠ '"' ∧ c ≠ '\\') :
    IsLiteral ('"' :: (t ++ ['"'])) t := by
  refine .mk ?_
  induction t with
  | nil => exact .nil
  | cons c t ih =>
    rw [List.forall_mem_cons] at h
    exact .cons (.plain h.1.1 h.1.2.1 h.1.2.2) (ih h.2)

theorem IsLiteral.head? (h : IsLiteral x t) : x.head? = some '"' := by
  cases h
  rfl

theorem skipSpace_quoted (hv : Spaces v) (h : x.head? = some '"') : skipSpace (v ++ x) = x := by
  obtain ⟨y, rfl⟩ := List.head?_eq_some_iff.1 h
  exact skipSpace_append hv _

theorem IsLiteral.value?_eq (h : IsLiteral x t) (hv : Spaces v) (fuel depth : Nat) (r : Text) :
    value? fuel depth (v ++ (x ++ r)) = some (.string t, r) := by
  obtain ⟨y, hy⟩ := List.head?_eq_some_iff.1 h.head?
  have hskip : skipSpace (v ++ (x ++ r)) = '"' :: (y ++ r) := by
    rw [hy]
    exact skipSpace_append hv _
  have hatom := h.atom?_eq r
  rw [hy] at hatom
  rw [value?, hskip]
  · exact hatom
  · rw [hskip]
    rintro _ _ _ _ _ ⟨⟩
  · rw [hskip]
    rintro _ _ _ _ _ ⟨⟩

theorem IsLiteral.key?_eq (h : IsLiteral x t) (hv : Spaces v) (r : Text) :
    key? (x ++ (v ++ ':' :: r)) = some (t, r) := by
  cases h with
  | mk h =>
    have hcolon : skipSpace (v ++ ':' :: r) = ':' :: r := skipSpace_append hv _
    rw [List.cons_append, key?, List.append_assoc, List.singleton_append, h.unquote?_eq]
    simp only [Option.bind_eq_bind, Option.bind_some, hcolon]

section

variable {α : Type} {IsItem : Text → α → Prop} {b : Bool} {a : α} {l : List α}

theorem IsMember.head? {e : Text × α} (h : IsMember IsItem x e) : x.head? = some '"' := by
  cases h with
  | mk hk => rw [List.head?_append, hk.head?]; rfl

theorem IsMember.key?_eq {e : Text × α} (h : IsMember IsItem x e) :
    ∃ w y, Spaces w ∧ IsItem y e.2 ∧ y.length < x.length ∧
      ∀ r, key? (x ++ r) = some (e.1, w ++ (y ++ r)) := by
  cases h with
  | @mk k v w y key a hk hv hw hy =>
    refine ⟨w, y, hw, hy, ?_, fun r => ?_⟩
    · simp only [List.length_append, List.length_cons]
      omega
    · have hsplit : k ++ (v ++ ':' :: (w ++ y)) ++ r = k ++ (v ++ ':' :: (w ++ (y ++ r))) := by simp
      rw [hsplit, hk.key?_eq hv]

theorem Items.cons_inv (h : Items IsItem b x (a :: l))
    (hquote : ∀ y a, IsItem y a → y.head? = some '"') :
    ∃ y t, IsItem y a ∧ Items IsItem false t l ∧ y.length + t.length ≤ x.length ∧
      ∀ r, ∃ s, skipSpace (x ++ r) = s ∧ s.head? ≠ some ']' ∧ s.head? ≠ some '\x7d' ∧
        comma? b s = some (y ++ (t ++ r)) := by
  cases h with
  | @first v y t _ _ hv hy ht =>
    have hhead : ∀ r, (y ++ (t ++ r)).head? = some '"' := fun r => by
      rw [List.head?_append, hquote y a hy]
      rfl
    refine ⟨y, t, hy, ht, ?_, fun r => ⟨y ++ (t ++ r), ?_, ?_, ?_, rfl⟩⟩
    · simp only [List.length_append]
      omega
    · rw [List.append_assoc, List.append_assoc, skipSpace_quoted hv (hhead r)]
    · simp [hhead]
    · simp [hhead]
  | @next v w y t _ _ hv hw hy ht =>
    have hhead : ∀ r, (y ++ (t ++ r)).head? = some '"' := fun r => by
      rw [List.head?_append, hquote y a hy]
      rfl
    refine ⟨y, t, hy, ht, ?_, fun r => ⟨',' :: (w ++ (y ++ (t ++ r))), ?_, by simp, by simp, ?_⟩⟩
    · simp only [List.length_append, List.length_cons]
      omega
    · have hcomma : skipSpace (v ++ ',' :: (w ++ (y ++ (t ++ r)))) =
          ',' :: (w ++ (y ++ (t ++ r))) := skipSpace_append hv _
      simpa using hcomma
    · exact congrArg some (skipSpace_quoted hw (hhead r))

theorem Items.spaces (h : Items IsItem b x []) : Spaces x := by
  cases h
  assumption

end

theorem IsLiteral.length_pos (h : IsLiteral x t) : 0 < x.length := by
  cases h
  exact Nat.succ_pos _

theorem elements?_eq {fuel depth : Nat} {b : Bool} {l : List Text} (h : Items IsLiteral b x l)
    (hfuel : x.length < fuel) (r : Text) :
    elements? fuel depth b (x ++ ']' :: r) = some (l.map .string, r) := by
  induction l generalizing fuel b x with
  | nil =>
    obtain ⟨n, rfl⟩ := Nat.exists_eq_add_of_lt hfuel
    have hclose : skipSpace (x ++ ']' :: r) = ']' :: r := skipSpace_append h.spaces _
    rw [elements?.eq_def, hclose]
    rfl
  | cons a l ih =>
    obtain ⟨n, rfl⟩ := Nat.exists_eq_add_of_lt hfuel
    obtain ⟨y, t, hy, ht, hlength, hskip⟩ := h.cons_inv fun _ _ hy => hy.head?
    obtain ⟨s, hs, hclose, -, hcomma⟩ := hskip (']' :: r)
    have hpos := hy.length_pos
    have hvalue := hy.value?_eq spaces_nil (x.length + n) depth (t ++ ']' :: r)
    rw [List.nil_append] at hvalue
    rw [elements?.eq_def, hs]
    split
    next => simp at hclose
    next heq _ =>
      cases heq
      simp only [hcomma, hvalue, ih ht (show t.length < x.length + n by omega), Option.bind_eq_bind,
        Option.bind_some]
      rfl
    next heq => cases heq

theorem members?_eq {fuel depth : Nat} {b : Bool} {l : List (Text × Text)}
    (h : Items (IsMember IsLiteral) b x l) (hfuel : x.length < fuel) (r : Text) :
    members? fuel depth b (x ++ '}' :: r) = some (l.map fun e => (e.1, .string e.2), r) := by
  induction l generalizing fuel b x with
  | nil =>
    obtain ⟨n, rfl⟩ := Nat.exists_eq_add_of_lt hfuel
    have hclose : skipSpace (x ++ '}' :: r) = '}' :: r := skipSpace_append h.spaces _
    rw [members?.eq_def, hclose]
    rfl
  | cons a l ih =>
    obtain ⟨n, rfl⟩ := Nat.exists_eq_add_of_lt hfuel
    obtain ⟨y, t, hy, ht, hlength, hskip⟩ := h.cons_inv fun _ _ hy => hy.head?
    obtain ⟨s, hs, -, hclose, hcomma⟩ := hskip ('}' :: r)
    obtain ⟨w, z, hw, hz, hlt, hkey⟩ := hy.key?_eq
    have hvalue := hz.value?_eq hw (x.length + n) depth (t ++ '}' :: r)
    rw [members?.eq_def, hs]
    split
    next => simp at hclose
    next heq _ =>
      cases heq
      simp only [hcomma, hkey, hvalue, ih ht (show t.length < x.length + n by omega),
        Option.bind_eq_bind, Option.bind_some]
      rfl
    next heq => cases heq

theorem mapM_text?_strings (l : List Text) : (l.map string).mapM text? = some l := by
  induction l with
  | nil => rfl
  | cons t l ih =>
    rw [List.map_cons, List.mapM_cons, ih]
    rfl

theorem mapM_text?_members (l : List (Text × Text)) :
    (l.map fun e => (e.1, string e.2)).mapM (fun m => (text? m.2).map (m.1, ·)) = some l := by
  induction l with
  | nil => rfl
  | cons e l ih =>
    rw [List.map_cons, List.mapM_cons, ih]
    rfl

theorem States.value?_eq {a : StatedBinding} (h : States x a) (hv : Spaces v) {fuel : Nat}
    (hfuel : x.length ≤ fuel) (depth : Nat) (r : Text) :
    ∃ j, value? fuel (depth + 1) (v ++ (x ++ r)) = some (j, r) ∧ j.binding? = some a.binding := by
  cases h with
  | text h => exact ⟨_, h.value?_eq hv fuel _ r, rfl⟩
  | @list x l h =>
    rw [List.length_cons, List.length_append, List.length_singleton] at hfuel
    obtain ⟨n, rfl⟩ := Nat.exists_eq_add_of_lt hfuel
    have hskip : skipSpace (v ++ ('[' :: (x ++ [']']) ++ r)) = '[' :: (x ++ ']' :: r) := by
      rw [skipSpace_append hv, List.cons_append, List.append_assoc]
      rfl
    refine ⟨.array (l.map .string), ?_, ?_⟩
    · rw [value?.eq_def, hskip]
      show (elements? (x.length + 1 + n) depth true (x ++ ']' :: r)).map
        (fun p => (array p.1, p.2)) = _
      rw [elements?_eq h (by omega)]
      rfl
    · rw [binding?, mapM_text?_strings]
      rfl
  | @styles x l h =>
    rw [List.length_cons, List.length_append, List.length_singleton] at hfuel
    obtain ⟨n, rfl⟩ := Nat.exists_eq_add_of_lt hfuel
    have hskip : skipSpace (v ++ ('{' :: (x ++ ['}']) ++ r)) = '{' :: (x ++ '}' :: r) := by
      rw [skipSpace_append hv, List.cons_append, List.append_assoc]
      rfl
    refine ⟨.object (l.map fun e => (e.1, .string e.2)), ?_, ?_⟩
    · rw [value?.eq_def, hskip]
      show (members? (x.length + 1 + n) depth true (x ++ '}' :: r)).map
        (fun p => (object p.1, p.2)) = _
      rw [members?_eq h (by omega)]
      rfl
    · rw [binding?, mapM_text?_members]
      rfl

theorem bindings_eq {fuel : Nat} {b : Bool} {l : List (Text × StatedBinding)}
    (h : Items (IsMember States) b x l) (hfuel : x.length < fuel) (r : Text) :
    bindings fuel b (x ++ '}' :: r) = .ok (l.map fun e => (e.1, e.2.binding), r) := by
  induction l generalizing fuel b x with
  | nil =>
    obtain ⟨n, rfl⟩ := Nat.exists_eq_add_of_lt hfuel
    have hclose : skipSpace (x ++ '}' :: r) = '}' :: r := skipSpace_append h.spaces _
    rw [bindings.eq_def, hclose]
    rfl
  | cons a l ih =>
    obtain ⟨n, rfl⟩ := Nat.exists_eq_add_of_lt hfuel
    obtain ⟨y, t, hy, ht, hlength, hskip⟩ := h.cons_inv fun _ _ hy => hy.head?
    obtain ⟨s, hs, -, hclose, hcomma⟩ := hskip ('}' :: r)
    obtain ⟨w, z, hw, hz, hlt, hkey⟩ := hy.key?_eq
    obtain ⟨j, hvalue, hbinding⟩ := hz.value?_eq hw (show z.length ≤ x.length + n by omega)
      (maxDepth - 2) (t ++ '}' :: r)
    rw [bindings.eq_def, hs]
    split
    next => simp at hclose
    next heq _ =>
      cases heq
      have hread : value? (x.length + n) (maxDepth - 1) (w ++ (z ++ (t ++ '}' :: r))) =
          some (j, t ++ '}' :: r) := hvalue
      simp only [hcomma, Option.bind_some, hkey, hread, hbinding,
        ih ht (show t.length < x.length + n by omega)]
      rfl
    next heq => cases heq

theorem IsDocument.document_eq {l : List (Text × StatedBinding)} (h : IsDocument t l) :
    document t = .ok (l.map fun e => (e.1, e.2.binding)) := by
  cases h with
  | @mk v x w l hv hx hw =>
    have hskip : skipSpace (v ++ '{' :: (x ++ '}' :: w)) = '{' :: (x ++ '}' :: w) :=
      skipSpace_append hv _
    have hrest : skipSpace w = [] := by
      rw [← List.append_nil w]
      exact skipSpace_append hw []
    have hfuel : x.length < (x ++ '}' :: w).length + 1 := by
      rw [List.length_append]
      omega
    have hbindings := bindings_eq hx hfuel w
    rw [document, hskip]
    simp only [hbindings, hrest]
    rfl

end Json
end AtomicCss
