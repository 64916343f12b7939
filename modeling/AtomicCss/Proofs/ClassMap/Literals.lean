import AtomicCss.ClassMap.Module
import AtomicCss.Json.Reader
set_option autoImplicit false

namespace AtomicCss

theorem Text.join_cons_eq_flatMap (separator s : Text) (l : List Text) :
    join separator (s :: l) = s ++ l.flatMap (separator ++ ·) := by
  induction l generalizing s with
  | nil => simp
  | cons t l ih => rw [join_cons_cons, ih, List.flatMap_cons]; simp

theorem Text.length_le_flatMap {α : Type} {l : List α} {f : α → Text} (h : ∀ a, f a ≠ []) :
    l.length ≤ (l.flatMap f).length := by
  induction l with
  | nil => exact Nat.le_refl _
  | cons a l ih =>
    have ha := List.length_pos_iff.2 (h a)
    rw [List.flatMap_cons, List.length_append, List.length_cons]
    omega

namespace Json

def memberLine (e : Text × Text) : Text :=
  '\n' :: ("  ".toList ++ quote e.1 ++ ": ".toList ++ quote e.2)

theorem atom?_quote (t r : Text) : atom? (quote t ++ r) = some (.string t, r) := by
  rw [quote, List.cons_append, atom?, List.append_assoc, List.singleton_append,
    unquote?_flatMap_escape]
  rfl

theorem value?_quote {s t r : Text} (h : skipSpace s = quote t ++ r) (fuel depth : Nat) :
    value? fuel depth s = some (.string t, r) := by
  rw [value?, h]
  · exact atom?_quote t r
  · rw [h]
    rintro _ _ _ _ _ ⟨⟩
  · rw [h]
    rintro _ _ _ _ _ ⟨⟩

theorem key?_quote (t r : Text) : key? (quote t ++ ':' :: r) = some (t, r) := by
  rw [quote, List.cons_append, key?, List.append_assoc, List.singleton_append,
    unquote?_flatMap_escape]
  rfl

theorem members?_close (fuel depth : Nat) (isFirst : Bool) (r : Text) :
    members? (fuel + 1) depth isFirst ('\n' :: '}' :: r) = some ([], r) := by
  rw [members?]
  rfl

theorem skipSpace_memberLine (e : Text × Text) (r : Text) :
    skipSpace (memberLine e ++ r) = quote e.1 ++ ':' :: (' ' :: (quote e.2 ++ r)) := by
  simp only [memberLine, List.cons_append, List.append_assoc]
  rfl

theorem members?_memberLine {fuel depth : Nat} {e : Text × Text} {r rest : Text}
    {l : List (Text × Json)} (h : members? fuel depth false r = some (l, rest)) (isFirst : Bool) :
    members? (fuel + 1) depth isFirst ((if isFirst then [] else [',']) ++ (memberLine e ++ r)) =
      some ((e.1, .string e.2) :: l, rest) := by
  have hline : ∃ s, skipSpace ((if isFirst then [] else [',']) ++ (memberLine e ++ r)) = s ∧
      s.head? ≠ some '\x7d' ∧
      comma? isFirst s = some (quote e.1 ++ ':' :: (' ' :: (quote e.2 ++ r))) := by
    cases isFirst with
    | true => exact ⟨_, skipSpace_memberLine e r, by simp [quote], rfl⟩
    | false => exact ⟨_, rfl, by rintro ⟨⟩, congrArg some (skipSpace_memberLine e r)⟩
  obtain ⟨s, hs, hopen, hcomma⟩ := hline
  have hvalue : value? fuel depth (' ' :: (quote e.2 ++ r)) = some (.string e.2, r) :=
    value?_quote rfl fuel depth
  rw [members?.eq_def, hs]
  split
  next => simp at hopen
  next heq _ =>
    cases heq
    simp only [hcomma, key?_quote, hvalue, h, Option.bind_eq_bind, Option.bind_some]
  next heq => cases heq

theorem members?_flatMap_memberLine (l : List (Text × Text)) (fuel depth : Nat) (r : Text) :
    members? (l.length + 1 + fuel) depth false
        (l.flatMap (fun e => ',' :: memberLine e) ++ '\n' :: '\x7d' :: r) =
      some (l.map fun e => (e.1, .string e.2), r) := by
  induction l with
  | nil => rw [List.length_nil, Nat.zero_add, Nat.add_comm]; exact members?_close fuel depth false r
  | cons e l ih =>
    have hfuel : (e :: l).length + 1 + fuel = (l.length + 1 + fuel) + 1 := by
      rw [List.length_cons]
      omega
    rw [hfuel, List.flatMap_cons, List.append_assoc]
    exact members?_memberLine ih false

end Json

namespace ClassMap

variable {m : ClassMap} {space : Text}

theorem objectLiteral_of_nil (h : m.entries space = []) :
    m.objectLiteral space = ['{', '\x7d'] := by
  simp [objectLiteral, h]

theorem objectLiteral_of_cons {e : Text × Text} {l : List (Text × Text)}
    (h : m.entries space = e :: l) :
    m.objectLiteral space = '{' :: (Json.memberLine e ++
      (l.flatMap (fun e => ',' :: Json.memberLine e) ++ ['\n', '\x7d'])) := by
  simp only [objectLiteral, h, List.map_cons, List.isEmpty_cons, Text.join_cons_eq_flatMap,
    List.flatMap_map]
  simp [Json.memberLine, List.flatMap]

theorem length_entries_le (m : ClassMap) (space : Text) :
    (m.entries space).length + 1 ≤ (m.objectLiteral space).length := by
  cases h : m.entries space with
  | nil => simp [objectLiteral_of_nil h]
  | cons e l =>
    have hlines := Text.length_le_flatMap (l := l) fun e => List.cons_ne_nil ',' (Json.memberLine e)
    rw [objectLiteral_of_cons h]
    simp only [List.length_cons, List.length_append]
    omega

theorem value?_objectLiteral (m : ClassMap) (space : Text) {fuel : Nat}
    (hfuel : (m.entries space).length + 2 ≤ fuel) (depth : Nat) (r : Text) :
    Json.value? fuel (depth + 1) (m.objectLiteral space ++ r) =
      some (.object ((m.entries space).map fun e => (e.1, .string e.2)), r) := by
  obtain ⟨k, rfl⟩ := Nat.exists_eq_add_of_le' hfuel
  cases h : m.entries space with
  | nil =>
    rw [objectLiteral_of_nil h]
    rfl
  | cons e l =>
    have hlines := Json.members?_flatMap_memberLine l k depth r
    have hmembers : Json.members? (l.length + 1 + k + 1) depth true (Json.memberLine e ++
        (l.flatMap (fun e => ',' :: Json.memberLine e) ++ '\n' :: '\x7d' :: r)) =
          some ((e.1, .string e.2) :: l.map fun e => (e.1, .string e.2), r) :=
      Json.members?_memberLine hlines true
    have hlength : k + ((e :: l).length + 2) = (l.length + 1 + k + 1) + 1 := by
      rw [List.length_cons]
      omega
    have htext : m.objectLiteral space ++ r = '{' :: (Json.memberLine e ++
        (l.flatMap (fun e => ',' :: Json.memberLine e) ++ '\n' :: '\x7d' :: r)) := by
      rw [objectLiteral_of_cons h]
      simp
    rw [htext, hlength, Json.value?.eq_def]
    exact congrArg (Option.map fun p => (Json.object p.1, p.2)) hmembers

end ClassMap
end AtomicCss
