set_option autoImplicit false

namespace AtomicCss

abbrev OrderedMap (κ ν : Type) := List (κ × ν)

namespace OrderedMap

variable {κ ν : Type} [DecidableEq κ]

def keys (m : OrderedMap κ ν) : List κ := m.map (·.1)

def get? (m : OrderedMap κ ν) (k : κ) : Option ν := (m.find? (·.1 = k)).map (·.2)

def put : OrderedMap κ ν → κ → ν → OrderedMap κ ν
  | [], k, v => [(k, v)]
  | e :: r, k, v => if e.1 = k then (k, v) :: r else e :: put r k v

def ofList (l : List (κ × ν)) : OrderedMap κ ν := l.foldl (fun m e => put m e.1 e.2) []

@[simp] theorem get?_nil (k : κ) : get? ([] : OrderedMap κ ν) k = none := rfl

theorem get?_cons (e : κ × ν) (r : OrderedMap κ ν) (k : κ) :
    get? (e :: r) k = if e.1 = k then some e.2 else get? r k := by
  by_cases h : e.1 = k <;> simp [get?, h]

theorem get?_put (m : OrderedMap κ ν) (k l : κ) (v : ν) :
    get? (put m k v) l = if k = l then some v else get? m l := by
  induction m with
  | nil => simp [put, get?_cons]
  | cons e r ih =>
    by_cases h : e.1 = k
    · subst h
      by_cases hl : e.1 = l <;> simp [put, get?_cons, hl]
    · by_cases hl : e.1 = l
      · subst hl
        have h' : ¬k = e.1 := fun hk => h hk.symm
        simp [put, h, h', get?_cons]
      · simp [put, h, get?_cons, hl, ih]

theorem keys_put (m : OrderedMap κ ν) (k : κ) (v : ν) :
    keys (put m k v) = if k ∈ keys m then keys m else keys m ++ [k] := by
  induction m with
  | nil => simp [put, keys]
  | cons e r ih =>
    by_cases h : e.1 = k
    · subst h
      simp [put, keys]
    · have h' : ¬k = e.1 := fun hk => h hk.symm
      by_cases hk : k ∈ keys r
      · rw [if_pos hk] at ih
        simp only [put, h, if_false]
        simp only [keys, List.map_cons, List.mem_cons, h', false_or] at ih hk ⊢
        simp [ih, hk]
      · rw [if_neg hk] at ih
        simp only [put, h, if_false]
        simp only [keys, List.map_cons, List.mem_cons, h', false_or] at ih hk ⊢
        simp [ih, hk]

end OrderedMap
end AtomicCss
