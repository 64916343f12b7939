import AtomicCss.Data.OrderedMap
import AtomicCss.Proofs.Data.Outcome
set_option autoImplicit false

namespace AtomicCss.OrderedMap

variable {κ ν : Type} [DecidableEq κ]

theorem put_of_not_mem {m : OrderedMap κ ν} {k : κ} (h : k ∉ m.keys) (v : ν) :
    m.put k v = m ++ [(k, v)] := by
  induction m with
  | nil => rfl
  | cons e r ih =>
    simp only [keys, List.map_cons, List.mem_cons, not_or] at h
    rw [put, if_neg fun he => h.1 he.symm, ih h.2]
    rfl

theorem foldl_put {l : List (κ × ν)} {m : OrderedMap κ ν} (h : (m.keys ++ l.map (·.1)).Nodup) :
    l.foldl (fun m e => m.put e.1 e.2) m = m ++ l := by
  induction l generalizing m with
  | nil => simp
  | cons e r ih =>
    have hk : e.1 ∉ m.keys := fun hm =>
      (List.nodup_append.1 h).2.2 e.1 hm e.1 (by simp) rfl
    have hkeys : keys (m ++ [(e.1, e.2)]) = m.keys ++ [e.1] := by simp [keys]
    rw [List.foldl_cons, put_of_not_mem hk, ih (by rw [hkeys]; simpa using h)]
    simp

theorem ofList_of_nodup {l : List (κ × ν)} (h : (l.map (·.1)).Nodup) : ofList l = l :=
  foldl_put h

theorem nodup_keys_put {m : OrderedMap κ ν} (h : m.keys.Nodup) (k : κ) (v : ν) :
    (m.put k v).keys.Nodup := by
  rw [keys_put]
  split
  · exact h
  next hk =>
    exact List.nodup_append.2 ⟨h, by simp, fun a ha b hb hab =>
      hk (List.mem_singleton.1 hb ▸ hab ▸ ha)⟩

theorem nodup_keys_ofList (l : List (κ × ν)) : (ofList l).keys.Nodup := by
  have key : ∀ m : OrderedMap κ ν, m.keys.Nodup →
      (l.foldl (fun m e => m.put e.1 e.2) m).keys.Nodup := by
    induction l with
    | nil => exact fun m hm => hm
    | cons e l ih => exact fun m hm => ih _ (nodup_keys_put hm e.1 e.2)
  exact key [] List.nodup_nil

theorem isSome_get? {m : OrderedMap κ ν} {k : κ} : (m.get? k).isSome ↔ k ∈ m.keys := by
  simp [get?, keys, List.mem_map]

theorem mem_of_get? {m : OrderedMap κ ν} {k : κ} {v : ν} (h : m.get? k = some v) : (k, v) ∈ m := by
  obtain ⟨e, he, rfl⟩ := Option.map_eq_some_iff.1 h
  have hk : e.1 = k := by simpa using List.find?_some he
  exact hk ▸ List.mem_of_find?_eq_some he

theorem get?_of_mem {m : OrderedMap κ ν} (hm : m.keys.Nodup) {k : κ} {v : ν} (h : (k, v) ∈ m) :
    m.get? k = some v := by
  induction m with
  | nil => cases h
  | cons e r ih =>
    obtain ⟨hk, hr⟩ := List.nodup_cons.1 hm
    rw [get?_cons]
    rcases List.mem_cons.1 h with rfl | h
    · simp
    · have hne : e.1 ≠ k := fun heq => hk (List.mem_map.2 ⟨(k, v), h, heq.symm⟩)
      rw [if_neg hne, ih hr h]

theorem get?_filter_keys (m : OrderedMap κ ν) (p : κ → Bool) (k : κ) :
    get? (m.filter (p ·.1)) k = if p k then get? m k else none := by
  induction m with
  | nil => simp
  | cons e r ih =>
    rw [get?_cons, List.filter_cons]
    by_cases hp : p e.1 = true
    · rw [if_pos hp, get?_cons, ih]
      by_cases hk : e.1 = k
      · rw [if_pos hk, if_pos hk, if_pos (hk ▸ hp)]
      · rw [if_neg hk, if_neg hk]
    · rw [if_neg hp, ih]
      by_cases hk : e.1 = k
      · rw [← hk, if_neg hp, if_neg hp]
      · rw [if_neg hk]

theorem get?_map_values {μ : Type} (m : OrderedMap κ ν) (f : ν → μ) (k : κ) :
    get? (m.map fun e => (e.1, f e.2)) k = (get? m k).map f := by
  induction m with
  | nil => rfl
  | cons e r ih =>
    rw [List.map_cons, get?_cons, get?_cons, ih]
    by_cases hk : e.1 = k
    · rw [if_pos hk, if_pos hk, Option.map_some]
    · rw [if_neg hk, if_neg hk]

omit [DecidableEq κ] in
theorem keys_zip {ks : List κ} {vs : List ν} (h : ks.length = vs.length) :
    OrderedMap.keys (ks.zip vs) = ks := List.map_fst_zip (Nat.le_of_eq h)

theorem map_get?_zip {ks : List κ} {vs : List ν} (hk : ks.Nodup) (h : ks.length = vs.length) :
    ks.map (get? (ks.zip vs)) = vs.map some := by
  have hkeys : (keys (ks.zip vs)).Nodup := (keys_zip h).symm ▸ hk
  calc ks.map (get? (ks.zip vs))
      = (keys (ks.zip vs)).map (get? (ks.zip vs)) := by rw [keys_zip h]
    _ = (ks.zip vs).map fun e => some e.2 := by
        rw [keys, List.map_map]
        exact List.map_congr_left fun e he => get?_of_mem hkeys he
    _ = ((ks.zip vs).map (·.2)).map some := by rw [List.map_map]; rfl
    _ = vs.map some := by rw [List.map_snd_zip (Nat.le_of_eq h.symm)]

theorem get?_of_perm {m n : OrderedMap κ ν} (hm : m.keys.Nodup) (h : m.Perm n) (k : κ) :
    m.get? k = n.get? k := by
  have hn : n.keys.Nodup := (h.map Prod.fst).nodup_iff.1 hm
  ext v
  exact ⟨fun hv => get?_of_mem hn (h.mem_iff.1 (mem_of_get? hv)),
    fun hv => get?_of_mem hm (h.mem_iff.2 (mem_of_get? hv))⟩

theorem mapM_get?_of_perm {m : OrderedMap κ ν} {ks : List κ} {vs : List ν} (hk : ks.Nodup)
    (hlength : ks.length = vs.length) (h : m.Perm (ks.zip vs)) :
    m.keys.Perm ks ∧ ks.mapM m.get? = some vs := by
  have hkeys : m.keys.Perm ks := keys_zip hlength ▸ h.map Prod.fst
  refine ⟨hkeys, ?_⟩
  rw [mapM_eq_some, ← map_get?_zip hk hlength]
  exact List.map_congr_left fun k _ => get?_of_perm (hkeys.nodup_iff.2 hk) h k

theorem exists_mem_of_mapM_get? {m : OrderedMap κ ν} {ks : List κ} {vs : List ν}
    (h : ks.mapM m.get? = some vs) {k : κ} (hk : k ∈ ks) : ∃ v, (k, v) ∈ m := by
  have hmem : m.get? k ∈ vs.map some := mapM_eq_some.1 h ▸ List.mem_map_of_mem (f := m.get?) hk
  obtain ⟨v, _, hv⟩ := List.mem_map.1 hmem
  exact ⟨v, mem_of_get? hv.symm⟩

theorem mapM_get?_of_get? {m n : OrderedMap κ ν} {ks : List κ} {vs : List ν}
    (h : ∀ k ∈ ks, ∀ v, n.get? k = some v → m.get? k = some v)
    (hn : ks.mapM n.get? = some vs) : ks.mapM m.get? = some vs := by
  rw [mapM_eq_some] at hn ⊢
  rw [← hn]
  refine List.map_congr_left fun k hk => ?_
  have hmem : n.get? k ∈ vs.map some := hn ▸ List.mem_map_of_mem (f := n.get?) hk
  obtain ⟨v, _, hv⟩ := List.mem_map.1 hmem
  rw [← hv, h k hk v hv.symm]

end AtomicCss.OrderedMap
