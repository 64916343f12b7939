import AtomicCss.Model.Basic
import AtomicCss.Proofs.Data.Positions
set_option autoImplicit false

namespace AtomicCss.Model

structure WellFormed (m : Model) : Prop where
  /-- The key index finds each record under its key. So no two records have one key. -/
  keyIndex : ∀ k i, m.keyIndex.get? k = some i ↔ m.records[i]?.map Record.key = some k
  placed : ∀ r ∈ m.records,
    r.site.scope < m.scopes.length ∧ r.site.name < m.names.length ∧ 1 ≤ r.repeats
  byScope_length : m.byScope.length = m.scopes.length
  byScope : ∀ s, m.byScope.getD s [] = positions (fun r => r.site.scope = s) m.records
  byName_length : m.byName.length = m.names.length
  byName : ∀ n, m.byName.getD n [] = positions (fun r => r.site.name = n) m.records
  root : m.scopes[0]? = some ⟨rootScope, none, []⟩
  nested : ∀ i s, m.scopes[i]? = some s → 0 < i → s.id = i ∧ ∃ p < i, s.parent = some p
  children_length : m.children.length = m.scopes.length
  children : ∀ s, m.childrenOf s = positions (fun t => t.parent = some s) m.scopes
  /-- The scope index finds each scope under its parent and header key. So siblings differ in their
  header keys. -/
  scopeIndex : ∀ p k i, m.scopeIndex.get? (p, k) = some i ↔
    ∃ s, m.scopes[i]? = some s ∧ s.parent = some p ∧ Header.key s.header = k

theorem wellFormed_empty : empty.WellFormed where
  keyIndex := by simp [empty]
  placed := by simp [empty]
  byScope_length := rfl
  byScope s := by cases s <;> rfl
  byName_length := rfl
  byName n := by cases n <;> rfl
  root := rfl
  nested i s h hi := by
    cases i with
    | zero => omega
    | succ i => simp [empty] at h
  children_length := rfl
  children s := by cases s <;> rfl
  scopeIndex p k i := by
    cases i with
    | zero => simp [empty]
    | succ i => simp [empty]

def siblingKey? (s : Scope) : Option (ScopeId × Text) :=
  s.parent.map fun p => (p, Header.key s.header)

theorem exists_sibling {scopes : List Scope} {i : Nat} {p : ScopeId} {k : Text} :
    (∃ s, scopes[i]? = some s ∧ s.parent = some p ∧ Header.key s.header = k) ↔
      scopes[i]?.bind siblingKey? = some (p, k) := by
  simp [siblingKey?, Option.bind_eq_some_iff, Option.map_eq_some_iff]

namespace WellFormed

variable {m : Model} (h : m.WellFormed)
include h

theorem scopes_pos : 0 < m.scopes.length := (List.getElem?_eq_some_iff.1 h.root).1

theorem recordsInScope_eq (s : ScopeId) :
    m.recordsInScope s = m.records.filter fun r => r.site.scope = s := by
  rw [recordsInScope, h.byScope, recordsAt, filterMap_positions]

theorem recordsForName_eq (n : NameId) :
    m.recordsForName n = m.records.filter fun r => r.site.name = n := by
  rw [recordsForName, h.byName, recordsAt, filterMap_positions]

theorem mem_recordsInScope {s : ScopeId} {r : Record} :
    r ∈ m.recordsInScope s ↔ r ∈ m.records ∧ r.site.scope = s := by
  simp [h.recordsInScope_eq]

theorem mem_recordsForName {n : NameId} {r : Record} :
    r ∈ m.recordsForName n ↔ r ∈ m.records ∧ r.site.name = n := by
  simp [h.recordsForName_eq]

theorem position_unique {i j : Nat} {r s : Record} (hi : m.records[i]? = some r)
    (hj : m.records[j]? = some s) (hk : r.key = s.key) : i = j := by
  have hki := (h.keyIndex r.key i).2 (by simp [hi])
  have hkj := (h.keyIndex r.key j).2 (by simp [hj, hk])
  rw [hki] at hkj
  exact Option.some.inj hkj

theorem eq_of_key_eq {r s : Record} (hr : r ∈ m.records) (hs : s ∈ m.records)
    (hk : r.key = s.key) : r = s := by
  obtain ⟨i, hi⟩ := List.mem_iff_getElem?.1 hr
  obtain ⟨j, hj⟩ := List.mem_iff_getElem?.1 hs
  have hij := h.position_unique hi hj hk
  subst hij
  rw [hi] at hj
  exact Option.some.inj hj

theorem mem_childrenOf {s i : ScopeId} :
    i ∈ m.childrenOf s ↔ ∃ t, m.scopes[i]? = some t ∧ t.parent = some s := by
  rw [h.children, mem_positions]
  simp

theorem addName (style : StyleName) : (m.addName style).WellFormed where
  keyIndex := h.keyIndex
  placed r hr := by
    obtain ⟨hs, hn, hr⟩ := h.placed r hr
    refine ⟨hs, ?_, hr⟩
    simp only [Model.addName, List.length_append, List.length_singleton]
    exact Nat.lt_succ_of_lt hn
  byScope_length := h.byScope_length
  byScope := h.byScope
  byName_length := by simp [Model.addName, h.byName_length]
  byName n := (getD_append_nil _ _).trans (h.byName n)
  root := h.root
  nested := h.nested
  children_length := h.children_length
  children := h.children
  scopeIndex := h.scopeIndex

theorem insert {r : Record} (hs : r.site.scope < m.scopes.length)
    (hn : r.site.name < m.names.length) (hr : 1 ≤ r.repeats) : (m.insert r).WellFormed := by
  unfold Model.insert
  cases hk : m.keyIndex.get? r.key with
  | some i =>
    obtain ⟨old, hold, hkey⟩ := Option.map_eq_some_iff.1 ((h.keyIndex _ _).1 hk)
    have hsite : r.site = old.site := (congrArg Prod.fst hkey).symm
    refine { h with
      keyIndex := fun k j => ?_
      placed := fun t ht => ?_
      byScope := fun s => ?_
      byName := fun n => ?_ }
    · rw [h.keyIndex, List.getElem?_modify]
      by_cases hj : i = j
      · subst hj
        simp [hold, hkey]
      · cases m.records[j]? <;> simp [hj]
    · obtain ⟨j, hj⟩ := List.mem_iff_getElem?.1 ht
      rw [List.getElem?_modify] at hj
      by_cases hij : i = j
      · subst hij
        simp only [hold, if_true, Option.map_eq_map, Option.map_some, Option.some.injEq] at hj
        subst hj
        exact ⟨hs, hn, hr⟩
      · simp only [hij, if_false, Option.map_eq_map, Option.map_id'] at hj
        exact h.placed t (List.mem_of_getElem? hj)
    · rw [h.byScope, positions_modify hold (by simp [hsite])]
    · rw [h.byName, positions_modify hold (by simp [hsite])]
  | none =>
    refine { h with
      keyIndex := fun k j => ?_
      placed := fun t ht => ?_
      byScope_length := ?_
      byScope := fun s => ?_
      byName_length := ?_
      byName := fun n => ?_ }
    · have hindex := h.keyIndex
      simp only [Option.map_eq_bind] at hindex ⊢
      exact get?_put_concat hindex rfl hk k j
    · rcases List.mem_append.1 ht with ht | ht
      · exact h.placed t ht
      · rw [List.mem_singleton.1 ht]
        exact ⟨hs, hn, hr⟩
    · rw [List.length_modify, h.byScope_length]
    · rw [getD_modify_append (by rw [h.byScope_length]; exact hs), h.byScope,
        positions_append_singleton]
      simp
    · rw [List.length_modify, h.byName_length]
    · rw [getD_modify_append (by rw [h.byName_length]; exact hn), h.byName,
        positions_append_singleton]
      simp

theorem resolveScope {parent : ScopeId} (hp : parent < m.scopes.length) (header : Text) :
    (m.resolveScope parent header).2.WellFormed := by
  unfold Model.resolveScope
  cases hk : m.scopeIndex.get? (parent, Header.key header) with
  | some i => exact h
  | none =>
    refine { h with
      placed := fun r hr => ?_
      byScope_length := ?_
      byScope := fun s => ?_
      root := ?_
      nested := fun i s hi hpos => ?_
      children_length := ?_
      children := fun s => ?_
      scopeIndex := fun p k i => ?_ }
    · obtain ⟨hs, hn, hr⟩ := h.placed r hr
      refine ⟨?_, hn, hr⟩
      simp only [List.length_append, List.length_singleton]
      exact Nat.lt_succ_of_lt hs
    · simp [h.byScope_length]
    · rw [getD_append_nil, h.byScope]
    · rw [List.getElem?_append_left h.scopes_pos, h.root]
    · rw [getElem?_concat] at hi
      split at hi
      next heq =>
        cases hi
        exact ⟨heq.symm, parent, heq ▸ hp, rfl⟩
      next => exact h.nested i s hi hpos
    · simp [h.children_length]
    · have hc : parent < m.children.length := by rw [h.children_length]; exact hp
      have hold : (m.children.modify parent (· ++ [m.scopes.length])).getD s [] =
          m.childrenOf s ++ if parent = s then [m.scopes.length] else [] :=
        getD_modify_append hc s
      rw [childrenOf]
      dsimp only
      rw [getD_append_nil, hold, h.children, positions_append_singleton]
      simp
    · have hindex := fun (k : ScopeId × Text) i => (h.scopeIndex k.1 k.2 i).trans exists_sibling
      exact (get?_put_concat hindex rfl hk (p, k) i).trans exists_sibling.symm

theorem warn (style : StyleName) (site : Site) (property : Text) :
    (m.warn style site property).WellFormed :=
  { h with }

end WellFormed

@[simp] theorem scopes_insert (m : Model) (r : Record) : (m.insert r).scopes = m.scopes := by
  unfold insert
  split <;> rfl

@[simp] theorem names_insert (m : Model) (r : Record) : (m.insert r).names = m.names := by
  unfold insert
  split <;> rfl

@[simp] theorem scopeIndex_insert (m : Model) (r : Record) :
    (m.insert r).scopeIndex = m.scopeIndex := by
  unfold insert
  split <;> rfl

@[simp] theorem names_resolveScope (m : Model) (parent : ScopeId) (header : Text) :
    (m.resolveScope parent header).2.names = m.names := by
  unfold resolveScope
  split <;> rfl

theorem declare_induct {p : Model → Prop} {m : Model} {style : StyleName} {site : Site}
    {repeats : Nat} {property value : Text} (hwarn : p (m.warn style site property))
    (hinsert : ∀ n : Model, p n → ∀ d ∈ Shorthand.expansion property value,
      p (n.insert ⟨site, repeats, d.1, d.2⟩)) :
    p (m.declare style site repeats property value) := by
  unfold declare
  generalize m.warn style site property = n at hwarn
  generalize Shorthand.expansion property value = l at hinsert
  induction l generalizing n with
  | nil => exact hwarn
  | cons d l ih =>
    have hfirst := hinsert n hwarn d List.mem_cons_self
    exact ih _ hfirst fun n hn e he => hinsert n hn e (List.mem_cons_of_mem _ he)

end AtomicCss.Model
