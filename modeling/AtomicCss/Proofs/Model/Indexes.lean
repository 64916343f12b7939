import AtomicCss.Proofs.Model.Reachable
set_option autoImplicit false

namespace AtomicCss.Model

structure Consistent (m : Model) : Prop where
  keys_nodup : (m.records.map Record.key).Nodup
  keyIndex : ∀ k i, m.keyIndex.get? k = some i ↔ ∃ r, m.records[i]? = some r ∧ r.key = k
  byScope_length : m.byScope.length = m.scopes.length
  byScope : Tabulates (fun i => m.records[i]?.map (·.site.scope)) (List.range m.records.length)
    m.byScope
  byName_length : m.byName.length = m.names.length
  byName : Tabulates (fun i => m.records[i]?.map (·.site.name)) (List.range m.records.length)
    m.byName
  root : m.scopes[0]? = some ⟨rootScope, none, []⟩
  id : ∀ (i : ScopeId) (s : Scope), m.scopes[i]? = some s → s.id = i
  parent : ∀ (i : ScopeId) (s : Scope), m.scopes[i]? = some s → 0 < i → ∃ p < i, s.parent = some p
  children_length : m.children.length = m.scopes.length
  /-- The root is nobody's child. -/
  children : Tabulates (fun i => m.scopes[i]?.bind (·.parent))
    (List.range' 1 (m.scopes.length - 1)) m.children
  siblings : ∀ (i j : ScopeId) (s t : Scope), m.scopes[i]? = some s → m.scopes[j]? = some t →
    s.parent = t.parent → Header.key s.header = Header.key t.header → i = j
  scopeIndex : ∀ p k i, m.scopeIndex.get? (p, k) = some i ↔
    ∃ s, m.scopes[i]? = some s ∧ s.parent = some p ∧ Header.key s.header = k
  repeats : ∀ r ∈ m.records, 1 ≤ r.repeats

theorem tabulates_records {m : Model} {f : Record → Nat} {table : List (List Nat)}
    (hrow : ∀ o, table.getD o [] = positions (fun r => f r = o) m.records)
    (hlt : ∀ r ∈ m.records, f r < table.length) :
    Tabulates (fun i => m.records[i]?.map f) (List.range m.records.length) table := by
  have htable := tabulates_positions (f := fun r => some (f r)) (l := m.records)
    (by simpa using hrow) fun r hr o ho => Option.some.inj ho ▸ hlt r hr
  have hall : positions (fun r => (some (f r)).isSome) m.records = List.range m.records.length := by
    refine List.filter_eq_self.2 fun i hi => ?_
    simpa using List.mem_range.1 hi
  rw [hall] at htable
  simpa [Option.map_eq_bind, Function.comp_def] using htable

namespace WellFormed

variable {m : Model} (h : m.WellFormed)
include h

theorem keys_nodup : (m.records.map Record.key).Nodup := by
  refine List.pairwise_iff_getElem.2 fun i j hi hj hlt heq => Nat.ne_of_lt hlt ?_
  rw [List.length_map] at hi hj
  rw [List.getElem_map, List.getElem_map] at heq
  exact h.position_unique (List.getElem?_eq_getElem hi) (List.getElem?_eq_getElem hj) heq

theorem tabulates_children : Tabulates (fun i => m.scopes[i]?.bind (·.parent))
    (List.range' 1 (m.scopes.length - 1)) m.children := by
  have hlt : ∀ s ∈ m.scopes, ∀ p, s.parent = some p → p < m.children.length := by
    intro s hs p hp
    obtain ⟨i, hi⟩ := List.mem_iff_getElem?.1 hs
    have hlen := (List.getElem?_eq_some_iff.1 hi).1
    rw [h.children_length]
    cases i with
    | zero =>
      rw [h.root] at hi
      cases hi
      cases hp
    | succ i =>
      obtain ⟨_, q, hq, hparent⟩ := h.nested _ s hi (Nat.succ_pos i)
      have heq : q = p := Option.some.inj (hparent.symm.trans hp)
      exact heq ▸ Nat.lt_trans hq hlen
  have htable := tabulates_positions (f := Scope.parent) h.children hlt
  -- all scopes but the first have a parent
  have hall : positions (fun s => s.parent.isSome) m.scopes =
      List.range' 1 (m.scopes.length - 1) := by
    obtain ⟨n, hn⟩ : ∃ n, m.scopes.length = n + 1 :=
      Nat.exists_eq_add_one_of_ne_zero (Nat.ne_of_gt h.scopes_pos)
    rw [positions, hn, List.range_eq_range', List.range'_succ,
      List.filter_cons_of_neg (by simp [h.root])]
    refine List.filter_eq_self.2 fun i hi => ?_
    obtain ⟨hpos, hi⟩ := List.mem_range'_1.1 hi
    have hget := List.getElem?_eq_getElem (l := m.scopes) (i := i) (by omega)
    obtain ⟨_, p, _, hp⟩ := h.nested i _ hget hpos
    simp [hget, hp]
  rw [hall] at htable
  exact htable

theorem siblings {i j : ScopeId} {s t : Scope} (hs : m.scopes[i]? = some s)
    (ht : m.scopes[j]? = some t) (hparent : s.parent = t.parent)
    (hkey : Header.key s.header = Header.key t.header) : i = j := by
  cases hp : s.parent with
  | none =>
    have hzero : ∀ k u, m.scopes[k]? = some u → u.parent = none → k = 0 := by
      intro k u hu hnone
      by_contra hk
      obtain ⟨_, p, _, hp⟩ := h.nested k u hu (Nat.pos_of_ne_zero hk)
      rw [hnone] at hp
      cases hp
    rw [hzero i s hs hp, hzero j t ht (hparent ▸ hp)]
  | some p =>
    have hi := (h.scopeIndex p _ i).2 ⟨s, hs, hp, rfl⟩
    have hj := (h.scopeIndex p _ j).2 ⟨t, ht, hparent ▸ hp, hkey.symm⟩
    rw [hi] at hj
    exact Option.some.inj hj

end WellFormed

/-- Ingestions, failed ones included, and look-ups of scopes keep every index up to date. -/
theorem Reachable.consistent {m : Model} (hm : m.Reachable) : m.Consistent := by
  have h := hm.wellFormed
  exact {
    keys_nodup := h.keys_nodup
    keyIndex k i := by simp [h.keyIndex]
    byScope_length := h.byScope_length
    byScope := tabulates_records h.byScope fun r hr => h.byScope_length ▸ (h.placed r hr).1
    byName_length := h.byName_length
    byName := tabulates_records h.byName fun r hr => h.byName_length ▸ (h.placed r hr).2.1
    root := h.root
    id i s hs := by
      cases i with
      | zero =>
        rw [h.root] at hs
        cases hs
        rfl
      | succ i => exact (h.nested _ s hs (Nat.succ_pos i)).1
    parent i s hs hi := (h.nested i s hs hi).2
    children_length := h.children_length
    children := h.tabulates_children
    siblings _ _ _ _ := h.siblings
    scopeIndex := h.scopeIndex
    repeats r hr := (h.placed r hr).2.2 }

theorem Reachable.consistent_after_failure :
    let m := ((Model.empty.ingest ⟨[], ['a']⟩ [
      .atRule "@media print".toList [.declaration "top".toList ['0'], .statement []]]).2.ingest
        ⟨[], ['b']⟩ [.declaration "top".toList ['0'], .declaration "top".toList ['1'],
          .atRule "@media  print".toList [.declaration "top".toList ['2']]]).2
    m.Reachable ∧ m.Consistent ∧ m.byScope = [[1], [0, 2]] ∧ m.byName = [[0], [1, 2]] ∧
      m.children = [[1], []] := by
  intro m
  have hm : m.Reachable := .ingest _ _ (.ingest _ _ .empty)
  exact ⟨hm, hm.consistent, by decide +kernel⟩

end AtomicCss.Model
