import AtomicCss.Proofs.Model.Renumbered
import AtomicCss.Proofs.Sheet.Labels
import AtomicCss.Proofs.Sheet.Unordered
set_option autoImplicit false

/-!
The sheets of models that differ in the numbers of their names. Numbers decide the order of groups
and of contributors only, so while new numbers keep the order of the old ones, the rules are the
same and every style has its class names under its new number.
-/

namespace AtomicCss

namespace Sorted

variable {α β : Type} [Ord α] [Ord β] {f : α → β}
  (h : ∀ a b, compare (f a) (f b) = compare a b)
include h

theorem insert_map (a : α) (l : List α) : insert (f a) (l.map f) = (insert a l).map f := by
  induction l with
  | nil => rfl
  | cons b r ih =>
    rw [List.map_cons, insert, insert, h, ih]
    cases compare a b <;> rfl

theorem ofList_map (l : List α) : ofList (l.map f) = (ofList l).map f := by
  induction l with
  | nil => rfl
  | cons a l ih => rw [List.map_cons, ofList_cons, ofList_cons, ih, insert_map h]

theorem compare_map (l r : List α) : compare (l.map f) (r.map f) = compare l r := by
  have hlex : ∀ l r : List α,
      List.compareLex compare (l.map f) (r.map f) = List.compareLex compare l r := by
    intro l
    induction l with
    | nil => intro r; cases r <;> rfl
    | cons a l ih =>
      intro r
      cases r with
      | nil => rfl
      | cons b r =>
        rw [List.map_cons, List.map_cons, List.compareLex_cons_cons, List.compareLex_cons_cons, h,
          ih]
  exact hlex l r

theorem injective_of_compare [Std.LawfulEqOrd α] [Std.ReflOrd β] : Function.Injective f := by
  intro a b heq
  have hself : compare (f a) (f b) = .eq := by rw [heq, Std.ReflOrd.compare_self]
  rw [h] at hself
  exact Std.LawfulEqOrd.eq_of_compare hself

end Sorted

def Contributor.renumber (p : NameId → NameId) (c : Contributor) : Contributor :=
  { c with name := p c.name }

def Group.renumber (p : NameId → NameId) (g : Group) : Group :=
  { g with contributors := g.contributors.map (Contributor.renumber p) }

def ClassKey.renumber (p : NameId → NameId) : ClassKey → ClassKey
  | .own n => .own (p n)
  | .shared set v => .shared (set.map (Contributor.renumber p)) v

variable {p : NameId → NameId} (hp : StrictMono p)
include hp

theorem Contributor.compare_renumber (a b : Contributor) :
    compare (a.renumber p) (b.renumber p) = compare a b := by
  have hname : compare (p a.name) (p b.name) = compare a.name b.name := by
    simp only [Nat.compare_eq_ite_lt, hp.lt_iff_lt]
  have hlex : ∀ a b : Contributor,
      compare a b = (compare a.name b.name).then (compare a.variant b.variant) := fun _ _ => rfl
  rw [hlex, hlex, renumber, renumber, hname]

theorem Contributor.renumber_injective : Function.Injective (Contributor.renumber p) :=
  Sorted.injective_of_compare (compare_renumber hp)

theorem ClassKey.renumber_injective : Function.Injective (ClassKey.renumber p) := by
  have hset := (Contributor.renumber_injective hp).list_map
  intro k l heq
  cases k with
  | own i =>
    cases l with
    | own j => rw [hp.injective (ClassKey.own.inj heq)]
    | shared set v => cases heq
  | shared set v =>
    cases l with
    | own j => cases heq
    | shared other w =>
      obtain ⟨hcontributors, rfl⟩ := ClassKey.shared.inj heq
      rw [hset hcontributors]

namespace Group

theorem contributorsOf_renumber (records : List Record) (d : Declaration) :
    contributorsOf (records.map (Record.renumber p)) d =
      (contributorsOf records d).map (Contributor.renumber p) := by
  rw [contributorsOf, contributorsOf, ← Sorted.ofList_map (Contributor.compare_renumber hp),
    List.filter_map, List.map_map, List.map_map]
  rfl

theorem contributions_renumber (records : List Record) :
    contributions (records.map (Record.renumber p)) =
      (contributions records).map fun e => (e.1.map (Contributor.renumber p), e.2) := by
  rw [contributions, contributions, List.map_map, List.map_map]
  exact List.map_congr_left fun d _ => by
    rw [contributorsOf_renumber hp]
    rfl

theorem bySet_renumber (records : List Record) :
    bySet (records.map (Record.renumber p)) = (bySet records).map (Group.renumber p) := by
  have hset := (Contributor.renumber_injective hp).list_map
  have hsets : Sorted.ofList ((contributions (records.map (Record.renumber p))).map (·.1)) =
      (Sorted.ofList ((contributions records).map (·.1))).map
        (List.map (Contributor.renumber p)) := by
    rw [← Sorted.ofList_map (Sorted.compare_map (Contributor.compare_renumber hp)),
      contributions_renumber hp, List.map_map, List.map_map]
    rfl
  rw [bySet, bySet, hsets, contributions_renumber hp, List.map_map, List.map_map]
  refine List.map_congr_left fun set _ => ?_
  have hfilter : (contributions records).filter
      (fun e => e.1.map (Contributor.renumber p) = set.map (Contributor.renumber p)) =
        (contributions records).filter (·.1 = set) :=
    List.filter_congr fun e _ => decide_eq_decide.2 hset.eq_iff
  rw [Function.comp_apply, Function.comp_apply, renumber, List.filter_map, List.map_map, ← hfilter]
  rfl

theorem ofRecords_renumber (records : List Record) :
    ofRecords (records.map (Record.renumber p)) = (ofRecords records).map (Group.renumber p) := by
  have hown : ∀ g : Group, (g.renumber p).isOwn = g.isOwn := fun g => by
    rw [isOwn, isOwn, renumber, List.length_map]
  rw [ofRecords, ofRecords, bySet_renumber hp, List.map_append, List.filter_map, List.filter_map]
  simp only [Function.comp_def, hown]

end Group

omit hp

namespace Group

theorem entryKeys_renumber (p : NameId → NameId) (g : Group) :
    (g.renumber p).entryKeys = g.entryKeys.map fun e => (e.1.renumber p, e.2) := by
  obtain ⟨contributors, declarations⟩ := g
  match contributors with
  | [] => rfl
  | [c] => rfl
  | c :: d :: r =>
    have hvariants : ((c :: d :: r).map (Contributor.renumber p)).map Contributor.variant =
        (c :: d :: r).map Contributor.variant := by
      rw [List.map_map]
      rfl
    simp only [entryKeys, renumber, List.map_cons] at hvariants ⊢
    rw [hvariants, List.map_map]
    rfl

section

variable {nameOf other : ClassKey → Text} {g : Group}
  (h : ∀ e ∈ g.entryKeys, other (e.1.renumber p) = nameOf e.1)
include h

theorem rule_renumber : (g.renumber p).rule other = g.rule nameOf := by
  rw [rule, rule, entryKeys_renumber, List.map_map]
  refine congrArg (Rule.mk · g.declarations) (List.map_congr_left fun e he => ?_)
  exact congrArg (SelectorEntry.mk · e.2) (h e he)

theorem receipts_renumber :
    (g.renumber p).receipts other = (g.receipts nameOf).map fun r => (p r.1, r.2) := by
  rw [receipts, receipts, rule_renumber h, handout, handout, List.map_flatMap, renumber,
    List.flatMap_map]
  refine List.flatMap_congr fun c _ => ?_
  rw [List.map_map]
  rfl

end

end Group

namespace Model.Renumbers

variable {m n : Model} (h : m.Renumbers p n) (hp : StrictMono p) (preferred : List Text)
include h hp

theorem plan_eq :
    n.plan preferred = (m.plan preferred).mapContent (List.map (Group.renumber p)) := by
  have hscopes : n.scopes = m.scopes := congrArg (·.1) h.skeleton.symm
  have hchildren : n.children = m.children := congrArg (·.2.2) h.skeleton.symm
  have hgroups : n.groups = m.groups.mapContent (List.map (Group.renumber p)) := by
    rw [groups, groups, ScopeTree.mapContent_mapContent, tree, tree, hscopes]
    refine mapContent_treeAt_congr hscopes hchildren (fun s => ?_) _ _
    rw [h.recordsInScope, Group.ofRecords_renumber hp]
    rfl
  rw [plan_eq_arrange, plan_eq_arrange, hgroups, ScopeTree.mapContent_arrange]

theorem keys_plan :
    (n.plan preferred).keys = (m.plan preferred).keys.map (ClassKey.renumber p) := by
  rw [h.plan_eq hp, ScopeTree.keys, ScopeTree.keys, ScopeTree.contents_mapContent_map,
    List.flatMap_map, List.map_flatMap]
  refine List.flatMap_congr fun g _ => ?_
  rw [Group.entryKeys_renumber, List.map_map, List.map_map]
  rfl

variable (allocator : Allocator)

theorem nameOf_sheet {k : ClassKey} (hk : k ∈ (m.plan preferred).keys) :
    (n.sheet preferred allocator).2.nameOf (k.renumber p) =
      (m.sheet preferred allocator).2.nameOf k := by
  have hleft := m.map_nameOf_sheet preferred allocator
  have hright := n.map_nameOf_sheet preferred allocator
  rw [h.keys_plan hp, eraseDups_map fun a _ b _ heq => ClassKey.renumber_injective hp heq,
    List.map_map, List.length_map, ← hleft] at hright
  exact List.map_inj_left.1 hright k (List.mem_eraseDups.2 hk)

theorem rules_sheet : (n.sheet preferred allocator).1 = (m.sheet preferred allocator).1 := by
  rw [sheet_rules, sheet_rules, h.plan_eq hp, ScopeTree.mapContent_mapContent]
  refine ScopeTree.mapContent_congr _ fun b hb => ?_
  rw [Function.comp_apply, List.map_map]
  refine List.map_congr_left fun g hg => Group.rule_renumber fun e he => ?_
  exact h.nameOf_sheet hp preferred allocator
    (mem_keys_of_mem_groupsOf (List.mem_flatMap.2 ⟨b, hb, hg⟩) he)

theorem receipts_sheet :
    n.receipts preferred (n.sheet preferred allocator).2.nameOf =
      (m.receipts preferred (m.sheet preferred allocator).2.nameOf).map
        fun r => (p r.1, r.2) := by
  rw [receipts, receipts, Group.receiptsOf, Group.receiptsOf, h.plan_eq hp, ScopeTree.groupsOf,
    ScopeTree.groupsOf, ScopeTree.blocks_mapContent, List.flatMap_map, List.map_flatMap,
    List.flatMap_assoc, List.flatMap_assoc]
  refine List.flatMap_congr fun b hb => ?_
  rw [List.flatMap_map]
  refine List.flatMap_congr fun g hg => Group.receipts_renumber fun e he => ?_
  exact h.nameOf_sheet hp preferred allocator
    (mem_keys_of_mem_groupsOf (List.mem_flatMap.2 ⟨b, hb, hg⟩) he)

theorem classesOf_sheet {i : NameId} (hi : i < m.names.length) (hpi : p i < n.names.length) :
    (n.sheet preferred allocator).2.classesOf (p i) =
      (m.sheet preferred allocator).2.classesOf i := by
  rw [Model.classesOf_sheet _ _ _ hpi, Model.classesOf_sheet _ _ _ hi, h.receipts_sheet hp,
    List.filter_map, List.map_map]
  simp only [Function.comp_def, hp.injective.eq_iff]

end Model.Renumbers
end AtomicCss
