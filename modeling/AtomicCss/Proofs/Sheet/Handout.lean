import AtomicCss.Proofs.Data.Distinct
import AtomicCss.Proofs.Sheet.Delivery
set_option autoImplicit false

/-!
An emission as two lists: the keys that class names are drawn for, and who gets which class name.

Drawing does not look at the styles, and giving out does not look at the keys, so all draws may come
first (`Allocation.afterGroups_eq`).
-/

namespace AtomicCss

namespace Allocation

theorem classesOf_assign (name : NameId) (ident : Text) (a : Allocation) {n : NameId}
    (hn : n < a.assignments.length) :
    (assign name ident a).2.classesOf n =
      if name = n then appendNew (a.classesOf n) ident else a.classesOf n := by
  rw [classesOf, classesOf, assign, List.getD_eq_getElem?_getD, List.getD_eq_getElem?_getD,
    List.getElem?_modify, List.getElem?_eq_getElem hn]
  by_cases hname : name = n <;> simp [hname, appendNew]

theorem assign_eq {name : NameId} {ident : Text} {a : Allocation}
    (h : name < a.assignments.length → ident ∈ a.classesOf name) : (assign name ident a).2 = a := by
  have hsame : a.assignments.modify name (fun l => if ident ∈ l then l else l ++ [ident]) =
      a.assignments := by
    refine List.ext_getElem? fun i => ?_
    rw [List.getElem?_modify]
    by_cases hi : name = i
    · subst hi
      by_cases hlt : name < a.assignments.length
      · have hmem : ident ∈ a.assignments[name] := by
          simpa [classesOf, List.getElem?_eq_getElem hlt] using h hlt
        simp [List.getElem?_eq_getElem hlt, hmem]
      · simp [List.getElem?_eq_none (Nat.le_of_not_lt hlt)]
    · cases a.assignments[i]? <;> simp [hi]
  rw [assign, hsame]

theorem assignEach_append (a : Allocation) (l r : List (NameId × Text)) :
    a.assignEach (l ++ r) = (a.assignEach l).assignEach r := List.foldl_append

theorem drawn_assignEach (a : Allocation) (receipts : List (NameId × Text)) :
    (a.assignEach receipts).allocator = a.allocator ∧
      (a.assignEach receipts).classes = a.classes := by
  induction receipts generalizing a with
  | nil => exact ⟨rfl, rfl⟩
  | cons r rest ih => exact ih _

theorem classesOf_assignEach {a : Allocation} (receipts : List (NameId × Text)) {n : NameId}
    (hn : n < a.assignments.length) :
    (a.assignEach receipts).classesOf n =
      ((receipts.filter (·.1 = n)).map (·.2)).foldl appendNew (a.classesOf n) := by
  induction receipts generalizing a with
  | nil => rfl
  | cons r rest ih =>
    have hrest := ih (a := (assign r.1 r.2 a).2) (by rw [length_assign]; exact hn)
    rw [classesOf_assign r.1 r.2 a hn] at hrest
    rw [show a.assignEach (r :: rest) = (assign r.1 r.2 a).2.assignEach rest from rfl, hrest]
    by_cases hr : r.1 = n <;> simp [hr]

theorem assignEach_eq {a : Allocation} {receipts : List (NameId × Text)}
    (h : ∀ r ∈ receipts, r.1 < a.assignments.length → r.2 ∈ a.classesOf r.1) :
    a.assignEach receipts = a := by
  induction receipts with
  | nil => rfl
  | cons r rest ih =>
    rw [show a.assignEach (r :: rest) = (assign r.1 r.2 a).2.assignEach rest from rfl,
      assign_eq (h r List.mem_cons_self)]
    exact ih fun s hs => h s (List.mem_cons_of_mem _ hs)

def drawEach (a : Allocation) (keys : List ClassKey) : Allocation :=
  keys.foldl (fun a k => (classFor k a).2) a

theorem drawEach_append (a : Allocation) (l r : List ClassKey) :
    a.drawEach (l ++ r) = (a.drawEach l).drawEach r := List.foldl_append

theorem assignments_drawEach (a : Allocation) (keys : List ClassKey) :
    (a.drawEach keys).assignments = a.assignments := by
  induction keys generalizing a with
  | nil => rfl
  | cons k r ih => exact (ih _).trans (assignments_classFor k a)

theorem drawEach_eq {a : Allocation} {keys : List ClassKey}
    (h : ∀ k ∈ keys, (a.classes.get? k).isSome) : a.drawEach keys = a := by
  induction keys with
  | nil => rfl
  | cons k r ih =>
    obtain ⟨ident, hk⟩ := Option.isSome_iff_exists.1 (h k List.mem_cons_self)
    rw [show a.drawEach (k :: r) = (classFor k a).2.drawEach r from rfl, classFor_eq hk]
    exact ih fun l hl => h l (List.mem_cons_of_mem _ hl)

theorem classFor_assign (key : ClassKey) (name : NameId) (ident : Text) (a : Allocation) :
    (classFor key (assign name ident a).2).2 = (assign name ident (classFor key a).2).2 := by
  have hclasses : (assign name ident a).2.classes = a.classes := rfl
  unfold classFor
  rw [hclasses]
  cases a.classes.get? key <;> rfl

theorem drawEach_assignEach (a : Allocation) (receipts : List (NameId × Text))
    (keys : List ClassKey) :
    (a.assignEach receipts).drawEach keys = (a.drawEach keys).assignEach receipts := by
  have hone : ∀ (r : NameId × Text) (a : Allocation),
      (assign r.1 r.2 a).2.drawEach keys = (assign r.1 r.2 (a.drawEach keys)).2 := by
    intro r a
    induction keys generalizing a with
    | nil => rfl
    | cons k keys ih =>
      have hnext := ih (classFor k a).2
      rw [← classFor_assign] at hnext
      exact hnext
  induction receipts generalizing a with
  | nil => rfl
  | cons r rest ih =>
    have hrest := ih (assign r.1 r.2 a).2
    rw [hone] at hrest
    exact hrest

end Allocation

namespace Group

def keysOf (groups : List Group) : List ClassKey :=
  groups.flatMap fun g => g.entryKeys.map (·.1)

def receiptsOf (nameOf : ClassKey → Text) (groups : List Group) : List (NameId × Text) :=
  groups.flatMap (receipts nameOf)

theorem state_draw (g : Group) (a : Allocation) :
    (g.draw a).2 = a.drawEach (g.entryKeys.map (·.1)) := by
  rw [draw, state_mapM, Allocation.drawEach, List.foldl_map]
  rfl

theorem state_emit (g : Group) {a b : Allocation} (h : (g.emit a).2.Extends b) :
    (g.emit a).2 =
      (a.drawEach (g.entryKeys.map (·.1))).assignEach (g.receipts b.nameOf) := by
  have hrule := congrArg Rule.entries (g.emit_rule h)
  rw [receipts, ← hrule, emit_eq, state_draw]

/-- A group whose class names are all drawn and given out is written without a change. -/
theorem emit_again {g : Group} {a : Allocation}
    (hdrawn : ∀ e ∈ g.entryKeys, (a.classes.get? e.1).isSome)
    (hgiven : ∀ r ∈ g.receipts a.nameOf, r.1 < a.assignments.length → r.2 ∈ a.classesOf r.1) :
    (g.emit a).2 = a := by
  have hstate : (g.draw a).2 = a :=
    (state_draw g a).trans (Allocation.drawEach_eq (List.forall_mem_map.2 hdrawn))
  have hkeeps : (g.draw a).2.Extends a := by
    rw [hstate]
    exact .refl a
  have hentries : (g.draw a).1 = (g.rule a.nameOf).entries :=
    (draw_keys g.entryKeys a).2.2.2 a hkeeps
  rw [emit_eq, hstate, hentries]
  exact Allocation.assignEach_eq hgiven

end Group

namespace Allocation

theorem afterGroups_eq {groups : List Group} {a b : Allocation}
    (h : (a.afterGroups groups).Extends b) :
    a.afterGroups groups =
      (a.drawEach (Group.keysOf groups)).assignEach (Group.receiptsOf b.nameOf groups) := by
  induction groups generalizing a with
  | nil => rfl
  | cons g r ih =>
    have hr : ((g.emit a).2.afterGroups r).Extends b := h
    have hg : (g.emit a).2.Extends b := (leads_afterGroups _ r).keeps.trans hr
    rw [show a.afterGroups (g :: r) = (g.emit a).2.afterGroups r from rfl, ih hr, g.state_emit hg,
      drawEach_assignEach, ← drawEach_append, ← assignEach_append]
    rfl

theorem afterGroups_again {groups : List Group} {a : Allocation}
    (hdrawn : ∀ g ∈ groups, ∀ e ∈ g.entryKeys, (a.classes.get? e.1).isSome)
    (hgiven : ∀ g ∈ groups, ∀ r ∈ g.receipts a.nameOf,
      r.1 < a.assignments.length → r.2 ∈ a.classesOf r.1) : a.afterGroups groups = a := by
  induction groups with
  | nil => rfl
  | cons g r ih =>
    rw [show a.afterGroups (g :: r) = (g.emit a).2.afterGroups r from rfl,
      Group.emit_again (hdrawn g List.mem_cons_self) (hgiven g List.mem_cons_self)]
    exact ih (fun f hf => hdrawn f (List.mem_cons_of_mem _ hf))
      fun f hf => hgiven f (List.mem_cons_of_mem _ hf)

end Allocation

namespace ScopeTree

/-- The class names of all rules, in the order in which they are written. -/
def identifiers (rules : ScopeTree Rule) : List Text :=
  rules.contents.flatMap fun r => r.2.entries.map SelectorEntry.ident

def keys (plan : ScopeTree Group) : List ClassKey :=
  plan.contents.flatMap fun g => g.2.entryKeys.map (·.1)

theorem identifiers_mapContent_rule (nameOf : ClassKey → Text) (plan : ScopeTree Group) :
    (plan.mapContent (List.map (Group.rule nameOf))).identifiers = plan.keys.map nameOf := by
  simp [identifiers, keys, contents_mapContent_map, Group.rule, List.flatMap_map, List.map_flatMap,
    Function.comp_def]

theorem mem_keys {plan : ScopeTree Group} {k : ClassKey} :
    k ∈ plan.keys ↔ ∃ s g v, (s, g) ∈ plan.contents ∧ (k, v) ∈ g.entryKeys := by
  simp only [keys, List.mem_flatMap, List.mem_map, Prod.exists]
  constructor
  · rintro ⟨s, g, hg, l, v, hk, rfl⟩
    exact ⟨s, g, v, hg, hk⟩
  · rintro ⟨s, g, v, hg, hk⟩
    exact ⟨s, g, hg, k, v, hk, rfl⟩

theorem keysOf_groupsOf (plan : ScopeTree Group) :
    Group.keysOf (groupsOf plan.blocks) = plan.keys := by
  simp [Group.keysOf, groupsOf, keys, contents, List.flatMap_assoc, List.flatMap_map]

end ScopeTree

namespace Model

variable (m : Model) (preferred : List Text) (allocator : Allocator)

/-- Who gets which class name, one after the other. -/
def receipts (nameOf : ClassKey → Text) : List (NameId × Text) :=
  Group.receiptsOf nameOf (ScopeTree.groupsOf (m.plan preferred).blocks)

theorem sheet_allocation_eq :
    (m.sheet preferred allocator).2 =
      ((Allocation.fresh allocator m.names.length).drawEach (m.plan preferred).keys).assignEach
        (m.receipts preferred (m.sheet preferred allocator).2.nameOf) := by
  have hend := Allocation.Extends.refl (m.sheet preferred allocator).2
  conv at hend => lhs; rw [sheet_allocation]
  have heq := Allocation.afterGroups_eq hend
  rw [← sheet_allocation, ScopeTree.keysOf_groupsOf] at heq
  exact heq

theorem length_assignments_sheet :
    (m.sheet preferred allocator).2.assignments.length = m.names.length := by
  rw [(m.leads_sheet preferred allocator).length]
  exact List.length_replicate

theorem classesOf_sheet {n : NameId} (hn : n < m.names.length) :
    (m.sheet preferred allocator).2.classesOf n =
      (((m.receipts preferred (m.sheet preferred allocator).2.nameOf).filter (·.1 = n)).map
        (·.2)).eraseDups := by
  have hdrawn := Allocation.assignments_drawEach (.fresh allocator m.names.length)
    (m.plan preferred).keys
  have hnone : ((Allocation.fresh allocator m.names.length).drawEach
      (m.plan preferred).keys).classesOf n = [] := by
    rw [Allocation.classesOf, hdrawn]
    exact Allocation.classesOf_fresh allocator m.names.length n
  conv => lhs; rw [sheet_allocation_eq]
  rw [Allocation.classesOf_assignEach, hnone, foldl_appendNew]
  rw [hdrawn]
  simpa [Allocation.fresh] using hn

end Model
end AtomicCss
