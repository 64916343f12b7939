import AtomicCss.Proofs.Identifier.Fresh
import AtomicCss.Proofs.Sheet.ScopeTree
set_option autoImplicit false

/-!
What the emission of rules does to the allocation, and what the rules are in terms of it.

Emission takes the groups of a plan one after the other. Once it is over, the rule of a group has
the class names that its keys have in the end (`ScopeTree.emit_rules`).
-/

namespace AtomicCss

namespace Allocation

def nameOf (a : Allocation) (key : ClassKey) : Text := (a.classes.get? key).getD []

def classesOf (a : Allocation) (name : NameId) : List Text := a.assignments.getD name []

def Extends (a b : Allocation) : Prop :=
  ∀ key ident, a.classes.get? key = some ident → b.classes.get? key = some ident

theorem Extends.refl (a : Allocation) : a.Extends a := fun _ _ h => h

theorem Extends.trans {a b c : Allocation} (h : a.Extends b) (g : b.Extends c) : a.Extends c :=
  fun key ident hi => g key ident (h key ident hi)

theorem Extends.nameOf {a b : Allocation} (h : a.Extends b) {key : ClassKey} {ident : Text}
    (hi : a.classes.get? key = some ident) : b.nameOf key = ident := by
  simp [Allocation.nameOf, h key ident hi]

/-- Class names are new candidates of the allocator, and no two keys share one. -/
structure Sound (a : Allocation) : Prop where
  drawn : ∀ key ident, a.classes.get? key = some ident →
    ident ∉ a.allocator.reserved ∧
      ∃ n, 0 < n ∧ n ≤ a.allocator.counter ∧ ident = a.allocator.candidate n
  injective : ∀ key other ident, a.classes.get? key = some ident →
    a.classes.get? other = some ident → key = other

theorem sound_fresh (allocator : Allocator) (names : Nat) : (fresh allocator names).Sound where
  drawn key ident h := by simp [fresh] at h
  injective key other ident h := by simp [fresh] at h

theorem classesOf_fresh (allocator : Allocator) (names : Nat) (n : NameId) :
    (fresh allocator names).classesOf n = [] := by
  simp only [classesOf, fresh, List.getD_eq_getElem?_getD, List.getElem?_replicate]
  split <;> rfl

theorem extends_classFor (key : ClassKey) (a : Allocation) : a.Extends (classFor key a).2 := by
  intro other ident h
  by_cases hk : key = other
  · subst hk
    rw [classFor_eq h]
    exact h
  · rw [get?_classFor_of_ne hk]
    exact h

theorem allocator_classFor (key : ClassKey) (a : Allocation) :
    (classFor key a).2.allocator.stem = a.allocator.stem ∧
      (classFor key a).2.allocator.reserved = a.allocator.reserved := by
  unfold classFor
  split
  · exact ⟨rfl, rfl⟩
  · exact ⟨a.allocator.stem_next, a.allocator.reserved_next⟩

@[simp] theorem assignments_classFor (key : ClassKey) (a : Allocation) :
    (classFor key a).2.assignments = a.assignments := by
  unfold classFor
  split <;> rfl

theorem Sound.classFor {a : Allocation} (h : a.Sound) (key : ClassKey) :
    (classFor key a).2.Sound := by
  unfold Allocation.classFor
  cases hk : a.classes.get? key with
  | some ident => exact h
  | none =>
    have hcount := a.allocator.counter_lt_next
    -- An old name has a number up to the counter, the new one a greater one.
    have hnew : ∀ other, a.classes.get? other ≠ some a.allocator.next.1 := by
      intro other ho
      obtain ⟨_, n, _, hn, heq⟩ := h.drawn _ _ ho
      rw [Allocator.next_eq] at heq
      have := a.allocator.candidate_injective heq
      omega
    constructor
    · intro other ident ho
      dsimp only at ho ⊢
      rw [OrderedMap.get?_put] at ho
      split at ho
      · cases ho
        exact ⟨a.allocator.next_not_reserved, _, by omega, Nat.le_refl _, rfl⟩
      · obtain ⟨hr, n, hpos, hn, heq⟩ := h.drawn _ _ ho
        exact ⟨hr, n, hpos, by omega, heq⟩
    · intro l k ident hl hk
      dsimp only at hl hk
      rw [OrderedMap.get?_put] at hl hk
      split at hl <;> split at hk
      · simp_all
      · cases hl
        exact absurd hk (hnew k)
      · cases hk
        exact absurd hl (hnew l)
      · exact h.injective _ _ _ hl hk

/-- What every step of an emission keeps. -/
structure Leads (a b : Allocation) : Prop where
  keeps : a.Extends b
  sound : a.Sound → b.Sound
  stem : b.allocator.stem = a.allocator.stem
  reserved : b.allocator.reserved = a.allocator.reserved
  length : b.assignments.length = a.assignments.length

theorem Leads.refl (a : Allocation) : a.Leads a := ⟨.refl a, id, rfl, rfl, rfl⟩

theorem Leads.trans {a b c : Allocation} (h : a.Leads b) (g : b.Leads c) : a.Leads c where
  keeps := h.keeps.trans g.keeps
  sound := g.sound ∘ h.sound
  stem := g.stem.trans h.stem
  reserved := g.reserved.trans h.reserved
  length := g.length.trans h.length

theorem leads_foldl {α : Type} {f : Allocation → α → Allocation}
    (h : ∀ (a : Allocation) x, a.Leads (f a x))
    (l : List α) (a : Allocation) : a.Leads (l.foldl f a) := by
  induction l generalizing a with
  | nil => exact .refl a
  | cons x r ih => exact (h a x).trans (ih _)

theorem leads_classFor (key : ClassKey) (a : Allocation) : a.Leads (classFor key a).2 where
  keeps := extends_classFor key a
  sound h := h.classFor key
  stem := (allocator_classFor key a).1
  reserved := (allocator_classFor key a).2
  length := by rw [assignments_classFor]

end Allocation

theorem state_forM {σ α : Type} (f : α → StateM σ Unit) (l : List α) (s : σ) :
    (l.forM f s).2 = l.foldl (fun s a => (f a s).2) s := by
  induction l generalizing s with
  | nil => rfl
  | cons a r ih => exact ih _

theorem state_mapM {σ α β : Type} (f : α → StateM σ β) (l : List α) (s : σ) :
    (l.mapM f s).2 = l.foldl (fun s a => (f a s).2) s := by
  induction l generalizing s with
  | nil => rfl
  | cons a r ih =>
    rw [List.mapM_cons]
    exact ih _

namespace Allocation

theorem length_assign (name : NameId) (ident : Text) (a : Allocation) :
    (assign name ident a).2.assignments.length = a.assignments.length :=
  List.length_modify _ _ _

theorem mem_classesOf_assign {name n : NameId} {ident i : Text} {a : Allocation} :
    i ∈ (assign name ident a).2.classesOf n ↔
      i ∈ a.classesOf n ∨ n < a.assignments.length ∧ (name, ident) = (n, i) := by
  rw [classesOf, classesOf, assign, List.getD_eq_getElem?_getD, List.getD_eq_getElem?_getD,
    List.getElem?_modify, Prod.mk.injEq]
  by_cases hn : n < a.assignments.length
  · rw [List.getElem?_eq_getElem hn]
    by_cases hname : name = n
    · subst hname
      by_cases hi : ident ∈ a.assignments[name]
      · simp only [hi, if_true, Option.map_eq_map, Option.map_some, Option.getD_some, hn, true_and]
        exact ⟨Or.inl, fun h => h.elim id fun h => h ▸ hi⟩
      · simp [hn, hi, eq_comm]
    · simp [hname]
  · simp [hn]

/-- Gives out class names, each to a style. -/
def assignEach (a : Allocation) (receipts : List (NameId × Text)) : Allocation :=
  receipts.foldl (fun a r => (assign r.1 r.2 a).2) a

theorem leads_assign (name : NameId) (ident : Text) (a : Allocation) :
    a.Leads (assign name ident a).2 where
  keeps := fun _ _ h => h
  sound h := ⟨h.drawn, h.injective⟩
  stem := rfl
  reserved := rfl
  length := length_assign name ident a

theorem leads_assignEach (a : Allocation) (receipts : List (NameId × Text)) :
    a.Leads (a.assignEach receipts) := by
  unfold assignEach
  exact leads_foldl (fun a r => leads_assign _ _ a) receipts a

theorem mem_classesOf_assignEach {a : Allocation} {receipts : List (NameId × Text)} {n : NameId}
    {i : Text} :
    i ∈ (a.assignEach receipts).classesOf n ↔
      i ∈ a.classesOf n ∨ n < a.assignments.length ∧ (n, i) ∈ receipts := by
  induction receipts generalizing a with
  | nil => simp [assignEach]
  | cons r rest ih =>
    have hrest := ih (a := (assign r.1 r.2 a).2)
    rw [length_assign, mem_classesOf_assign] at hrest
    rw [show a.assignEach (r :: rest) = (assign r.1 r.2 a).2.assignEach rest from rfl, hrest,
      List.mem_cons, eq_comm (a := (n, i))]
    tauto

end Allocation

namespace Group

def rule (nameOf : ClassKey → Text) (g : Group) : Rule :=
  ⟨g.entryKeys.map fun e => ⟨nameOf e.1, e.2⟩, g.declarations⟩

/-- Who gets which class name when these entries are written for these contributors. -/
def handout (entries : List SelectorEntry) (contributors : List Contributor) :
    List (NameId × Text) :=
  contributors.flatMap fun c =>
    (entries.filter (·.variant = c.variant)).map fun e => (c.name, e.ident)

def receipts (nameOf : ClassKey → Text) (g : Group) : List (NameId × Text) :=
  handout (g.rule nameOf).entries g.contributors

theorem mem_receipts {nameOf : ClassKey → Text} {g : Group} {n : NameId} {i : Text} :
    (n, i) ∈ g.receipts nameOf ↔
      ∃ c ∈ g.contributors, c.name = n ∧ ∃ k, (k, c.variant) ∈ g.entryKeys ∧ nameOf k = i := by
  simp only [receipts, handout, rule, List.mem_flatMap, List.mem_map, List.mem_filter,
    decide_eq_true_eq, Prod.mk.injEq, Prod.exists]
  constructor
  · rintro ⟨c, hc, e, ⟨⟨k, v, hk, rfl⟩, rfl⟩, hn, hi⟩
    exact ⟨c, hc, hn, k, hk, hi⟩
  · rintro ⟨c, hc, hn, k, hk, hi⟩
    exact ⟨c, hc, ⟨nameOf k, c.variant⟩, ⟨⟨k, c.variant, hk, rfl⟩, rfl⟩, hn, hi⟩

theorem state_assignAll (entries : List SelectorEntry) (contributors : List Contributor)
    (a : Allocation) :
    (assignAll entries contributors a).2 = a.assignEach (handout entries contributors) := by
  rw [assignAll, state_forM, Allocation.assignEach, handout, List.foldl_flatMap]
  congr 1
  funext a c
  rw [state_forM, List.foldl_map]

def draw (g : Group) : StateM Allocation (List SelectorEntry) :=
  g.entryKeys.mapM fun e => do
    let ident ← Allocation.classFor e.1
    return SelectorEntry.mk ident e.2

theorem emit_eq (g : Group) (a : Allocation) :
    g.emit a = (⟨(g.draw a).1, g.declarations⟩,
      (g.draw a).2.assignEach (handout (g.draw a).1 g.contributors)) := by
  rw [← state_assignAll]
  rfl

theorem draw_keys (keys : List (ClassKey × Variant)) (a : Allocation) :
    let drawn := keys.mapM (m := StateM Allocation) (fun e => do
      let ident ← Allocation.classFor e.1
      return SelectorEntry.mk ident e.2) a
    a.Leads drawn.2 ∧ drawn.2.assignments = a.assignments ∧
      (∀ e ∈ keys, (drawn.2.classes.get? e.1).isSome) ∧
      ∀ b, drawn.2.Extends b → drawn.1 = keys.map fun e => ⟨b.nameOf e.1, e.2⟩ := by
  induction keys generalizing a with
  | nil => exact ⟨.refl a, rfl, by simp, fun b _ => rfl⟩
  | cons e r ih =>
    obtain ⟨hleads, hassign, hkeys, hrest⟩ := ih (Allocation.classFor e.1 a).2
    have hget := Allocation.get?_classFor e.1 a
    rw [List.mapM_cons]
    refine ⟨(Allocation.leads_classFor e.1 a).trans hleads,
      hassign.trans (Allocation.assignments_classFor e.1 a), fun f hf => ?_, fun b hb => ?_⟩
    · rcases List.mem_cons.1 hf with rfl | hf
      · exact Option.isSome_iff_exists.2 ⟨_, hleads.keeps _ _ hget⟩
      · exact hkeys f hf
    · have hname := (hleads.keeps.trans hb).nameOf hget
      rw [List.map_cons, hname, ← hrest b hb]
      rfl

theorem leads_emit (g : Group) (a : Allocation) : a.Leads (g.emit a).2 := by
  rw [emit_eq]
  exact (draw_keys g.entryKeys a).1.trans (Allocation.leads_assignEach _ _)

theorem isSome_emit (g : Group) (a : Allocation) {e : ClassKey × Variant} (he : e ∈ g.entryKeys) :
    ((g.emit a).2.classes.get? e.1).isSome := by
  obtain ⟨ident, hi⟩ := Option.isSome_iff_exists.1 ((draw_keys g.entryKeys a).2.2.1 e he)
  rw [emit_eq]
  exact Option.isSome_iff_exists.2 ⟨ident, (Allocation.leads_assignEach _ _).keeps _ _ hi⟩

theorem emit_rule (g : Group) {a b : Allocation} (h : (g.emit a).2.Extends b) :
    (g.emit a).1 = g.rule b.nameOf := by
  rw [emit_eq] at h ⊢
  have hdraw := (draw_keys g.entryKeys a).2.2.2 b ((Allocation.leads_assignEach _ _).keeps.trans h)
  exact congrArg (Rule.mk · g.declarations) hdraw

theorem mem_classesOf_emit (g : Group) {a b : Allocation} (h : (g.emit a).2.Extends b)
    {n : NameId} {i : Text} :
    i ∈ (g.emit a).2.classesOf n ↔ i ∈ a.classesOf n ∨
      n < a.assignments.length ∧ (n, i) ∈ g.receipts b.nameOf := by
  have hrule := congrArg Rule.entries (g.emit_rule h)
  have hassign := (draw_keys g.entryKeys a).2.1
  rw [receipts, ← hrule, emit_eq, Allocation.mem_classesOf_assignEach]
  simp only [Allocation.classesOf, draw, hassign]

end Group

def Allocation.afterGroups (a : Allocation) (groups : List Group) : Allocation :=
  groups.foldl (fun a g => (g.emit a).2) a

theorem Allocation.leads_afterGroups (a : Allocation) (groups : List Group) :
    a.Leads (a.afterGroups groups) := by
  unfold afterGroups
  exact leads_foldl (fun a g => g.leads_emit a) groups a

theorem Allocation.isSome_afterGroups {groups : List Group} {a b : Allocation}
    (h : (a.afterGroups groups).Extends b) {g : Group} (hg : g ∈ groups) {e : ClassKey × Variant}
    (he : e ∈ g.entryKeys) : (b.classes.get? e.1).isSome := by
  induction groups generalizing a with
  | nil => cases hg
  | cons f r ih =>
    have hr : ((f.emit a).2.afterGroups r).Extends b := h
    rcases List.mem_cons.1 hg with rfl | hg
    · obtain ⟨ident, hi⟩ := Option.isSome_iff_exists.1 (g.isSome_emit a he)
      exact Option.isSome_iff_exists.2
        ⟨ident, hr _ _ ((Allocation.leads_afterGroups _ r).keeps _ _ hi)⟩
    · exact ih hr hg

theorem Allocation.mem_classesOf_afterGroups {groups : List Group} {a b : Allocation}
    (h : (a.afterGroups groups).Extends b) {n : NameId} {i : Text} :
    i ∈ (a.afterGroups groups).classesOf n ↔ i ∈ a.classesOf n ∨ n < a.assignments.length ∧
      ∃ g ∈ groups, (n, i) ∈ g.receipts b.nameOf := by
  induction groups generalizing a with
  | nil => simp [Allocation.afterGroups]
  | cons g r ih =>
    have hr : ((g.emit a).2.afterGroups r).Extends b := h
    have hg : (g.emit a).2.Extends b := (Allocation.leads_afterGroups _ r).keeps.trans hr
    have hrest := ih hr
    rw [(g.leads_emit a).length, g.mem_classesOf_emit hg] at hrest
    rw [show a.afterGroups (g :: r) = (g.emit a).2.afterGroups r from rfl, hrest]
    simp only [List.mem_cons, exists_eq_or_imp]
    tauto

theorem rules_mapM (groups : List Group) {a b : Allocation}
    (h : (a.afterGroups groups).Extends b) :
    (groups.mapM Group.emit a).1 = groups.map (Group.rule b.nameOf) := by
  induction groups generalizing a with
  | nil => rfl
  | cons g r ih =>
    have hr : ((g.emit a).2.afterGroups r).Extends b := h
    have hg : (g.emit a).2.Extends b := (Allocation.leads_afterGroups _ r).keeps.trans hr
    rw [List.mapM_cons, List.map_cons, ← g.emit_rule hg, ← ih hr]
    rfl

namespace ScopeTree

def groupsOf (blocks : List (ScopeId × List Group)) : List Group := blocks.flatMap (·.2)

theorem afterGroups_append (a : Allocation) (g h : List Group) :
    a.afterGroups (g ++ h) = (a.afterGroups g).afterGroups h := List.foldl_append

mutual

theorem state_emit (t : ScopeTree Group) (a : Allocation) :
    (t.emit a).2 = a.afterGroups (groupsOf t.blocks) := by
  match t with
  | .node scope header groups children =>
    have hall := state_emitAll children (a.afterGroups groups)
    have hgroups : (groups.mapM Group.emit a).2 = a.afterGroups groups := state_mapM _ _ _
    rw [blocks, groupsOf, List.flatMap_cons, afterGroups_append]
    rw [groupsOf] at hall
    rw [← hall, ← hgroups]
    rfl

theorem state_emitAll (l : List (ScopeTree Group)) (a : Allocation) :
    (emitAll l a).2 = a.afterGroups (groupsOf (blocksAll l)) := by
  match l with
  | [] => rfl
  | t :: r =>
    have hone := state_emit t a
    have hall := state_emitAll r (t.emit a).2
    rw [blocksAll, groupsOf, List.flatMap_append, afterGroups_append]
    rw [groupsOf] at hone hall
    rw [← hone, ← hall]
    rfl

end

mutual

theorem rules_emit (t : ScopeTree Group) (a b : Allocation) (h : (t.emit a).2.Extends b) :
    (t.emit a).1 = t.mapContent (List.map (Group.rule b.nameOf)) := by
  match t with
  | .node scope header groups children =>
    have hgroups : (groups.mapM Group.emit a).2 = a.afterGroups groups := state_mapM _ _ _
    have hinner : (emitAll children (a.afterGroups groups)).2.Extends b := by
      rw [← hgroups]
      exact h
    have hrules : (a.afterGroups groups).Extends b := by
      refine Allocation.Extends.trans ?_ hinner
      rw [state_emitAll]
      exact (Allocation.leads_afterGroups _ _).keeps
    have hall := rules_emitAll children _ b hinner
    rw [mapContent, ← rules_mapM groups hrules, ← hall, ← hgroups]
    rfl

theorem rules_emitAll (l : List (ScopeTree Group)) (a b : Allocation)
    (h : (emitAll l a).2.Extends b) :
    (emitAll l a).1 = mapContentAll (List.map (Group.rule b.nameOf)) l := by
  match l with
  | [] => rfl
  | t :: r =>
    have hr : (emitAll r (t.emit a).2).2.Extends b := h
    have ht : (t.emit a).2.Extends b := by
      refine Allocation.Extends.trans ?_ hr
      rw [state_emitAll]
      exact (Allocation.leads_afterGroups _ _).keeps
    rw [mapContentAll, ← rules_emit t a b ht, ← rules_emitAll r _ b hr]
    rfl

end

end ScopeTree

theorem Model.rules_emit (m : Model) (preferred : List Text) (a : Allocation) :
    (m.emit preferred a).1 =
      (m.plan preferred).mapContent (List.map (Group.rule (m.emit preferred a).2.nameOf)) :=
  ScopeTree.rules_emit _ _ _ (.refl _)

end AtomicCss
