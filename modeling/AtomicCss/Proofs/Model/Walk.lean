import AtomicCss.Model.Ingest
import AtomicCss.Proofs.Model.Invariant
set_option autoImplicit false

/-!
Ingestion as a list of steps.

A walk takes the nodes of a style in document order and notes what it comes by, with the headers of
the at-rules around it in place of scopes. Ingestion performs the steps of the walk one after the
other (`Place.ingestAll_eq_run`), so what every step keeps, every ingestion keeps.
-/

namespace AtomicCss

/-- The headers of the at-rules around a node, outermost first, and the selector of its rule. -/
structure Spot where
  path : List Text
  suffix : Text
  repeats : Nat
  deriving DecidableEq, Repr

inductive Step where
  | enter (path : List Text) (header : Text)
  | declare (spot : Spot) (property value : Text)
  deriving DecidableEq, Repr

/-- The steps up to the first violation, and the violation. -/
structure Walk where
  steps : List Step
  stop : Option NestingFault
  deriving Repr

namespace Walk

def done : Walk := ⟨[], none⟩

def fail (fault : NestingFault) : Walk := ⟨[], some fault⟩

def andThen (a b : Walk) : Walk :=
  match a.stop with
  | none => ⟨a.steps ++ b.steps, b.stop⟩
  | some _ => a

end Walk

namespace Spot

def root : Spot := ⟨[], [], 1⟩

def withPseudo (spot : Spot) (s : Selector.Pseudo) : Spot :=
  { spot with suffix := s.suffix, repeats := s.repeats.getD spot.repeats }

def inside (spot : Spot) (header : Text) : Spot := { spot with path := spot.path ++ [header] }

mutual

def walk (spot : Spot) : Node → Walk
  | .declaration property value => ⟨[.declare spot property value], none⟩
  | .rule selector children =>
    if spot.suffix.isEmpty then
      (Selector.entries selector).foldr (fun entry rest =>
        match Selector.Pseudo.ofEntry? entry with
        | none => .fail (.nonPseudoSelector entry)
        | some s => (walkAll (spot.withPseudo s) children).andThen rest) .done
    else .fail (.nestedRule selector)
  | .atRule header children =>
    Walk.andThen ⟨[.enter spot.path header], none⟩ (walkAll (spot.inside header) children)
  | .statement header => .fail (.atRuleWithoutBlock header)

def walkAll (spot : Spot) : List Node → Walk
  | [] => .done
  | n :: r => (walk spot n).andThen (walkAll spot r)

end

end Spot

/-- The scope inside at-rules with these headers, if they have been met. -/
def Model.scopeAt? (m : Model) (path : List Text) : Option ScopeId :=
  path.foldlM (fun s header => m.scopeIndex.get? (s, Header.key header)) rootScope

def Model.scopeAt (m : Model) (path : List Text) : ScopeId := (m.scopeAt? path).getD rootScope

/-- Where a name declares what it declares at a spot, when `m` knows the scopes. -/
def Spot.site (spot : Spot) (m : Model) (name : NameId) : Site :=
  ⟨m.scopeAt spot.path, name, spot.suffix⟩

def Model.perform (style : StyleName) (name : NameId) (m : Model) : Step → Model
  | .enter path header => (m.resolveScope (m.scopeAt path) header).2
  | .declare spot property value =>
    m.declare style (spot.site m name) spot.repeats property value

def Model.performAll (style : StyleName) (name : NameId) (m : Model) (steps : List Step) : Model :=
  steps.foldl (Model.perform style name) m

theorem Model.performAll_append (style : StyleName) (name : NameId) (m : Model) (a b : List Step) :
    m.performAll style name (a ++ b) = (m.performAll style name a).performAll style name b :=
  List.foldl_append

def Walk.run (style : StyleName) (name : NameId) (w : Walk) (m : Model) :
    EStateM.Result StructuralError Model Unit :=
  match w.stop with
  | none => .ok () (m.performAll style name w.steps)
  | some fault => .error ⟨fault, style⟩ (m.performAll style name w.steps)

theorem Walk.run_andThen (style : StyleName) (name : NameId) (a b : Walk) (m : Model) :
    (a.andThen b).run style name m =
      match a.run style name m with
      | .ok _ n => b.run style name n
      | .error e n => .error e n := by
  obtain ⟨steps, stop⟩ := a
  cases stop with
  | some fault => rfl
  | none =>
    obtain ⟨more, stop⟩ := b
    cases stop <;> simp [run, andThen, Model.performAll]

namespace Model

/-- Scopes that were found under a parent and header key are found there again. -/
def Grows (m n : Model) : Prop :=
  ∀ k s, m.scopeIndex.get? k = some s → n.scopeIndex.get? k = some s

theorem Grows.refl (m : Model) : m.Grows m := fun _ _ h => h

theorem Grows.trans {m n o : Model} (h : m.Grows n) (g : n.Grows o) : m.Grows o :=
  fun k s hs => g k s (h k s hs)

theorem Grows.scopeAt? {m n : Model} (h : m.Grows n) {path : List Text} {s : ScopeId}
    (hs : m.scopeAt? path = some s) : n.scopeAt? path = some s := by
  unfold Model.scopeAt? at hs ⊢
  generalize rootScope = r at hs ⊢
  induction path generalizing r with
  | nil => exact hs
  | cons header path ih =>
    obtain ⟨t, ht, hs⟩ := Option.bind_eq_some_iff.1 hs
    exact Option.bind_eq_some_iff.2 ⟨t, h _ _ ht, ih t hs⟩

theorem scopeAt_eq {m : Model} {path : List Text} {s : ScopeId} (h : m.scopeAt? path = some s) :
    m.scopeAt path = s := by
  simp [scopeAt, h]

theorem grows_resolveScope (m : Model) (parent : ScopeId) (header : Text) :
    m.Grows (m.resolveScope parent header).2 := by
  intro k s hs
  unfold resolveScope
  cases hk : m.scopeIndex.get? (parent, Header.key header) with
  | some i => exact hs
  | none =>
    simp only [OrderedMap.get?_put]
    rw [if_neg, hs]
    rintro rfl
    rw [hs] at hk
    cases hk

theorem get?_resolveScope (m : Model) (parent : ScopeId) (header : Text) :
    (m.resolveScope parent header).2.scopeIndex.get? (parent, Header.key header) =
      some (m.resolveScope parent header).1 := by
  unfold resolveScope
  cases hk : m.scopeIndex.get? (parent, Header.key header) with
  | some i => exact hk
  | none => simp [OrderedMap.get?_put]

theorem scopeIndex_declare (m : Model) (style : StyleName) (site : Site) (repeats : Nat)
    (property value : Text) :
    (m.declare style site repeats property value).scopeIndex = m.scopeIndex :=
  declare_induct (p := fun n => n.scopeIndex = m.scopeIndex) rfl
    fun n hn _ _ => (scopeIndex_insert n _).trans hn

theorem grows_perform (style : StyleName) (name : NameId) (m : Model) (step : Step) :
    m.Grows (m.perform style name step) := by
  cases step with
  | enter path header => exact grows_resolveScope m _ header
  | declare spot property value =>
    intro k s hs
    rw [perform, scopeIndex_declare]
    exact hs

theorem grows_performAll (style : StyleName) (name : NameId) (m : Model) (steps : List Step) :
    m.Grows (m.performAll style name steps) := by
  induction steps generalizing m with
  | nil => exact .refl m
  | cons step steps ih => exact (grows_perform style name m step).trans (ih _)

theorem scopeAt?_inside {m : Model} {spot : Spot} {s : ScopeId}
    (h : m.scopeAt? spot.path = some s) (header : Text) :
    (m.resolveScope s header).2.scopeAt? (spot.inside header).path =
      some (m.resolveScope s header).1 := by
  have hs := (grows_resolveScope m s header).scopeAt? h
  unfold scopeAt? at hs ⊢
  rw [Spot.inside, List.foldlM_append, hs]
  simp [get?_resolveScope]

end Model

theorem Walk.grows_run {style : StyleName} {name : NameId} {w : Walk} {m n : Model}
    (h : w.run style name m = .ok () n) : m.Grows n := by
  obtain ⟨steps, stop⟩ := w
  cases stop with
  | none =>
    cases h
    exact Model.grows_performAll style name m steps
  | some fault => cases h

/-- A place of the ingestion, seen from the walk. -/
structure Place.Stands (p : Place) (spot : Spot) (m : Model) : Prop where
  scope : m.scopeAt? spot.path = some p.site.scope
  suffix : p.site.suffix = spot.suffix
  repeats : p.repeats = spot.repeats

namespace Place

theorem Stands.grows {p : Place} {spot : Spot} {m n : Model} (h : p.Stands spot m)
    (g : m.Grows n) : p.Stands spot n :=
  { h with scope := g.scopeAt? h.scope }

theorem Stands.withPseudo {p : Place} {spot : Spot} {m : Model} (h : p.Stands spot m)
    (s : Selector.Pseudo) : (p.withPseudo s).Stands (spot.withPseudo s) m where
  scope := h.scope
  suffix := rfl
  repeats := congrArg s.repeats.getD h.repeats

mutual

theorem ingest_eq_run (p : Place) (spot : Spot) (m : Model) (h : p.Stands spot m) (node : Node) :
    p.ingest node m = (spot.walk node).run p.style p.site.name m := by
  match node with
  | .declaration property value =>
    have hsite : p.site = spot.site m p.site.name := by
      rw [Spot.site, Model.scopeAt_eq h.scope, ← h.suffix]
    have hdeclare : p.ingest (.declaration property value) m =
        .ok () (m.declare p.style p.site p.repeats property value) := rfl
    rw [hdeclare, h.repeats]
    -- the site of the place only, not the sites that `m` mentions
    conv => lhs; rw [hsite]
    rfl
  | .rule selector children =>
    have hall := fun q t n hq => ingestAll_eq_run q t n hq children
    rw [Place.ingest, Spot.walk, h.suffix]
    by_cases hs : spot.suffix.isEmpty
    · -- every entry starts where the one before it left the model, in the same place
      rw [if_pos hs, if_pos hs, List.forM_eq_forM]
      induction Selector.entries selector generalizing m with
      | nil => rfl
      | cons entry r ih =>
        rw [List.forM_cons, List.foldr_cons]
        cases he : Selector.Pseudo.ofEntry? entry with
        | none => rfl
        | some s =>
          have hone := hall (p.withPseudo s) (spot.withPseudo s) m (h.withPseudo s)
          rw [Walk.run_andThen]
          simp only [bind, EStateM.bind, hone]
          cases hr : (Spot.walkAll (spot.withPseudo s) children).run p.style p.site.name m with
          | error e n => simp [Place.withPseudo, hr]
          | ok u n =>
            have hg := Walk.grows_run hr
            simpa [Place.withPseudo, hr] using ih n (h.grows hg)
    · rw [if_neg hs, if_neg hs]
      rfl
  | .atRule header children =>
    have hin : (p.withScope (m.resolveScope p.site.scope header).1).Stands (spot.inside header)
        (m.resolveScope p.site.scope header).2 :=
      ⟨Model.scopeAt?_inside h.scope header, h.suffix, h.repeats⟩
    have hone := ingestAll_eq_run _ _ _ hin children
    have hs := Model.scopeAt_eq h.scope
    rw [Place.ingest, Spot.walk, Walk.run_andThen]
    simp only [Walk.run, Model.performAll, List.foldl_cons, List.foldl_nil, Model.perform, hs]
    exact hone
  | .statement header => rfl

theorem ingestAll_eq_run (p : Place) (spot : Spot) (m : Model) (h : p.Stands spot m)
    (nodes : List Node) :
    p.ingestAll nodes m = (spot.walkAll nodes).run p.style p.site.name m := by
  match nodes with
  | [] => rfl
  | node :: r =>
    have hone := ingest_eq_run p spot m h node
    rw [Place.ingestAll, Spot.walkAll, Walk.run_andThen]
    simp only [bind, EStateM.bind, hone]
    cases hr : (spot.walk node).run p.style p.site.name m with
    | error e n => rfl
    | ok u n => exact ingestAll_eq_run p spot n (h.grows (Walk.grows_run hr)) r

end

end Place
end AtomicCss
