import AtomicCss.Model.Record
import AtomicCss.Shorthand.Conflict
import AtomicCss.Shorthand.Expand
import AtomicCss.Style.Header
set_option autoImplicit false

/-!
The declaration model: all records in the order of their first write, with indexes by key, scope and
name, and the tree of scopes, in which at-rules with equivalent headers under one parent meet.
-/

namespace AtomicCss

open Shorthand (ConflictTracker Conflict)

/-- A conflict and the style it was found in. -/
structure Warning where
  conflict : Conflict
  style : StyleName
  deriving DecidableEq, Repr

def Warning.message (w : Warning) : Text :=
  w.conflict.longhand ++ " found with shorthand ".toList ++ w.conflict.shorthand ++ " in ".toList
    ++ w.style.text

structure Model where
  names : List StyleName
  scopes : List Scope
  /-- The scope of each parent and header key. -/
  scopeIndex : OrderedMap (ScopeId × Text) ScopeId
  /-- The child scopes of each scope, in order of first use. -/
  children : List (List ScopeId)
  records : List Record
  keyIndex : OrderedMap (Site × Text) Nat
  byScope : List (List Nat)
  byName : List (List Nat)
  conflicts : ConflictTracker Site
  warnings : List Warning
  deriving Repr

namespace Model

def empty : Model where
  names := []
  scopes := [⟨rootScope, none, []⟩]
  scopeIndex := []
  children := [[]]
  records := []
  keyIndex := []
  byScope := [[]]
  byName := []
  conflicts := .empty
  warnings := []

def childrenOf (m : Model) (s : ScopeId) : List ScopeId := m.children.getD s []

def headerOf (m : Model) (s : ScopeId) : Text := (m.scopes[s]?).elim [] (·.header)

def recordsAt (m : Model) (positions : List Nat) : List Record :=
  positions.filterMap fun i => m.records[i]?

def recordsInScope (m : Model) (s : ScopeId) : List Record := m.recordsAt (m.byScope.getD s [])

def recordsForName (m : Model) (n : NameId) : List Record := m.recordsAt (m.byName.getD n [])

/-- The child of `parent` with this header, which is created on first use. -/
def resolveScope (m : Model) (parent : ScopeId) (header : Text) : ScopeId × Model :=
  match m.scopeIndex.get? (parent, Header.key header) with
  | some id => (id, m)
  | none =>
    let id := m.scopes.length
    (id, { m with
      scopes := m.scopes ++ [⟨id, some parent, header⟩]
      scopeIndex := m.scopeIndex.put (parent, Header.key header) id
      children := m.children.modify parent (· ++ [id]) ++ [[]]
      byScope := m.byScope ++ [[]] })

/-- A later write to a key takes the place of the earlier one. -/
def insert (m : Model) (r : Record) : Model :=
  match m.keyIndex.get? r.key with
  | some i =>
    { m with records := m.records.modify i fun _ => r }
  | none =>
    let i := m.records.length
    { m with
      records := m.records ++ [r]
      keyIndex := m.keyIndex.put r.key i
      byScope := m.byScope.modify r.site.scope (· ++ [i])
      byName := m.byName.modify r.site.name (· ++ [i]) }

def warn (m : Model) (style : StyleName) (site : Site) (property : Text) : Model :=
  let (found, conflicts) := m.conflicts.record site property
  { m with
    conflicts := conflicts
    warnings := m.warnings ++ found.map (⟨·, style⟩) }

/-- Adds a declaration as written: its conflicts, and the records it expands to. -/
def declare (m : Model) (style : StyleName) (site : Site) (repeats : Nat)
    (property value : Text) : Model :=
  (Shorthand.expansion property value).foldl
    (fun m d => m.insert ⟨site, repeats, d.1, d.2⟩) (m.warn style site property)

def addName (m : Model) (style : StyleName) : Model :=
  { m with names := m.names ++ [style], byName := m.byName ++ [[]] }

end Model
end AtomicCss
