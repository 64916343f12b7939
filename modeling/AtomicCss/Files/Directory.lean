import AtomicCss.Text.Basic
set_option autoImplicit false

/-!
Directories as trees of named files and directories, in the order in which they were made.

Whatever stands in such a tree has directories above it, up to the root.
-/

namespace AtomicCss

inductive Directory where
  | empty
  | file (name content : Text) (rest : Directory)
  | directory (name : Text) (inner rest : Directory)
  deriving DecidableEq, Repr

/-- What a name in a directory stands for. -/
inductive FileEntry where
  | file (content : Text)
  | directory (inner : Directory)
  deriving DecidableEq, Repr

abbrev Location := List Text

namespace Directory

def cons (name : Text) : FileEntry → Directory → Directory
  | .file content, d => .file name content d
  | .directory inner, d => .directory name inner d

def get? : Directory → Text → Option FileEntry
  | .empty, _ => none
  | .file n content rest, name => if n = name then some (.file content) else rest.get? name
  | .directory n inner rest, name => if n = name then some (.directory inner) else rest.get? name

def put (name : Text) (e : FileEntry) : Directory → Directory
  | .empty => cons name e .empty
  | .file n content rest =>
    if n = name then cons name e rest else .file n content (put name e rest)
  | .directory n inner rest =>
    if n = name then cons name e rest else .directory n inner (put name e rest)

def erase (name : Text) : Directory → Directory
  | .empty => .empty
  | .file n content rest =>
    if n = name then erase name rest else .file n content (erase name rest)
  | .directory n inner rest =>
    if n = name then erase name rest else .directory n inner (erase name rest)

def lookup? : Location → Directory → Option FileEntry
  | [], d => some (.directory d)
  | name :: below, d =>
    match d.get? name with
    | some (.directory inner) => lookup? below inner
    | some (.file content) => if below.isEmpty then some (.file content) else none
    | none => none

def modifyAt (f : Directory → Directory) : Location → Directory → Directory
  | [], d => f d
  | name :: below, d =>
    match d.get? name with
    | some (.directory inner) => put name (.directory (modifyAt f below inner)) d
    | _ => d

def files : Directory → List (Location × Text)
  | .empty => []
  | .file name content rest => ([name], content) :: rest.files
  | .directory name inner rest => inner.files.map (fun e => (name :: e.1, e.2)) ++ rest.files

def content? (l : Location) (d : Directory) : Option Text :=
  match d.lookup? l with
  | some (.file content) => some content
  | _ => none

@[simp] theorem lookup?_nil (d : Directory) : lookup? [] d = some (.directory d) := rfl

theorem get?_cons (name other : Text) (e : FileEntry) (d : Directory) :
    (cons name e d).get? other = if name = other then some e else d.get? other := by
  cases e <;> rfl

theorem get?_put (name other : Text) (e : FileEntry) (d : Directory) :
    (put name e d).get? other = if name = other then some e else d.get? other := by
  induction d with
  | empty => exact get?_cons name other e .empty
  | file n content rest ih =>
    by_cases h : n = name
    · subst h
      by_cases ho : n = other <;> simp [put, get?, get?_cons, ho]
    · by_cases ho : n = other
      · subst ho
        simp [put, get?, h, Ne.symm h]
      · simp [put, get?, h, ho, ih]
  | directory n inner rest ihInner ih =>
    by_cases h : n = name
    · subst h
      by_cases ho : n = other <;> simp [put, get?, get?_cons, ho]
    · by_cases ho : n = other
      · subst ho
        simp [put, get?, h, Ne.symm h]
      · simp [put, get?, h, ho, ih]

theorem lookup?_append {above : Location} {d inner : Directory}
    (h : d.lookup? above = some (.directory inner)) (below : Location) :
    d.lookup? (above ++ below) = inner.lookup? below := by
  induction above generalizing d with
  | nil =>
    simp only [lookup?_nil, Option.some.injEq, FileEntry.directory.injEq] at h
    simp [h]
  | cons name above ih =>
    simp only [lookup?, List.cons_append] at h ⊢
    split at h
    · exact ih h
    · split at h <;> simp at h
    · simp at h

theorem lookup?_singleton (d : Directory) (name : Text) : d.lookup? [name] = d.get? name := by
  simp only [lookup?]
  split <;> simp_all

end Directory
end AtomicCss
