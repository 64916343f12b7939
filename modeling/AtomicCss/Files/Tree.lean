import AtomicCss.Files.Directory
import AtomicCss.Files.Path
set_option autoImplicit false

/-!
A tree of files and directories, and how paths find their way in it.

Each component of a path is looked up in the directory reached so far, which has to exist. The last
component need not exist, so that a file can be created there. Names and whole paths have a greatest
length, counted in bytes of UTF-8.
-/

namespace AtomicCss

inductive FileFault where
  | notFound
  | alreadyExists
  | notADirectory
  | isADirectory
  | nameTooLong
  /-- A path holds a null character. -/
  | nullInPath
  | other (message : Text)
  deriving DecidableEq, Repr

def FileFault.message : FileFault → Text
  | .notFound => "No such file or directory (os error 2)".toList
  | .alreadyExists => "File exists (os error 17)".toList
  | .notADirectory => "Not a directory (os error 20)".toList
  | .isADirectory => "Is a directory (os error 21)".toList
  | .nameTooLong => "File name too long (os error 36)".toList
  | .nullInPath => "file name contained an unexpected NUL byte".toList
  | .other message => message

structure Destination where
  reversed : Location
  entry : Option FileEntry
  deriving DecidableEq, Repr

namespace Destination

def location (p : Destination) : Location := p.reversed.reverse

def ofReversed (root : Directory) (l : Location) : Destination := ⟨l, root.lookup? l.reverse⟩

def maxNameBytes : Nat := 255

def step (root : Directory) (p : Destination) (name : Text) : Except FileFault Destination :=
  match p.entry with
  | none => .error .notFound
  | some (.file _) => .error .notADirectory
  | some (.directory inner) =>
    if name = ['.'] then .ok p
    else if name = ['.', '.'] then .ok (ofReversed root p.reversed.tail)
    else if maxNameBytes < name.utf8Length then .error .nameTooLong
    else .ok ⟨name :: p.reversed, inner.get? name⟩

theorem step_eq_ofReversed {root : Directory} {l : Location} {name : Text} {p : Destination}
    (h : (ofReversed root l).step root name = .ok p) : p = ofReversed root p.reversed := by
  simp only [step, ofReversed] at h
  split at h
  · simp at h
  · simp at h
  · rename_i inner found
    split at h
    · cases h
      rfl
    · split at h
      · cases h
        rfl
      · split at h
        · simp at h
        · cases h
          simp [ofReversed, Directory.lookup?_append found, Directory.lookup?_singleton]

end Destination

structure FileTree where
  root : Directory
  /-- Where paths without a leading slash start. -/
  home : Location
  deriving DecidableEq, Repr

namespace FileTree

def lookup? (t : FileTree) (l : Location) : Option FileEntry := t.root.lookup? l

def content? (t : FileTree) (l : Location) : Option Text := t.root.content? l

def setEntry (t : FileTree) (l : Location) (e : FileEntry) : FileTree :=
  match l.getLast? with
  | none => t
  | some name => { t with root := t.root.modifyAt (.put name e) l.dropLast }

def remove (t : FileTree) (l : Location) : FileTree :=
  match l.getLast? with
  | none => t
  | some name => { t with root := t.root.modifyAt (.erase name) l.dropLast }

def maxPathBytes : Nat := 4095

def start (t : FileTree) (path : Text) : Destination :=
  .ofReversed t.root (if path.head? = some '/' then [] else t.home.reverse)

def locate (t : FileTree) (path : Text) : Except FileFault Destination :=
  if path.isEmpty then .error .notFound
  else if path.contains '\x00' then .error .nullInPath
  else if maxPathBytes < path.utf8Length then .error .nameTooLong
  else (Path.components path).foldlM (Destination.step t.root) (t.start path)

def endsInSlash (path : Text) : Bool := path.getLast? = some '/'

def read (t : FileTree) (path : Text) : Except FileFault Text := do
  match (← t.locate path).entry with
  | none => throw .notFound
  | some (.directory _) => throw .isADirectory
  | some (.file content) => if endsInSlash path then throw .notADirectory else return content

def write (t : FileTree) (path content : Text) : Except FileFault FileTree := do
  let destination ← t.locate path
  match destination.entry with
  | some (.directory _) => throw .isADirectory
  | _ =>
    if endsInSlash path then throw .isADirectory
    else return t.setEntry destination.location (.file content)

def makeDirectory (t : FileTree) (path : Text) : Except FileFault FileTree := do
  let destination ← t.locate path
  match destination.entry with
  | none => return t.setEntry destination.location (.directory .empty)
  | some _ => throw .alreadyExists

def isDirectory (t : FileTree) (path : Text) : Bool :=
  match t.locate path with
  | .ok ⟨_, some (.directory _)⟩ => true
  | _ => false

theorem foldlM_step_eq_ofReversed {root : Directory} {names : List Text} {l : Location}
    {p : Destination} (h : names.foldlM (Destination.step root) (.ofReversed root l) = .ok p) :
    p = .ofReversed root p.reversed := by
  induction names generalizing l with
  | nil =>
    cases h
    rfl
  | cons name names ih =>
    rw [List.foldlM_cons] at h
    cases hs : (Destination.ofReversed root l).step root name with
    | error e => simp [hs, bind, Except.bind] at h
    | ok q =>
      rw [hs, Destination.step_eq_ofReversed hs] at h
      exact ih h

theorem entry_of_locate {t : FileTree} {path : Text} {p : Destination} (h : t.locate path = .ok p) :
    p.entry = t.lookup? p.location := by
  unfold locate at h
  split at h
  · simp at h
  · split at h
    · simp at h
    · split at h
      · simp at h
      · exact congrArg Destination.entry (foldlM_step_eq_ofReversed h)

@[simp] theorem home_setEntry (t : FileTree) (l : Location) (e : FileEntry) :
    (t.setEntry l e).home = t.home := by
  unfold setEntry
  split <;> rfl

end FileTree
end AtomicCss
