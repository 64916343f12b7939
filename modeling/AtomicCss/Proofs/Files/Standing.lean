import AtomicCss.Files.Tree
set_option autoImplicit false

namespace AtomicCss

/-- What stands at a location, without what is inside a directory. -/
inductive Standing where
  | file (content : Text)
  | directory
  deriving DecidableEq, Repr

namespace FileEntry

def standing : FileEntry → Standing
  | .file content => .file content
  | .directory _ => .directory

def IsBare : FileEntry → Prop
  | .file _ => True
  | .directory inner => inner = .empty

theorem isBare_file (content : Text) : (file content).IsBare := trivial

theorem isBare_empty : (directory .empty).IsBare := rfl

end FileEntry

namespace Directory

def standing? (l : Location) (d : Directory) : Option Standing :=
  (d.lookup? l).map FileEntry.standing

theorem standing?_eq_file {l : Location} {d : Directory} {content : Text} :
    d.standing? l = some (.file content) ↔ d.lookup? l = some (.file content) := by
  rw [standing?]
  cases d.lookup? l with
  | none => simp
  | some e => cases e <;> simp [FileEntry.standing]

theorem standing?_eq_directory {l : Location} {d : Directory} :
    d.standing? l = some .directory ↔ ∃ inner, d.lookup? l = some (.directory inner) := by
  rw [standing?]
  cases d.lookup? l with
  | none => simp
  | some e => cases e <;> simp [FileEntry.standing]

theorem content?_eq_some {l : Location} {d : Directory} {content : Text} :
    d.content? l = some content ↔ d.standing? l = some (.file content) := by
  rw [standing?_eq_file, content?]
  cases d.lookup? l with
  | none => simp
  | some e => cases e <;> simp

theorem exists_directory_above {above below : Location} {d : Directory} {e : FileEntry}
    (h : d.lookup? (above ++ below) = some e) (hbelow : below ≠ []) :
    ∃ inner, d.lookup? above = some (.directory inner) := by
  induction above generalizing d with
  | nil => exact ⟨d, rfl⟩
  | cons name above ih =>
    rw [List.cons_append, lookup?] at h
    rw [lookup?]
    cases hname : d.get? name with
    | none => simp [hname] at h
    | some entry =>
      rw [hname] at h
      cases entry with
      | file content => simp [hbelow] at h
      | directory inner => exact ih h

theorem standing?_tail {d : Directory} {l : Location}
    (h : d.standing? l.reverse = some .directory) :
    d.standing? l.tail.reverse = some .directory := by
  cases l with
  | nil => exact h
  | cons name above =>
    rw [List.reverse_cons] at h
    obtain ⟨inner, hinner⟩ := standing?_eq_directory.1 h
    exact standing?_eq_directory.2 (exists_directory_above hinner (List.cons_ne_nil name []))

theorem lookup?_empty {l : Location} (h : l ≠ []) : lookup? l .empty = none := by
  cases l with
  | nil => exact absurd rfl h
  | cons name below => rfl

theorem lookup?_cons_of_free {d : Directory} {name : Text} {below : Location}
    (free : ∀ f, d.get? name ≠ some (.directory f)) (hbelow : below ≠ []) :
    d.lookup? (name :: below) = none := by
  rw [lookup?]
  cases hname : d.get? name with
  | none => rfl
  | some e =>
    cases e with
    | file content => simp [hbelow]
    | directory f => exact absurd hname (free f)

theorem standing?_put {d : Directory} {name : Text} {e : FileEntry}
    (free : ∀ f, d.get? name ≠ some (.directory f)) (bare : e.IsBare) (l : Location) :
    (put name e d).standing? l = if [name] = l then some e.standing else d.standing? l := by
  cases l with
  | nil => rfl
  | cons n below =>
    by_cases hn : name = n
    · subst hn
      cases below with
      | nil => rw [standing?, lookup?_singleton, get?_put, if_pos rfl, if_pos rfl, Option.map_some]
      | cons m below =>
        have hnone : (put name e d).lookup? (name :: m :: below) = none := by
          rw [lookup?, get?_put, if_pos rfl]
          cases e with
          | file content => rfl
          | directory f =>
            obtain rfl : f = .empty := bare
            exact lookup?_empty (List.cons_ne_nil m below)
        rw [standing?, hnone, if_neg (by simp), standing?,
          lookup?_cons_of_free free (List.cons_ne_nil m below)]
    · rw [standing?, standing?, lookup?, lookup?, get?_put, if_neg hn, if_neg (by simp [hn])]

theorem standing?_modifyAt_put {above : Location} {d inner : Directory} {name : Text}
    {e : FileEntry} (h : d.lookup? above = some (.directory inner))
    (free : ∀ f, inner.get? name ≠ some (.directory f)) (bare : e.IsBare) (l : Location) :
    (modifyAt (put name e) above d).standing? l =
      if above ++ [name] = l then some e.standing else d.standing? l := by
  induction above generalizing d l with
  | nil =>
    rw [lookup?_nil] at h
    cases h
    exact standing?_put free bare l
  | cons n above ih =>
    rw [lookup?] at h
    cases hn : d.get? n with
    | none => simp [hn] at h
    | some entry =>
      simp only [hn] at h
      cases entry with
      | file content => simp at h
      | directory below =>
        cases l with
        | nil => simp [modifyAt, hn, standing?, FileEntry.standing]
        | cons m rest =>
          rw [modifyAt, hn, standing?, standing?, lookup?, lookup?, get?_put]
          by_cases hm : n = m
          · subst hm
            simpa [hn, standing?] using ih h rest
          · simp [hm]

end Directory

namespace FileTree

def standing? (t : FileTree) (l : Location) : Option Standing := t.root.standing? l

theorem content?_eq_some {t : FileTree} {l : Location} {content : Text} :
    t.content? l = some content ↔ t.standing? l = some (.file content) :=
  Directory.content?_eq_some

theorem setEntry_append (t : FileTree) (above : Location) (name : Text) (e : FileEntry) :
    t.setEntry (above ++ [name]) e = { t with root := t.root.modifyAt (.put name e) above } := by
  rw [setEntry, List.getLast?_concat, List.dropLast_concat]

/-- The second tree has the directories of the first. It differs from it by new directories and at
the locations that have been written. -/
structure Grows (written : List Location) (t u : FileTree) : Prop where
  home : u.home = t.home
  directory : ∀ l, t.standing? l = some .directory → u.standing? l = some .directory
  others : ∀ l, l ∉ written → u.standing? l = t.standing? l ∨
    t.standing? l = none ∧ u.standing? l = some .directory

namespace Grows

variable {written : List Location} {t u v : FileTree}

theorem refl (t : FileTree) : Grows [] t t := ⟨rfl, fun _ h => h, fun _ _ => .inl rfl⟩

theorem trans {more : List Location} (h : Grows written t u) (hmore : Grows more u v) :
    Grows (written ++ more) t v where
  home := hmore.home.trans h.home
  directory l hl := hmore.directory l (h.directory l hl)
  others l hl := by
    rw [List.mem_append, not_or] at hl
    rcases hmore.others l hl.2 with hu | ⟨hnone, hdirectory⟩
    · rw [hu]
      exact h.others l hl.1
    · rcases h.others l hl.1 with ht | ⟨_, hu⟩
      · exact .inr ⟨ht ▸ hnone, hdirectory⟩
      · rw [hnone] at hu
        cases hu

theorem content?_eq (h : Grows written t u) {l : Location} (hl : l ∉ written) :
    u.content? l = t.content? l := by
  refine Option.ext fun content => ?_
  rw [content?_eq_some, content?_eq_some]
  rcases h.others l hl with hu | ⟨hnone, hdirectory⟩
  · rw [hu]
  · simp [hnone, hdirectory]

end Grows
end FileTree
end AtomicCss
