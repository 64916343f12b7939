import AtomicCss.Proofs.Data.Outcome
import AtomicCss.Proofs.Files.Paths
import AtomicCss.Proofs.Files.Standing
set_option autoImplicit false

namespace AtomicCss

namespace Destination

theorem ofReversed_inj {root : Directory} {l k : Location}
    (h : ofReversed root l = ofReversed root k) : l = k :=
  congrArg Destination.reversed h

/-- The reversed location that a name leads to from another. -/
def next (name : Text) (l : Location) : Location :=
  if name = ['.'] then l else if name = ['.', '.'] then l.tail else name :: l

/-- Whether a name is short enough; one or two dots are. -/
def Fits (name : Text) : Prop :=
  name = ['.'] ∨ name = ['.', '.'] ∨ name.utf8Length ≤ maxNameBytes

theorem step_eq_ok_iff {root : Directory} {l : Location} {name : Text} {p : Destination} :
    (ofReversed root l).step root name = .ok p ↔
      root.standing? l.reverse = some .directory ∧ Fits name ∧
        p = ofReversed root (next name l) := by
  rw [Directory.standing?_eq_directory, step, ofReversed, Fits, next]
  cases h : root.lookup? l.reverse with
  | none => simp
  | some e =>
    cases e with
    | file content => simp
    | directory inner =>
      by_cases hdot : name = ['.']
      · simp [hdot, ofReversed, h, eq_comm]
      · by_cases hdots : name = ['.', '.']
        · simp [hdots, ofReversed, eq_comm]
        · by_cases hlong : maxNameBytes < name.utf8Length
          · simp [hdot, hdots, hlong, Nat.not_le.2 hlong]
          · simp [hdot, hdots, hlong, ofReversed, Directory.lookup?_append h,
              Directory.lookup?_singleton, eq_comm, Nat.le_of_not_lt]

theorem foldlM_step_of_directory {t u : Directory}
    (h : ∀ l, t.standing? l = some .directory → u.standing? l = some .directory)
    {names : List Text} {l k : Location}
    (hrun : names.foldlM (step t) (ofReversed t l) = .ok (ofReversed t k)) :
    names.foldlM (step u) (ofReversed u l) = .ok (ofReversed u k) := by
  induction names generalizing l with
  | nil =>
    obtain rfl := ofReversed_inj (Except.ok.inj hrun)
    rfl
  | cons name names ih =>
    rw [List.foldlM_cons] at hrun ⊢
    obtain ⟨p, hp, hrun⟩ := bind_ok hrun
    obtain ⟨hdirectory, hfits, rfl⟩ := step_eq_ok_iff.1 hp
    rw [step_eq_ok_iff.2 ⟨h _ hdirectory, hfits, rfl⟩]
    exact ih hrun

end Destination

namespace FileTree

variable {t u : FileTree} {path : Text} {l : Location}

/-- The path leads to the location, whether or not something stands there. -/
def Leads (t : FileTree) (path : Text) (l : Location) : Prop :=
  t.locate path = .ok (.ofReversed t.root l.reverse)

theorem leads_of_locate {p : Destination} (h : t.locate path = .ok p) :
    t.Leads path p.location ∧ p.entry = t.lookup? p.location := by
  have hentry := entry_of_locate h
  refine ⟨?_, hentry⟩
  rw [Leads, h, Destination.ofReversed, Destination.location, List.reverse_reverse]
  exact congrArg (fun e => Except.ok (Destination.mk p.reversed e)) hentry

theorem Leads.unique {k : Location} (h : t.Leads path l) (hk : t.Leads path k) : l = k := by
  rw [Leads, h] at hk
  exact List.reverse_inj.1 (Destination.ofReversed_inj (Except.ok.inj hk))

/-- What a path has to be like wherever it leads. -/
def IsAdmissible (path : Text) : Prop :=
  path ≠ [] ∧ '\x00' ∉ path ∧ path.utf8Length ≤ maxPathBytes

theorem leads_iff : t.Leads path l ↔ IsAdmissible path ∧
    (Path.components path).foldlM (Destination.step t.root) (t.start path) =
      .ok (.ofReversed t.root l.reverse) := by
  rw [Leads, locate, IsAdmissible]
  by_cases hempty : path = []
  · simp [hempty]
  · by_cases hnull : '\x00' ∈ path
    · simp [hempty, hnull]
    · by_cases hlong : maxPathBytes < path.utf8Length
      · simp [hempty, hnull, hlong, Nat.not_le.2 hlong]
      · simp [hempty, hnull, hlong, Nat.le_of_not_lt hlong]

theorem Leads.grows {written : List Location} (h : t.Leads path l) (hgrows : t.Grows written u) :
    u.Leads path l := by
  obtain ⟨hpath, hrun⟩ := leads_iff.1 h
  refine leads_iff.2 ⟨hpath, ?_⟩
  rw [start] at hrun ⊢
  rw [hgrows.home]
  exact Destination.foldlM_step_of_directory hgrows.directory hrun

theorem Leads.exists_above (h : t.Leads path l) (free : t.standing? l ≠ some .directory) :
    ∃ (names : List Text) (above : Location) (name : Text),
      Path.components path = names ++ [name] ∧
      names.foldlM (Destination.step t.root) (t.start path) =
        .ok (.ofReversed t.root above.reverse) ∧
      t.standing? above = some .directory ∧ name ≠ ['.'] ∧ name ≠ ['.', '.'] ∧
      name.utf8Length ≤ Destination.maxNameBytes ∧ l = above ++ [name] := by
  obtain ⟨⟨hne, _⟩, hrun⟩ := leads_iff.1 h
  rcases List.eq_nil_or_concat (Path.components path) with hnil | ⟨names, name, hnames⟩
  · -- Only slashes, which lead to the root.
    rw [hnil, start, if_pos (Path.head?_of_components_eq_nil hnil hne)] at hrun
    have hroot := Destination.ofReversed_inj (Except.ok.inj hrun)
    obtain rfl : l = [] := by simpa using hroot.symm
    exact absurd rfl free
  · rw [List.concat_eq_append] at hnames
    rw [hnames, List.foldlM_append] at hrun
    obtain ⟨q, hq, hlast⟩ := bind_ok hrun
    rw [List.foldlM_cons] at hlast
    obtain ⟨p, hp, hlast⟩ := bind_ok hlast
    obtain rfl := Except.ok.inj hlast
    have hqr : q = .ofReversed t.root q.reversed := foldlM_step_eq_ofReversed hq
    rw [hqr] at hp
    obtain ⟨hdirectory, hfits, hl⟩ := Destination.step_eq_ok_iff.1 hp
    have hl := Destination.ofReversed_inj hl
    have hdot : name ≠ ['.'] := by
      intro hname
      rw [hname, Destination.next, if_pos rfl] at hl
      exact free (List.reverse_reverse l ▸ hl ▸ hdirectory)
    have hdots : name ≠ ['.', '.'] := by
      intro hname
      rw [hname, Destination.next, if_neg (by decide), if_pos rfl] at hl
      exact free (List.reverse_reverse l ▸ hl ▸ Directory.standing?_tail hdirectory)
    rw [Destination.next, if_neg hdot, if_neg hdots] at hl
    refine ⟨names, q.reversed.reverse, name, hnames, ?_, hdirectory, hdot, hdots, ?_, ?_⟩
    · rw [List.reverse_reverse, ← hqr]
      exact hq
    · rcases hfits with h | h | h
      · exact absurd h hdot
      · exact absurd h hdots
      · exact h
    · rw [← List.reverse_reverse l, hl, List.reverse_cons]

section

variable {ending other : Text}

/-- A path with an ending leads into the directory of the path, to its last component with the
ending, if no directory stands there. -/
theorem Leads.exists_above_append (h : t.Leads (path ++ ending) l)
    (free : t.standing? l ≠ some .directory) (hslash : '/' ∉ ending)
    (hne : Path.last path ++ ending ≠ []) :
    ∃ above, (Path.components (Path.above path)).foldlM (Destination.step t.root)
        (t.start (path ++ ending)) = .ok (.ofReversed t.root above.reverse) ∧
      t.standing? above = some .directory ∧ Path.last path ++ ending ≠ ['.'] ∧
      (Path.last path ++ ending).utf8Length ≤ Destination.maxNameBytes ∧
      l = above ++ [Path.last path ++ ending] := by
  obtain ⟨names, above, name, hnames, hrun, habove, hdot, _, hfits, rfl⟩ := h.exists_above free
  rw [Path.components_append hslash hne] at hnames
  obtain ⟨rfl, hname⟩ := List.append_inj' hnames rfl
  obtain rfl := List.head_eq_of_cons_eq hname
  exact ⟨above, hrun, habove, hdot, hfits, rfl⟩

theorem start_append (t : FileTree) (path : Text) (hslash : '/' ∉ ending) (hother : '/' ∉ other) :
    t.start (path ++ ending) = t.start (path ++ other) := by
  cases path with
  | cons c rest => rfl
  | nil =>
    have hhead : ∀ {e : Text}, '/' ∉ e → e.head? ≠ some '/' := fun he heq =>
      he (List.mem_of_head? heq)
    rw [start, start, List.nil_append, List.nil_append, if_neg (hhead hslash),
      if_neg (hhead hother)]

theorem Leads.beside (h : t.Leads (path ++ ending) l) (free : t.standing? l ≠ some .directory)
    (other : Text) (hslash : '/' ∉ ending) (hne : ending ≠ []) (hother : '/' ∉ other)
    (hnull : '\x00' ∉ other) (hlength : 2 < other.length)
    (hshort : other.utf8Length ≤ ending.utf8Length) :
    ∃ above, l = above ++ [Path.last path ++ ending] ∧
      t.Leads (path ++ other) (above ++ [Path.last path ++ other]) := by
  have hothers : other ≠ [] := by
    rintro rfl
    exact absurd hlength (by decide)
  obtain ⟨above, hrun, habove, _, hfits, rfl⟩ :=
    h.exists_above_append free hslash (List.append_ne_nil_of_right_ne_nil _ hne)
  obtain ⟨⟨_, hpathNull, hpathShort⟩, _⟩ := leads_iff.1 h
  rw [List.mem_append, not_or] at hpathNull
  rw [Text.utf8Length_append] at hfits hpathShort
  refine ⟨above, rfl, leads_iff.2 ⟨⟨List.append_ne_nil_of_right_ne_nil _ hothers, ?_, ?_⟩, ?_⟩⟩
  · rw [List.mem_append, not_or]
    exact ⟨hpathNull.1, hnull⟩
  · rw [Text.utf8Length_append]
    exact Nat.le_trans (Nat.add_le_add_left hshort _) hpathShort
  · have hlong : 2 < (Path.last path ++ other).length := by
      rw [List.length_append]
      exact Nat.lt_add_left _ hlength
    have hdot : Path.last path ++ other ≠ ['.'] := fun heq => by simp [heq] at hlong
    have hdots : Path.last path ++ other ≠ ['.', '.'] := fun heq => by simp [heq] at hlong
    have hstep : (Destination.ofReversed t.root above.reverse).step t.root
        (Path.last path ++ other) = .ok (.ofReversed t.root (above ++ [Path.last path ++ other]).reverse) := by
      refine Destination.step_eq_ok_iff.2 ⟨?_, .inr (.inr ?_), ?_⟩
      · rw [List.reverse_reverse]
        exact habove
      · rw [Text.utf8Length_append]
        exact Nat.le_trans (Nat.add_le_add_left hshort _) hfits
      · rw [Destination.next, if_neg hdot, if_neg hdots, List.reverse_append]
        rfl
    rw [Path.components_append hother (List.append_ne_nil_of_right_ne_nil _ hothers),
      List.foldlM_append, start_append t path hother hslash, hrun]
    dsimp only [bind, Except.bind]
    rw [List.foldlM_cons, hstep]
    rfl

end

end FileTree
end AtomicCss
