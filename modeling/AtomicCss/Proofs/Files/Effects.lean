import AtomicCss.Proofs.Files.Leads
set_option autoImplicit false

namespace AtomicCss.FileTree

variable {t u : FileTree} {path content : Text} {l : Location}

theorem locate_of_leads (h : t.Leads path l) :
    t.locate path = .ok ⟨l.reverse, t.lookup? l⟩ := by
  rw [show t.locate path = _ from h, Destination.ofReversed, List.reverse_reverse]
  rfl

theorem standing?_eq_map (t : FileTree) (l : Location) :
    t.standing? l = (t.lookup? l).map FileEntry.standing := rfl

theorem read_of_leads (h : t.Leads path l) : t.read path =
    match t.standing? l with
    | none => .error .notFound
    | some .directory => .error .isADirectory
    | some (.file content) =>
      if endsInSlash path then .error .notADirectory else .ok content := by
  rw [read, locate_of_leads h, standing?_eq_map]
  cases t.lookup? l with
  | none => rfl
  | some e => cases e <;> rfl

theorem write_of_leads (h : t.Leads path l) (content : Text) : t.write path content =
    if t.standing? l = some .directory ∨ endsInSlash path = true then .error .isADirectory
    else .ok (t.setEntry l (.file content)) := by
  have hlocation : Destination.location ⟨l.reverse, t.lookup? l⟩ = l := List.reverse_reverse l
  rw [write, locate_of_leads h, standing?_eq_map]
  dsimp only [bind, Except.bind]
  rw [hlocation]
  cases t.lookup? l with
  | none => cases endsInSlash path <;> rfl
  | some e =>
    cases e with
    | file old => cases endsInSlash path <;> rfl
    | directory inner => rfl

theorem makeDirectory_of_leads (h : t.Leads path l) : t.makeDirectory path =
    if t.standing? l = none then .ok (t.setEntry l (.directory .empty))
    else .error .alreadyExists := by
  have hlocation : Destination.location ⟨l.reverse, t.lookup? l⟩ = l := List.reverse_reverse l
  rw [makeDirectory, locate_of_leads h, standing?_eq_map]
  dsimp only [bind, Except.bind]
  rw [hlocation]
  cases t.lookup? l <;> rfl

theorem read_eq_ok_iff : t.read path = .ok content ↔
    ∃ l, t.Leads path l ∧ t.standing? l = some (.file content) ∧ endsInSlash path = false := by
  constructor
  · intro h
    obtain ⟨p, hp, _⟩ := bind_ok h
    obtain ⟨hleads, _⟩ := leads_of_locate hp
    rw [read_of_leads hleads] at h
    refine ⟨p.location, hleads, ?_⟩
    split at h
    next => cases h
    next => cases h
    next found =>
      split at h
      next => cases h
      next hslash =>
        cases h
        exact ⟨found, by simpa using hslash⟩
  · rintro ⟨l, hleads, hl, hslash⟩
    rw [read_of_leads hleads, hl]
    simp [hslash]

theorem write_eq_ok_iff : t.write path content = .ok u ↔
    ∃ l, t.Leads path l ∧ t.standing? l ≠ some .directory ∧ endsInSlash path = false ∧
      u = t.setEntry l (.file content) := by
  constructor
  · intro h
    obtain ⟨p, hp, _⟩ := bind_ok h
    obtain ⟨hleads, _⟩ := leads_of_locate hp
    rw [write_of_leads hleads] at h
    split at h
    next => cases h
    next hfree =>
      rw [not_or] at hfree
      exact ⟨p.location, hleads, hfree.1, by simpa using hfree.2, (Except.ok.inj h).symm⟩
  · rintro ⟨l, hleads, hfree, hslash, rfl⟩
    rw [write_of_leads hleads, if_neg (by simp [hfree, hslash])]

theorem makeDirectory_eq_ok_iff : t.makeDirectory path = .ok u ↔
    ∃ l, t.Leads path l ∧ t.standing? l = none ∧ u = t.setEntry l (.directory .empty) := by
  constructor
  · intro h
    obtain ⟨p, hp, _⟩ := bind_ok h
    obtain ⟨hleads, _⟩ := leads_of_locate hp
    rw [makeDirectory_of_leads hleads] at h
    split at h
    next hnone => exact ⟨p.location, hleads, hnone, (Except.ok.inj h).symm⟩
    next => cases h
  · rintro ⟨l, hleads, hnone, rfl⟩
    rw [makeDirectory_of_leads hleads, if_pos hnone]

theorem isDirectory_iff :
    t.isDirectory path = true ↔ ∃ l, t.Leads path l ∧ t.standing? l = some .directory := by
  rw [isDirectory]
  constructor
  · intro h
    split at h
    next reversed inner hp =>
      obtain ⟨hleads, hentry⟩ := leads_of_locate hp
      exact ⟨_, hleads, congrArg (Option.map FileEntry.standing) hentry.symm⟩
    next => cases h
  · rintro ⟨l, hleads, hl⟩
    obtain ⟨inner, hinner⟩ := Directory.standing?_eq_directory.1 hl
    rw [locate_of_leads hleads, show t.lookup? l = _ from hinner]

theorem standing?_setEntry (h : t.Leads path l) (free : t.standing? l ≠ some .directory)
    {e : FileEntry} (bare : e.IsBare) (k : Location) :
    (t.setEntry l e).standing? k = if l = k then some e.standing else t.standing? k := by
  obtain ⟨_, above, name, _, _, habove, _, _, _, rfl⟩ := h.exists_above free
  obtain ⟨inner, hinner⟩ := Directory.standing?_eq_directory.1 habove
  rw [setEntry_append]
  refine Directory.standing?_modifyAt_put hinner (fun f hf => free ?_) bare k
  refine Directory.standing?_eq_directory.2 ⟨f, ?_⟩
  rw [Directory.lookup?_append hinner, Directory.lookup?_singleton, hf]

theorem grows_setEntry_file (h : t.Leads path l) (free : t.standing? l ≠ some .directory)
    (content : Text) : t.Grows [l] (t.setEntry l (.file content)) where
  home := home_setEntry t l _
  directory k hk := by
    have hne : l ≠ k := fun heq => free (heq ▸ hk)
    rw [standing?_setEntry h free (FileEntry.isBare_file content), if_neg hne]
    exact hk
  others k hk := by
    have hne : l ≠ k := fun heq => hk (List.mem_singleton.2 heq.symm)
    exact .inl (by rw [standing?_setEntry h free (FileEntry.isBare_file content), if_neg hne])

theorem grows_setEntry_directory (h : t.Leads path l) (hnone : t.standing? l = none) :
    t.Grows [] (t.setEntry l (.directory .empty)) where
  home := home_setEntry t l _
  directory k hk := by
    rw [standing?_setEntry h (by simp [hnone]) FileEntry.isBare_empty]
    split
    · rfl
    · exact hk
  others k _ := by
    rw [standing?_setEntry h (by simp [hnone]) FileEntry.isBare_empty]
    by_cases hl : l = k
    · exact .inr ⟨hl ▸ hnone, if_pos hl⟩
    · exact .inl (if_neg hl)

theorem makeDirectory_ok (h : t.makeDirectory path = .ok u) :
    t.Grows [] u ∧ u.isDirectory path = true := by
  obtain ⟨l, hleads, hnone, rfl⟩ := makeDirectory_eq_ok_iff.1 h
  have hgrows := grows_setEntry_directory hleads hnone
  refine ⟨hgrows, isDirectory_iff.2 ⟨l, hleads.grows hgrows, ?_⟩⟩
  rw [standing?_setEntry hleads (by simp [hnone]) FileEntry.isBare_empty, if_pos rfl]
  rfl

theorem read_of_write (h : t.write path content = .ok u) : u.read path = .ok content := by
  obtain ⟨l, hleads, free, hslash, rfl⟩ := write_eq_ok_iff.1 h
  refine read_eq_ok_iff.2 ⟨l, hleads.grows (grows_setEntry_file hleads free content), ?_, hslash⟩
  rw [standing?_setEntry hleads free (FileEntry.isBare_file content), if_pos rfl]
  rfl

end AtomicCss.FileTree
