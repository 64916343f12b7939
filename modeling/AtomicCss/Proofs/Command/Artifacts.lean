import AtomicCss.Proofs.Command.Steps
set_option autoImplicit false

namespace AtomicCss.Command

variable {t : FileTree} {path content : Text} {l : Location} {w r : Workspace}

def lastLetter (l : Location) : Option Char := l.getLast?.bind List.getLast?

theorem lastLetter_append (above : Location) (name : Text) {ending : Text} (h : ending ≠ []) :
    lastLetter (above ++ [name ++ ending]) = ending.getLast? := by
  rw [lastLetter, List.getLast?_concat, Option.bind_some, List.getLast?_append,
    Option.or_of_isSome (List.getLast?_isSome.2 h)]

theorem leads_module {output : Text} (h : t.Leads (artifactPaths output).1 l)
    (free : t.standing? l ≠ some .directory) :
    lastLetter l = some 's' ∧
      ∃ k, t.Leads (artifactPaths output).2 k ∧ lastLetter k = some 's' ∧ l ≠ k := by
  obtain ⟨above, rfl, hleads⟩ := h.beside free ".js".toList (by decide) (by decide) (by decide)
    (by decide) (by decide) (by decide)
  refine ⟨lastLetter_append above _ (by decide), _, hleads, lastLetter_append above _ (by decide),
    fun heq => ?_⟩
  have hname := List.head_eq_of_cons_eq (List.append_inj' heq rfl).2
  have hending := List.append_cancel_left hname
  exact absurd hending (by decide)

theorem fingerprint_of_leads (h : w.tree.Leads path l) (free : w.tree.standing? l ≠ some .directory)
    (hslash : FileTree.endsInSlash path = false) :
    w.fingerprint path = .ok (w.tree.content? l) := by
  rw [Workspace.fingerprint, FileTree.read_of_leads h]
  cases hl : w.tree.standing? l with
  | none =>
    have hnone : w.tree.content? l = none :=
      Option.eq_none_iff_forall_ne_some.2 fun content hcontent => by
        rw [FileTree.content?_eq_some, hl] at hcontent
        cases hcontent
    rw [hnone]
  | some s =>
    cases s with
    | file content =>
      rw [FileTree.content?_eq_some.2 hl, hslash]
      rfl
    | directory => exact absurd hl free

/-- The artifact is written to the location, and announced if that changes its content. -/
structure Saves (path content : Text) (l : Location) (changed : Bool) (w r : Workspace) :
    Prop where
  leads : w.tree.Leads path l
  free : w.tree.standing? l ≠ some .directory
  grows : w.tree.Grows [l] r.tree
  others : ∀ k, k ≠ l → r.tree.standing? k = w.tree.standing? k
  read : r.tree.read path = .ok content
  changed_iff : changed = true ↔ w.tree.content? l ≠ some content
  stdout : r.stdout = w.stdout ++ if changed then announcement path else []
  stderr : r.stderr = w.stderr

namespace Saves

variable {changed : Bool}

theorem content?_eq (h : Saves path content l changed w r) : r.tree.content? l = some content := by
  obtain ⟨k, hk, hfile, _⟩ := FileTree.read_eq_ok_iff.1 h.read
  rw [hk.unique (h.leads.grows h.grows)] at hfile
  exact FileTree.content?_eq_some.2 hfile

theorem isDirectory (h : Saves path content l changed w r) {other : Text} {k : Location}
    (hother : w.tree.Leads other k) (hk : k ≠ l) (hthere : r.tree.standing? k = some .directory) :
    w.tree.isDirectory other = true :=
  FileTree.isDirectory_iff.2 ⟨k, hother, (h.others k hk).symm.trans hthere⟩

end Saves

theorem saves_of_writeReporting {changed : Bool}
    (h : (writeReporting path content : Action _).run w = (.ok changed, r)) :
    ∃ l, Saves path content l changed w r := by
  rw [run_writeReporting] at h
  cases hbefore : w.fingerprint path with
  | error e =>
    rw [hbefore] at h
    cases h
  | ok before =>
    cases hwrite : w.tree.write path content with
    | error e =>
      rw [hbefore, hwrite] at h
      cases h
    | ok tree =>
      rw [hbefore, hwrite] at h
      have hread := FileTree.read_of_write hwrite
      obtain ⟨l, hleads, free, hslash, rfl⟩ := FileTree.write_eq_ok_iff.1 hwrite
      have hgrows := FileTree.grows_setEntry_file hleads free content
      have hothers : ∀ k, k ≠ l →
          (w.tree.setEntry l (.file content)).standing? k = w.tree.standing? k := fun k hk => by
        rw [FileTree.standing?_setEntry hleads free (FileEntry.isBare_file content),
          if_neg (Ne.symm hk)]
      rw [fingerprint_of_leads hleads free hslash] at hbefore
      cases hbefore
      dsimp only at h
      split at h
      next hsame =>
        cases h
        have hstdout : w.stdout = w.stdout ++ [] := (List.append_nil _).symm
        exact ⟨l, hleads, free, hgrows, hothers, hread, by simp [hsame], hstdout, rfl⟩
      next hnew =>
        cases h
        exact ⟨l, hleads, free, hgrows, hothers, hread, by simp [hnew], rfl, rfl⟩

theorem eq_of_writeReporting {e : BuildError}
    (h : (writeReporting path content : Action _).run w = (.error e, r)) : r = w := by
  rw [run_writeReporting] at h
  split at h
  next =>
    cases h
    rfl
  next =>
    split at h
    next =>
      cases h
      rfl
    next => split at h <;> cases h

theorem writeReporting_of_leads (h : w.tree.Leads path l)
    (hslash : FileTree.endsInSlash path = false) (content : Text) :
    (w.tree.standing? l = some .directory →
      (writeReporting path content : Action _).run w =
        (.error (.cannotRead path .isADirectory), w)) ∧
    (w.tree.standing? l ≠ some .directory → ∃ changed r,
      (writeReporting path content : Action _).run w = (.ok changed, r)) := by
  rw [run_writeReporting]
  constructor
  · intro hl
    rw [Workspace.fingerprint, FileTree.read_of_leads h, hl]
  · intro free
    rw [fingerprint_of_leads h free hslash, FileTree.write_of_leads h, hslash,
      if_neg (by simp [free])]
    dsimp only
    split
    · exact ⟨_, _, rfl⟩
    · exact ⟨_, _, rfl⟩

/-- What a build renders before it writes anything. -/
def rendered [DocumentReader] [Stylesheet.Library] (o : Options) (w : Workspace) :
    Except BuildError Artifacts :=
  (((w.tree.read o.input).mapError (.cannotRead o.input)).bind (describe o.input)).bind (render o)

def save (output : Text) (a : Artifacts) : Action BuildReport := do
  prepare (artifactPaths output).1
  let cssChanged ← writeReporting (artifactPaths output).1 a.css
  let moduleChanged ← writeReporting (artifactPaths output).2 a.module
  return ⟨cssChanged, moduleChanged, a.warnings⟩

theorem run_build [DocumentReader] [Stylesheet.Library] (o : Options) (w : Workspace) :
    (build o : Action _).run w =
      match rendered o w with
      | .error e => (.error e, w)
      | .ok a => (save o.output a).run w := by
  unfold build
  have hload := run_loadInput o.input w
  rw [rendered]
  cases hdescription : ((w.tree.read o.input).mapError (.cannotRead o.input)).bind
      (describe o.input) with
  | error e =>
    rw [hdescription] at hload
    exact run_bind_of_error hload
  | ok d =>
    rw [hdescription] at hload
    refine (run_bind_of_ok hload).trans ?_
    dsimp only [Except.bind]
    cases hrender : render o d with
    | error e => exact run_bind_of_error rfl
    | ok a => exact run_bind_of_ok rfl

theorem save_error {output : Text} {a : Artifacts} {e : BuildError}
    (h : (save output a).run w = (.error e, r)) :
    w.Prepares r ∨ ∃ ready l changed,
      (prepare (artifactPaths output).1 : Action _).run w = (.ok (), ready) ∧
      Saves (artifactPaths output).1 a.css l changed ready r ∧
      (writeReporting (artifactPaths output).2 a.module : Action _).run r = (.error e, r) := by
  rcases run_bind_eq_error h with hprepare | ⟨_, ready, hready, h⟩
  · exact .inl (prepares_of_run hprepare)
  · have hprepares := prepares_of_run hready
    rcases run_bind_eq_error h with hcss | ⟨changed, first, hfirst, h⟩
    · rw [eq_of_writeReporting hcss]
      exact .inl hprepares
    · rcases run_bind_eq_error h with hmodule | ⟨_, _, _, h⟩
      · obtain rfl := eq_of_writeReporting hmodule
        obtain ⟨l, hsaves⟩ := saves_of_writeReporting hfirst
        exact .inr ⟨ready, l, changed, hready, hsaves, hmodule⟩
      · cases h

/-- A library that prints a stylesheet as it reads it, for rules that are short as they are. -/
@[reducible] def asWritten : Stylesheet.Library where
  Sheet := List Node
  parse css := (parse css).mapError SyntaxError.message
  rules := id
  withRules _ rules := rules
  printQuery := .ok
  print _ nodes := .ok (Node.renderAll nodes)

end AtomicCss.Command
