import AtomicCss.Input.Load
import AtomicCss.Proofs.Command.Artifacts
set_option autoImplicit false

/-!
What a build that fails leaves behind: the files as they were, unless a directory stands where the
module goes. By then the stylesheet has been written.
-/

namespace AtomicCss.Command

theorem not_endsInSlash_artifactPaths (output : Text) :
    FileTree.endsInSlash (artifactPaths output).1 = false ∧
      FileTree.endsInSlash (artifactPaths output).2 = false := by
  simp [FileTree.endsInSlash, artifactPaths, List.getLast?_append]

section

variable [DocumentReader] [Stylesheet.Library]

/-- There is a new stylesheet to write, and a directory stands where the module goes, once the
directories for the artifacts are made. -/
def Blocked (o : Options) (w : Workspace) : Prop :=
  ∃ a ready l, rendered o w = .ok a ∧
    (prepare (artifactPaths o.output).1 : Action _).run w = (.ok (), ready) ∧
    ready.tree.Leads (artifactPaths o.output).1 l ∧ ready.tree.standing? l ≠ some .directory ∧
    ready.tree.content? l ≠ some a.css ∧ ready.tree.isDirectory (artifactPaths o.output).2 = true

variable {o : Options} {w r : Workspace} {a : Artifacts} {e : BuildError}

theorem blocked_of_save_error (ha : rendered o w = .ok a)
    (h : (save o.output a).run w = (.error e, r)) {l : Location}
    (hl : r.tree.content? l ≠ w.tree.content? l) : Blocked o w := by
  rcases save_error h with hprepares | ⟨ready, k, changed, hready, hsaves, hmodule⟩
  · exact absurd (hprepares.tree.content?_eq List.not_mem_nil) hl
  · have hprepares := prepares_of_run hready
    have hcontent := hprepares.tree.content?_eq (l := l) List.not_mem_nil
    have hk : l = k := by
      by_contra hne
      exact hl ((hsaves.grows.content?_eq (by simp [hne])).trans hcontent)
    subst hk
    rw [hsaves.content?_eq, ← hcontent] at hl
    obtain ⟨_, j, hleads, _, hne⟩ := leads_module hsaves.leads hsaves.free
    -- The module has a place, so a directory is what keeps it from being written.
    have hthere : r.tree.standing? j = some .directory := by
      by_contra free
      obtain ⟨_, _, hwritten⟩ := (writeReporting_of_leads (hleads.grows hsaves.grows)
        (not_endsInSlash_artifactPaths o.output).2 a.module).2 free
      rw [hwritten] at hmodule
      cases hmodule
    exact ⟨a, ready, l, ha, hready, hsaves.leads, hsaves.free, Ne.symm hl,
      hsaves.isDirectory hleads (Ne.symm hne) hthere⟩

theorem Blocked.exists_run (h : Blocked o w) :
    ∃ r l, (build o : Action _).run w =
        (.error (.cannotRead (artifactPaths o.output).2 .isADirectory), r) ∧
      r.tree.Leads (artifactPaths o.output).1 l ∧ r.tree.content? l ≠ w.tree.content? l ∧
      ∀ k, k ≠ l → r.tree.content? k = w.tree.content? k := by
  obtain ⟨a, ready, l, ha, hready, hleads, free, hnew, hblocked⟩ := h
  have hprepares := prepares_of_run hready
  obtain ⟨changed, r, hcss⟩ := (writeReporting_of_leads hleads
    (not_endsInSlash_artifactPaths o.output).1 a.css).2 free
  obtain ⟨k, hsaves⟩ := saves_of_writeReporting hcss
  obtain rfl := hsaves.leads.unique hleads
  obtain ⟨j, hmodule, hthere⟩ := FileTree.isDirectory_iff.1 hblocked
  have hfails := (writeReporting_of_leads (hmodule.grows hsaves.grows)
    (not_endsInSlash_artifactPaths o.output).2 a.module).1 (hsaves.grows.directory j hthere)
  refine ⟨r, k, ?_, hsaves.leads.grows hsaves.grows, ?_, fun i hi => ?_⟩
  · rw [run_build, ha]
    refine (run_bind_of_ok hready).trans ?_
    refine (run_bind_of_ok hcss).trans ?_
    exact run_bind_of_error hfails
  · rw [hsaves.content?_eq, ← hprepares.tree.content?_eq List.not_mem_nil]
    exact Ne.symm hnew
  · rw [hsaves.grows.content?_eq (by simp [hi]), hprepares.tree.content?_eq List.not_mem_nil]

/--
A build that fails leaves all files as they are, exactly when it is not blocked. A blocked build
fails because it cannot read the module, after it has changed the stylesheet and no other file.
-/
theorem build_failure (o : Options) (w : Workspace) :
    ((∀ e r, (build o : Action _).run w = (.error e, r) →
        ∀ l, r.tree.content? l = w.tree.content? l) ↔ ¬Blocked o w) ∧
      (Blocked o w → ∃ r l, (build o : Action _).run w =
          (.error (.cannotRead (artifactPaths o.output).2 .isADirectory), r) ∧
        r.tree.Leads (artifactPaths o.output).1 l ∧ r.tree.content? l ≠ w.tree.content? l ∧
        ∀ k, k ≠ l → r.tree.content? k = w.tree.content? k) := by
  refine ⟨⟨fun hkeeps hblocked => ?_, fun hfree e r h l => ?_⟩, Blocked.exists_run⟩
  · obtain ⟨r, l, hrun, _, hl, _⟩ := hblocked.exists_run
    exact hl (hkeeps _ r hrun l)
  · by_contra hl
    rw [run_build] at h
    cases ha : rendered o w with
    | error fault =>
      rw [ha] at h
      cases h
      exact hl rfl
    | ok a =>
      rw [ha] at h
      exact hfree (blocked_of_save_error ha h hl)

end

/-- A stylesheet stands where none was, and the build has failed. -/
theorem build_failure_changes_css :
    letI : Stylesheet.Library := asWritten
    let source := "\x7b\"s\": \x7b\"A\": \"color: red\"\x7d\x7d".toList
    let o : Options := ⟨"in.json".toList, "out".toList, false, .plain, []⟩
    let root : Directory := .file "in.json".toList source (.directory "out.js".toList .empty .empty)
    let w : Workspace := ⟨⟨root, []⟩, [], []⟩
    ∃ e r l, (build o : Action _).run w = (.error e, r) ∧
      r.tree.Leads (artifactPaths o.output).1 l ∧ r.tree.content? l ≠ w.tree.content? l := by
  intro source o root w
  obtain ⟨a, ha, _⟩ := exists_ok (x := @rendered _ asWritten o w) (p := fun _ => true)
    (by decide +kernel)
  have hblocked : @Blocked _ asWritten o w := by
    refine ⟨a, w, ["out.css".toList], ha, rfl, ?_, ?_, ?_, ?_⟩
    · rw [FileTree.Leads]
      decide +kernel
    · decide +kernel
    · rw [show w.tree.content? ["out.css".toList] = none by decide +kernel]
      exact (Option.some_ne_none _).symm
    · decide +kernel
  obtain ⟨r, l, hrun, hleads, hl, _⟩ := @Blocked.exists_run _ asWritten o w hblocked
  exact ⟨_, r, l, hrun, hleads, hl⟩

end AtomicCss.Command
