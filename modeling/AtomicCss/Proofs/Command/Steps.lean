import AtomicCss.Command.Build
import AtomicCss.Proofs.Files.Effects
set_option autoImplicit false

namespace AtomicCss

section

variable {ε σ α β : Type} {x : ExceptT ε (StateM σ) α} {f : α → ExceptT ε (StateM σ) β} {s r : σ}

theorem state_bind (x : StateM σ α) (f : α → StateM σ β) (s : σ) :
    (x >>= f) s = f (x s).1 (x s).2 := rfl

theorem run_bind_of_ok {a : α} (h : x.run s = (.ok a, r)) : (x >>= f).run s = (f a).run r := by
  have hbind : (x >>= f).run s = (ExceptT.bindCont f (x.run s).1) (x.run s).2 := rfl
  rw [hbind, h]
  rfl

theorem run_bind_of_error {e : ε} (h : x.run s = (.error e, r)) :
    (x >>= f).run s = (.error e, r) := by
  have hbind : (x >>= f).run s = (ExceptT.bindCont f (x.run s).1) (x.run s).2 := rfl
  rw [hbind, h]
  rfl

theorem run_bind_eq_error {e : ε} (h : (x >>= f).run s = (.error e, r)) :
    x.run s = (.error e, r) ∨ ∃ a q, x.run s = (.ok a, q) ∧ (f a).run q = (.error e, r) := by
  rcases hx : x.run s with ⟨e' | a, q⟩
  · rw [run_bind_of_error hx] at h
    cases h
    exact .inl rfl
  · rw [run_bind_of_ok hx] at h
    exact .inr ⟨a, q, rfl, h⟩

end

/-- A workspace that tells the changes of a file by hashes of its contents. -/
@[reducible] def Workspace.hashing (hash : Text → Text) : Host (StateM Workspace) where
  read path := Host.read path
  fingerprint path := fun w => ((w.fingerprint path).map (Option.map hash), w)
  write path content := Host.write path content
  makeDirectory path := Host.makeDirectory path
  isDirectory path := Host.isDirectory path
  print t := Host.print t
  complain t := Host.complain t

theorem Workspace.hashing_id : hashing id = inferInstanceAs (Host (StateM Workspace)) := by
  have hsame : ∀ (w : Workspace) path,
      (w.fingerprint path).map (Option.map id) = w.fingerprint path := by
    intro w path
    cases w.fingerprint path <;> simp [Except.map]
  simp only [hashing, hsame]
  rfl

/-- The second workspace has more directories, and nothing else is new. -/
structure Workspace.Prepares (w r : Workspace) : Prop where
  tree : w.tree.Grows [] r.tree
  stdout : r.stdout = w.stdout
  stderr : r.stderr = w.stderr

namespace Workspace.Prepares

theorem refl (w : Workspace) : w.Prepares w := ⟨.refl _, rfl, rfl⟩

theorem trans {w r v : Workspace} (h : w.Prepares r) (hv : r.Prepares v) : w.Prepares v :=
  ⟨h.tree.trans hv.tree, hv.stdout.trans h.stdout, hv.stderr.trans h.stderr⟩

theorem of_makeDirectory {w : Workspace} {path : Text} {tree : FileTree}
    (h : w.tree.makeDirectory path = .ok tree) : w.Prepares { w with tree := tree } :=
  ⟨(FileTree.makeDirectory_ok h).1, rfl, rfl⟩

end Workspace.Prepares

namespace Command

abbrev Action := ExceptT BuildError (StateM Workspace)

theorem run_loadInput [DocumentReader] (path : Text) (w : Workspace) :
    (loadInput path : Action _).run w =
      (((w.tree.read path).mapError (.cannotRead path)).bind (describe path), w) := by
  have hread : (attempt (.cannotRead path) (Host.read path) : Action _).run w =
        ((w.tree.read path).mapError (.cannotRead path), w) := rfl
  unfold loadInput
  cases h : w.tree.read path with
  | error e => exact run_bind_of_error (hread.trans (by rw [h]; rfl))
  | ok source => exact run_bind_of_ok (hread.trans (by rw [h]; rfl))

theorem makeDirectories_cons (path : Text) (above : List Text) (w : Workspace) :
    (makeDirectories (path :: above) : StateM Workspace _) w =
      match w.tree.makeDirectory path with
      | .ok tree => (.ok (), { w with tree := tree })
      | .error .notFound =>
        match (makeDirectories above : StateM Workspace _) w with
        | (.error e, r) => (.error e, r)
        | (.ok (), r) =>
          match r.tree.makeDirectory path with
          | .ok tree => (.ok (), { r with tree := tree })
          | .error e => (if r.tree.isDirectory path then .ok () else .error e, r)
      | .error e => (if w.tree.isDirectory path then .ok () else .error e, w) := by
  have hmake : ∀ r : Workspace, (Host.makeDirectory path : StateM Workspace _) r =
      Workspace.change (·.makeDirectory path) r := fun r => rfl
  rw [makeDirectories, state_bind, hmake, Workspace.change]
  cases w.tree.makeDirectory path with
  | ok tree => rfl
  | error e =>
    cases e with
    | notFound =>
      dsimp only
      rw [state_bind]
      rcases (makeDirectories above : StateM Workspace _) w with ⟨e | _, r⟩
      · rfl
      · dsimp only
        rw [state_bind, hmake, Workspace.change]
        cases r.tree.makeDirectory path <;> rfl
    | _ => rfl

theorem prepares_makeDirectories (paths : List Text) (w : Workspace) :
    w.Prepares ((makeDirectories paths : StateM Workspace _) w).2 := by
  induction paths with
  | nil => exact .refl w
  | cons path above ih =>
    rw [makeDirectories_cons]
    split
    next tree hmake => exact .of_makeDirectory hmake
    next =>
      rcases habove : (makeDirectories above : StateM Workspace _) w with ⟨e | _, r⟩
      · rw [habove] at ih
        exact ih
      · rw [habove] at ih
        dsimp only
        split
        next tree hmake => exact ih.trans (.of_makeDirectory hmake)
        next => exact ih
    next => exact .refl w

theorem exists_ancestors {path : Text} (h : path ≠ []) :
    ∃ above, Path.ancestors path = path :: above := by
  rw [Path.ancestors, Path.ancestorsWithin, if_neg (by simpa using h)]
  exact ⟨_, rfl⟩

theorem prepare_cases (path : Text) :
    (∀ w, (prepare path : Action _).run w = (.ok (), w)) ∨
      ∃ parent above, ∀ w, (prepare path : Action _).run w =
        let made := (makeDirectories (parent :: above) : StateM Workspace _) w
        (made.1.mapError (.cannotCreate parent), made.2) := by
  unfold prepare
  split
  next => exact .inl fun w => rfl
  next => exact .inl fun w => rfl
  next parent hne h =>
    obtain ⟨above, habove⟩ := exists_ancestors hne
    rw [habove]
    exact .inr ⟨parent, above, fun w => rfl⟩

theorem prepares_of_run {path : Text} {w r : Workspace} {result : Except BuildError Unit}
    (h : (prepare path : Action _).run w = (result, r)) : w.Prepares r := by
  rcases prepare_cases path with hnone | ⟨parent, above, hmake⟩
  · rw [hnone] at h
    cases h
    exact .refl w
  · rw [hmake] at h
    cases h
    exact prepares_makeDirectories (parent :: above) w

def announcement (path : Text) : Text := "[atomize] saved ".toList ++ path ++ ['\n']

theorem fingerprint_eq_some {w : Workspace} {path content : Text}
    (h : w.tree.read path = .ok content) : w.fingerprint path = .ok (some content) := by
  rw [Workspace.fingerprint, h]

theorem run_writeReporting_hashing {hash : Text → Text} (hinjective : hash.Injective)
    (path content : Text) (w : Workspace) :
    (@writeReporting (StateM Workspace) _ (Workspace.hashing hash) path content).run w =
      match w.fingerprint path with
      | .error e => (.error (.cannotRead path e), w)
      | .ok before =>
        match w.tree.write path content with
        | .error e => (.error (.cannotWrite path e), w)
        | .ok tree =>
          if before = some content then (.ok false, { w with tree := tree })
          else (.ok true, ⟨tree, w.stdout ++ announcement path, w.stderr⟩) := by
  have hread : ∀ r : Workspace,
      (@attempt (StateM Workspace) _ _ (.cannotRead path)
        (@Host.fingerprint _ (Workspace.hashing hash) path)).run r =
        (((r.fingerprint path).map (Option.map hash)).mapError (.cannotRead path), r) :=
    fun r => rfl
  have hwrite : (@attempt (StateM Workspace) _ _ (.cannotWrite path)
      (@Host.write _ (Workspace.hashing hash) path content)).run w =
        ((Workspace.change (·.write path content) w).1.mapError (.cannotWrite path),
          (Workspace.change (·.write path content) w).2) := rfl
  rw [Workspace.change] at hwrite
  unfold writeReporting
  cases hbefore : w.fingerprint path with
  | error e => exact run_bind_of_error ((hread w).trans (by rw [hbefore]; rfl))
  | ok before =>
    refine (run_bind_of_ok ((hread w).trans (by rw [hbefore]; rfl))).trans ?_
    dsimp only
    cases htree : w.tree.write path content with
    | error e => exact run_bind_of_error (hwrite.trans (by rw [htree]; rfl))
    | ok tree =>
      rw [htree] at hwrite
      refine (run_bind_of_ok hwrite).trans ?_
      have hafter :=
        fingerprint_eq_some (w := { w with tree := tree }) (FileTree.read_of_write htree)
      refine (run_bind_of_ok ((hread _).trans (by rw [hafter]; rfl))).trans ?_
      dsimp only
      have hsame : before.map hash = (some content).map hash ↔ before = some content :=
        (Option.map_injective hinjective).eq_iff
      by_cases h : before = some content
      · rw [if_pos (hsame.2 h), if_pos h]
        rfl
      · rw [if_neg fun heq => h (hsame.1 heq), if_neg h]
        rfl

theorem run_writeReporting (path content : Text) (w : Workspace) :
    (writeReporting path content : Action _).run w =
      match w.fingerprint path with
      | .error e => (.error (.cannotRead path e), w)
      | .ok before =>
        match w.tree.write path content with
        | .error e => (.error (.cannotWrite path e), w)
        | .ok tree =>
          if before = some content then (.ok false, { w with tree := tree })
          else (.ok true, ⟨tree, w.stdout ++ announcement path, w.stderr⟩) := by
  have hrun := run_writeReporting_hashing Function.injective_id path content w
  rw [Workspace.hashing_id] at hrun
  exact hrun

end Command
end AtomicCss
