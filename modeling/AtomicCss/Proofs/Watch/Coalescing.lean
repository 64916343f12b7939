import AtomicCss.Proofs.Watch.Runs
set_option autoImplicit false

/-!
What the loop owes for the events that it has taken. A loop that owes a build comes nearer to it
with each step (`Owes.run`), and the phase and the state of the scheduler tell what has occurred
since the last end of a build (`Run.tracks`).
-/

namespace AtomicCss.BuildLoop

variable {first l next : BuildLoop} {o : Occurrence} {history : List Occurrence}

/-- Another build is certain to start. -/
def Owes (l : BuildLoop) : Prop :=
  match l.phase with
  | .settling => True
  | .draining | .finishing => l.state = .runningWithPending
  | .building | .done => False

/-- How many steps are left at most until the loop has settled, if no more events come. -/
def rest (l : BuildLoop) : Nat :=
  match l.phase with
  | .draining => l.pending + 2
  | .finishing => l.pending + 1
  | .settling => l.pending
  | .building | .done => 0

/-- Each step of a loop that owes a build takes it nearer to that build. -/
theorem Owes.move (h : l.Owes) (hmove : Moves l o next) (ho : o ≠ .started) :
    next.Owes ∧ next.rest + (if o.isTurn then 1 else 0) = l.rest + if o.isSent then 1 else 0 := by
  cases o with
  | started => exact absurd rfl ho
  | sent during =>
    obtain ⟨-, rfl⟩ := moves_cases hmove
    obtain ⟨phase, state, pending, builds⟩ := l
    cases phase with
    | building | done => exact h.elim
    | draining | finishing | settling =>
      refine ⟨h, ?_⟩
      simp only [rest, send, Occurrence.isTurn, Occurrence.isSent, Bool.not_true, if_true,
        Bool.false_eq_true, if_false]
  | built =>
    obtain ⟨hphase, -⟩ := moves_cases hmove
    simp [Owes, hphase] at h
  | drained =>
    obtain ⟨hphase, hpending, rfl⟩ := moves_cases hmove
    simp only [Owes, hphase] at h
    refine ⟨by simp [Owes, hphase, h, BuildState.request], ?_⟩
    simp only [rest, hphase, Occurrence.isTurn, Occurrence.isSent, Bool.not_false, if_true,
      Bool.false_eq_true, if_false]
    omega
  | emptied =>
    obtain ⟨hphase, hpending, rfl⟩ := moves_cases hmove
    simp only [Owes, hphase] at h
    simp [Owes, rest, hphase, h, hpending, Occurrence.isTurn, Occurrence.isSent]
  | finished again =>
    obtain ⟨hphase, rfl, rfl⟩ := moves_cases hmove
    simp only [Owes, hphase] at h
    simp [Owes, rest, hphase, h, BuildState.finish, Occurrence.isTurn, Occurrence.isSent]
  | settled =>
    obtain ⟨hphase, hpending, rfl⟩ := moves_cases hmove
    refine ⟨by simp [Owes, hphase], ?_⟩
    simp only [rest, hphase, Occurrence.isTurn, Occurrence.isSent, Bool.not_false, if_true,
      Bool.false_eq_true, if_false]
    omega

theorem Owes.run (h : l.Owes) {more : List Occurrence} (hrun : Run l more next)
    (hno : .started ∉ more) :
    next.Owes ∧ next.rest + more.countP Occurrence.isTurn =
      l.rest + more.countP Occurrence.isSent := by
  induction hrun with
  | refl => exact ⟨h, rfl⟩
  | @move more m next o _ hmove ih =>
    rw [List.mem_cons, not_or] at hno
    obtain ⟨howes, hrest⟩ := ih hno.2
    obtain ⟨hnext, hstep⟩ := howes.move hmove (Ne.symm hno.1)
    refine ⟨hnext, ?_⟩
    rw [List.countP_cons, List.countP_cons]
    omega

theorem Owes.phase_ne_done (h : l.Owes) : l.phase ≠ .done := by
  intro hdone
  simp [Owes, hdone] at h

theorem rest_le (l : BuildLoop) : l.rest ≤ l.pending + 2 := by
  unfold rest
  split <;> omega

/-- What has occurred since the last end of a build, or since the beginning. -/
def sinceBuilt (history : List Occurrence) : List Occurrence := history.takeWhile (· ≠ .built)

theorem sinceBuilt_cons (o : Occurrence) (history : List Occurrence) :
    sinceBuilt (o :: history) = if o = .built then [] else o :: sinceBuilt history := by
  by_cases ho : o = .built <;> simp [sinceBuilt, ho]

theorem sinceBuilt_append {round earlier : List Occurrence} (h : .built ∉ round) :
    sinceBuilt (round ++ .built :: earlier) = round := by
  induction round with
  | nil => simp [sinceBuilt]
  | cons o round ih =>
    rw [List.mem_cons, not_or] at h
    rw [List.cons_append, sinceBuilt_cons, if_neg (Ne.symm h.1), ih h.2]

/-- In each phase, the state of the scheduler tells whether an event was drained since the last end
of a build, and after a drained event one build is started before the next ends. -/
def Tracks (history : List Occurrence) (l : BuildLoop) : Prop :=
  match l.phase with
  | .building =>
    l.state = .running ∧ (.built ∈ history →
      .drained ∈ sinceBuilt history ∧ (sinceBuilt history).count .started = 1)
  | .draining | .finishing =>
    .started ∉ sinceBuilt history ∧
      l.state = if .drained ∈ sinceBuilt history then .runningWithPending else .running
  | .settling =>
    l.state = .running ∧ .drained ∈ sinceBuilt history ∧ .started ∉ sinceBuilt history
  | .done => l.state = .idle ∧ .drained ∉ sinceBuilt history ∧ .started ∉ sinceBuilt history

theorem Tracks.move (h : Tracks history l) (hmove : Moves l o next) :
    Tracks (o :: history) next := by
  cases o with
  | sent during =>
    obtain ⟨-, rfl⟩ := moves_cases hmove
    obtain ⟨phase, state, pending, builds⟩ := l
    cases phase <;> simpa [Tracks, send, sinceBuilt_cons] using h
  | built =>
    obtain ⟨hphase, rfl⟩ := moves_cases hmove
    simp only [Tracks, hphase] at h
    simp [Tracks, sinceBuilt_cons, h.1]
  | drained =>
    obtain ⟨hphase, -, rfl⟩ := moves_cases hmove
    simp only [Tracks, hphase] at h
    have hstate : l.state.request.2 = .runningWithPending := by
      rw [h.2]
      split <;> rfl
    simp [Tracks, hphase, sinceBuilt_cons, h.1, hstate]
  | emptied =>
    obtain ⟨hphase, -, rfl⟩ := moves_cases hmove
    simp only [Tracks, hphase] at h
    simpa [Tracks, sinceBuilt_cons] using h
  | finished again =>
    obtain ⟨hphase, -, rfl⟩ := moves_cases hmove
    simp only [Tracks, hphase] at h
    by_cases hdrained : .drained ∈ sinceBuilt history
    · rw [if_pos hdrained] at h
      simp [Tracks, sinceBuilt_cons, h, hdrained, BuildState.finish]
    · rw [if_neg hdrained] at h
      simp [Tracks, sinceBuilt_cons, h, hdrained, BuildState.finish]
  | settled =>
    obtain ⟨hphase, -, rfl⟩ := moves_cases hmove
    simp only [Tracks, hphase] at h
    simpa [Tracks, hphase, sinceBuilt_cons] using h
  | started =>
    obtain ⟨hphase, -, rfl⟩ := moves_cases hmove
    simp only [Tracks, hphase] at h
    simp [Tracks, sinceBuilt_cons, h, List.count_eq_zero_of_not_mem h.2.2]

theorem Run.tracks (h : Run begun history l) : Tracks history l := by
  induction h with
  | refl => simp [Tracks, begun, start, BuildState.request]
  | move _ hmove ih => exact ih.move hmove

theorem Tracks.owes (h : Tracks history l) (hmove : Moves l o next) (ho : o.takes = true) :
    next.Owes := by
  cases o with
  | drained =>
    obtain ⟨hphase, -, rfl⟩ := moves_cases hmove
    simp only [Tracks, hphase] at h
    simp only [Owes, hphase, h.2]
    split <;> rfl
  | settled =>
    obtain ⟨hphase, -, rfl⟩ := moves_cases hmove
    simp [Owes, hphase]
  | _ => cases ho

end AtomicCss.BuildLoop
