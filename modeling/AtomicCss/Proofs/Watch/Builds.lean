import AtomicCss.Proofs.Watch.Coalescing
import Mathlib.Tactic.ByContra
set_option autoImplicit false

namespace AtomicCss.BuildLoop

variable {first l next : BuildLoop} {o : Occurrence} {history : List Occurrence}

/-- More steps than this the loop does not make, if no more events come. -/
def turnsLeft (l : BuildLoop) : Nat :=
  5 * l.pending +
    match l.phase, l.state with
    | .draining, .runningWithPending => 6
    | .finishing, .runningWithPending => 5
    | .settling, _ => 4
    | .building, _ => 3
    | .draining, _ => 2
    | .finishing, _ => 1
    | .done, _ => 0

theorem turnsLeft_move (htracks : Tracks history l) (hmove : Moves l o next) :
    next.turnsLeft + (if o.isTurn then 1 else 0) ≤ l.turnsLeft + if o.isSent then 5 else 0 := by
  obtain ⟨phase, state, pending, builds⟩ := l
  cases o with
  | sent during =>
    obtain ⟨-, rfl⟩ := moves_cases hmove
    simp only [turnsLeft, send, Occurrence.isTurn, Occurrence.isSent, Bool.not_true, if_true,
      Bool.false_eq_true, if_false]
    omega
  | built =>
    obtain ⟨rfl, rfl⟩ := moves_cases hmove
    obtain rfl : state = .running := htracks.1
    exact Nat.le_refl _
  | drained =>
    obtain ⟨rfl, hpending, rfl⟩ := moves_cases hmove
    dsimp only at hpending
    cases state <;> simp only [turnsLeft, BuildState.request, Occurrence.isTurn, Occurrence.isSent,
      Bool.not_false, if_true, Bool.false_eq_true, if_false] <;> omega
  | emptied =>
    obtain ⟨rfl, -, rfl⟩ := moves_cases hmove
    cases state <;> exact Nat.le_refl _
  | finished again =>
    obtain ⟨rfl, -, rfl⟩ := moves_cases hmove
    cases state <;> exact Nat.le_refl _
  | settled =>
    obtain ⟨rfl, hpending, rfl⟩ := moves_cases hmove
    dsimp only at hpending
    simp only [turnsLeft, Occurrence.isTurn, Occurrence.isSent, Bool.not_false, if_true,
      Bool.false_eq_true, if_false]
    omega
  | started =>
    obtain ⟨rfl, -, rfl⟩ := moves_cases hmove
    exact Nat.le_refl _

theorem Run.turns_le (h : Run begun history l) :
    history.countP Occurrence.isTurn + l.turnsLeft ≤ 5 * history.countP Occurrence.isSent + 3 := by
  induction h with
  | refl => exact Nat.le_refl _
  | @move history l next o h hmove ih =>
    have hstep := turnsLeft_move h.tracks hmove
    rw [List.countP_cons, List.countP_cons]
    cases hsent : o.isSent <;> simp [Occurrence.isTurn, hsent] at hstep ⊢ <;> omega

theorem turnsLeft_pos (h : l.phase ≠ .done) : 0 < l.turnsLeft := by
  obtain ⟨phase, state, pending, builds⟩ := l
  cases phase <;> cases state <;> simp_all [turnsLeft]

/-- How many events were sent in each build, the latest build first. -/
def sentInBuilds : List Occurrence → List Nat
  | [] => [0]
  | .started :: earlier => 0 :: sentInBuilds earlier
  | .sent .building :: earlier => (sentInBuilds earlier).modifyHead (· + 1)
  | _ :: earlier => sentInBuilds earlier

/-- In each phase, how many events were sent in the latest build and in those before it, if none
are sent outside of builds. -/
def Counts (history : List Occurrence) (l : BuildLoop) : Prop :=
  ∃ n earlier, sentInBuilds history = n :: earlier ∧ (∀ k ∈ earlier, 0 < k) ∧
    l.builds = 1 + earlier.length ∧
    match l.phase with
    | .building => l.pending = n
    | .draining => if l.state = .running then l.pending = n else 0 < n
    | .finishing => l.pending = 0 ∧ if l.state = .running then n = 0 else 0 < n
    | .settling => l.pending = 0 ∧ 0 < n
    | .done => n = 0

theorem Counts.move (h : Counts history l) (htracks : Tracks history l) (hmove : Moves l o next)
    (hbuilding : ∀ during, o = .sent during → during = .building) : Counts (o :: history) next := by
  obtain ⟨n, earlier, hsent, hearlier, hbuilds, hphase⟩ := h
  cases o with
  | sent during =>
    obtain ⟨hduring, rfl⟩ := moves_cases hmove
    obtain rfl := hbuilding during rfl
    simp only [← hduring] at hphase
    refine ⟨n + 1, earlier, by simp [sentInBuilds, hsent], hearlier, hbuilds, ?_⟩
    simp [send, ← hduring, hphase]
  | built =>
    obtain ⟨hbuild, rfl⟩ := moves_cases hmove
    simp only [hbuild] at hphase
    simp only [Tracks, hbuild] at htracks
    refine ⟨n, earlier, hsent, hearlier, hbuilds, ?_⟩
    simp [htracks.1, hphase]
  | drained =>
    obtain ⟨hdraining, hpending, rfl⟩ := moves_cases hmove
    simp only [hdraining] at hphase
    simp only [Tracks, hdraining] at htracks
    refine ⟨n, earlier, hsent, hearlier, hbuilds, ?_⟩
    have hstate : l.state.request.2 = .runningWithPending := by
      rw [htracks.2]
      split <;> rfl
    have hn : 0 < n := by
      split at hphase
      · omega
      · exact hphase
    simpa [hdraining, hstate] using hn
  | emptied =>
    obtain ⟨hdraining, hpending, rfl⟩ := moves_cases hmove
    simp only [hdraining] at hphase
    refine ⟨n, earlier, hsent, hearlier, hbuilds, hpending, ?_⟩
    by_cases hstate : l.state = .running
    · rw [if_pos hstate] at hphase ⊢
      exact hphase ▸ hpending
    · rw [if_neg hstate] at hphase ⊢
      exact hphase
  | finished again =>
    obtain ⟨hfinishing, -, rfl⟩ := moves_cases hmove
    simp only [hfinishing] at hphase
    simp only [Tracks, hfinishing] at htracks
    refine ⟨n, earlier, hsent, hearlier, hbuilds, ?_⟩
    by_cases hdrained : .drained ∈ sinceBuilt history
    · rw [if_pos hdrained] at htracks
      simpa [htracks.2, BuildState.finish] using hphase
    · rw [if_neg hdrained] at htracks
      simpa [htracks.2, BuildState.finish] using hphase.2
  | settled =>
    obtain ⟨hsettling, hpending, -⟩ := moves_cases hmove
    simp only [hsettling] at hphase
    omega
  | started =>
    obtain ⟨hsettling, hpending, rfl⟩ := moves_cases hmove
    simp only [hsettling] at hphase
    refine ⟨0, n :: earlier, by simp [sentInBuilds, hsent], ?_, ?_, hpending⟩
    · exact List.forall_mem_cons.2 ⟨hphase.2, hearlier⟩
    · simp [hbuilds, Nat.add_assoc]

theorem Run.counts (h : Run begun history l)
    (hbuilding : ∀ during, .sent during ∈ history → during = .building) : Counts history l := by
  induction h with
  | refl => exact ⟨0, [], rfl, fun _ hk => absurd hk List.not_mem_nil, rfl, rfl⟩
  | move h hmove ih =>
    refine (ih fun during hmem => hbuilding during (List.mem_cons_of_mem _ hmem)).move h.tracks
      hmove fun during ho => hbuilding during ?_
    rw [ho]
    exact List.mem_cons_self

theorem Counts.builds_eq (h : Counts history l) (hdone : l.phase = .done) :
    l.builds = 1 + ((sentInBuilds history).reverse.takeWhile (0 < ·)).length := by
  obtain ⟨n, earlier, hsent, hearlier, hbuilds, hphase⟩ := h
  simp only [hdone] at hphase
  have hall : ∀ k ∈ earlier.reverse, decide (0 < k) = true := fun k hk =>
    decide_eq_true (hearlier k (List.mem_reverse.1 hk))
  rw [hbuilds, hsent, hphase, List.reverse_cons, List.takeWhile_append_of_pos hall]
  simp

/-- What a run has come to: each event that was taken is followed by a build, events that come
together have one build in common, and none are left behind when the loop returns. -/
structure Coalesces (history : List Occurrence) (l : BuildLoop) : Prop where
  /-- The scheduler knows of each build, from its start on. -/
  running : l.phase = .building → l.state = .running
  /-- When an event has been taken the loop does not return before another build. That build starts
  as soon as the loop has made more steps than it had events for, but for two. -/
  followed : ∀ later o earlier, history = later ++ o :: earlier → o.takes = true →
    .started ∈ later ∨ l.phase ≠ .done ∧ ∀ more next, Run l more next →
      l.pending + more.countP Occurrence.isSent + 2 < more.countP Occurrence.isTurn →
        .started ∈ more
  /-- From one end of a build to the next, events are drained and one build starts. -/
  once : ∀ later round earlier, history = later ++ .built :: (round ++ .built :: earlier) →
    .built ∉ round → .drained ∈ round ∧ round.count .started = 1
  /-- After the last end of a build, another build has started at most once, only for events that
  were drained, and if any were the loop has not returned. -/
  last : ∀ round earlier, history = round ++ .built :: earlier → .built ∉ round →
    round.count .started ≤ 1 ∧ (.started ∈ round → .drained ∈ round) ∧
      (.drained ∈ round → l.phase ≠ .done)
  /-- The events that are not taken are on the channel, also when the loop has returned. -/
  pending : l.pending + history.countP Occurrence.takes = history.countP Occurrence.isSent
  builds : l.builds = 1 + history.count .started
  idle : l.phase = .done → l.state = .idle
  /-- The loop returns after five steps for each event, and three. -/
  returns : 5 * history.countP Occurrence.isSent + 2 < history.countP Occurrence.isTurn →
    l.phase = .done
  /-- If events are sent in builds only, there is one build more than the first builds in which some
  were sent. -/
  counted : l.phase = .done → (∀ during, .sent during ∈ history → during = .building) →
    l.builds = 1 + ((sentInBuilds history).reverse.takeWhile (0 < ·)).length

theorem Run.followed (h : Run begun history l) {later earlier : List Occurrence}
    (hsplit : history = later ++ o :: earlier) (ho : o.takes = true) (hno : .started ∉ later) :
    l.Owes := by
  subst hsplit
  obtain ⟨m, hm, hlater⟩ := h.split
  cases hm with
  | move hearlier hmove => exact ((hearlier.tracks.owes hmove ho).run hlater hno).1

theorem Run.once (h : Run begun history l) {later round earlier : List Occurrence}
    (hsplit : history = later ++ .built :: (round ++ .built :: earlier)) (hround : .built ∉ round) :
    .drained ∈ round ∧ round.count .started = 1 := by
  subst hsplit
  obtain ⟨m, hm, -⟩ := h.split
  cases hm with
  | move hbefore hmove =>
    have htracks := hbefore.tracks
    simp only [Tracks, (moves_cases hmove).1, sinceBuilt_append hround] at htracks
    exact htracks.2 (by simp)

theorem Tracks.last {round earlier : List Occurrence} (h : Tracks (round ++ .built :: earlier) l)
    (hround : .built ∉ round) :
    round.count .started ≤ 1 ∧ (.started ∈ round → .drained ∈ round) ∧
      (.drained ∈ round → l.phase ≠ .done) := by
  rw [Tracks, sinceBuilt_append hround] at h
  cases hphase : l.phase with
  | building =>
    simp only [hphase] at h
    obtain ⟨hdrained, hcount⟩ := h.2 (by simp)
    exact ⟨Nat.le_of_eq hcount, fun _ => hdrained, fun _ => by simp⟩
  | draining | finishing =>
    simp only [hphase] at h
    exact ⟨by simp [List.count_eq_zero_of_not_mem h.1], fun hstarted => absurd hstarted h.1,
      fun _ => by simp⟩
  | settling =>
    simp only [hphase] at h
    exact ⟨by simp [List.count_eq_zero_of_not_mem h.2.2], fun _ => h.2.1, fun _ => by simp⟩
  | done =>
    simp only [hphase] at h
    exact ⟨by simp [List.count_eq_zero_of_not_mem h.2.2], fun hstarted => absurd hstarted h.2.2,
      fun hdrained => absurd hdrained h.2.1⟩

theorem Run.coalesces (h : Run begun history l) : Coalesces history l where
  running hbuilding := by
    have htracks := h.tracks
    simp only [Tracks, hbuilding] at htracks
    exact htracks.1
  followed later o earlier hsplit ho := by
    by_cases hstarted : .started ∈ later
    · exact Or.inl hstarted
    have howes := h.followed hsplit ho hstarted
    refine Or.inr ⟨howes.phase_ne_done, fun more next hmore hturns => ?_⟩
    by_contra hno
    have hrest := (howes.run hmore hno).2
    have hle := l.rest_le
    omega
  once _ _ _ hsplit hround := h.once hsplit hround
  last _ _ hsplit hround := (hsplit ▸ h.tracks).last hround
  pending := by simpa [begun, start] using h.pending_add_taken
  builds := h.builds_eq
  idle hdone := by
    have htracks := h.tracks
    simp only [Tracks, hdone] at htracks
    exact htracks.1
  returns hturns := by
    by_contra hdone
    have hle := h.turns_le
    have hpos := turnsLeft_pos hdone
    omega
  counted hdone hbuilding := (h.counts hbuilding).builds_eq hdone

theorem steps_draining (n builds : Nat) :
    steps n ⟨.draining, .runningWithPending, n, builds⟩ =
      ⟨.draining, .runningWithPending, 0, builds⟩ := by
  induction n with
  | zero => rfl
  | succ n ih => exact ih

theorem steps_add (m n : Nat) (l : BuildLoop) : steps (m + n) l = steps n (steps m l) := by
  induction m generalizing l with
  | zero => rw [Nat.zero_add]; rfl
  | succ m ih => rw [Nat.succ_add]; exact ih l.step

theorem nextBuild_of_pos {n : Nat} (hn : 0 < n) (builds : Nat) :
    nextBuild ⟨.building, .running, n, builds⟩ = ⟨.building, .running, 0, builds + 1⟩ := by
  obtain ⟨n, rfl⟩ := Nat.exists_eq_succ_of_ne_zero (Nat.ne_of_gt hn)
  -- The build ends and the first event is drained, then the others are.
  calc nextBuild ⟨.building, .running, n + 1, builds⟩
      = steps (n + 3) ⟨.draining, .runningWithPending, n, builds⟩ := rfl
    _ = steps 3 ⟨.draining, .runningWithPending, 0, builds⟩ := by
        rw [steps_add, steps_draining]
    _ = ⟨.building, .running, 0, builds + 1⟩ := rfl

theorem run_done (sends : List Nat) (builds : Nat) :
    run sends ⟨.done, .idle, 0, builds⟩ = ⟨.done, .idle, 0, builds⟩ := by
  cases sends <;> rfl

theorem run_building (sends : List Nat) (builds : Nat) :
    run sends ⟨.building, .running, 0, builds⟩ =
      ⟨.done, .idle, 0, builds + (sends.takeWhile (0 < ·)).length⟩ := by
  induction sends generalizing builds with
  | nil => rfl
  | cons n sends ih =>
    have hrun : run (n :: sends) ⟨.building, .running, 0, builds⟩ =
        run sends (nextBuild ⟨.building, .running, 0 + n, builds⟩) := rfl
    rcases Nat.eq_zero_or_pos n with rfl | hn
    · rw [hrun]
      exact run_done sends builds
    · rw [hrun, Nat.zero_add, nextBuild_of_pos hn, ih]
      simp [hn, Nat.add_assoc, Nat.add_comm 1]

theorem Run.trans {m : BuildLoop} {later : List Occurrence} (h : Run first history m)
    (hlater : Run m later l) : Run first (later ++ history) l := by
  induction hlater with
  | refl => exact h
  | move _ hmove ih => exact ih.move hmove

theorem exists_run_step (l : BuildLoop) : ∃ history, Run l history l.step := by
  cases hturn : l.turn? with
  | some o => exact ⟨[o], Run.refl.move (.turn hturn)⟩
  | none =>
    obtain ⟨phase, state, pending, builds⟩ := l
    cases phase with
    | done => exact ⟨[], .refl⟩
    | _ => cases hturn

theorem exists_run_steps (n : Nat) (l : BuildLoop) : ∃ history, Run l history (steps n l) := by
  induction n generalizing l with
  | zero => exact ⟨[], .refl⟩
  | succ n ih =>
    obtain ⟨first, hfirst⟩ := exists_run_step l
    obtain ⟨later, hlater⟩ := ih l.step
    exact ⟨_, hfirst.trans hlater⟩

theorem exists_run_send (n : Nat) (l : BuildLoop) : ∃ history, Run l history (l.send n) := by
  induction n with
  | zero => exact ⟨[], .refl⟩
  | succ n ih =>
    obtain ⟨history, h⟩ := ih
    exact ⟨_, h.move (.send _)⟩

theorem exists_run_run (sends : List Nat) (l : BuildLoop) :
    ∃ history, Run l history (run sends l) := by
  induction sends generalizing l with
  | nil => exact exists_run_steps _ l
  | cons n sends ih =>
    rw [run]
    split
    · obtain ⟨sent, hsent⟩ := exists_run_send n l
      obtain ⟨next, hnext⟩ := exists_run_steps ((l.send n).pending + 4) (l.send n)
      obtain ⟨later, hlater⟩ := ih (l.send n).nextBuild
      exact ⟨_, (hsent.trans hnext).trans hlater⟩
    · exact ⟨[], .refl⟩

/--
Whenever events are sent, none of them is lost and none causes a build too many. If they are sent in
builds only, the loop builds once more after each of the first builds in which some were sent, and
returns.
-/
theorem coalesces_changes :
    (∀ history l, Run begun history l → Coalesces history l) ∧
      ∀ sends, (∃ history, Run begun history (run sends begun)) ∧
        run sends begun = ⟨.done, .idle, 0, 1 + (sends.takeWhile (0 < ·)).length⟩ :=
  ⟨fun _ _ h => h.coalesces, fun sends => ⟨exists_run_run sends begun, run_building sends 1⟩⟩

/-- Five events in the first build cause one more. -/
example : run [5] begun = ⟨.done, .idle, 0, 2⟩ := rfl

/-- Events in a build, while it is drained, before its end is reported and while the loop settles
have one more build in common. Those after the last event was drained stay. -/
theorem coalesces_changes_throughout :
    ∃ history, Run begun history ⟨.done, .idle, 2, 2⟩ ∧ history.countP Occurrence.isSent = 6 ∧
      Coalesces history ⟨.done, .idle, 2, 2⟩ := by
  have none : Run begun [] begun := .refl
  have drained := ((none.move (.send _)).move (.turn rfl)).move (.turn rfl)
  have emptied := ((drained.move (.send _)).move (.turn rfl)).move (.turn rfl)
  have settling := ((emptied.move (.send _)).move (.turn rfl)).move (.turn rfl)
  have rebuilt := (((settling.move (.send _)).move (.turn rfl)).move (.turn rfl)).move (.turn rfl)
  have returned := ((rebuilt.move (.turn rfl)).move (.send _)).move (.turn rfl)
  exact ⟨_, returned.move (.send _), rfl, coalesces_changes.1 _ _ (returned.move (.send _))⟩

end AtomicCss.BuildLoop
