import AtomicCss.Watch.Scheduler
set_option autoImplicit false

/-!
Runs of the build loop while events are sent. An event may be sent at any moment, also between two
events that are drained, before the end of a build is reported, while the loop settles, and after it
has returned. How long the loop rests between its steps is left open, so any moment without an event
may be the one at which it has settled.
-/

namespace AtomicCss.BuildLoop

/-- What can occur. All but the first are steps of the loop itself. -/
inductive Occurrence where
  /-- An event is sent, in the given phase of the loop. -/
  | sent (during : Phase)
  /-- A build ends. -/
  | built
  /-- An event is taken as a request after a build. -/
  | drained
  /-- No event is left to be taken as a request. -/
  | emptied
  /-- The end of a build is reported, and another one is due or not. -/
  | finished (again : Bool)
  /-- An event is swallowed before the next build. -/
  | settled
  /-- A build after the first one starts. -/
  | started
  deriving DecidableEq, Repr

namespace Occurrence

def isSent : Occurrence → Bool
  | .sent _ => true
  | _ => false

def isTurn (o : Occurrence) : Bool := !o.isSent

def takes : Occurrence → Bool
  | .drained | .settled => true
  | _ => false

end Occurrence

def turn? (l : BuildLoop) : Option Occurrence :=
  match l.phase with
  | .building => some .built
  | .draining => some (if l.pending = 0 then .emptied else .drained)
  | .finishing => some (.finished l.state.finish.1)
  | .settling => some (if l.pending = 0 then .started else .settled)
  | .done => none

inductive Moves : BuildLoop → Occurrence → BuildLoop → Prop where
  | send (l : BuildLoop) : Moves l (.sent l.phase) (l.send 1)
  | turn {l : BuildLoop} {o : Occurrence} : l.turn? = some o → Moves l o l.step

/-- What has occurred since `first`, the latest first. -/
inductive Run (first : BuildLoop) : List Occurrence → BuildLoop → Prop where
  | refl : Run first [] first
  | move {history : List Occurrence} {l next : BuildLoop} {o : Occurrence} :
      Run first history l → Moves l o next → Run first (o :: history) next

/-- The loop as it starts for a request that found the scheduler idle. Events that wait already
count as sent at once. -/
def begun : BuildLoop := start BuildState.idle.request.2

variable {first l next : BuildLoop} {o : Occurrence} {history : List Occurrence}

theorem moves_cases (h : Moves l o next) :
    match o with
    | .sent during => during = l.phase ∧ next = l.send 1
    | .built => l.phase = .building ∧ next = { l with phase := .draining }
    | .drained => l.phase = .draining ∧ 0 < l.pending ∧
        next = { l with pending := l.pending - 1, state := l.state.request.2 }
    | .emptied => l.phase = .draining ∧ l.pending = 0 ∧ next = { l with phase := .finishing }
    | .finished again => l.phase = .finishing ∧ again = l.state.finish.1 ∧
        next = { l with
          phase := if l.state.finish.1 then .settling else .done, state := l.state.finish.2 }
    | .settled => l.phase = .settling ∧ 0 < l.pending ∧ next = { l with pending := l.pending - 1 }
    | .started => l.phase = .settling ∧ l.pending = 0 ∧
        next = { l with phase := .building, builds := l.builds + 1 } := by
  cases h with
  | send => exact ⟨rfl, rfl⟩
  | turn h =>
    unfold turn? at h
    cases hphase : l.phase with
    | building =>
      simp only [hphase, Option.some.injEq] at h
      subst h
      exact ⟨rfl, by simp [step, hphase]⟩
    | draining =>
      simp only [hphase, Option.some.injEq] at h
      by_cases hpending : l.pending = 0
      · rw [if_pos hpending] at h
        subst h
        exact ⟨rfl, hpending, by simp [step, hphase, hpending]⟩
      · rw [if_neg hpending] at h
        subst h
        exact ⟨rfl, Nat.pos_of_ne_zero hpending, by simp [step, hphase, hpending]⟩
    | finishing =>
      simp only [hphase, Option.some.injEq] at h
      subst h
      exact ⟨rfl, rfl, by simp [step, hphase]⟩
    | settling =>
      simp only [hphase, Option.some.injEq] at h
      by_cases hpending : l.pending = 0
      · rw [if_pos hpending] at h
        subst h
        exact ⟨rfl, hpending, by simp [step, hphase, hpending]⟩
      · rw [if_neg hpending] at h
        subst h
        exact ⟨rfl, Nat.pos_of_ne_zero hpending, by simp [step, hphase, hpending]⟩
    | done => simp [hphase] at h

theorem Run.split {later earlier : List Occurrence} (h : Run first (later ++ earlier) l) :
    ∃ m, Run first earlier m ∧ Run m later l := by
  induction later generalizing l with
  | nil => exact ⟨l, h, .refl⟩
  | cons o later ih =>
    cases h with
    | move h hmove =>
      obtain ⟨m, hearlier, hlater⟩ := ih h
      exact ⟨m, hearlier, hlater.move hmove⟩

theorem Run.pending_add_taken (h : Run first history l) :
    l.pending + history.countP Occurrence.takes =
      first.pending + history.countP Occurrence.isSent := by
  induction h with
  | refl => rfl
  | @move history l next o _ hmove ih =>
    cases o <;>
      simp only [List.countP_cons, Occurrence.takes, Occurrence.isSent, if_true,
        Bool.false_eq_true, if_false] <;>
      obtain ⟨-, hmove⟩ := moves_cases hmove
    case sent during => subst hmove; simp only [send]; omega
    case drained | settled => obtain ⟨hpending, rfl⟩ := hmove; dsimp only; omega
    case built => subst hmove; exact ih
    case emptied | finished | started => obtain ⟨-, rfl⟩ := hmove; exact ih

theorem Run.builds_eq (h : Run first history l) :
    l.builds = first.builds + history.count .started := by
  induction h with
  | refl => rfl
  | @move history l next o _ hmove ih =>
    cases o <;> obtain ⟨-, hmove⟩ := moves_cases hmove
    case started => obtain ⟨-, rfl⟩ := hmove; simp [ih, Nat.add_assoc]
    case sent | built => subst hmove; simpa [send] using ih
    case drained | settled | emptied | finished => obtain ⟨-, rfl⟩ := hmove; simpa using ih

end AtomicCss.BuildLoop
