set_option autoImplicit false

/-!
Rebuilding on changes, one build at a time.

Changes that come during a build are folded into one build after it. `BuildLoop.step` is one step of
the loop that does this, and events may be sent before any step.
-/

namespace AtomicCss

inductive BuildState where
  | idle
  | running
  | runningWithPending
  deriving DecidableEq, Repr

namespace BuildState

/-- A change has come. The first component tells whether a build has to start. -/
def request : BuildState → Bool × BuildState
  | .idle => (true, .running)
  | .running | .runningWithPending => (false, .runningWithPending)

/-- A build has ended. The first component tells whether another has to start. -/
def finish : BuildState → Bool × BuildState
  | .runningWithPending => (true, .running)
  | .running | .idle => (false, .idle)

end BuildState

inductive Phase where
  | building
  /-- Events that came during the build are taken as requests. -/
  | draining
  /-- No event was left, and the end of the build is about to be reported. -/
  | finishing
  /-- Events are swallowed until no more come. -/
  | settling
  | done
  deriving DecidableEq, Repr

structure BuildLoop where
  phase : Phase
  state : BuildState
  /-- Events that nobody has taken yet. -/
  pending : Nat
  builds : Nat
  deriving DecidableEq, Repr

namespace BuildLoop

def start (state : BuildState) : BuildLoop := ⟨.building, state, 0, 1⟩

def send (l : BuildLoop) (events : Nat) : BuildLoop := { l with pending := l.pending + events }

def step (l : BuildLoop) : BuildLoop :=
  match l.phase with
  | .building => { l with phase := .draining }
  | .draining =>
    if l.pending = 0 then { l with phase := .finishing }
    else { l with pending := l.pending - 1, state := l.state.request.2 }
  | .finishing =>
    { l with phase := if l.state.finish.1 then .settling else .done, state := l.state.finish.2 }
  | .settling =>
    if l.pending = 0 then { l with phase := .building, builds := l.builds + 1 }
    else { l with pending := l.pending - 1 }
  | .done => l

def steps : Nat → BuildLoop → BuildLoop
  | 0, l => l
  | n + 1, l => steps n l.step

/-- From a build to the next one or to the end, if no more events come. -/
def nextBuild (l : BuildLoop) : BuildLoop := steps (l.pending + 4) l

/-- The loop in whose builds the given numbers of events are sent, none after those listed. -/
def run : List Nat → BuildLoop → BuildLoop
  | [], l => l.nextBuild
  | n :: r, l => if l.phase = .building then run r (l.send n).nextBuild else l

end BuildLoop
end AtomicCss
