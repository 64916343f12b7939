import AtomicCss.Command.Run
import AtomicCss.Watch.Scheduler
set_option autoImplicit false

namespace AtomicCss.Program

def faultOf (e : IO.Error) : FileFault :=
  match e with
  | .noFileOrDirectory .. => .notFound
  | .alreadyExists .. => .alreadyExists
  | .inappropriateType _ code _ => if code = 20 then .notADirectory else .isADirectory
  | .invalidArgument _ code _ => if code = 36 then .nameTooLong else .other (toString e).toList
  | e => .other (toString e).toList

def guarded {α : Type} (action : IO α) : IO (Except FileFault α) := do
  match ← action.toBaseIO with
  | .ok a => return .ok a
  | .error e => return .error (faultOf e)

def byteText (bytes : ByteArray) : Text := bytes.toList.map fun b => Char.ofNat b.toNat

def decode (bytes : ByteArray) : Except FileFault Text :=
  match String.fromUTF8? bytes with
  | some s => .ok s.toList
  | none => .error (.other "stream did not contain valid UTF-8".toList)

instance : Host IO where
  read path := do
    match ← guarded (IO.FS.readBinFile (String.ofList path)) with
    | .ok bytes => return decode bytes
    | .error e => return .error e
  fingerprint path := do
    match ← guarded (IO.FS.readBinFile (String.ofList path)) with
    | .ok bytes => return .ok (some (byteText bytes))
    | .error .notFound => return .ok none
    | .error e => return .error e
  write path content := guarded (IO.FS.writeFile (String.ofList path) (String.ofList content))
  makeDirectory path := guarded (IO.FS.createDir (String.ofList path))
  isDirectory path := do
    match ← guarded (IO.FS.realPath (String.ofList path)) with
    | .ok p => p.isDir
    | .error _ => return false
  print t := do
    let out ← IO.getStdout
    out.putStr (String.ofList t)
    out.flush
  complain t := IO.eprint (String.ofList t)

def debounce : UInt32 := 100

def lastWrite (path : Text) : IO (Option IO.FS.SystemTime) := do
  match ← guarded (IO.FS.realPath (String.ofList path) >>= fun p => p.metadata) with
  | .ok data => return some data.modified
  | .error _ => return none

partial def settle (path : Text) : IO (Option IO.FS.SystemTime) := do
  let before ← lastWrite path
  IO.sleep debounce
  let after ← lastWrite path
  if before == after then return after else settle path

def rebuildLoudly (o : Command.Options) : IO Unit := do
  match ← (Command.build (m := IO) o).run with
  | .ok _ => return ()
  | .error e => IO.eprintln (String.ofList e.message)

/-- Builds until no change comes during a build, and returns the last change that was seen. -/
partial def buildAll (o : Command.Options) (state : BuildState)
    (seen : Option IO.FS.SystemTime) : IO (Option IO.FS.SystemTime) := do
  rebuildLoudly o
  let now ← lastWrite o.input
  let (again, state) := (if now == seen then state else state.request.2).finish
  if again then
    let now ← settle o.input
    buildAll o state now
  else return now

partial def follow (o : Command.Options) (seen : Option IO.FS.SystemTime) : IO Unit := do
  IO.sleep debounce
  if (← lastWrite o.input) == seen then follow o seen
  else
    let now ← settle o.input
    follow o (← buildAll o BuildState.idle.request.2 now)

end AtomicCss.Program

open AtomicCss in
def main (args : List String) : IO UInt32 := do
  match ← Command.run (m := IO) (args.map String.toList) with
  | .exit status => return status.toUInt32
  | .watch o =>
    let seen ← Program.lastWrite o.input
    Program.follow o (← Program.buildAll o BuildState.idle.request.2 seen)
    return 0
