import ChoiceGrammar.CommandLine.Steps
import Std.Time.DateTime.Timestamp

/-!
# The program

Reads the files that the arguments name, takes the steps of the request, and reports what stopped
it.
-/

namespace ChoiceGrammar

/-- The cause behind a number of the system, which may come negated. -/
def ofCode (code : UInt32) (details : String) : ReadFailure :=
  match min code (-code) with
  | 2 => .notFound
  | 13 => .permissionDenied
  | 20 => .notADirectory
  | 21 => .isADirectory
  | 36 => .nameTooLong
  | code => .other code.toNat details

/-- The cause of a failure to read a file. -/
def readFailure : IO.Error → ReadFailure
  | .noFileOrDirectory _ code details => ofCode code details
  | .permissionDenied _ code details => ofCode code details
  | .inappropriateType _ code details => ofCode code details
  | .invalidArgument _ code details => ofCode code details
  | .otherError code details => ofCode code details
  | error => .other 0 (toString error)

def readFile (path : String) : IO (Except ReadFailure ByteArray) := do
  match ← (IO.FS.readBinFile path).toBaseIO with
  | .ok bytes => return .ok bytes
  | .error error => return .error (readFailure error)

/-- The time, and the contents of the given files. -/
def surroundings (paths : List String) : IO CommandLine.Surroundings := do
  let now ← Std.Time.Timestamp.now
  let files ← paths.mapM fun path => return (path, ← readFile path)
  return ⟨now.toNanosecondsSinceUnixEpoch.val,
    fun path => (files.lookup path).getD (.error .notFound)⟩

end ChoiceGrammar

open ChoiceGrammar in
def main (arguments : List String) : IO UInt32 := do
  let request := CommandLine.Request.ofArguments arguments
  match ← (request.steps IO.println (← surroundings request.paths)).run with
  | .ok () => return 0
  | .error stop =>
      if let some report := stop.outcome.report? then
        IO.eprintln ("Error: " ++ report)
      return stop.outcome.exitCode?.getD 70
