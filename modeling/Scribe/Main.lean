import Scribe.CommandLine
import Std.Time

/-!
# The program

Reads the clock and the files that the arguments name, and prints what the command line makes of them.
-/

namespace Scribe

/-- The moment at which it runs. -/
def Clock.now : IO Clock := do
  let ⟨date, time⟩ ← Std.Time.PlainDateTime.now
  return {
    year := date.year.toInt
    month := date.month.val.toNat
    day := date.day.val.toNat
    hour := time.hour.val.toNat
    minute := time.minute.val.toNat
    second := time.second.val.toNat }

/-- The content of a file, if it can be read. -/
def contentOf (path : String) : IO (Option ByteArray) := do
  try
    return some (← IO.FS.readBinFile path)
  catch _ =>
    return none

/-- The contents of the files that the arguments name, by path. -/
def contentsOf (args : List String) : IO (List (String × Option ByteArray)) :=
  match Invocation.parse? args with
  | some i => i.paths.mapM fun path => return (path, ← contentOf path)
  | none => return []

end Scribe

def main (args : List String) : IO UInt32 := do
  let contents ← Scribe.contentsOf args
  let outcome := Scribe.Invocation.outcome { clock := ← Scribe.Clock.now }
    (fun path => (contents.lookup path).join) args
  IO.print outcome.output
  if outcome.code ≠ 0 then
    IO.eprintln outcome.complaint
  return outcome.code
