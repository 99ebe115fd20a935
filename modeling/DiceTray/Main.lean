import DiceTray.CommandLine
import DiceTray.Roller.Seeded

/-!
# The program

Reads a roll from the arguments or from standard input and rolls it with a random seed.
-/

namespace DiceTray

/-- The bytes of standard input up to the first line feed or the end. -/
partial def readLine (stdin : IO.FS.Stream) (line : ByteArray) : IO ByteArray := do
  let bytes ← stdin.read 1
  if bytes.isEmpty || bytes[0]? == some 10 then
    return line
  else
    readLine stdin (line ++ bytes)

/-- A seed that no one chose. -/
def randomSeed : IO UInt64 := do
  let bytes ← IO.getRandomBytes 8
  return bytes.toList.foldl (fun seed byte => seed * 256 + byte.toUInt64) 0

end DiceTray

open DiceTray in
def main (args : List String) : IO UInt32 := do
  let mut line := ByteArray.empty
  if args.isEmpty then
    let stdin ← IO.getStdin
    if ← stdin.isTty then
      let stdout ← IO.getStdout
      stdout.putStr CommandLine.prompt
      stdout.flush
    line ← readLine stdin ByteArray.empty
  let outcome := CommandLine.run Roller.seeded (← randomSeed) args line.toList
  IO.print outcome.stdout
  IO.eprint outcome.stderr
  return outcome.exitCode
