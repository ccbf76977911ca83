import Avr.CommandLine

namespace Avr

def Artifact.toBytes : Artifact → ByteArray
  | .bytes bs => ByteArray.mk bs.toArray
  | .text s => s.toUTF8

/-- What cannot be read as text, such as a folder, gives an empty text. -/
def readText (handle : IO.FS.Handle) : IO String := do
  try
    return (String.fromUTF8? (← handle.readBinToEnd)).getD ""
  catch _ => return ""

def readFile (path : String) : IO (Option String) := do
  try
    return some (← readText (← IO.FS.Handle.mk path .read))
  catch _ => return none

def writeFile (path : String) (artifact : Artifact) : IO (Option String) := do
  try
    IO.FS.writeBinFile path artifact.toBytes
    return none
  catch e => return some (toString e)

end Avr

def main (args : List String) : IO UInt32 := do
  let outcome ← Avr.CommandLine.run ⟨Avr.readFile, Avr.writeFile⟩ args
  IO.print outcome.shown
  IO.eprint outcome.report
  return UInt32.ofNat outcome.exitCode
