import PhraseStructure.Command.Transcript

/-!
# The command line

Reads the arguments, the grammar's file and standard input, and writes the
transcript of the run.
-/

namespace PhraseStructure

def FileFault.ofSystem (e : IO.Error) : FileFault :=
  match e with
  | .noFileOrDirectory .. => .notFound
  | .permissionDenied .. => ⟨.permissionDenied, "Permission denied (os error 13)"⟩
  | .inappropriateType _ 21 _ => .isADirectory
  | .inappropriateType .. => .notADirectory
  | e => ⟨.other, toString e⟩

def readContents (path : String) : IO (Except FileFault ByteArray) := do
  try
    return .ok (← IO.FS.readBinFile path)
  catch e =>
    return .error (.ofSystem e)

/-- Four bytes as a word, low byte first. -/
def wordAt (bytes : ByteArray) (i : Nat) : UInt32 :=
  (List.range 4).foldr (fun k w ↦ w <<< 8 ||| (bytes.data.getD (4 * i + k) 0).toUInt32) 0

def freshSource : IO WordSource := do
  let bytes ← IO.getRandomBytes 32
  let row (i : Nat) : Keystream.Row :=
    ⟨wordAt bytes i, wordAt bytes (i + 1), wordAt bytes (i + 2), wordAt bytes (i + 3)⟩
  return Keystream.source ⟨row 0, row 4⟩

partial def readAll (stream : IO.FS.Stream) (done : ByteArray) : IO ByteArray := do
  let more ← stream.read 65536
  if more.isEmpty then return done else readAll stream (done ++ more)

def transcript (request : Arguments.Request) : IO Transcript := do
  let level ← IO.getEnv "RUST_LOG"
  match request with
  | .run command =>
      let contents ← readContents command.file
      let input ← if command.readsInput then readAll (← IO.getStdin) .empty else pure .empty
      return .ofRequest request level (fun _ ↦ contents) input (← freshSource)
  | _ => return .ofRequest request level (fun _ ↦ .error .notFound) .empty (.ofWords [])

end PhraseStructure

open PhraseStructure in
def main (arguments : List String) : IO UInt32 := do
  let result ← match Arguments.read arguments with
    | some request => transcript request
    | none => pure .refusal
  IO.print result.stdout
  IO.eprint result.stderr
  return result.code
