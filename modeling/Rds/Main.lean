import Rds.CommandLine.Run

namespace Rds.CommandLine

def failureText (e : IO.Error) : String :=
  match e with
  | .noFileOrDirectory _ code details => details ++ " (os error " ++ toString code ++ ")"
  | .inappropriateType _ code details => details ++ " (os error " ++ toString code ++ ")"
  | .permissionDenied _ code details => details ++ " (os error " ++ toString code ++ ")"
  | .invalidArgument _ code details => details ++ " (os error " ++ toString code ++ ")"
  | .resourceExhausted _ code details => details ++ " (os error " ++ toString code ++ ")"
  | e => toString e

def attempt {α : Type} (action : IO α) : ExceptT String IO α := do
  match ← action.toBaseIO with
  | .ok a => return a
  | .error e => throw (failureText e)

def system : System IO where
  input := attempt do
    return (← (← IO.getStdin).readBinToEnd).toList
  load path := attempt do
    return (← IO.FS.readBinFile path).toList
  print text := attempt do
    let out ← IO.getStdout
    out.putStr text
    out.flush
  save path text := attempt (IO.FS.writeFile path text)
  complain text := do
    (← IO.getStderr).putStr text

end Rds.CommandLine

def main (args : List String) : IO UInt32 := Rds.CommandLine.run Rds.CommandLine.system args
