import Rds.CommandLine.Request
import Rds.Decode
import Rds.Gzip.Member
import Rds.Json.Numerals
import Rds.Outline

namespace Rds.CommandLine

/-- What a command needs of its surroundings. A failure comes with the text that the
surroundings have for it. -/
structure System (m : Type → Type) where
  input : ExceptT String m (List UInt8)
  load : String → ExceptT String m (List UInt8)
  print : String → ExceptT String m Unit
  save : String → String → ExceptT String m Unit
  complain : String → m Unit

variable {m : Type → Type} [Monad m] (sys : System m)

/-- A dash stands for the standard input. -/
def read (path : String) : ExceptT String m (List UInt8) :=
  if path = "-" then sys.input.adapt fun text ↦ "Lesefehler (stdin): " ++ text
  else (sys.load path).adapt fun text ↦ "Lesefehler '" ++ path ++ "': " ++ text

def write (path : Option String) (content : String) : ExceptT String m Unit :=
  match path.filter fun p ↦ p != "-" with
  | none => (sys.print content).adapt fun text ↦ "Schreibfehler (stdout): " ++ text
  | some path =>
    (sys.save path content).adapt fun text ↦ "Schreibfehler '" ++ path ++ "': " ++ text

def endLine (text : String) : String :=
  if text.toList.getLast? = some '\n' then text else text ++ "\n"

def Dump.render (d : Dump) (v : Value) : String :=
  if d.json then
    if d.pretty then (Json.ofValue v).pretty else (Json.ofValue v).compact
  else Outline.text v

def report (h : Header) : String :=
  "format:             " ++ h.format.name ++ "\n"
    ++ "workspace:          " ++ toString h.workspace ++ "\n"
    ++ "version:            " ++ toString h.version.toInt ++ "\n"
    ++ "writer R version:   " ++ h.writer.text ++ "\n"
    ++ "min reader version: " ++ h.minReader.text ++ "\n"

def answer : Request → ExceptT String m Unit
  | .dump d => do
    let bytes ← read sys d.input
    match (decode d.options 0 bytes).result with
    | .ok v => write sys d.output (endLine (d.render v))
    | .error e => throw ("Decode-Fehler: " ++ e.message)
  | .header input => do
    let bytes ← read sys input
    match (readStreamHeader .default bytes).result with
    | .ok h => write sys none (report h)
    | .error e => throw ("Header-Fehler: " ++ e.message)

def usage : String :=
  "usage: dump -i FILE [-o FILE] [--json [--pretty]] [--max-depth N] [--strict] "
    ++ "[--no-decompress] | header -i FILE\n"

def run (args : List String) : m UInt32 := do
  match request? args with
  | none =>
    sys.complain usage
    return 2
  | some request =>
    match ← ExceptT.run (answer sys request) with
    | .ok () => return 0
    | .error text =>
      sys.complain ("Fehler: " ++ text ++ "\n")
      return 1

end Rds.CommandLine
