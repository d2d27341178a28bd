import Rds.Options

namespace Rds.CommandLine

inductive Key
  | input | output | json | pretty | maxDepth | strict | noDecompress
deriving DecidableEq

namespace Key

def long : Key → String
  | input => "input"
  | output => "output"
  | json => "json"
  | pretty => "pretty"
  | maxDepth => "max-depth"
  | strict => "strict"
  | noDecompress => "no-decompress"

def short? : Key → Option Char
  | input => some 'i'
  | output => some 'o'
  | _ => none

def takesValue : Key → Bool
  | input => true
  | output => true
  | maxDepth => true
  | _ => false

end Key

structure Dump where
  input : String
  output : Option String
  json : Bool
  pretty : Bool
  options : Options

inductive Request
  | dump (dump : Dump)
  | header (input : String)

/-- An option as it was given. Flags have an empty value. -/
abbrev Given := List (Key × String)

def isValue (word : String) : Bool := word == "-" || word.toList.head? != some '-'

def splitLong (cs : List Char) : String × Option String :=
  let name := cs.takeWhile fun c ↦ c != '='
  (String.ofList name,
    match cs.drop name.length with
    | _ :: value => some (String.ofList value)
    | [] => none)

def attached? (cs : List Char) : Option String :=
  match cs with
  | [] => none
  | '=' :: value => some (String.ofList value)
  | value => some (String.ofList value)

def option? (keys : List Key) (word : String) : Option (Key × Option String) :=
  match word.toList with
  | '-' :: '-' :: cs => do
    let (name, value) := splitLong cs
    let key ← keys.find? fun k ↦ k.long == name
    return (key, value)
  | '-' :: c :: cs => do
    let key ← keys.find? fun k ↦ k.short? == some c
    return (key, attached? cs)
  | _ => none

/-- Reads words as options. Nothing may follow two dashes, and nothing may stand alone. -/
def scan (keys : List Key) : List String → Option Given
  | [] => some []
  | ["--"] => some []
  | word :: words => do
    match ← option? keys word with
    | (key, some value) =>
      if key.takesValue then return (key, value) :: (← scan keys words) else failure
    | (key, none) =>
      if key.takesValue then
        match words with
        | value :: words =>
          if isValue value then return (key, value) :: (← scan keys words) else failure
        | [] => failure
      else return (key, "") :: (← scan keys words)

def maxNumber : Nat := 0xffffffffffffffff

def number? (text : String) : Option Nat := do
  let ds := match text.toList with
    | '+' :: ds => ds
    | ds => ds
  if ds ≠ [] ∧ ds.all Char.isDigit then
    let n := ds.foldl (fun n c ↦ 10 * n + (c.toNat - '0'.toNat)) 0
    if n ≤ maxNumber then return n else failure
  else failure

namespace Given

def value? (given : Given) (key : Key) : Option String := given.lookup key

def has (given : Given) (key : Key) : Bool := (given.value? key).isSome

end Given

def dump? (given : Given) : Option Request := do
  let input ← given.value? .input
  let maxDepth ← match given.value? .maxDepth with
    | some text => number? text
    | none => some Options.default.maxDepth
  if given.has .pretty && !given.has .json then failure
  return .dump ⟨input, given.value? .output, given.has .json, given.has .pretty,
    ⟨maxDepth, !given.has .strict, !given.has .noDecompress⟩⟩

def dumpKeys : List Key := [.input, .output, .json, .pretty, .maxDepth, .strict, .noDecompress]

def headerKeys : List Key := [.input]

/-- The request that arguments make, if they are well formed. No option may be given
twice. -/
def request? (args : List String) : Option Request :=
  match args with
  | "dump" :: words => do
    let given ← scan dumpKeys words
    if (given.map Prod.fst).Nodup then dump? given else failure
  | "header" :: words => do
    let given ← scan headerKeys words
    if (given.map Prod.fst).Nodup then return .header (← given.value? .input) else failure
  | _ => none

end Rds.CommandLine
