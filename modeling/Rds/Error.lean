import Rds.Format
import Rds.Kind
import Rds.Text.Hex

namespace Rds

inductive Unsupported
  | zeroDepth
  | workspace (magic : ForeignWorkspace)
  | serialization (format : Format)
  | marker (byte : UInt8)
  | version (number : Int32)
  | envelope (envelope : ForeignEnvelope)
  | type (code : UInt8)
deriving DecidableEq

namespace Unsupported

def message : Unsupported → String
  | zeroDepth => "max_depth must be > 0"
  | workspace magic => magic.description
  | serialization format => format.description ++ " serialization format"
  | marker byte => "unknown format marker 0x" ++ Hex.upper byte
  | version number =>
    s!"format version {number.toInt} (only {supportedVersion.toInt} is supported)"
  | envelope e => e.description
  | type code =>
    match TypeCode.ofCode? code with
    | some t => s!"type {t.name} ({code.toNat}) is not implemented"
    | none => s!"unknown type code {code.toNat}"

end Unsupported

inductive Shape
  | character | integer | list | integerOrCharacter
deriving DecidableEq

namespace Shape

def description : Shape → String
  | character => "a character vector"
  | integer => "an integer vector"
  | list => "a list"
  | integerOrCharacter => "an integer or character vector"

/-- A list of dimension names may also be absent, that is `NULL`. -/
def admits : Shape → Kind → Bool
  | character, .character => true
  | integer, .integer => true
  | list, .list => true
  | list, .null => true
  | integerOrCharacter, .integer => true
  | integerOrCharacter, .character => true
  | _, _ => false

end Shape

inductive AttributeFault
  | onSymbol
  | notPairlist (found : Kind)
  | untagged
  | shape (name : String) (expected : Shape) (found : Kind)
  | terminator (found : Kind)
deriving DecidableEq

namespace AttributeFault

def message : AttributeFault → String
  | onSymbol => "a symbol cannot carry attributes"
  | notPairlist found => "attribute set must be a pairlist, found " ++ found.name
  | untagged => "attribute without a tag"
  | shape name expected found =>
    "'" ++ name ++ "' must be " ++ expected.description ++ ", found " ++ found.name
  | terminator found => "attribute pairlist terminated by " ++ found.name

end AttributeFault

inductive ItemFault
  | stringElement (found : Kind)
  | symbolName (found : Kind)
  | tag (found : Kind)
deriving DecidableEq

namespace ItemFault

def message : ItemFault → String
  | stringElement found => "string vector element must be a CHARSXP, found " ++ found.name
  | symbolName found => "symbol name must be a CHARSXP, found " ++ found.name
  | tag found => "pairlist tag must be a symbol, found " ++ found.name

end ItemFault

inductive Error
  | unsupported (what : Unsupported)
  | truncated (needed remaining : Nat)
  | corruptReference (index : Int32) (size : Nat)
  | malformedAttribute (fault : AttributeFault)
  | negativeLength (length : Int32)
  | malformedItem (fault : ItemFault)
  | depthLimit (limit : Nat)
  | trailingBytes (count : Nat)
  | source (message : String)
  | inflation {message : String}
deriving DecidableEq

namespace Error

def message : Error → String
  | unsupported what => "unsupported format: " ++ what.message
  | truncated needed remaining =>
    s!"truncated stream: needed {needed} bytes, {remaining} remaining"
  | corruptReference index size =>
    s!"corrupt reference: index {index.toInt} outside table of {size} entries"
  | malformedAttribute fault => "malformed attribute: " ++ fault.message
  | negativeLength length => s!"negative length {length.toInt}"
  | malformedItem fault => "malformed item: " ++ fault.message
  | depthLimit limit => s!"nesting depth exceeds limit of {limit}"
  | trailingBytes count => s!"{count} trailing bytes after root item"
  | source message => "IO error: " ++ message
  | @inflation message => "gzip decompression failed: " ++ message

end Error

end Rds
