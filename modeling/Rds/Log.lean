import Rds.Header
import Rds.Text.Quoted
import Rds.Text.Utf8
import Rds.Value.Basic

namespace Rds

inductive Event
  | buffered (size : Nat)
  | inflated (packed unpacked : Nat)
  | header (header : Header)
  | item (type : TypeCode) (offset depth : Nat)
  | registered (symbol : Chars) (index : Nat)
  | discardedAttributes
  | repaired (fault : Utf8.Fault)
  | ignoredTrailing (count : Nat)
  | finished (references : Nat)

/-- The events so far, the latest in front. -/
abbrev Log := List Event

inductive Level
  | trace | debug | warn
deriving DecidableEq

namespace Chars

def quoted : Chars → String
  | na => "NA"
  | text _ s => Quoted.ofString s

def plain (c : Chars) : String := c.text?.getD "NA"

end Chars

namespace Event

def level : Event → Level
  | item .. => .trace
  | registered .. => .trace
  | discardedAttributes => .warn
  | repaired _ => .warn
  | _ => .debug

def message : Event → String
  | buffered size => s!"source: buffered {size} bytes"
  | inflated packed unpacked => s!"source: inflated gzip {packed} -> {unpacked} bytes"
  | header h =>
    "header: format=" ++ h.format.description ++ " version=" ++ toString h.version.toInt
      ++ " writer=" ++ h.writer.text ++ " min_reader=" ++ h.minReader.text
  | item type offset depth => s!"item {type.name} at offset {offset} depth {depth}"
  | registered symbol index =>
    s!"registered symbol Symbol({symbol.quoted}) as reference {index}"
  | discardedAttributes => "discarding attributes attached to a CHARSXP"
  | repaired fault => "invalid UTF-8 in string payload (" ++ fault.message ++ "), replacing"
  | ignoredTrailing count => s!"decoder: ignoring {count} trailing bytes"
  | finished references => s!"decoder: done, {references} references registered"

end Event

end Rds
