import Rds.Envelope
import Rds.Gzip.Crc32
import Rds.Gzip.Inflate

namespace Rds.Gzip

structure Fields where
  headerCrc : Bool
  extra : Bool
  name : Bool
  comment : Bool

/-- The upper three flags are reserved and must not be set. -/
def fields? (flags : UInt8) : Option Fields :=
  if flags &&& 0xe0 = 0 then
    some ⟨flags &&& 2 != 0, flags &&& 4 != 0, flags &&& 8 != 0, flags &&& 16 != 0⟩
  else none

def littleEndian (bytes : List UInt8) : Nat :=
  bytes.foldr (fun b n ↦ b.toNat + 256 * n) 0

def take? (n : Nat) (bytes : List UInt8) : Option (List UInt8 × List UInt8) :=
  let front := bytes.take n
  if front.length = n then some (front, bytes.drop n) else none

def skipExtra (bytes : List UInt8) : Option (List UInt8) := do
  let (length, bytes) ← take? 2 bytes
  let (_, bytes) ← take? (littleEndian length) bytes
  return bytes

def maxText : Nat := 65535

def skipText (bytes : List UInt8) : Option (List UInt8) :=
  let text := bytes.takeWhile fun b ↦ b != 0
  match bytes.drop text.length with
  | _ :: rest => if text.length ≤ maxText then some rest else none
  | [] => none

/-- The check sum of a header that takes up all but `rest` of the bytes. -/
def skipHeaderCrc (bytes rest : List UInt8) : Option (List UInt8) := do
  let (sum, after) ← take? 2 rest
  let header := bytes.take (bytes.length - rest.length)
  if littleEndian sum = (crc32 header).toNat % 0x10000 then return after else none

def skipIf (present : Bool) (skip : List UInt8 → Option (List UInt8)) (bytes : List UInt8) :
    Option (List UInt8) :=
  if present then skip bytes else some bytes

def skipHeader (bytes : List UInt8) : Option (List UInt8) :=
  match bytes with
  | 0x1f :: 0x8b :: 8 :: flags :: _ :: _ :: _ :: _ :: _ :: _ :: rest => do
    let f ← fields? flags
    let rest ← skipIf f.extra skipExtra rest
    let rest ← skipIf f.name skipText rest
    let rest ← skipIf f.comment skipText rest
    skipIf f.headerCrc (skipHeaderCrc bytes) rest
  | _ => none

/-- Reads one member. Its content must have the check sum and the length that follow it. -/
def readMember (bytes : List UInt8) : Option (List UInt8 × List UInt8) := do
  let body ← skipHeader bytes
  let (out, bits) ← inflateFrom #[] (.ofBytes body)
  let (sum, rest) ← take? 4 bits.rest
  let (size, rest) ← take? 4 rest
  let content := out.toList
  if littleEndian sum = (crc32 content).toNat ∧ littleEndian size = out.size % 0x100000000 then
    return (content, rest)
  else none

theorem take?_length_le {n : Nat} {bytes front rest : List UInt8}
    (h : take? n bytes = some (front, rest)) : rest.length ≤ bytes.length := by
  simp only [take?] at h
  split at h
  · cases h
    simp
  · cases h

theorem skipExtra_length_le {bytes rest : List UInt8} (h : skipExtra bytes = some rest) :
    rest.length ≤ bytes.length := by
  obtain ⟨⟨_, a⟩, ha, h⟩ := Option.bind_eq_some_iff.mp h
  obtain ⟨⟨_, b⟩, hb, h⟩ := Option.bind_eq_some_iff.mp h
  cases h
  exact Nat.le_trans (take?_length_le hb) (take?_length_le ha)

theorem skipText_length_le {bytes rest : List UInt8} (h : skipText bytes = some rest) :
    rest.length ≤ bytes.length := by
  simp only [skipText] at h
  split at h
  · next x tail hd =>
    split at h
    · cases h
      have := congrArg List.length hd
      simp only [List.length_drop, List.length_cons] at this
      omega
    · cases h
  · cases h

theorem skipHeaderCrc_length_le {bytes rest after : List UInt8}
    (h : skipHeaderCrc bytes rest = some after) : after.length ≤ rest.length := by
  obtain ⟨⟨_, a⟩, ha, h⟩ := Option.bind_eq_some_iff.mp h
  dsimp only at h
  split at h
  · cases h
    exact take?_length_le ha
  · cases h

theorem skipIf_length_le {present : Bool} {skip : List UInt8 → Option (List UInt8)}
    {bytes rest : List UInt8}
    (hs : ∀ {bytes rest}, skip bytes = some rest → rest.length ≤ bytes.length)
    (h : skipIf present skip bytes = some rest) : rest.length ≤ bytes.length := by
  unfold skipIf at h
  split at h
  · exact hs h
  · cases h
    exact Nat.le_refl _

theorem skipHeader_length_lt {bytes rest : List UInt8} (h : skipHeader bytes = some rest) :
    rest.length < bytes.length := by
  unfold skipHeader at h
  split at h
  · obtain ⟨f, hf, h⟩ := Option.bind_eq_some_iff.mp h
    obtain ⟨a, ha, h⟩ := Option.bind_eq_some_iff.mp h
    obtain ⟨b, hb, h⟩ := Option.bind_eq_some_iff.mp h
    obtain ⟨c, hc, h⟩ := Option.bind_eq_some_iff.mp h
    have := skipIf_length_le skipExtra_length_le ha
    have := skipIf_length_le skipText_length_le hb
    have := skipIf_length_le skipText_length_le hc
    have := skipIf_length_le skipHeaderCrc_length_le h
    simp only [List.length_cons]
    omega
  · cases h

theorem readMember_length_lt {bytes content rest : List UInt8}
    (h : readMember bytes = some (content, rest)) : rest.length < bytes.length := by
  obtain ⟨body, hbody, h⟩ := Option.bind_eq_some_iff.mp h
  obtain ⟨⟨out, bits⟩, hbits, h⟩ := Option.bind_eq_some_iff.mp h
  obtain ⟨⟨_, a⟩, ha, h⟩ := Option.bind_eq_some_iff.mp h
  obtain ⟨⟨_, b⟩, hb, h⟩ := Option.bind_eq_some_iff.mp h
  dsimp only at h
  split at h
  · cases h
    have := skipHeader_length_lt hbody
    have hsize := takes_inflateFrom _ _ _ _ hbits
    have := take?_length_le ha
    have := take?_length_le hb
    simp only [Bits.size, Bits.ofBytes, List.length_nil] at hsize
    omega
  · cases h

/-- Appends the contents of all members. Nothing but members may follow the first. -/
def gunzipFrom (parts : List (List UInt8)) (bytes : List UInt8) : Option (List UInt8) :=
  match _h : readMember bytes with
  | none => none
  | some (content, []) => some (content :: parts).reverse.flatten
  | some (content, b :: rest) => gunzipFrom (content :: parts) (b :: rest)
termination_by bytes.length
decreasing_by exact readMember_length_lt _h

/-- What a sequence of members holds, if all of them are sound. -/
def gunzip (bytes : List UInt8) : Option (List UInt8) := gunzipFrom [] bytes

instance : Inflater where
  inflate bytes :=
    match gunzip bytes with
    | some content => .ok content
    | none => .error "corrupt gzip stream"

end Rds.Gzip
