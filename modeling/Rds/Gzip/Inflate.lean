import Rds.Gzip.PrefixCode

namespace Rds.Gzip

inductive Token
  | literal (byte : UInt8)
  | stop
  | copy (length distance : Nat)

/-- The least length of each length symbol, and the number of extra bits. -/
def lengthBases : Array (Nat × Nat) :=
  #[(3, 0), (4, 0), (5, 0), (6, 0), (7, 0), (8, 0), (9, 0), (10, 0), (11, 1), (13, 1), (15, 1),
    (17, 1), (19, 2), (23, 2), (27, 2), (31, 2), (35, 3), (43, 3), (51, 3), (59, 3), (67, 4),
    (83, 4), (99, 4), (115, 4), (131, 5), (163, 5), (195, 5), (227, 5), (258, 0)]

def distanceBases : Array (Nat × Nat) :=
  #[(1, 0), (2, 0), (3, 0), (4, 0), (5, 1), (7, 1), (9, 2), (13, 2), (17, 3), (25, 3), (33, 4),
    (49, 4), (65, 5), (97, 5), (129, 6), (193, 6), (257, 7), (385, 7), (513, 8), (769, 8),
    (1025, 9), (1537, 9), (2049, 10), (3073, 10), (4097, 11), (6145, 11), (8193, 12),
    (12289, 12), (16385, 13), (24577, 13)]

def readExtended (bases : Array (Nat × Nat)) (symbol : Nat) : BitReader Nat :=
  match bases[symbol]? with
  | some (base, extra) => do
    return base + (← Bits.number extra)
  | none => failure

def readToken (literals distances : PrefixCode) : BitReader Token := do
  let symbol ← literals.read
  if symbol < 256 then
    return .literal (UInt8.ofNat symbol)
  else if symbol = 256 then
    return .stop
  else
    let length ← readExtended lengthBases (symbol - 257)
    let distance ← readExtended distanceBases (← distances.read)
    return .copy length distance

theorem takes_readExtended (bases : Array (Nat × Nat)) (symbol : Nat) :
    Bits.Takes 0 (readExtended bases symbol) := by
  unfold readExtended
  split
  · exact ((Bits.takes_number _).bind fun _ ↦ Bits.takes_pure _).mono (Nat.zero_le _)
  · exact Bits.takes_failure 0

theorem takes_readToken (literals distances : PrefixCode) :
    Bits.Takes 1 (readToken literals distances) := by
  refine literals.takes_read.bind (k := 0) fun symbol ↦ ?_
  split
  · exact Bits.takes_pure _
  · split
    · exact Bits.takes_pure _
    · exact (takes_readExtended _ _).bind (k := 0) fun _ ↦
        ((distances.takes_read.bind fun _ ↦ (takes_readExtended _ _).bind fun _ ↦
          Bits.takes_pure _).mono (Nat.zero_le _))

/-- The byte that lies `distance` bytes back. Zeros lie before the first byte. -/
def byteBack (out : Array UInt8) (distance : Nat) : UInt8 :=
  if distance ≤ out.size then out.getD (out.size - distance) 0 else 0

/-- Appends bytes of the output itself, starting `distance` bytes before its end. -/
def copyBack (distance : Nat) (out : Array UInt8) : Nat → Array UInt8
  | 0 => out
  | n + 1 => copyBack distance (out.push (byteBack out distance)) n

def inflateTokens (literals distances : PrefixCode) (out : Array UInt8) (b : Bits) :
    Option (Array UInt8 × Bits) :=
  match _h : readToken literals distances b with
  | none => none
  | some (.literal byte, c) => inflateTokens literals distances (out.push byte) c
  | some (.stop, c) => some (out, c)
  | some (.copy length distance, c) =>
    inflateTokens literals distances (copyBack distance out length) c
termination_by b.size
decreasing_by
  · exact takes_readToken _ _ _ _ _ _h
  · exact takes_readToken _ _ _ _ _ _h

theorem takes_inflateTokens (literals distances : PrefixCode) (out : Array UInt8) :
    Bits.Takes 0 (inflateTokens literals distances out) := by
  intro b a c h
  fun_induction inflateTokens literals distances out b with
  | case1 => cases h
  | case2 out b byte d hd ih =>
    have := takes_readToken _ _ _ _ _ hd
    have := ih h
    omega
  | case3 out b d hd =>
    have := takes_readToken _ _ _ _ _ hd
    cases h
    omega
  | case4 out b length distance d hd ih =>
    have := takes_readToken _ _ _ _ _ hd
    have := ih h
    omega

/-- A block without compression: its length, the complement of that, and the bytes. -/
def inflateStored (out : Array UInt8) : BitReader (Array UInt8) := do
  match ← Bits.bytes 4 with
  | [a, b, c, d] =>
    let length := a.toNat + 256 * b.toNat
    if length + (c.toNat + 256 * d.toNat) = 0xffff then
      return out ++ (← Bits.bytes length)
    else failure
  | _ => failure

def fixedLiterals : PrefixCode :=
  .ofLengths (List.replicate 144 8 ++ List.replicate 112 9 ++ List.replicate 24 7
    ++ List.replicate 8 8)

def fixedDistances : PrefixCode := .ofLengths (List.replicate 32 5)

def lengthOrder : List Nat :=
  [16, 17, 18, 0, 8, 7, 9, 6, 10, 5, 11, 4, 12, 3, 13, 2, 14, 1, 15]

def readList (n : Nat) (r : BitReader Nat) : BitReader (List Nat) :=
  match n with
  | 0 => pure []
  | n + 1 => do
    let x ← r
    return x :: (← readList n r)

/-- Reads a run of code lengths: how many follow its first one, and the length. The
symbols from 16 on repeat the length before or zero. -/
def readRun (code : PrefixCode) (before? : Option Nat) : BitReader (Nat × Nat) := do
  let symbol ← code.read
  if symbol < 16 then return (0, symbol)
  else if symbol = 16 then
    match before? with
    | some length => return (2 + (← Bits.number 2), length)
    | none => failure
  else if symbol = 17 then return (2 + (← Bits.number 3), 0)
  else return (10 + (← Bits.number 7), 0)

/-- Reads runs until there are `total` lengths. The last run must not go beyond. -/
def readLengths (code : PrefixCode) (total : Nat) (done : List Nat) : BitReader (List Nat) := do
  if total ≤ done.length then
    if done.length = total then return done.reverse else failure
  else
    let (more, length) ← readRun code done.head?
    readLengths code total (List.replicate (more + 1) length ++ done)
termination_by total - done.length
decreasing_by
  simp only [List.length_append, List.length_replicate]
  omega

def readCodes : BitReader (PrefixCode × PrefixCode) := do
  let literals := 257 + (← Bits.number 5)
  let distances := 1 + (← Bits.number 5)
  let count := 4 + (← Bits.number 4)
  if literals ≤ 286 ∧ distances ≤ 30 then
    let given ← readList count (Bits.number 3)
    let named := lengthOrder.zip given
    let code := PrefixCode.ofLengths ((List.range 19).map fun i ↦ (named.lookup i).getD 0)
    if code.isComplete then
      let lengths ← readLengths code (literals + distances) []
      let first := PrefixCode.ofLengths (lengths.take literals)
      let second := PrefixCode.ofLengths (lengths.drop literals)
      if first.isUsable && second.isUsable then return (first, second) else failure
    else failure
  else failure

def inflateBlock (out : Array UInt8) : BitReader (Array UInt8) := do
  match ← Bits.number 2 with
  | 0 => inflateStored out
  | 1 => inflateTokens fixedLiterals fixedDistances out
  | 2 =>
    let (literals, distances) ← readCodes
    inflateTokens literals distances out
  | _ => failure

theorem takes_inflateStored (out : Array UInt8) : Bits.Takes 0 (inflateStored out) := by
  refine (Bits.takes_bytes 4).bind (k := 0) fun front ↦ ?_
  split
  · dsimp only
    split
    · exact (Bits.takes_bytes _).bind fun _ ↦ Bits.takes_pure _
    · exact Bits.takes_failure 0
  · exact Bits.takes_failure 0

theorem takes_readList (n : Nat) {r : BitReader Nat} (hr : Bits.Takes 0 r) :
    Bits.Takes 0 (readList n r) := by
  induction n with
  | zero => exact Bits.takes_pure _
  | succ n ih => exact hr.bind fun _ ↦ ih.bind fun _ ↦ Bits.takes_pure _

theorem takes_readRun (code : PrefixCode) (before? : Option Nat) :
    Bits.Takes 0 (readRun code before?) := by
  have run : ∀ n k l, Bits.Takes 0 (do return (k + (← Bits.number n), l) : BitReader (Nat × Nat)) :=
    fun n _ _ ↦ ((Bits.takes_number n).bind fun _ ↦ Bits.takes_pure _).mono (Nat.zero_le _)
  refine (code.takes_read.bind (k := 0) fun symbol ↦ ?_).mono (Nat.zero_le _)
  split
  · exact Bits.takes_pure _
  · split
    · split
      · exact run _ _ _
      · exact Bits.takes_failure 0
    · split <;> exact run _ _ _

theorem takes_readLengths (code : PrefixCode) (total : Nat) (done : List Nat) :
    Bits.Takes 0 (readLengths code total done) := by
  rw [readLengths]
  split
  · split
    · exact Bits.takes_pure _
    · exact Bits.takes_failure 0
  · exact (takes_readRun _ _).bind fun p ↦ takes_readLengths code total _
termination_by total - done.length
decreasing_by
  simp only [List.length_append, List.length_replicate]
  omega

theorem takes_readCodes : Bits.Takes 0 readCodes := by
  refine ((Bits.takes_number 5).bind (k := 9) fun _ ↦ (Bits.takes_number 5).bind (k := 4) fun _ ↦
    (Bits.takes_number 4).bind (k := 0) fun _ ↦ ?_).mono (Nat.zero_le _)
  dsimp only
  split
  · refine (takes_readList _ ((Bits.takes_number 3).mono (Nat.zero_le _))).bind (k := 0) fun _ ↦ ?_
    split
    · refine (takes_readLengths _ _ _).bind (k := 0) fun _ ↦ ?_
      split
      · exact Bits.takes_pure _
      · exact Bits.takes_failure 0
    · exact Bits.takes_failure 0
  · exact Bits.takes_failure 0

theorem takes_inflateBlock (out : Array UInt8) : Bits.Takes 0 (inflateBlock out) := by
  refine ((Bits.takes_number 2).bind (k := 0) fun _ ↦ ?_).mono (Nat.zero_le _)
  split
  · exact takes_inflateStored out
  · exact takes_inflateTokens _ _ out
  · exact takes_readCodes.bind fun p ↦ takes_inflateTokens _ _ out
  · exact Bits.takes_failure 0

/-- A block with the bit in front of it, which is set for the last one. -/
def readBlock (out : Array UInt8) : BitReader (Bool × Array UInt8) := do
  let last ← Bits.bit
  return (last, ← inflateBlock out)

theorem takes_readBlock (out : Array UInt8) : Bits.Takes 1 (readBlock out) :=
  Bits.takes_bit.bind fun _ ↦ (takes_inflateBlock out).bind fun _ ↦ Bits.takes_pure _

def inflateFrom (out : Array UInt8) (b : Bits) : Option (Array UInt8 × Bits) :=
  match _h : readBlock out b with
  | none => none
  | some ((true, out), c) => some (out, c)
  | some ((false, out), c) => inflateFrom out c
termination_by b.size
decreasing_by exact takes_readBlock _ _ _ _ _h

theorem takes_inflateFrom (out : Array UInt8) : Bits.Takes 0 (inflateFrom out) := by
  intro b a c h
  fun_induction inflateFrom out b with
  | case1 => cases h
  | case2 out b out' d hd =>
    have := takes_readBlock _ _ _ _ hd
    cases h
    omega
  | case3 out b out' d hd ih =>
    have := takes_readBlock _ _ _ _ hd
    have := ih h
    omega

end Rds.Gzip
