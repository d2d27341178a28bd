namespace Rds.Gzip

/-- A byte sequence read bit by bit, the lowest bit of each byte first. -/
structure Bits where
  ahead : List Bool
  rest : List UInt8

abbrev BitReader := StateT Bits Option

namespace Bits

def ofBytes (bytes : List UInt8) : Bits := ⟨[], bytes⟩

def size (b : Bits) : Nat := b.ahead.length + 8 * b.rest.length

def bit : BitReader Bool := fun b ↦
  match b.ahead, b.rest with
  | x :: ahead, rest => some (x, ⟨ahead, rest⟩)
  | [], byte :: rest =>
    some (byte.toNat.testBit 0, ⟨(List.range' 1 7).map byte.toNat.testBit, rest⟩)
  | [], [] => none

def number : Nat → BitReader Nat
  | 0 => pure 0
  | n + 1 => do
    let x ← bit
    return x.toNat + 2 * (← number n)

def bytes (n : Nat) : BitReader (List UInt8) := fun b ↦
  let front := b.rest.take n
  if front.length = n then some (front, ⟨[], b.rest.drop n⟩) else none

def Takes {α : Type} (k : Nat) (r : BitReader α) : Prop :=
  ∀ b a c, r b = some (a, c) → c.size + k ≤ b.size

variable {α β : Type}

theorem takes_pure (a : α) : Takes 0 (pure a) := by
  intro b x c h
  cases h
  exact Nat.le_refl _

theorem takes_failure (k : Nat) : Takes k (failure : BitReader α) :=
  fun _ _ _ h ↦ nomatch h

theorem Takes.bind {j k : Nat} {r : BitReader α} {f : α → BitReader β} (hr : Takes j r)
    (hf : ∀ a, Takes k (f a)) : Takes (j + k) (r >>= f) := by
  intro b y d h
  change (r b).bind (fun p ↦ f p.1 p.2) = some (y, d) at h
  obtain ⟨⟨a, c⟩, h, h'⟩ := Option.bind_eq_some_iff.mp h
  have := hr b a c h
  have := hf a c y d h'
  omega

theorem Takes.mono {j k : Nat} {r : BitReader α} (hr : Takes k r) (h : j ≤ k) : Takes j r :=
  fun b a c hb ↦ Nat.le_trans (Nat.add_le_add_left h _) (hr b a c hb)

theorem takes_bit : Takes 1 bit := by
  intro b x c h
  obtain ⟨ahead, rest⟩ := b
  cases ahead with
  | cons y ahead =>
    cases h
    simp only [size, List.length_cons]
    omega
  | nil =>
    cases rest with
    | cons byte rest =>
      cases h
      simp only [size, List.length_cons, List.length_nil, List.length_map, List.length_range']
      omega
    | nil => cases h

theorem takes_number (n : Nat) : Takes n (number n) := by
  induction n with
  | zero => exact takes_pure 0
  | succ n ih =>
    exact (takes_bit.bind fun _ ↦ ih.bind fun _ ↦ takes_pure _).mono (by omega)

theorem takes_bytes (n : Nat) : Takes 0 (bytes n) := by
  intro b x c h
  simp only [bytes] at h
  split at h
  · cases h
    simp only [size, List.length_nil, List.length_drop]
    omega
  · cases h

end Bits

end Rds.Gzip
