import Mathlib.Data.List.Basic
import Mathlib.Tactic.IntervalCases
import Rds.Proofs.Locality.Stream
import Rds.Proofs.Words

namespace Rds

namespace Cursor

variable {α β : Type}

def stop : EStateM.Result Error Cursor α → Cursor
  | .ok _ d => d
  | .error _ d => d

def Reaches (k : Nat) (c d : Cursor) : Prop :=
  ∃ front, front.length ≤ k ∧ c.rest = front ++ d.rest ∧ d.position = c.position + front.length

theorem Reaches.refl (c : Cursor) : Reaches 0 c c := ⟨[], Nat.le_refl 0, rfl, rfl⟩

theorem Reaches.mono {j k : Nat} {c d : Cursor} (h : Reaches j c d) (hjk : j ≤ k) :
    Reaches k c d := by
  obtain ⟨front, hl, hrest, hposition⟩ := h
  exact ⟨front, Nat.le_trans hl hjk, hrest, hposition⟩

theorem Reaches.trans {j k : Nat} {c d e : Cursor} (h : Reaches j c d) (h' : Reaches k d e) :
    Reaches (j + k) c e := by
  obtain ⟨front, hl, hrest, hposition⟩ := h
  obtain ⟨back, hl', hrest', hposition'⟩ := h'
  refine ⟨front ++ back, ?_, ?_, ?_⟩
  · rw [List.length_append]
    exact Nat.add_le_add hl hl'
  · rw [hrest, hrest', List.append_assoc]
  · rw [hposition', hposition, List.length_append, Nat.add_assoc]

/-- A reader that never moves the cursor by more than `k` bytes. -/
def Within (k : Nat) (r : Reader α) : Prop := ∀ c, Reaches k c (stop (r c))

theorem within_pure (a : α) : Within 0 (pure a) := Reaches.refl

theorem within_throw (e : Error) : Within 0 (throw e : Reader α) := Reaches.refl

theorem Within.bind {j k : Nat} {r : Reader α} {f : α → Reader β} (hr : Within j r)
    (hf : ∀ a, Within k (f a)) : Within (j + k) (r >>= f) := by
  intro c
  have hc := hr c
  cases h : r c with
  | ok a d =>
    rw [h] at hc
    rw [EStateM.bind_of_ok h]
    exact hc.trans (hf a d)
  | error e d =>
    rw [h] at hc
    rw [EStateM.bind_of_error h]
    exact hc.mono (Nat.le_add_right j k)

theorem within_bytes (n : Nat) : Within n (bytes n) := by
  intro c
  by_cases hn : n ≤ c.remaining
  · rw [bytes_ok hn]
    refine ⟨c.rest.take n, List.length_take_le n _, (List.take_append_drop n c.rest).symm, ?_⟩
    rw [front_length_eq_iff.mpr hn]
    rfl
  · rw [bytes_error (Nat.lt_of_not_le hn)]
    exact (Reaches.refl c).mono (Nat.zero_le n)

theorem within_int32 : Within 4 int32 := (within_bytes 4).bind fun _ ↦ within_pure _

end Cursor

namespace Version

theorem toInt_shiftRight (n : Int32) {k : Int32} {m : Nat} (h : (k.toBitVec.smod 32).toNat = m) :
    (n >>> k).toInt = n.toInt / 2 ^ m := by
  rw [← Int32.toInt_toBitVec, Int32.toBitVec_shiftRight, BitVec.toInt_sshiftRight', h,
    Int.shiftRight_eq_div_pow, Int32.toInt_toBitVec]
  norm_cast

theorem toInt_and_byte (n : Int32) : (n &&& 0xff).toInt = n.toInt % 256 := by
  have hmod : (n.toBitVec &&& 255#32).toNat = n.toBitVec.toNat % 256 := by
    rw [BitVec.toNat_and]
    exact Nat.and_two_pow_sub_one_eq_mod _ 8
  have hbits : (n &&& 0xff).toInt = (n.toBitVec &&& 255#32).toInt := by
    rw [← Int32.toInt_toBitVec, Int32.toBitVec_and]
    rfl
  rw [hbits, ← Int32.toInt_toBitVec, BitVec.toInt_eq_toNat_cond, BitVec.toInt_eq_toNat_cond, hmod]
  omega

theorem toInt_raw (v : Version) :
    v.raw.toInt = v.major.toInt * 65536 + v.minor.toInt * 256 + v.patch.toInt ∧
      0 ≤ v.minor.toInt ∧ v.minor.toInt ≤ 255 ∧ 0 ≤ v.patch.toInt ∧ v.patch.toInt ≤ 255 := by
  have hmajor : v.major.toInt = v.raw.toInt / 2 ^ 16 := toInt_shiftRight v.raw rfl
  have hminor : v.minor.toInt = v.raw.toInt / 2 ^ 8 % 256 := by
    rw [minor, toInt_and_byte, toInt_shiftRight v.raw rfl]
    rfl
  have hpatch : v.patch.toInt = v.raw.toInt % 256 := toInt_and_byte v.raw
  omega

end Version

namespace Header

open Cursor Locality

variable {c d : Cursor} {h : Header}

def magic (workspace : Bool) : List UInt8 := if workspace then workspaceMagic else []

/-- The bytes of a header behind the magic. The one behind the marker means nothing. -/
def behind (pad : UInt8) (h : Header) : List UInt8 :=
  [0x58, pad, 0, 0, 0, 2] ++ (int32Bytes h.writer.raw ++ int32Bytes h.minReader.raw)

structure Supported (h : Header) : Prop where
  format : h.format = .xdr
  version : h.version = 2

theorem readBehind_eq (workspace : Bool) :
    readBehind workspace = readFormat >>= readNumbers workspace := rfl

theorem within_readFormat : Within 2 readFormat := by
  refine (within_bytes 2).bind (k := 0) fun bytes ↦ ?_
  dsimp only
  split
  · exact within_pure _
  · exact within_throw _
  · exact within_throw _

theorem within_readNumbers (workspace : Bool) (format : Format) :
    Within 12 (readNumbers workspace format) := by
  refine within_int32.bind (k := 8) fun version ↦ within_int32.bind (k := 4) fun writer ↦
    within_int32.bind (k := 0) fun minReader ↦ ?_
  split
  · exact within_pure _
  · exact within_throw _

theorem within_readBehind (workspace : Bool) : Within 14 (readBehind workspace) :=
  within_readFormat.bind (within_readNumbers workspace)

theorem ofMarker?_eq_xdr {byte : UInt8} : Format.ofMarker? byte = some .xdr ↔ byte = 0x58 := by
  unfold Format.ofMarker?
  repeat' split
  all_goals simp_all

theorem readFormat_eq_ok {format : Format} :
    readFormat c = .ok format d ↔
      format = .xdr ∧ ∃ pad, c.rest = [0x58, pad] ++ d.rest ∧ d.position = c.position + 2 := by
  constructor
  · intro hc
    obtain ⟨bytes, t, hb, hc⟩ := EStateM.bind_eq_ok.mp hc
    obtain ⟨hl, hrest, hposition⟩ := (spells_bytes 2).eq_ok_iff.mp hb
    obtain ⟨marker, pad, rfl⟩ := List.length_eq_two.mp hl
    dsimp only [List.headD_cons] at hc
    cases hm : Format.ofMarker? marker with
    | none =>
      rw [hm] at hc
      cases hc
    | some found =>
      rw [hm] at hc
      cases found with
      | xdr =>
        obtain ⟨rfl, rfl⟩ := EStateM.pure_eq_ok.mp hc
        obtain rfl := ofMarker?_eq_xdr.mp hm
        exact ⟨rfl, pad, hrest, hposition⟩
      | _ => cases hc
  · rintro ⟨rfl, pad, hrest, hposition⟩
    exact EStateM.bind_of_ok ((spells_bytes 2).eq_ok_iff.mpr ⟨rfl, hrest, hposition⟩) _

theorem spells_readNumbers (workspace : Bool) (format : Format) :
    Spells (readNumbers workspace format)
      (fun h ↦ int32Bytes h.version ++ (int32Bytes h.writer.raw ++ (int32Bytes h.minReader.raw ++ [])))
      fun h ↦ h.workspace = workspace ∧ h.format = format ∧ h.version = supportedVersion := by
  refine spells_int32.bind (g := Header.version) (fun version _ ↦ ?_) fun _ _ ↦ trivial
  refine spells_int32.bind (g := fun h : Header ↦ h.writer.raw) (fun writer _ ↦ ?_)
    fun _ _ ↦ trivial
  refine spells_int32.bind (g := fun h : Header ↦ h.minReader.raw) (fun minReader _ ↦ ?_)
    fun _ _ ↦ trivial
  constructor
  · rintro h ⟨⟨⟨⟨rfl, rfl, hversion⟩, rfl⟩, rfl⟩, rfl⟩ position rest
    rw [if_pos hversion]
    rfl
  · intro c h d hc
    split at hc
    · next hversion =>
      obtain ⟨rfl, rfl⟩ := EStateM.pure_eq_ok.mp hc
      exact ⟨⟨⟨⟨⟨rfl, rfl, hversion⟩, rfl⟩, rfl⟩, rfl⟩, rfl⟩
    · cases hc

theorem readBehind_eq_ok {workspace : Bool} :
    readBehind workspace c = .ok h d ↔
      h.workspace = workspace ∧ h.Supported ∧
        ∃ pad, c.rest = behind pad h ++ d.rest ∧ d.position = c.position + 14 := by
  have hnumbers {format : Format} {t : Cursor} :=
    (spells_readNumbers workspace format).eq_ok_iff (c := t) (d := d) (a := h)
  rw [readBehind_eq, EStateM.bind_eq_ok]
  constructor
  · rintro ⟨format, t, hf, hn⟩
    obtain ⟨rfl, pad, hrest, hposition⟩ := readFormat_eq_ok.mp hf
    obtain ⟨⟨hworkspace, hformat, hversion⟩, hrest', hposition'⟩ := hnumbers.mp hn
    refine ⟨hworkspace, ⟨hformat, hversion⟩, pad, ?_, ?_⟩
    · rw [hrest, hrest', hversion, List.append_nil]
      rfl
    · rw [hposition', hposition]
      rfl
  · rintro ⟨hworkspace, ⟨hformat, hversion⟩, pad, hrest, hposition⟩
    refine ⟨.xdr, ⟨c.position + 2, [0, 0, 0, 2] ++
      (int32Bytes h.writer.raw ++ int32Bytes h.minReader.raw ++ d.rest)⟩, ?_, ?_⟩
    · exact readFormat_eq_ok.mpr ⟨rfl, pad, hrest, rfl⟩
    · refine hnumbers.mpr ⟨⟨hworkspace, hformat, hversion⟩, ?_, hposition⟩
      rw [hversion, List.append_nil]
      rfl

theorem readMagic_of_head {position : Nat} {rest : List UInt8} (h : rest.head? ≠ some 0x52) :
    readMagic ⟨position, rest⟩ = .ok false ⟨position, rest⟩ := by
  have hhead : ∀ m ∈ magics, m.head? = some 0x52 := by decide
  refine readMagic_none fun m hm ↦ Bool.eq_false_iff.mpr fun hp ↦ h ?_
  obtain ⟨back, rfl⟩ := List.isPrefixOf_iff_prefix.mp hp
  rw [List.head?_append, hhead m hm]
  rfl

theorem readMagic_magic (workspace : Bool) (position : Nat) {rest : List UInt8}
    (h : rest.head? ≠ some 0x52) :
    readMagic ⟨position, magic workspace ++ rest⟩ =
      .ok workspace ⟨position + (magic workspace).length, rest⟩ := by
  cases workspace with
  | false => exact readMagic_of_head h
  | true => exact readMagic_workspace position rest

theorem head?_behind_append (pad : UInt8) (h : Header) (rest : List UInt8) :
    (behind pad h ++ rest).head? ≠ some 0x52 := fun hhead ↦ by cases hhead

theorem head?_take_behind (pad : UInt8) (h : Header) (k : Nat) :
    ((behind pad h).take k).head? ≠ some 0x52 := by
  cases k with
  | zero => exact nofun
  | succ k => exact fun hhead ↦ by cases hhead

theorem length_magic_add (workspace : Bool) :
    (magic workspace).length + 14 = if workspace then 19 else 14 := by
  cases workspace <;> rfl

theorem startsWith_magic (workspace : Bool) (position : Nat) (pad : UInt8) (h : Header)
    (rest : List UInt8) :
    Cursor.startsWith ⟨position, magic workspace ++ (behind pad h ++ rest)⟩ workspaceMagic =
      workspace := by
  cases workspace with
  | false => rfl
  | true => exact List.isPrefixOf_iff_prefix.mpr (List.prefix_append _ _)

theorem read_eq_ok :
    read c = .ok h d ↔
      h.Supported ∧ ∃ pad, c.rest = magic h.workspace ++ (behind pad h ++ d.rest) ∧
        d.position = c.position + if h.workspace then 19 else 14 := by
  rw [header_read_eq, EStateM.bind_eq_ok]
  constructor
  · rintro ⟨workspace, t, hm, hb⟩
    obtain ⟨rfl, hsupported, pad, hrest, hposition⟩ := readBehind_eq_ok.mp hb
    refine ⟨hsupported, pad, ?_⟩
    obtain ⟨hw, hrest', hposition'⟩ | ⟨hw, rfl, -⟩ := readMagic_eq_ok hm
    · rw [hw, hposition, hposition', hrest', hrest]
      exact ⟨rfl, rfl⟩
    · rw [hw, hposition, hrest]
      exact ⟨rfl, rfl⟩
  · rintro ⟨hsupported, pad, hrest, hposition⟩
    have hmagic := readMagic_magic h.workspace c.position (head?_behind_append pad h d.rest)
    rw [← hrest] at hmagic
    refine ⟨_, _, hmagic, readBehind_eq_ok.mpr ⟨rfl, hsupported, pad, rfl, ?_⟩⟩
    rw [hposition, ← length_magic_add, Nat.add_assoc]

/-- A header can be read if its format and its version are what is supported, whatever the other
two numbers are. -/
theorem exists_read_iff :
    (∃ h d, read c = .ok h d) ↔
      ∃ workspace pad, ∃ eight rest : List UInt8, eight.length = 8 ∧
        c.rest = magic workspace ++ ([0x58, pad, 0, 0, 0, 2] ++ (eight ++ rest)) := by
  constructor
  · rintro ⟨h, d, hc⟩
    obtain ⟨-, pad, hrest, -⟩ := read_eq_ok.mp hc
    exact ⟨h.workspace, pad, int32Bytes h.writer.raw ++ int32Bytes h.minReader.raw, d.rest, rfl, hrest⟩
  · rintro ⟨workspace, pad, eight, rest, hl, hrest⟩
    have hfront : (eight.take 4).length = 4 := by
      rw [List.length_take, hl]
      rfl
    have hback : (eight.drop 4).length = 4 := by
      rw [List.length_drop, hl]
    obtain ⟨writer, hw⟩ : ∃ n, int32Bytes n = eight.take 4 := ⟨_, int32Bytes_bigEndian hfront⟩
    obtain ⟨minReader, hm⟩ : ∃ n, int32Bytes n = eight.drop 4 := ⟨_, int32Bytes_bigEndian hback⟩
    refine ⟨⟨workspace, .xdr, 2, ⟨writer⟩, ⟨minReader⟩⟩, ⟨_, rest⟩, read_eq_ok.mpr
      ⟨⟨rfl, rfl⟩, pad, ?_, rfl⟩⟩
    rw [hrest, behind, hw, hm, List.take_append_drop, List.append_assoc]

theorem reaches_readMagic (c : Cursor) :
    Reaches (if c.startsWith workspaceMagic then 5 else 0) c (stop (readMagic c)) := by
  cases hc : c.startsWith workspaceMagic with
  | true =>
    obtain ⟨back, hback⟩ := List.isPrefixOf_iff_prefix.mp hc
    have hmagic := readMagic_workspace c.position back
    rw [hback] at hmagic
    rw [hmagic]
    exact ⟨workspaceMagic, Nat.le_refl 5, hback.symm, rfl⟩
  | false =>
    rw [readMagic_other hc, if_neg Bool.false_ne_true]
    split <;> exact Reaches.refl c

theorem reaches_read (c : Cursor) :
    Reaches (if c.startsWith workspaceMagic then 19 else 14) c (stop (read c)) := by
  have hm := reaches_readMagic c
  have hle : (if c.startsWith workspaceMagic then 5 else 0) + 14 =
      if c.startsWith workspaceMagic then 19 else 14 := by
    split <;> rfl
  rw [header_read_eq, ← hle]
  cases h : readMagic c with
  | ok workspace d =>
    rw [h] at hm
    rw [EStateM.bind_of_ok h]
    exact hm.trans (within_readBehind workspace d)
  | error err d =>
    rw [h] at hm
    rw [EStateM.bind_of_error h]
    exact hm.mono (Nat.le_add_right _ _)

theorem read_foreign {m : List UInt8 × ForeignWorkspace} (hm : m ∈ foreignMagics)
    (hc : c.startsWith m.1 = true) : read c = .error (.unsupported (.workspace m.2)) c := by
  obtain ⟨position, rest⟩ := c
  obtain ⟨back, rfl⟩ := List.isPrefixOf_iff_prefix.mp hc
  have hmagic : readMagic ⟨position, m.1 ++ back⟩ =
      .error (.unsupported (.workspace m.2)) ⟨position, m.1 ++ back⟩ := by
    simp only [foreignMagics, List.mem_cons, List.not_mem_nil, or_false] at hm
    obtain rfl | rfl | rfl | rfl := hm <;> rfl
  rw [header_read_eq, EStateM.bind_of_error hmagic]

/-- What can be read as a header, what it is read as, and how far a header that cannot be read
moves the cursor. -/
theorem read_exactly (c : Cursor) :
    ((∃ h d, read c = .ok h d) ↔
      ∃ workspace pad, ∃ eight rest : List UInt8, eight.length = 8 ∧
        c.rest = magic workspace ++ ([0x58, pad, 0, 0, 0, 2] ++ (eight ++ rest))) ∧
    (∀ h d, read c = .ok h d →
      h.workspace = c.startsWith workspaceMagic ∧ h.format = .xdr ∧ h.version = 2 ∧
        d.position = c.position + (if h.workspace then 19 else 14) ∧
        ∃ pad, c.rest = magic h.workspace ++ ([0x58, pad, 0, 0, 0, 2] ++
          (int32Bytes h.writer.raw ++ (int32Bytes h.minReader.raw ++ d.rest)))) ∧
    (∀ workspace pad writer minReader rest,
      c.rest = magic workspace ++ ([0x58, pad, 0, 0, 0, 2] ++
        (int32Bytes writer ++ (int32Bytes minReader ++ rest))) →
      read c = .ok ⟨workspace, .xdr, 2, ⟨writer⟩, ⟨minReader⟩⟩
        ⟨c.position + if workspace then 19 else 14, rest⟩) ∧
    (∀ v : Version,
      v.raw.toInt = v.major.toInt * 65536 + v.minor.toInt * 256 + v.patch.toInt ∧
        0 ≤ v.minor.toInt ∧ v.minor.toInt ≤ 255 ∧ 0 ≤ v.patch.toInt ∧ v.patch.toInt ≤ 255) ∧
    (∀ err d, read c = .error err d →
      Reaches (if c.startsWith workspaceMagic then 19 else 14) c d) ∧
    (∀ m ∈ foreignMagics, c.startsWith m.1 = true →
      read c = .error (.unsupported (.workspace m.2)) c) := by
  refine ⟨exists_read_iff, ?_, ?_, Version.toInt_raw, ?_, fun m ↦ read_foreign⟩
  · intro h d hc
    obtain ⟨⟨hformat, hversion⟩, pad, hrest, hposition⟩ := read_eq_ok.mp hc
    refine ⟨?_, hformat, hversion, hposition, pad, hrest⟩
    rw [Cursor.startsWith, hrest]
    exact (startsWith_magic h.workspace 0 pad h d.rest).symm
  · intro workspace pad writer minReader rest hrest
    exact read_eq_ok.mpr ⟨⟨rfl, rfl⟩, pad, hrest, rfl⟩
  · intro err d hc
    have hreaches := reaches_read c
    rwa [hc] at hreaches

def cut (c : Cursor) (k : Nat) : Cursor := ⟨c.position, c.rest.take k⟩

theorem readBehind_cut {workspace : Bool} {front : List UInt8} {k : Nat}
    (hc : readBehind workspace c = .ok h d) (hrest : c.rest = front ++ d.rest)
    (hk : k < front.length) :
    ∃ needed remaining u,
      readBehind workspace ⟨c.position, front.take k⟩ = .error (.truncated needed remaining) u := by
  obtain ⟨front', hlocal⟩ := local_readBehind workspace ⟨c, .empty, []⟩
  have hs : Item.onCursor (readBehind workspace) ⟨c, .empty, []⟩ = .ok h ⟨d, .empty, []⟩ := by
    rw [Item.onCursor, hc]
  have hrest' := hlocal.rest
  rw [hs, hrest] at hrest'
  obtain rfl := List.append_cancel_right hrest'
  have hcut := hlocal.cut (hs ▸ not_truncated_ok _ _) k hk
  obtain ⟨needed, remaining, u, hu⟩ := hcut
  cases hb : readBehind workspace ⟨c.position, front.take k⟩ with
  | ok h' d' =>
    rw [Item.onCursor, Item.Progress.ahead, hb] at hu
    cases hu
  | error err d' =>
    rw [Item.onCursor, Item.Progress.ahead, hb] at hu
    cases hu
    exact ⟨needed, remaining, d', rfl⟩

theorem read_cut_behind {pad : UInt8} {rest : List UInt8} {k : Nat} (hs : h.Supported)
    (hrest : c.rest = magic h.workspace ++ (behind pad h ++ rest)) (hk : k < 14) :
    ∃ needed remaining u,
      read (cut c ((magic h.workspace).length + k)) = .error (.truncated needed remaining) u := by
  have hcut : cut c ((magic h.workspace).length + k) =
      ⟨c.position, magic h.workspace ++ (behind pad h).take k⟩ := by
    rw [cut, hrest, List.take_length_add_append,
      List.take_append_of_le_length (Nat.le_of_lt hk)]
  have hmagic := readMagic_magic h.workspace c.position (head?_take_behind pad h k)
  have hb : readBehind h.workspace ⟨c.position + (magic h.workspace).length, behind pad h⟩ =
      .ok h ⟨c.position + (magic h.workspace).length + 14, []⟩ :=
    readBehind_eq_ok.mpr ⟨rfl, hs, pad, (List.append_nil _).symm, rfl⟩
  obtain ⟨needed, remaining, u, hu⟩ := readBehind_cut hb (List.append_nil _).symm hk
  refine ⟨needed, remaining, u, ?_⟩
  rw [hcut, header_read_eq, EStateM.bind_of_ok hmagic]
  exact hu

/-- A header that is cut off is reported as truncated, unless the cut is within the magic of a
workspace and leaves two bytes of it or more. What is left is then taken for a format marker. -/
theorem read_cut {k : Nat} (hc : read c = .ok h d) (hk : k < d.position - c.position) :
    (h.workspace = true ∧ 2 ≤ k ∧ k < 5 →
      read (cut c k) = .error (.unsupported (.marker 0x52)) ((cut c k).advance 2)) ∧
    (¬ (h.workspace = true ∧ 2 ≤ k ∧ k < 5) →
      ∃ needed remaining u, read (cut c k) = .error (.truncated needed remaining) u) := by
  obtain ⟨hs, pad, hrest, hposition⟩ := read_eq_ok.mp hc
  rw [hposition, Nat.add_sub_cancel_left] at hk
  have hbehind {j : Nat} := read_cut_behind (k := j) hs hrest
  cases hw : h.workspace with
  | false =>
    rw [hw] at hk hbehind
    refine ⟨fun hmid ↦ absurd hmid.1 Bool.false_ne_true, fun _ ↦ ?_⟩
    rw [← Nat.zero_add k]
    exact hbehind hk
  | true =>
    rw [hw] at hk hrest hbehind
    obtain hmagic | hmagic := Nat.lt_or_ge k 5
    · rw [cut, hrest]
      interval_cases k
      · exact ⟨fun hmid ↦ absurd hmid.2.1 (by decide), fun _ ↦ ⟨_, _, _, rfl⟩⟩
      · exact ⟨fun hmid ↦ absurd hmid.2.1 (by decide), fun _ ↦ ⟨_, _, _, rfl⟩⟩
      all_goals exact ⟨fun _ ↦ rfl, fun hmid ↦ absurd (by decide) hmid⟩
    · obtain ⟨j, rfl⟩ := Nat.exists_eq_add_of_le hmagic
      exact ⟨fun hmid ↦ absurd hmid.2.2 (Nat.not_lt.mpr hmagic),
        fun _ ↦ hbehind (Nat.lt_of_add_lt_add_left hk)⟩

def workspaceHeader : List UInt8 :=
  [0x52, 0x44, 0x58, 0x32, 0x0a, 0x58, 0x0a, 0, 0, 0, 2, 0, 3, 4, 2, 0, 2, 3, 0]

theorem read_workspaceHeader_cut :
    ∃ h d, read (.ofBytes workspaceHeader) = .ok h d ∧ h.workspace = true ∧ d.rest = [] ∧
      read (cut (.ofBytes workspaceHeader) 4) =
        .error (.unsupported (.marker 0x52)) ⟨2, [0x58, 0x32]⟩ ∧
      ∃ needed remaining u,
        read (cut (.ofBytes workspaceHeader) 8) = .error (.truncated needed remaining) u := by
  refine ⟨_, _, rfl, rfl, rfl, ?_, ?_⟩
  · exact (read_cut (c := .ofBytes workspaceHeader) rfl (by decide)).1 (by decide)
  · exact (read_cut (c := .ofBytes workspaceHeader) rfl (by decide)).2 (by decide)

/-- Not all that is left of a header is reported as truncated. -/
theorem read_workspaceHeader_unknownMarker :
    (∃ h d, read (.ofBytes workspaceHeader) = .ok h d ∧ 4 < d.position) ∧
      (∀ needed remaining u,
        read (.ofBytes (workspaceHeader.take 4)) ≠ .error (.truncated needed remaining) u) ∧
      read (.ofBytes (workspaceHeader.take 4)) =
        .error (.unsupported (.marker 0x52)) ⟨2, [0x58, 0x32]⟩ :=
  ⟨⟨_, _, rfl, by decide⟩, nofun, rfl⟩

end Header

end Rds
