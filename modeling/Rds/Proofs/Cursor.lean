import Rds.Proofs.Header

namespace Rds.Cursor

inductive Request
  | int32
  | word64
  | bytes (n : Nat)
  | length
  | startsWith (bytes : List UInt8)
  | skip (n : Nat)
deriving DecidableEq

inductive Answer
  | int32 (n : Int32)
  | word64 (n : UInt64)
  | bytes (bytes : List UInt8)
  | length (n : Nat)
  | startsWith (holds : Bool)
  | skipped
deriving DecidableEq

def perform : Request → Reader Answer
  | .int32 => Answer.int32 <$> int32
  | .word64 => Answer.word64 <$> word64
  | .bytes n => Answer.bytes <$> bytes n
  | .length => Answer.length <$> length
  | .startsWith bytes => fun c ↦ .ok (.startsWith (c.startsWith bytes)) c
  | .skip n => (fun _ ↦ .skipped) <$> skip n

def Request.size : Request → Nat
  | .int32 => 4
  | .word64 => 8
  | .bytes n => n
  | .length => 4
  | .startsWith _ => 0
  | .skip n => n

def after (c : Cursor) (r : Request) : Cursor := stop (perform r c)

def afterAll (c : Cursor) (rs : List Request) : Cursor := rs.foldl after c

def calls (c : Cursor) : List Request → List (Cursor × Request)
  | [] => []
  | r :: rs => (c, r) :: calls (c.after r) rs

/-- The bytes that an answer has been read from. That bytes are skipped says only how many. -/
inductive Spelled : Request → Answer → List UInt8 → Prop
  | int32 (n : Int32) : Spelled .int32 (.int32 n) (int32Bytes n)
  | word64 (n : UInt64) : Spelled .word64 (.word64 n) (word64Bytes n)
  | bytes (bytes : List UInt8) : Spelled (.bytes bytes.length) (.bytes bytes) bytes
  | length {n : Nat} : n < 2 ^ 31 → Spelled .length (.length n) (lengthBytes n)
  | startsWith (bytes : List UInt8) (holds : Bool) :
      Spelled (.startsWith bytes) (.startsWith holds) []
  | skip (bytes : List UInt8) : Spelled (.skip bytes.length) .skipped bytes

theorem Spelled.length_eq {r : Request} {a : Answer} {bytes : List UInt8} (h : Spelled r a bytes) :
    bytes.length = r.size := by
  cases h with
  | int32 n => exact length_int32Bytes n
  | word64 n => exact length_bigEndianBytes 8 _
  | length _ => exact length_lengthBytes _
  | bytes _ | startsWith _ _ | skip _ => rfl

/-- The bytes that a call takes from the cursor. A call that fails takes none, but for a length
that is refused when its word has been read. -/
inductive Takes (c : Cursor) : Request → List UInt8 → Prop
  | answered {r : Request} {a : Answer} {bytes : List UInt8} :
      perform r c = .ok a (c.after r) → Spelled r a bytes → Takes c r bytes
  | missing {r : Request} :
      perform r c = .error (.truncated r.size c.remaining) c → c.remaining < r.size → Takes c r []
  | refused {n : Int32} : n < 0 →
      perform .length c = .error (.negativeLength n) (c.after .length) →
        Takes c .length (int32Bytes n)

structure Moves (c d : Cursor) (bytes : List UInt8) : Prop where
  rest : c.rest = bytes ++ d.rest
  position : d.position = c.position + bytes.length

variable {α : Type} {c d e : Cursor} {r : Request}

theorem Moves.refl (c : Cursor) : Moves c c [] := ⟨rfl, rfl⟩

theorem Moves.trans {front back : List UInt8} (h : Moves c d front) (h' : Moves d e back) :
    Moves c e (front ++ back) where
  rest := by rw [h.rest, h'.rest, List.append_assoc]
  position := by rw [h'.position, h.position, List.length_append, Nat.add_assoc]

theorem Spells.moves {x : Reader α} {spell : α → List UInt8} {valid : α → Prop}
    (h : Spells x spell valid) {a : α} (hc : x c = .ok a d) : valid a ∧ Moves c d (spell a) :=
  have hread := h.eq_ok_iff.mp hc
  ⟨hread.1, hread.2.1, hread.2.2⟩

theorem after_of_ok {a : Answer} (h : perform r c = .ok a d) : c.after r = d := by
  rw [after, h]
  rfl

theorem after_of_error {err : Error} (h : perform r c = .error err d) : c.after r = d := by
  rw [after, h]
  rfl

theorem bytes_cases (n : Nat) (c : Cursor) :
    (∃ front d, bytes n c = .ok front d ∧ front.length = n ∧ Moves c d front) ∨
      bytes n c = .error (.truncated n c.remaining) c ∧ c.remaining < n := by
  obtain hn | hn := Nat.lt_or_ge c.remaining n
  · exact .inr ⟨bytes_error hn, hn⟩
  · obtain ⟨hvalid, hm⟩ := (spells_bytes n).moves (bytes_ok hn)
    exact .inl ⟨_, _, bytes_ok hn, hvalid, hm⟩

theorem takes_of_bytes {n : Nat} {answer : List UInt8 → Answer}
    (hp : perform r = bytes n >>= fun front ↦ pure (answer front)) (hn : r.size = n)
    (hs : ∀ front, front.length = n → Spelled r (answer front) front) (c : Cursor) :
    ∃ front, Takes c r front ∧ Moves c (c.after r) front := by
  obtain ⟨front, d, hok, hl, hm⟩ | ⟨herr, hlt⟩ := bytes_cases n c
  · have hcall : perform r c = .ok (answer front) d := by
      rw [hp]
      exact EStateM.bind_of_ok hok _
    have hd := after_of_ok hcall
    exact ⟨front, .answered (hd ▸ hcall) (hs front hl), hd ▸ hm⟩
  · have hcall : perform r c = .error (.truncated r.size c.remaining) c := by
      rw [hp, hn]
      exact EStateM.bind_of_error herr _
    refine ⟨[], .missing hcall (hn ▸ hlt), ?_⟩
    rw [after_of_error hcall]
    exact .refl c

theorem takes_length (c : Cursor) :
    ∃ front, Takes c .length front ∧ Moves c (c.after .length) front := by
  have hp : perform .length = int32 >>= fun n ↦ if n < 0 then throw (.negativeLength n)
      else pure (Answer.length n.toNatClampNeg) := by
    rw [perform, length, map_eq_pure_bind, bind_assoc]
    refine congrArg (int32 >>= ·) (funext fun n ↦ ?_)
    split <;> rfl
  obtain ⟨front, d, hok, hl, hm⟩ | ⟨herr, hlt⟩ := bytes_cases 4 c
  · have hint : int32 c = .ok (UInt32.ofNat (bigEndian front)).toInt32 d :=
      EStateM.bind_of_ok hok _
    have hfront := int32Bytes_bigEndian hl
    generalize (UInt32.ofNat (bigEndian front)).toInt32 = n at hint hfront
    subst hfront
    by_cases hneg : n < 0
    · have hcall : perform .length c = .error (.negativeLength n) d := by
        rw [hp, EStateM.bind_of_ok hint, if_pos hneg]
        rfl
      have hd := after_of_error hcall
      exact ⟨_, .refused hneg (hd ▸ hcall), hd ▸ hm⟩
    · have hcall : perform .length c = .ok (.length n.toNatClampNeg) d := by
        rw [hp, EStateM.bind_of_ok hint, if_neg hneg]
        rfl
      have hd := after_of_ok hcall
      have hspelled := Spelled.length n.toNatClampNeg_lt
      rw [lengthBytes, ofNat_clamp hneg] at hspelled
      exact ⟨_, .answered (hd ▸ hcall) hspelled, hd ▸ hm⟩
  · have hcall : perform .length c = .error (.truncated 4 c.remaining) c := by
      rw [hp]
      exact EStateM.bind_of_error (EStateM.bind_of_error herr _) _
    refine ⟨[], .missing hcall hlt, ?_⟩
    rw [after_of_error hcall]
    exact .refl c

theorem takes (c : Cursor) (r : Request) :
    ∃ front, Takes c r front ∧ Moves c (c.after r) front := by
  cases r with
  | int32 =>
    refine takes_of_bytes (n := 4) (by rw [perform, int32, map_eq_pure_bind, bind_assoc]; rfl) rfl
      (fun front hl ↦ ?_) c
    have hspelled := Spelled.int32 (UInt32.ofNat (bigEndian front)).toInt32
    rwa [int32Bytes_bigEndian hl] at hspelled
  | word64 =>
    refine takes_of_bytes (n := 8) (by rw [perform, word64, map_eq_pure_bind, bind_assoc]; rfl) rfl
      (fun front hl ↦ ?_) c
    have hlt : bigEndian front < 2 ^ 64 := bigEndian_lt hl
    have hspelled := Spelled.word64 (UInt64.ofNat (bigEndian front))
    rwa [word64Bytes, UInt64.toNat_ofNat', Nat.mod_eq_of_lt hlt, bigEndianBytes_bigEndian hl]
      at hspelled
  | bytes n =>
    refine takes_of_bytes (map_eq_pure_bind _ _) rfl (fun front hl ↦ ?_) c
    subst hl
    exact .bytes front
  | skip n =>
    refine takes_of_bytes (by rw [perform, skip, map_eq_pure_bind, bind_assoc]; rfl) rfl
      (fun front hl ↦ ?_) c
    subst hl
    exact .skip front
  | length => exact takes_length c
  | startsWith bytes => exact ⟨[], .answered rfl (.startsWith _ _), .refl c⟩

theorem Takes.error_cases {front : List UInt8} (h : Takes c r front) {err : Error}
    (he : perform r c = .error err d) :
    d = c ∧ front = [] ∧ err = .truncated r.size c.remaining ∧ c.remaining < r.size ∨
      r = .length ∧ ∃ n : Int32, n < 0 ∧ err = .negativeLength n ∧ front = int32Bytes n := by
  cases h with
  | answered hok _ =>
    rw [hok] at he
    cases he
  | missing herr hlt =>
    rw [herr] at he
    cases he
    exact .inl ⟨rfl, rfl, rfl, hlt⟩
  | @refused n hneg herr =>
    rw [herr] at he
    cases he
    exact .inr ⟨rfl, n, hneg, rfl, rfl⟩

theorem exists_pieces (c : Cursor) (rs : List Request) :
    ∃ pieces, List.Forall₂ (fun call front ↦ Takes call.1 call.2 front) (c.calls rs) pieces ∧
      Moves c (c.afterAll rs) pieces.flatten := by
  induction rs generalizing c with
  | nil => exact ⟨[], .nil, .refl c⟩
  | cons r rs ih =>
    obtain ⟨front, htakes, hm⟩ := takes c r
    obtain ⟨pieces, hpieces, hms⟩ := ih (c.after r)
    exact ⟨front :: pieces, .cons htakes hpieces, hm.trans hms⟩

/-- After any run of calls the position and the bytes ahead make up the buffer, and what the calls
have taken in order is the buffer up to the position. The next call does not go back. If it has an
answer, it has taken the bytes of that, all of them in the buffer. If it fails, it stays where it
is, except for a negative length, whose word stays read. -/
theorem run_taken (buffer : List UInt8) (rs : List Request) :
    let c := (ofBytes buffer).afterAll rs
    c.position + c.remaining = buffer.length ∧
      (∃ pieces, List.Forall₂ (fun call front ↦ Takes call.1 call.2 front)
          ((ofBytes buffer).calls rs) pieces ∧ pieces.flatten = buffer.take c.position) ∧
        ∀ r, c.position ≤ (c.after r).position ∧
          (∀ a d, perform r c = .ok a d →
            d.position = c.position + r.size ∧ d.position ≤ buffer.length) ∧
          ∀ err d, perform r c = .error err d →
            d = c ∧ err = .truncated r.size c.remaining ∧ c.remaining < r.size ∨
              r = .length ∧ ∃ n : Int32, n < 0 ∧ err = .negativeLength n ∧
                c.rest = int32Bytes n ++ d.rest ∧ d.position = c.position + 4 := by
  intro c
  obtain ⟨pieces, hpieces, hrest, hposition⟩ := exists_pieces (ofBytes buffer) rs
  change buffer = pieces.flatten ++ c.rest at hrest
  change c.position = 0 + pieces.flatten.length at hposition
  rw [Nat.zero_add] at hposition
  have hlength : c.position + c.remaining = buffer.length := by
    rw [hrest, List.length_append, hposition, remaining]
  refine ⟨hlength, ⟨pieces, hpieces, ?_⟩, fun r ↦ ?_⟩
  · rw [hposition, hrest, List.take_left]
  obtain ⟨front, htakes, hm⟩ := takes c r
  refine ⟨hm.position ▸ Nat.le_add_right _ _, fun a d hok ↦ ?_, fun err d herr ↦ ?_⟩
  · rw [after_of_ok hok] at hm
    have hfront : front.length = r.size := by
      cases htakes with
      | answered _ hspelled => exact hspelled.length_eq
      | missing he _ =>
        rw [hok] at he
        cases he
      | refused _ he =>
        rw [hok] at he
        cases he
    have hremaining : front.length ≤ c.remaining := by
      rw [remaining, hm.rest, List.length_append]
      exact Nat.le_add_right _ _
    have hd := hm.position
    omega
  · rw [after_of_error herr] at hm
    obtain ⟨rfl, -, hstay⟩ | ⟨hr, n, hneg, he, rfl⟩ := htakes.error_cases herr
    · exact .inl ⟨rfl, hstay⟩
    · exact .inr ⟨hr, n, hneg, he, hm.rest, hm.position⟩

/-- A negative length is refused behind its four bytes, not in front of them. -/
theorem perform_negativeLength :
    perform .length (ofBytes [255, 255, 255, 251]) = .error (.negativeLength (-5)) ⟨4, []⟩ ∧
      (ofBytes [255, 255, 255, 251]).position = 0 :=
  ⟨rfl, rfl⟩

end Rds.Cursor
