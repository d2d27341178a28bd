import Rds.Proofs.Decoding

namespace Rds

namespace Delivery

/-- A read that delivers nothing, which is how a source ends. -/
def isEnd : Delivery → Bool
  | data bytes => bytes.isEmpty
  | _ => false

def bytes : Delivery → List UInt8
  | data bytes => bytes
  | _ => []

def failure? : Delivery → Option String
  | failed message => some message
  | _ => none

/-- The reads in front of the one that finds the end. -/
def beforeEnd (source : List Delivery) : List Delivery := source.takeWhile (!·.isEnd)

def delivered (source : List Delivery) : List UInt8 := (beforeEnd source).flatMap bytes

def firstFailure? (source : List Delivery) : Option String :=
  (beforeEnd source).findSome? failure?

section Cons

variable {d : Delivery} (rest : List Delivery)

theorem beforeEnd_of_not_isEnd (h : d.isEnd = false) :
    beforeEnd (d :: rest) = d :: beforeEnd rest := by
  rw [beforeEnd, List.takeWhile_cons_of_pos]
  · rfl
  · rw [h]
    rfl

theorem delivered_of_not_isEnd (h : d.isEnd = false) :
    delivered (d :: rest) = d.bytes ++ delivered rest := by
  rw [delivered, beforeEnd_of_not_isEnd rest h, List.flatMap_cons, ← delivered]

theorem firstFailure?_of_none (h : d.isEnd = false) (hf : d.failure? = none) :
    firstFailure? (d :: rest) = firstFailure? rest := by
  rw [firstFailure?, beforeEnd_of_not_isEnd rest h, List.findSome?_cons, hf, ← firstFailure?]

end Cons

/-- What is read of a source is what comes before its end, unless a read fails before that. -/
theorem readAll_eq (source : List Delivery) :
    readAll source =
      match firstFailure? source with
      | none => .ok (delivered source)
      | some message => .error message := by
  induction source with
  | nil => rfl
  | cons d rest ih =>
    cases d with
    | interrupted =>
      rw [readAll, ih, firstFailure?_of_none rest rfl rfl, delivered_of_not_isEnd rest rfl]
      rfl
    | failed message => rfl
    | data bytes =>
      cases bytes with
      | nil => rfl
      | cons b bytes =>
        rw [readAll, ih, firstFailure?_of_none rest rfl rfl, delivered_of_not_isEnd rest rfl]
        cases firstFailure? rest <;> rfl

end Delivery

namespace Decoding

open Delivery

variable [Inflater] {o : Options} {stream : Nat} {source : List Delivery} {bytes : List UInt8}

theorem result_decode (log : Log) :
    (decode o stream bytes).result = outcome (decode o stream bytes log) := by
  rw [result_eq_outcome, outcome_decode, outcome_decode, outcome_decodeWithHeader,
    outcome_decodeWithHeader]

theorem result_decodeSource_of_ok (h : readAll source = .ok bytes) :
    (decodeSource o stream source).result = (decode o stream bytes).result := by
  rw [result_eq_outcome, decodeSource, h]
  exact (result_decode [.buffered bytes.length]).symm

theorem result_decodeSource_of_error {message : String} (h : readAll source = .error message) :
    (decodeSource o stream source).result = .error (.source message) := by
  rw [result_eq_outcome, decodeSource, h]
  rfl

/-- How the bytes of a source arrive does not matter: what is decoded are the bytes that were
delivered before its end, or else the failure that came first is the result. -/
theorem decodeSource_arrival :
    (∀ source, readAll source =
      match firstFailure? source with
      | none => .ok (delivered source)
      | some message => .error message) ∧
    (∀ o stream source, (decodeSource o stream source).result =
      match firstFailure? source with
      | none => (decode o stream (delivered source)).result
      | some message => .error (.source message)) ∧
    (∀ o stream source source' bytes,
      readAll source = .ok bytes → readAll source' = .ok bytes →
      (decodeSource o stream source).result = (decodeSource o stream source').result ∧
        (decodeSource o stream source).result = (decode o stream bytes).result) := by
  refine ⟨readAll_eq, fun o stream source ↦ ?_, fun o stream source source' bytes h h' ↦ ?_⟩
  · have hread := readAll_eq source
    split at hread
    · exact result_decodeSource_of_ok hread
    · exact result_decodeSource_of_error hread
  · exact ⟨(result_decodeSource_of_ok h).trans (result_decodeSource_of_ok h').symm,
      result_decodeSource_of_ok h⟩

end Decoding

end Rds
