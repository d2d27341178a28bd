import Rds.Proofs.Header
import Rds.Proofs.Logging

namespace Rds.Decoding

open Item Locality

variable {α σ : Type} {o : Options} {stream : Nat} {bytes : List UInt8}

def outcome : EStateM.Result Error σ α → Except Error α
  | .ok a _ => .ok a
  | .error err _ => .error err

theorem result_eq_outcome (x : Logged α) : x.result = outcome (x []) := by
  unfold Logged.result
  cases x [] <;> rfl

/-- What a stream is judged to be. -/
def verdict (o : Options) (stream : Nat) (content : List UInt8) : Except Error (Header × Value) :=
  outcome (conclude o (root ⟨o.maxDepth, stream⟩ (.start content [])))

theorem outcome_conclude (o : Options) (f : Log → Log) (x : Outcome (Header × Value)) :
    outcome (conclude o (mapProgress (fun t ↦ t.logging (f t.log)) x)) = outcome (conclude o x) := by
  cases x with
  | error err t => rfl
  | ok a t =>
    simp only [mapProgress, conclude, Progress.logging]
    split
    · rfl
    · split <;> rfl

theorem outcome_conclude_root (o : Options) (stream : Nat) (content : List UInt8) (log : Log) :
    outcome (conclude o (root ⟨o.maxDepth, stream⟩ (.start content log))) =
      verdict o stream content := by
  obtain ⟨new, h⟩ := Logging.blind_root ⟨o.maxDepth, stream⟩ (.start content [])
  have hlog := h log
  rw [Progress.logging_start] at hlog
  rw [hlog]
  exact outcome_conclude o (fun _ ↦ new ++ log) _

theorem onCursor_start (r : Cursor.Reader α) (content : List UInt8) (log : Log) :
    onCursor r (.start content log) =
      match r (.ofBytes content) with
      | .ok a d => .ok a ⟨d, .empty, log⟩
      | .error err d => .error err ⟨d, .empty, log⟩ := rfl

theorem outcome_readHeader (hc : o.check = .ok ()) (content : List UInt8) (log : Log) :
    outcome (Logged.inSession o stream content Session.readHeader log) =
      outcome (Header.read (.ofBytes content)) := by
  have hread := onCursor_start Header.read content log
  rw [Logged.inSession, start_eq_ok hc]
  dsimp only
  cases h : Header.read (.ofBytes content) with
  | error err d =>
    rw [h] at hread
    rw [readHeader_of_error rfl hread]
    rfl
  | ok header d =>
    rw [h] at hread
    rw [readHeader_of_ok rfl hread]
    rfl

section Opening

variable [Inflater]

/-- What is to be decoded of an input, and what is noted when it is laid open. -/
def opening (o : Options) (bytes : List UInt8) : Except Error (List UInt8 × Log) :=
  if o.decompress then
    match Envelope.unwrap bytes with
    | .ok .plain => .ok (bytes, [])
    | .ok (.inflated content) => .ok (content, [.inflated bytes.length content.length])
    | .error err => .error err
  else .ok (bytes, [])

theorem openEnvelope_eq (o : Options) (bytes : List UInt8) (log : Log) :
    openEnvelope o bytes log =
      match opening o bytes with
      | .ok (content, noted) => .ok content (noted ++ log)
      | .error err => .error err log := by
  unfold openEnvelope opening
  cases o.decompress with
  | false => rfl
  | true =>
    cases Envelope.unwrap bytes with
    | error err => rfl
    | ok content => cases content <;> rfl

theorem withSession_eq (hc : o.check = .ok ()) (call : Session.Call α) (log : Log) :
    withSession o stream bytes call log =
      match opening o bytes with
      | .ok (content, noted) => Logged.inSession o stream content call (noted ++ log)
      | .error err => .error err log := by
  have hopen := openEnvelope_eq o bytes log
  rw [withSession, hc]
  dsimp only
  split at hopen
  · exact EStateM.bind_of_ok hopen _
  · exact EStateM.bind_of_error hopen _

theorem withSession_of_check {err : Error} (hc : o.check = .error err) (call : Session.Call α)
    (log : Log) : withSession o stream bytes call log = .error err log := by
  rw [withSession, hc]
  rfl

/-- A whole decoding: the options are judged, then the envelope, then what it holds. -/
theorem decodeWithHeader_eq (hc : o.check = .ok ()) (log : Log) :
    decodeWithHeader o stream bytes log =
      match opening o bytes with
      | .ok (content, noted) =>
        conclude o (root ⟨o.maxDepth, stream⟩ (.start content (noted ++ log)))
      | .error err => .error err log := by
  have hroot : decodeWithHeader o stream bytes = withSession o stream bytes decodeRoot := by
    simp only [decodeWithHeader, decodeRoot, readRoot, bind_assoc, pure_bind]
  rw [hroot, withSession_eq hc]
  split
  · exact inSession_decodeRoot hc _
  · rfl

theorem outcome_decodeWithHeader (o : Options) (stream : Nat) (bytes : List UInt8) (log : Log) :
    outcome (decodeWithHeader o stream bytes log) =
      o.check.bind fun _ ↦ (opening o bytes).bind fun content ↦ verdict o stream content.1 := by
  cases hc : o.check with
  | error err => rw [decodeWithHeader, withSession_of_check hc]; rfl
  | ok _ =>
    rw [decodeWithHeader_eq hc]
    cases opening o bytes with
    | error err => rfl
    | ok content => exact outcome_conclude_root o stream content.1 _

theorem outcome_decode (o : Options) (stream : Nat) (bytes : List UInt8) (log : Log) :
    outcome (decode o stream bytes log) =
      (outcome (decodeWithHeader o stream bytes log)).map Prod.snd := by
  cases h : decodeWithHeader o stream bytes log with
  | error err t => rw [decode, EStateM.bind_of_error h]; rfl
  | ok a t => rw [decode, EStateM.bind_of_ok h]; rfl

theorem outcome_readStreamHeader (o : Options) (bytes : List UInt8) (log : Log) :
    outcome (readStreamHeader o bytes log) =
      o.check.bind fun _ ↦ (opening o bytes).bind fun content ↦
        outcome (Header.read (.ofBytes content.1)) := by
  cases hc : o.check with
  | error err => rw [readStreamHeader, withSession_of_check hc]; rfl
  | ok _ =>
    rw [readStreamHeader, withSession_eq hc]
    cases opening o bytes with
    | error err => rfl
    | ok content => exact outcome_readHeader hc content.1 _

end Opening

end Rds.Decoding
