import Rds.Gzip.Member
import Rds.Proofs.Decoding

namespace Rds

def Options.opened (o : Options) : Options := { o with decompress := true }

def Options.closed (o : Options) : Options := { o with decompress := false }

namespace Envelope

open Item Locality Decoding

variable {o : Options} {bytes content : List UInt8}

def magics : List (List UInt8) := gzipMagic :: foreignMagics.map (·.1)

def Wrapped (bytes : List UInt8) : Prop := ∃ m ∈ Envelope.magics, m <+: bytes

/-- No header starts as an envelope does. -/
theorem read_of_wrapped (h : Wrapped bytes) :
    ∃ what d, Header.read (.ofBytes bytes) = .error (.unsupported what) d := by
  obtain ⟨m, hm, back, rfl⟩ := h
  simp only [magics, foreignMagics, List.map_cons, List.map_nil, List.mem_cons, List.not_mem_nil,
    or_false] at hm
  obtain rfl | rfl | rfl := hm
  · exact ⟨.marker 0x1f, ⟨2, back⟩, rfl⟩
  · exact ⟨.serialization .binary, ⟨2, 0x68 :: back⟩, rfl⟩
  · exact ⟨.marker 0xfd, ⟨2, [0x7a, 0x58, 0x5a, 0x00] ++ back⟩, rfl⟩

section Opening

variable [Inflater]

theorem unwrap_of_not_wrapped (h : ¬ Wrapped bytes) : unwrap bytes = .ok .plain := by
  have hm : ∀ m ∈ Envelope.magics, m.isPrefixOf bytes = false := fun m hm ↦
    Bool.eq_false_iff.mpr fun hp ↦ h ⟨m, hm, List.isPrefixOf_iff_prefix.mp hp⟩
  have hforeign : (foreignMagics.find? fun m ↦ m.1.isPrefixOf bytes) = none :=
    List.find?_eq_none.mpr fun m hmem ↦
      ne_true_of_eq_false (hm m.1 (List.mem_cons_of_mem _ (List.mem_map_of_mem hmem)))
  rw [unwrap, isGzip, hm gzipMagic List.mem_cons_self, hforeign]
  rfl

/-- What an envelope holds is judged as if it had come without one. -/
theorem results_of_opening (stream : Nat) {noted : Log}
    (h : opening o.opened bytes = .ok (content, noted)) :
    (decodeWithHeader o.opened stream bytes).result =
        (decodeWithHeader o.closed stream content).result ∧
      (readStreamHeader o.opened bytes).result = (readStreamHeader o.closed content).result := by
  constructor
  · rw [result_eq_outcome, result_eq_outcome, outcome_decodeWithHeader, outcome_decodeWithHeader, h]
    rfl
  · rw [result_eq_outcome, result_eq_outcome, outcome_readStreamHeader, outcome_readStreamHeader, h]
    rfl

theorem results_of_not_wrapped (o : Options) (stream : Nat) (h : ¬ Wrapped bytes) :
    (decodeWithHeader o.opened stream bytes).result =
        (decodeWithHeader o.closed stream bytes).result ∧
      (readStreamHeader o.opened bytes).result = (readStreamHeader o.closed bytes).result := by
  have hopening : opening o.opened bytes = .ok (bytes, []) := by
    rw [opening, unwrap_of_not_wrapped h]
    rfl
  exact results_of_opening stream hopening

theorem results_of_inflate (o : Options) (stream : Nat) (hg : isGzip bytes = true)
    (h : Inflater.inflate bytes = .ok content) :
    (decodeWithHeader o.opened stream bytes).result =
        (decodeWithHeader o.closed stream content).result ∧
      (readStreamHeader o.opened bytes).result = (readStreamHeader o.closed content).result := by
  have hopening : opening o.opened bytes =
      .ok (content, [.inflated bytes.length content.length]) := by
    rw [opening, unwrap, if_pos hg, h]
    rfl
  exact results_of_opening stream hopening

theorem results_of_wrapped (stream : Nat) (hc : o.check = .ok ()) (h : Wrapped bytes) :
    ∃ what, (decodeWithHeader o.closed stream bytes).result = .error (.unsupported what) ∧
      (readStreamHeader o.closed bytes).result = .error (.unsupported what) := by
  obtain ⟨what, d, hread⟩ := read_of_wrapped h
  have hroot : root ⟨o.maxDepth, stream⟩ (.start bytes []) =
      .error (.unsupported what) ⟨d, .empty, []⟩ := by
    refine EStateM.bind_of_error ?_ _
    rw [onCursor_start, hread]
  refine ⟨what, result_of_error (o := o.closed) rfl hc hroot, ?_⟩
  have hcheck : o.closed.check = .ok () := hc
  rw [result_eq_outcome, outcome_readStreamHeader, hcheck]
  exact congrArg outcome hread

/-- To open envelopes changes nothing about a stream that comes without one, and of one that comes
in one it takes off a single layer. -/
theorem decompress_transparent (o : Options) (hc : o.check = .ok ()) (stream : Nat)
    (bytes : List UInt8) :
    (∀ a, (decodeWithHeader o.closed stream bytes).result = .ok a →
      (decodeWithHeader o.opened stream bytes).result = .ok a) ∧
    (∀ header, (readStreamHeader o.closed bytes).result = .ok header →
      (readStreamHeader o.opened bytes).result = .ok header) ∧
    ((decodeWithHeader o.opened stream bytes).result ≠
          (decodeWithHeader o.closed stream bytes).result ∨
        (readStreamHeader o.opened bytes).result ≠ (readStreamHeader o.closed bytes).result →
      Wrapped bytes) ∧
    ∀ content, isGzip bytes = true → Inflater.inflate bytes = .ok content →
      (decodeWithHeader o.opened stream bytes).result =
          (decodeWithHeader o.closed stream content).result ∧
        (readStreamHeader o.opened bytes).result = (readStreamHeader o.closed content).result ∧
        (∀ a s, o.allowTrailing = false →
          readRoot ⟨o.closed, stream, none, .start content []⟩ = .ok a s →
          s.progress.cursor.remaining ≠ 0 →
          (decodeWithHeader o.opened stream bytes).result =
            .error (.trailingBytes s.progress.cursor.remaining)) ∧
        (Wrapped content →
          ∃ what, (decodeWithHeader o.opened stream bytes).result = .error (.unsupported what) ∧
            (readStreamHeader o.opened bytes).result = .error (.unsupported what)) := by
  refine ⟨fun a ha ↦ ?_, fun header hh ↦ ?_, fun hne ↦ ?_, fun content hg hp ↦ ?_⟩
  · by_cases hw : Wrapped bytes
    · obtain ⟨what, h, -⟩ := results_of_wrapped stream hc hw
      rw [h] at ha
      cases ha
    · rw [(results_of_not_wrapped o stream hw).1, ha]
  · by_cases hw : Wrapped bytes
    · obtain ⟨what, -, h⟩ := results_of_wrapped stream hc hw
      rw [h] at hh
      cases hh
    · rw [(results_of_not_wrapped o stream hw).2, hh]
  · by_contra hw
    obtain ⟨h, h'⟩ := results_of_not_wrapped o stream hw
    exact hne.elim (· h) (· h')
  · obtain ⟨h, h'⟩ := results_of_inflate o stream hg hp
    refine ⟨h, h', fun a s hstrict hs hr ↦ ?_, fun hw ↦ ?_⟩
    · have hroot := root_of_readRoot rfl hs
      have hlenient : ¬ (s.progress.cursor.remaining = 0 ∨ o.allowTrailing = true) :=
        not_or.mpr ⟨hr, ne_true_of_eq_false hstrict⟩
      rw [h]
      exact (result_of_ok (o := o.closed) rfl hc hroot).trans (if_neg hlenient)
    · rw [h, h']
      exact results_of_wrapped stream hc hw

end Opening

/-- A stream that holds `NULL`, with one byte behind it, and the same in an envelope. -/
def nullStream : List UInt8 :=
  [0x58, 0x0a, 0, 0, 0, 2, 0, 4, 3, 1, 0, 2, 3, 0, 0, 0, 0, 254, 7]

def nullEnvelope : List UInt8 :=
  [0x1f, 0x8b, 8, 0, 0, 0, 0, 0, 0, 255, 1, 19, 0, 236, 255] ++ nullStream ++
    [218, 112, 184, 108, 19, 0, 0, 0]

theorem nullEnvelope_opened :
    isGzip nullEnvelope = true ∧ Inflater.inflate nullEnvelope = .ok nullStream ∧
      (decodeWithHeader ⟨1, false, true⟩ 0 nullEnvelope).result = .error (.trailingBytes 1) ∧
      ∃ header v, (decodeWithHeader ⟨1, true, false⟩ 0 nullStream).result = .ok (header, v) ∧
        (decodeWithHeader ⟨1, true, true⟩ 0 nullStream).result = .ok (header, v) ∧
        (decodeWithHeader ⟨1, true, true⟩ 0 nullEnvelope).result = .ok (header, v) ∧
        (readStreamHeader ⟨1, true, true⟩ nullEnvelope).result = .ok header := by
  have hg : isGzip nullEnvelope = true := rfl
  have hmember : Gzip.gunzip nullEnvelope = some nullStream := by decide +kernel
  have hp : Inflater.inflate nullEnvelope = .ok nullStream := by
    simp only [Inflater.inflate, hmember]
  have hroot : ∃ a t, root ⟨1, 0⟩ (.start nullStream []) = .ok a t ∧ t.cursor.remaining = 1 ∧
      (readStreamHeader ⟨1, true, false⟩ nullStream).result = .ok a.1 :=
    ⟨_, _, EStateM.bind_eq_ok.mpr ⟨_, _, rfl, EStateM.bind_eq_ok.mpr ⟨_, _, rfl,
      EStateM.bind_eq_ok.mpr ⟨_, _, (Descent.read_eq_item _ (Nat.le_refl _)).trans rfl, rfl⟩⟩⟩,
      rfl, rfl⟩
  obtain ⟨⟨header, v⟩, t, h, hremaining, hheader⟩ := hroot
  have hplain : (decodeWithHeader ⟨1, true, false⟩ 0 nullStream).result = .ok (header, v) :=
    (result_of_ok rfl rfl h).trans (if_pos (.inr rfl))
  obtain ⟨hopened, -, -, -⟩ := decompress_transparent ⟨1, true, true⟩ rfl 0 nullStream
  obtain ⟨-, -, -, hlenient⟩ := decompress_transparent ⟨1, true, true⟩ rfl 0 nullEnvelope
  obtain ⟨-, -, -, hstrict⟩ := decompress_transparent ⟨1, false, true⟩ rfl 0 nullEnvelope
  obtain ⟨hresult, hresult', -⟩ := hlenient nullStream hg hp
  obtain ⟨-, -, htrailing, -⟩ := hstrict nullStream hg hp
  refine ⟨hg, hp, ?_, header, v, hplain, hopened _ hplain, hresult.trans hplain,
    hresult'.trans hheader⟩
  have hr := htrailing _ _ rfl (readRoot_of_ok rfl h) (by rw [hremaining]; decide)
  rwa [hremaining] at hr

end Envelope

end Rds
