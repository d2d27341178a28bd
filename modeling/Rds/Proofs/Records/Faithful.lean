import Mathlib.Data.List.Chain
import Rds.Proofs.Decoding
import Rds.Proofs.Records

namespace Rds.Records

open Item Locality Decoding

variable {α σ : Type} {o : Options} {stream : Nat} {source : List Delivery}
  {bytes content : List UInt8} {log noted : Log} {maxDepth : Nat} {behind? : Option Nat}

def succeeded : EStateM.Result Error σ α → Bool
  | .ok _ _ => true
  | .error _ _ => false

def logOf : EStateM.Result Error σ α → σ
  | .ok _ log => log
  | .error _ log => log

/-- A log that tells what became of a decoding, with the number of bytes behind its root item if it
has one. -/
structure Faithful (maxDepth : Nat) (behind? : Option Nat) (success : Bool) (log : Log) : Prop where
  paced : Paced maxDepth (marks log)
  counted : indices log = (List.range' 1 (indices log).length).reverse
  failed : success = false → closings log = []
  ended : success = true → ∃ n before, behind? = some n ∧
    log = .finished (indices log).length :: before ∧
      closings before = if n = 0 then [] else [.ignoredTrailing n]

theorem Counted.size_eq {s : Progress} (h : Counted s) :
    (indices s.log).length = s.table.size := by
  rw [h, List.length_reverse, List.length_range']

theorem faithful_of_bare (h : Bare log) : Faithful maxDepth behind? false log := by
  refine ⟨?_, ?_, fun _ ↦ h.closings, nofun⟩
  · rw [h.marks]
    exact paced_nil maxDepth
  · rw [h.indices]
    rfl

def remaining? : Outcome α → Option Nat
  | .ok _ t => some t.cursor.remaining
  | .error _ _ => none

theorem faithful_conclude {x : Outcome (Header × Value)}
    (hp : Paced o.maxDepth (marks (progress x).log)) (hc : Counted (progress x))
    (hn : closings (progress x).log = []) :
    Faithful o.maxDepth (remaining? x) (succeeded (conclude o x)) (logOf (conclude o x)) := by
  have hcount : indices (progress x).log =
      (List.range' 1 (indices (progress x).log).length).reverse := by
    rw [hc.size_eq]
    exact hc
  have hsize := hc.size_eq
  cases x with
  | error err t => exact ⟨hp, hcount, fun _ ↦ hn, fun h ↦ by cases h⟩
  | ok a t =>
    change (indices t.log).length = t.table.size at hsize
    rw [conclude, ← hsize]
    split
    · next hz =>
      exact ⟨hp, hcount, fun h ↦ (by cases h), fun _ ↦ ⟨_, t.log, rfl, rfl, (if_pos hz).symm ▸ hn⟩⟩
    · next hz =>
      split
      · refine ⟨hp, hcount, fun h ↦ (by cases h), fun _ ↦ ⟨_, _, rfl, rfl, ?_⟩⟩
        rw [if_neg hz]
        exact congrArg (_ :: ·) hn
      · exact ⟨hp, hcount, fun _ ↦ hn, fun h ↦ by cases h⟩

section Decodings

variable [Inflater]

theorem bare_opening (h : opening o bytes = .ok (content, noted)) :
    Bare (noted ++ [.buffered bytes.length]) := by
  unfold opening at h
  split at h
  · split at h <;> cases h <;> exact ⟨rfl, rfl, rfl⟩
  · cases h
    exact ⟨rfl, rfl, rfl⟩

/-- How many bytes of what a source delivers lie behind the root item, if there is one. -/
def unread? (o : Options) (stream : Nat) (source : List Delivery) : Option Nat :=
  match Delivery.readAll source with
  | .error _ => none
  | .ok bytes =>
    match openEnvelope o bytes [] with
    | .error _ _ => none
    | .ok content _ =>
      match readRoot ⟨o, stream, none, .start content []⟩ with
      | .error _ _ => none
      | .ok _ s => some s.progress.cursor.remaining

theorem unread?_eq (hr : Delivery.readAll source = .ok bytes)
    (ho : opening o bytes = .ok (content, noted)) (log : Log) :
    unread? o stream source =
      remaining? (root ⟨o.maxDepth, stream⟩ (.start content log)) := by
  obtain ⟨new, h⟩ := Logging.blind_root ⟨o.maxDepth, stream⟩ (.start content [])
  have hlog := h log
  rw [Progress.logging_start] at hlog
  have hopen := openEnvelope_eq o bytes []
  rw [ho] at hopen
  rw [hlog, unread?, hr]
  dsimp only
  rw [hopen]
  dsimp only
  cases hroot : root ⟨o.maxDepth, stream⟩ (.start content []) with
  | ok a t =>
    rw [readRoot_of_ok (s := ⟨o, stream, none, .start content []⟩) rfl hroot]
    rfl
  | error err t =>
    obtain ⟨header?, hread⟩ :=
      readRoot_of_error (s := ⟨o, stream, none, .start content []⟩) rfl hroot
    rw [hread]
    rfl

theorem faithful_decodeWithHeader (o : Options) (stream : Nat)
    (hr : Delivery.readAll source = .ok bytes) :
    Faithful o.maxDepth (unread? o stream source)
      (succeeded (decodeWithHeader o stream bytes [.buffered bytes.length]))
      (logOf (decodeWithHeader o stream bytes [.buffered bytes.length])) := by
  have hbare : Bare [.buffered bytes.length] := ⟨rfl, rfl, rfl⟩
  cases hc : o.check with
  | error err =>
    rw [decodeWithHeader, withSession_of_check hc]
    exact faithful_of_bare hbare
  | ok _ =>
    rw [decodeWithHeader_eq hc]
    cases ho : opening o bytes with
    | error err => exact faithful_of_bare hbare
    | ok opened =>
      obtain ⟨content, noted⟩ := opened
      have hopened := bare_opening ho
      rw [unread?_eq hr ho (noted ++ [.buffered bytes.length])]
      exact faithful_conclude (paced_root content ⟨o.maxDepth, stream⟩ hopened)
        (counted_root content _ hopened) (closings_root content _ hopened)

theorem faithful_decodeSource (o : Options) (stream : Nat) (source : List Delivery) :
    Faithful o.maxDepth (unread? o stream source)
      (succeeded (decodeSource o stream source []))
      (logOf (decodeSource o stream source [])) := by
  cases hr : Delivery.readAll source with
  | error message =>
    rw [decodeSource, hr]
    exact faithful_of_bare ⟨rfl, rfl, rfl⟩
  | ok bytes =>
    have hdecode : decodeSource o stream source [] =
        decode o stream bytes [.buffered bytes.length] := by
      rw [decodeSource, hr]
      rfl
    have hfaithful := faithful_decodeWithHeader o stream hr
    rw [hdecode]
    cases h : decodeWithHeader o stream bytes [.buffered bytes.length] with
    | error err log =>
      rw [h] at hfaithful
      rw [decode, EStateM.bind_of_error h]
      exact hfaithful
    | ok a log =>
      rw [h] at hfaithful
      rw [decode, EStateM.bind_of_ok h]
      exact hfaithful

end Decodings

section Chronological

variable {success : Bool} {n : Nat}

theorem Paced.chain_reverse (h : Paced maxDepth (marks log)) :
    (origin :: marks log.reverse).IsChain Follows := by
  have hreverse : origin :: marks log.reverse = (marks log ++ [origin]).reverse := by
    rw [List.reverse_append, marks, List.filterMap_reverse]
    rfl
  rw [hreverse, List.isChain_reverse]
  exact h.chain

theorem mem_closings {event : Event} (h : event.isClosing = true) :
    event ∈ closings log ↔ event ∈ log := by
  rw [closings, List.mem_filter]
  exact and_iff_left h

namespace Faithful

variable (h : Faithful maxDepth behind? success log)

include h

theorem eq_of_finished (hn : .finished n ∈ log) :
    success = true ∧ n = (indices log).length ∧
      ∃ before, log = .finished n :: before ∧ ∀ k, .finished k ∉ before := by
  cases hs : success with
  | false =>
    have hmem := (mem_closings rfl).mpr hn
    rw [h.failed hs] at hmem
    cases hmem
  | true =>
    obtain ⟨m, before, -, hlog, hbefore⟩ := h.ended hs
    have hnot (k : Nat) : .finished k ∉ before := by
      intro hk
      have hmem := (mem_closings rfl).mpr hk
      rw [hbefore] at hmem
      split at hmem
      · cases hmem
      · cases List.mem_singleton.mp hmem
    rw [hlog] at hn
    obtain hn | hn := List.mem_cons.mp hn
    · cases hn
      exact ⟨rfl, rfl, before, hlog, hnot⟩
    · exact absurd hn (hnot n)

theorem exists_finished_iff : (∃ n, .finished n ∈ log) ↔ success = true := by
  constructor
  · rintro ⟨n, hn⟩
    exact (h.eq_of_finished hn).1
  · intro hs
    obtain ⟨m, before, -, hlog, -⟩ := h.ended hs
    exact ⟨_, hlog ▸ List.mem_cons_self⟩

theorem ignoredTrailing_mem_iff :
    .ignoredTrailing n ∈ log ↔ success = true ∧ 0 < n ∧ behind? = some n := by
  rw [← mem_closings rfl]
  cases hs : success with
  | false =>
    rw [h.failed hs]
    exact ⟨nofun, fun hand ↦ absurd hand.1 Bool.false_ne_true⟩
  | true =>
    obtain ⟨m, before, hm, hlog, hbefore⟩ := h.ended hs
    have hclosings : closings log = .finished (indices log).length :: closings before :=
      (congrArg closings hlog).trans rfl
    rw [hclosings, hbefore, hm]
    by_cases hz : m = 0
    · rw [if_pos hz, hz]
      refine ⟨fun hmem ↦ (nomatch List.mem_singleton.mp hmem), ?_⟩
      rintro ⟨-, hpos, hsome⟩
      cases hsome
      exact absurd hpos (Nat.lt_irrefl 0)
    · rw [if_neg hz]
      constructor
      · intro hmem
        obtain hmem | hmem := List.mem_cons.mp hmem
        · cases hmem
        · cases List.mem_singleton.mp hmem
          exact ⟨rfl, Nat.pos_of_ne_zero hz, rfl⟩
      · rintro ⟨-, -, hsome⟩
        cases hsome
        exact List.mem_cons_of_mem _ List.mem_cons_self

end Faithful

end Chronological

theorem succeeded_iff (x : Logged α) : succeeded (x []) = true ↔ ∃ a, x.result = .ok a := by
  rw [result_eq_outcome]
  cases x [] with
  | ok a log => exact ⟨fun _ ↦ ⟨a, rfl⟩, fun _ ↦ rfl⟩
  | error err log => exact ⟨nofun, nofun⟩

variable [Inflater]

/-- What was noted of a run, in the order of the run. -/
def records (o : Options) (stream : Nat) (source : List Delivery) : List Event :=
  (logOf (decodeSource o stream source [])).reverse

/-- The log of a run is true to it. The items that are begun lie behind one another and are no
deeper than one more than the item before, symbols are numbered as they are registered, and what is
noted at the end is noted just if the run succeeds. -/
theorem records_faithful (o : Options) (stream : Nat) (source : List Delivery) :
    (∀ m, (marks (records o stream source)).head? = some m → m.depth = 1) ∧
    (marks (records o stream source)).IsChain
      (fun m m' ↦ m.offset + 4 ≤ m'.offset ∧ m'.depth ≤ m.depth + 1) ∧
    (∀ m ∈ marks (records o stream source), 1 ≤ m.depth ∧ m.depth ≤ o.maxDepth) ∧
    (indices (records o stream source) =
      List.range' 1 (indices (records o stream source)).length) ∧
    ((∃ n, .finished n ∈ records o stream source) ↔
      ∃ v, (decodeSource o stream source).result = .ok v) ∧
    (∀ n, .finished n ∈ records o stream source →
      n = (indices (records o stream source)).length ∧
        ∃ before, records o stream source = before ++ [.finished n] ∧ ∀ k, .finished k ∉ before) ∧
    ∀ n, .ignoredTrailing n ∈ records o stream source ↔
      (∃ v, (decodeSource o stream source).result = .ok v) ∧ 0 < n ∧
        unread? o stream source = some n := by
  have h := faithful_decodeSource o stream source
  have hchain := h.paced.chain_reverse
  have hindices : indices (records o stream source) =
      (indices (logOf (decodeSource o stream source []))).reverse := List.filterMap_reverse
  have hmarks (m : Mark) (hm : m ∈ marks (records o stream source)) :
      1 ≤ m.depth ∧ m.depth ≤ o.maxDepth := by
    rw [records, marks, List.filterMap_reverse, List.mem_reverse] at hm
    exact h.paced.depth m hm
  refine ⟨fun m hm ↦ ?_, hchain.tail, hmarks, ?_, ?_, fun n hn ↦ ?_, fun n ↦ ?_⟩
  · have hfirst : m.depth ≤ 0 + 1 := ((List.isChain_cons.mp hchain).1 m hm).2
    exact Nat.le_antisymm hfirst (hmarks m (List.mem_of_head? hm)).1
  · rw [hindices, List.length_reverse, h.counted, List.reverse_reverse, List.length_reverse,
      List.length_range']
  · rw [← succeeded_iff, ← h.exists_finished_iff]
    exact exists_congr fun n ↦ List.mem_reverse
  · obtain ⟨-, hcount, before, hlog, hbefore⟩ := h.eq_of_finished (List.mem_reverse.mp hn)
    refine ⟨?_, before.reverse, ?_, fun k hk ↦ hbefore k (List.mem_reverse.mp hk)⟩
    · rw [hindices, List.length_reverse]
      exact hcount
    · rw [records, hlog, List.reverse_cons]
  · rw [← succeeded_iff, ← h.ignoredTrailing_mem_iff]
    exact List.mem_reverse

end Rds.Records
