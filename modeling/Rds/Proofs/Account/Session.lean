import Rds.Proofs.Account.Content
import Rds.Proofs.Locality.Stream
import Rds.Proofs.Storage

namespace Rds

namespace Session

inductive Request
  | header | item
deriving DecidableEq

inductive Answer
  | header (header : Header)
  | item (value : Value)

def perform : Request → Call Answer
  | .header => Answer.header <$> readHeader
  | .item => Answer.item <$> readItem

/-- The session behind a call, whether the call fails or not. -/
def after (s : Session) (r : Request) : Session :=
  match perform r s with
  | .ok _ t => t
  | .error _ t => t

def afterAll (s : Session) (rs : List Request) : Session := rs.foldl after s

def position (s : Session) : Nat := s.progress.cursor.position

def setting (s : Session) : Item.Setting := ⟨s.options.maxDepth, s.stream⟩

variable {s : Session} {p : Item.Progress} {v : Value} {err : Error}

theorem eq_of_start {o : Options} {stream : Nat} {bytes : List UInt8} {log : Log}
    (h : start o stream bytes log = .ok s) : s = ⟨o, stream, none, .start bytes log⟩ := by
  unfold start at h
  split at h
  · cases h
    rfl
  · cases h

theorem perform_item_of_ok (h : Item.read s.setting s.progress = .ok v p) :
    perform .item s = .ok (.item v) { s with progress := p } := by
  refine EStateM.map_of_ok ?_ _
  rw [readItem, EStateM.bind_of_ok Locality.get_session]
  exact Locality.onProgress_of_ok h

theorem perform_item_of_error (h : Item.read s.setting s.progress = .error err p) :
    perform .item s = .error err { s with progress := p } := by
  rw [perform, map_eq_pure_bind, readItem, bind_assoc, EStateM.bind_of_ok Locality.get_session]
  exact EStateM.bind_of_error (Locality.onProgress_of_error h) _

theorem perform_header_of_some {header : Header} (h : s.header? = some header) :
    perform .header s = .ok (.header header) s := by
  refine EStateM.map_of_ok ?_ _
  rw [readHeader, EStateM.bind_of_ok Locality.get_session, h]
  rfl

theorem perform_header_of_ok {header : Header} (hs : s.header? = none)
    (h : Item.onCursor Header.read s.progress = .ok header p) :
    perform .header s = .ok (.header header) { s with
      header? := some header
      progress := { p with log := .header header :: p.log } } :=
  EStateM.map_of_ok (Locality.readHeader_of_ok hs h) _

theorem perform_header_of_error (hs : s.header? = none)
    (h : Item.onCursor Header.read s.progress = .error err p) :
    perform .header s = .error err { s with progress := p } := by
  rw [perform, map_eq_pure_bind]
  exact EStateM.bind_of_error (Locality.readHeader_of_error hs h) _

theorem after_of_ok {r : Request} {a : Answer} {t : Session} (h : perform r s = .ok a t) :
    s.after r = t := by
  rw [after, h]

theorem after_of_error {r : Request} {t : Session} (h : perform r s = .error err t) :
    s.after r = t := by
  rw [after, h]

end Session

namespace Account

open Item Wire

inductive Span
  | header (bytes : List UInt8)
  | whole (w : Wire)
  | torn (x : Torn)

namespace Span

def bytes : Span → List UInt8
  | header bytes => bytes
  | whole w => w.bytes
  | torn x => x.bytes

def items : Span → Nat → List Place
  | header _, _ => []
  | whole w, p => Place.all ⟨p, w⟩
  | torn x, p => x.items p

end Span

variable {s t : Session} {r : Session.Request}

/-- A call on `s` reads a span: a header or less of it, or else an item as it stands there, of
which a call that fails reads a part. -/
inductive Covers (s : Session) : Session.Request → Span → Prop
  | header (bytes : List UInt8) : Covers s .header (.header bytes)
  | whole {v : Value} {w : Wire} (hs : Session.perform .item s = .ok (.item v) (s.after .item))
    (hw : w.WellFormed)
    (hv : ∀ T, (s.after .item).progress.table.Extends T →
      w.value? s.stream T s.position = some v) : Covers s .item (.whole w)
  | torn {err : Error} {x : Torn} (hs : Session.perform .item s = .error err (s.after .item))
    (hx : x.WellFormed) : Covers s .item (.torn x)

theorem skips_readMagic : Skips (onCursor Header.readMagic) := by
  intro s
  have hnil := s.table.pushAll_nil.symm
  cases h : Header.readMagic s.cursor with
  | ok workspace d =>
    rw [onCursor, h]
    obtain ⟨-, hrest, hposition⟩ | ⟨-, rfl, -⟩ := Locality.readMagic_eq_ok h
    · exact ⟨Header.workspaceMagic, hrest, hposition, hnil⟩
    · exact ⟨[], rfl, rfl, hnil⟩
  | error err d =>
    have hd : d = s.cursor := by
      cases hw : s.cursor.startsWith Header.workspaceMagic with
      | true =>
        obtain ⟨back, hback⟩ := List.isPrefixOf_iff_prefix.mp hw
        have := Locality.readMagic_workspace s.cursor.position back
        rw [hback, h] at this
        cases this
      | false =>
        rw [Locality.readMagic_other hw] at h
        split at h
        · cases h
          rfl
        · cases h
    rw [onCursor, h, hd]
    exact ⟨[], rfl, rfl, hnil⟩

theorem skips_readHeader : Skips (onCursor Header.read) := by
  rw [Locality.header_read_eq, onCursor_bind]
  exact skips_readMagic.bind fun workspace ↦ skips_onCursor (Locality.local_readBehind workspace)

/-- Every call reads on from where it starts, and enters the symbols that it completes. -/
theorem exists_covers (hs : s.progress.table.Symbolic) (r : Session.Request) :
    ∃ span, Covers s r span ∧ (s.after r).stream = s.stream ∧
      Moves s.progress (s.after r).progress span.bytes
        (names s.stream (span.items s.position)) := by
  cases r with
  | header =>
    cases hh : s.header? with
    | some header =>
      rw [Session.after_of_ok (Session.perform_header_of_some hh)]
      exact ⟨.header [], .header [], rfl, .refl _⟩
    | none =>
      obtain ⟨front, hm⟩ := skips_readHeader s.progress
      refine ⟨.header front, .header front, ?_⟩
      cases h : onCursor Header.read s.progress with
      | ok header p =>
        rw [h] at hm
        rw [Session.after_of_ok (Session.perform_header_of_ok hh h)]
        exact ⟨rfl, hm.rest, hm.position, hm.table⟩
      | error err p =>
        rw [h] at hm
        rw [Session.after_of_error (Session.perform_header_of_error hh h)]
        exact ⟨rfl, hm⟩
  | item =>
    have hend := accounted_read s.setting s.progress hs
    cases h : read s.setting s.progress with
    | ok v p =>
      obtain ⟨w, hw, hm, hv⟩ := hend.of_ok h
      have hperform := Session.perform_item_of_ok h
      have hafter := Session.after_of_ok hperform
      refine ⟨.whole w, .whole (hafter ▸ hperform) hw ?_, ?_⟩
      · rw [hafter]
        exact hv
      · rw [hafter]
        exact ⟨rfl, hm⟩
    | error err p =>
      obtain ⟨x, hx, hm⟩ := hend.of_error h
      have hperform := Session.perform_item_of_error h
      have hafter := Session.after_of_error hperform
      refine ⟨.torn x, .torn (hafter ▸ hperform) hx, ?_⟩
      rw [hafter]
      exact ⟨rfl, hm⟩

theorem header_after {header : Header} (h : s.header? = some header) (r : Session.Request) :
    (s.after r).header? = some header := by
  cases r with
  | header => rw [Session.after_of_ok (Session.perform_header_of_some h), h]
  | item =>
    cases hread : read s.setting s.progress with
    | ok v p => rw [Session.after_of_ok (Session.perform_item_of_ok hread), h]
    | error err p => rw [Session.after_of_error (Session.perform_item_of_error hread), h]

theorem header_afterAll {header : Header} (h : s.header? = some header)
    (rs : List Session.Request) : (s.afterAll rs).header? = some header := by
  induction rs generalizing s with
  | nil => exact h
  | cons r rs ih => exact ih (header_after h r)

theorem header_of_perform {header : Header}
    (h : Session.perform .header s = .ok (.header header) t) : t.header? = some header := by
  cases hh : s.header? with
  | some header' =>
    rw [Session.perform_header_of_some hh] at h
    cases h
    exact hh
  | none =>
    cases hread : onCursor Header.read s.progress with
    | ok header' p =>
      rw [Session.perform_header_of_ok hh hread] at h
      cases h
      rfl
    | error err p =>
      rw [Session.perform_header_of_error hh hread] at h
      cases h

structure Sound (bytes : List UInt8) (s : Session) : Prop where
  symbolic : s.progress.table.Symbolic
  rest : s.progress.cursor.rest = bytes.drop s.position
  position_le : s.position ≤ bytes.length

theorem Moves.sound {bytes front : List UInt8} {new : List Chars} (hs : Sound bytes s)
    (h : Moves s.progress t.progress front new) : Sound bytes t := by
  have hrest := h.rest
  rw [hs.rest] at hrest
  have hlength := congrArg List.length hrest
  have hposition : t.position = s.position + front.length := h.position
  have hle := hs.position_le
  rw [List.length_drop, List.length_append] at hlength
  refine ⟨hs.symbolic.extends h.grows, ?_, by omega⟩
  rw [hposition, ← List.drop_drop, hrest, List.drop_left]

theorem Sound.after {bytes : List UInt8} (hs : Sound bytes s) (r : Session.Request) :
    Sound bytes (s.after r) := by
  obtain ⟨span, -, -, hm⟩ := exists_covers hs.symbolic r
  exact hm.sound hs

theorem Sound.afterAll {bytes : List UInt8} (hs : Sound bytes s) (rs : List Session.Request) :
    Sound bytes (s.afterAll rs) ∧
      s.progress.table.Extends (s.afterAll rs).progress.table := by
  induction rs generalizing s with
  | nil => exact ⟨hs, .refl _⟩
  | cons r rs ih =>
    obtain ⟨span, -, -, hm⟩ := exists_covers hs.symbolic r
    obtain ⟨hsound, hextends⟩ := ih (hs.after r)
    exact ⟨hsound, hm.grows.trans hextends⟩

theorem sound_start {o : Options} {stream : Nat} {bytes : List UInt8} {log : Log}
    (h : Session.start o stream bytes log = .ok s) : Sound bytes s ∧ s.stream = stream := by
  obtain rfl := Session.eq_of_start h
  exact ⟨⟨ReferenceTable.symbolic_empty, rfl, Nat.zero_le _⟩, rfl⟩

theorem afterAll_stream (hs : s.progress.table.Symbolic) (rs : List Session.Request) :
    (s.afterAll rs).stream = s.stream := by
  induction rs generalizing s with
  | nil => rfl
  | cons r rs ih =>
    obtain ⟨span, -, hstream, hm⟩ := exists_covers hs r
    exact (ih (hs.extends hm.grows)).trans hstream

theorem get?_pushAll {T : ReferenceTable} {new : List Chars} {i : Nat} {name : Chars}
    (h : new[i]? = some name) {index : Int32} (hi : index.toInt = T.size + i + 1) :
    (T.pushAll new).get? index = some (.symbol name) := by
  have hindex : index.toInt = .ofNat (T.size + i + 1) := hi
  unfold ReferenceTable.get?
  rw [hindex]
  simp only [ReferenceTable.pushAll, ReferenceTable.size]
  rw [Array.getElem?_append_right (Nat.le_add_right _ _), Nat.add_sub_cancel_left,
    List.getElem?_toArray, List.getElem?_map, h]
  rfl

/-- Between any two calls of a session, and whatever calls fail: the cursor goes on over what the
call has read, the table goes on with the symbols that are complete, their indices stand for them
from then on, and a header that has been read stays and is not read again. -/
theorem session_invariant {o : Options} {stream : Nat} {bytes : List UInt8} {log : Log}
    {s₀ : Session} (h : Session.start o stream bytes log = .ok s₀)
    (before : List Session.Request) (r : Session.Request) :
    let s := s₀.afterAll before
    let t := s.after r
    s.position ≤ t.position ∧ t.position ≤ bytes.length ∧
    (∃ span, Covers s r span ∧ bytes.drop s.position = span.bytes ++ bytes.drop t.position ∧
      t.progress.table = s.progress.table.pushAll (names stream (span.items s.position)) ∧
      ∀ (i : Nat) (name : Chars), (names stream (span.items s.position))[i]? = some name →
        ∀ index : Int32, index.toInt = s.progress.table.size + i + 1 →
          ∀ more, ∃ v, (t.afterAll more).progress.table.resolve index = .ok v ∧
            v.shares (.symbol name) = true) ∧
    ∀ header, Session.perform r s = .ok (.header header) t → ∀ more,
      (t.afterAll more).header? = some header ∧
      Session.perform .header (t.afterAll more) = .ok (.header header) (t.afterAll more) := by
  intro s t
  obtain ⟨hstart, hstream⟩ := sound_start h
  have hs : Sound bytes s := (hstart.afterAll before).1
  have ht : Sound bytes t := hs.after r
  obtain ⟨span, hcovers, -, hm⟩ := exists_covers hs.symbolic r
  rw [afterAll_stream hstart.symbolic before, hstream] at hm
  have hposition : t.position = s.position + span.bytes.length := hm.position
  refine ⟨by omega, ht.position_le, ⟨span, hcovers, ?_, hm.table, ?_⟩, ?_⟩
  · rw [← hs.rest, ← ht.rest]
    exact hm.rest
  · intro i name hname index hindex more
    have hget := get?_pushAll hname hindex
    rw [← hm.table] at hget
    have hmore := ReferenceTable.get?_extends (ht.afterAll more).2 hget
    exact ⟨.symbol name, by rw [ReferenceTable.resolve, hmore], Value.shares_refl _⟩
  · intro header hheader more
    have hsome : t.header? = some header := by
      cases r with
      | header => exact header_of_perform hheader
      | item =>
        cases hcovers with
        | whole hitem => rw [hitem] at hheader; cases hheader
        | torn hitem => rw [hitem] at hheader; cases hheader
    have hmore := header_afterAll hsome more
    exact ⟨hmore, Session.perform_header_of_some hmore⟩

def cutList : List UInt8 :=
  [0, 0, 0, 19, 0, 0, 0, 2, 0, 0, 0, 1, 0, 0, 0, 9, 255, 255, 255, 255, 0, 0]

theorem cutList_session :
    ∃ s, Session.start ⟨3, true, false⟩ 0 cutList [] = .ok s ∧
      (∃ err, Session.perform .item s = .error err (s.after .item)) ∧
      (s.after .item).position = 20 ∧
      ∀ more, ∃ v, ((s.after .item).afterAll more).progress.table.resolve 1 = .ok v ∧
        v.shares (.symbol .na) = true := by
  have hread : ∃ log, read ⟨3, 0⟩ (.start cutList []) =
      .error (.truncated 4 2) ⟨⟨20, [0, 0]⟩, ⟨#[.symbol .na]⟩, log⟩ :=
    ⟨_, (Descent.read_eq_item _ (Nat.le_refl _)).trans rfl⟩
  obtain ⟨log, hp⟩ := hread
  let s : Session := ⟨⟨3, true, false⟩, 0, none, .start cutList []⟩
  have hperform := Session.perform_item_of_error (s := s) hp
  have hafter := Session.after_of_error hperform
  have hstart : Session.start ⟨3, true, false⟩ 0 cutList [] = .ok s := rfl
  obtain ⟨-, -, ⟨span, -, -, hentered, hresolves⟩, -⟩ := session_invariant hstart [] .item
  have hname : (names 0 (span.items 0))[0]? = some .na := by
    have hentries : (s.after .item).progress.table.entries =
      #[] ++ ((names 0 (span.items 0)).map Value.symbol).toArray := congrArg (·.entries) hentered
    rw [hafter, Array.empty_append] at hentries
    have hlist := congrArg Array.toList hentries
    obtain ⟨name, hnames, hname⟩ := List.map_eq_singleton_iff.mp hlist.symm
    cases hname
    rw [hnames]
    rfl
  refine ⟨s, hstart, ⟨_, hafter ▸ hperform⟩, ?_, fun more ↦ ?_⟩
  · rw [hafter]
    rfl
  · exact hresolves 0 .na hname 1 rfl more

end Account

end Rds
