import Rds.Decode
import Rds.Gzip.Member
import Rds.Proofs.Locality

namespace Rds.Locality

open Item

variable {α : Type}

theorem header_read_eq : Header.read = Header.readMagic >>= Header.readBehind := rfl

def magics : List (List UInt8) := Header.workspaceMagic :: Header.foreignMagics.map (·.1)

theorem get_cursor {c : Cursor} : (get : Cursor.Reader Cursor) c = .ok c c := rfl

theorem readMagic_workspace (position : Nat) (back : List UInt8) :
    Header.readMagic ⟨position, Header.workspaceMagic ++ back⟩ = .ok true ⟨position + 5, back⟩ := by
  have hn : 5 ≤ Cursor.remaining ⟨position, Header.workspaceMagic ++ back⟩ := by
    rw [Cursor.remaining, List.length_append]
    exact Nat.le_add_right 5 _
  have hb : Cursor.bytes 5 ⟨position, Header.workspaceMagic ++ back⟩ =
      .ok Header.workspaceMagic ⟨position + 5, back⟩ :=
    Cursor.bytes_ok hn
  have hs : Cursor.skip 5 ⟨position, Header.workspaceMagic ++ back⟩ = .ok () ⟨position + 5, back⟩ :=
    EStateM.bind_of_ok hb _
  have hw : Cursor.startsWith ⟨position, Header.workspaceMagic ++ back⟩ Header.workspaceMagic :=
    List.isPrefixOf_iff_prefix.mpr (List.prefix_append _ _)
  unfold Header.readMagic
  rw [EStateM.bind_of_ok get_cursor, if_pos hw]
  exact EStateM.bind_of_ok hs _

theorem readMagic_other {c : Cursor} (h : c.startsWith Header.workspaceMagic = false) :
    Header.readMagic c =
      match Header.foreignMagics.find? fun m ↦ c.startsWith m.1 with
      | some m => .error (.unsupported (.workspace m.2)) c
      | none => .ok false c := by
  unfold Header.readMagic
  rw [EStateM.bind_of_ok get_cursor, if_neg (ne_true_of_eq_false h)]
  cases Header.foreignMagics.find? fun m ↦ c.startsWith m.1 <;> rfl

theorem readMagic_none {c : Cursor} (h : ∀ m ∈ magics, c.startsWith m = false) :
    Header.readMagic c = .ok false c := by
  rw [readMagic_other (h _ List.mem_cons_self), List.find?_eq_none.mpr]
  intro m hm
  exact ne_true_of_eq_false (h m.1 (List.mem_cons_of_mem _ (List.mem_map_of_mem hm)))

theorem readMagic_eq_ok {c d : Cursor} {workspace : Bool}
    (h : Header.readMagic c = .ok workspace d) :
    workspace = true ∧ c.rest = Header.workspaceMagic ++ d.rest ∧ d.position = c.position + 5 ∨
      workspace = false ∧ d = c ∧ ∀ m ∈ magics, c.startsWith m = false := by
  cases hc : c.startsWith Header.workspaceMagic with
  | true =>
    obtain ⟨back, hback⟩ := List.isPrefixOf_iff_prefix.mp hc
    have := readMagic_workspace c.position back
    rw [hback, h] at this
    cases this
    exact .inl ⟨rfl, hback.symm, rfl⟩
  | false =>
    rw [readMagic_other hc] at h
    split at h
    · cases h
    · next hf =>
      cases h
      refine .inr ⟨rfl, rfl, fun m hm ↦ ?_⟩
      obtain rfl | hm := List.mem_cons.mp hm
      · exact hc
      · obtain ⟨m', hm', rfl⟩ := List.mem_map.mp hm
        exact Bool.eq_false_iff.mpr (List.find?_eq_none.mp hf m' hm')

theorem startsWith_append {magic front : List UInt8} (h : magic.length ≤ front.length)
    (position : Nat) (more : List UInt8) :
    Cursor.startsWith ⟨position, front ++ more⟩ magic = magic.isPrefixOf front := by
  rw [Bool.eq_iff_iff, Cursor.startsWith, List.isPrefixOf_iff_prefix, List.isPrefixOf_iff_prefix]
  constructor
  · intro hp
    exact List.prefix_of_prefix_length_le hp (List.prefix_append front more) h
  · exact fun hp ↦ hp.trans (List.prefix_append front more)

theorem length_of_mem_magics {m : List UInt8} (h : m ∈ magics) : m.length = 5 := by
  revert m
  decide

theorem readMagic_extend {c d : Cursor} {workspace : Bool} {front back : List UInt8}
    (h : Header.readMagic c = .ok workspace d) (hd : d.rest = front ++ back)
    (hl : 5 ≤ front.length) :
    ∃ lead, c.rest = lead ++ d.rest ∧ d.position = c.position + lead.length ∧
      ∀ more, Header.readMagic ⟨c.position, lead ++ (front ++ more)⟩ =
        .ok workspace ⟨d.position, front ++ more⟩ := by
  obtain ⟨position, rest⟩ := c
  obtain ⟨rfl, hrest, hposition⟩ | ⟨rfl, rfl, hm⟩ := readMagic_eq_ok h
  · refine ⟨Header.workspaceMagic, hrest, hposition, fun more ↦ ?_⟩
    rw [hposition]
    exact readMagic_workspace _ _
  · refine ⟨[], rfl, rfl, fun more ↦ readMagic_none fun m hmem ↦ ?_⟩
    have hml : m.length ≤ front.length := length_of_mem_magics hmem ▸ hl
    rw [List.nil_append, startsWith_append hml, ← startsWith_append hml position back, ← hd]
    exact hm m hmem

def root (e : Setting) : Reading (Header × Value) := do
  let header ← onCursor Header.read
  note (.header header)
  let value ← read e
  return (header, value)

def rootBehind (e : Setting) (workspace : Bool) : Reading (Header × Value) := do
  let header ← onCursor (Header.readBehind workspace)
  note (.header header)
  let value ← read e
  return (header, value)

theorem root_eq (e : Setting) : root e = onCursor Header.readMagic >>= rootBehind e := by
  unfold root rootBehind
  rw [header_read_eq, onCursor_bind, bind_assoc]

theorem local_readFormat : Local (onCursor Header.readFormat) := by
  have hc := compositional_local
  refine hc.bindCursor (hc.bytes 2) fun bytes ↦ ?_
  dsimp only
  split
  · exact hc.pure _
  · exact hc.throw nofun
  · exact hc.throw nofun

theorem local_readBehind (workspace : Bool) : Local (onCursor (Header.readBehind workspace)) := by
  have hc := compositional_local
  refine hc.bindCursor local_readFormat fun format ↦ hc.bindCursor hc.int32 fun version ↦
    hc.bindCursor hc.int32 fun writer ↦ hc.bindCursor hc.int32 fun minReader ↦ ?_
  split
  · exact hc.pure _
  · exact hc.throw nofun

theorem local_rootBehind (e : Setting) (workspace : Bool) : Local (rootBehind e workspace) := by
  have hc := compositional_local
  exact hc.bind (local_readBehind workspace) fun _ ↦ hc.bind (local_note _) fun _ ↦
    hc.bind (local_read e) fun _ ↦ hc.pure _

theorem spends_readFormat : Cursor.Spends 2 Header.readFormat := by
  refine (Cursor.spends_bytes 2).bind (k := 0) fun bytes ↦ ?_
  dsimp only
  split
  · exact Cursor.spends_pure _
  · exact Cursor.spends_throw 0 _
  · exact Cursor.spends_throw 0 _

theorem spends_readBehind (workspace : Bool) : Cursor.Spends 14 (Header.readBehind workspace) := by
  refine spends_readFormat.bind (k := 12) fun format ↦
    Cursor.spends_int32.bind (k := 8) fun version ↦ Cursor.spends_int32.bind (k := 4) fun writer ↦
      Cursor.spends_int32.bind (k := 0) fun minReader ↦ ?_
  split
  · exact Cursor.spends_pure _
  · exact Cursor.spends_throw 0 _

theorem advances_rootBehind (e : Setting) (workspace : Bool) :
    Advances 14 (rootBehind e workspace) :=
  (advances_onCursor (spends_readBehind workspace)).bind (k := 0) fun _ ↦
    (advances_note _).bind (k := 0) fun _ ↦
      (local_read e).advances.bind (k := 0) fun _ ↦ advances_pure _

theorem root_extend {e : Setting} {s t : Progress} {a : Header × Value} (h : root e s = .ok a t) :
    ∃ front, s.cursor.rest = front ++ t.cursor.rest ∧
      t.cursor.position = s.cursor.position + front.length ∧
      ∀ more, root e (s.ahead (front ++ more)) = .ok a (t.ahead more) := by
  rw [root_eq] at h
  obtain ⟨workspace, u, hm, hb⟩ := EStateM.bind_eq_ok.mp h
  obtain ⟨d, hd, rfl⟩ := onCursor_eq_ok hm
  obtain ⟨back, hc⟩ := local_rootBehind e workspace { s with cursor := d }
  have hadvances := advances_rootBehind e workspace _ _ _ hb
  obtain ⟨hrest, hposition, hextend, -⟩ := hc
  rw [hb] at hrest hposition hextend
  have hl : 5 ≤ back.length := by
    have := congrArg List.length hrest
    simp only [progress, Cursor.remaining, List.length_append] at this hadvances
    omega
  obtain ⟨lead, hlead, hp, hmore⟩ := readMagic_extend hd hrest hl
  refine ⟨lead ++ back, ?_, ?_, fun more ↦ ?_⟩
  · rw [hlead, List.append_assoc]
    exact congrArg (lead ++ ·) hrest
  · rw [List.length_append, ← Nat.add_assoc, ← hp]
    exact hposition
  · rw [root_eq, List.append_assoc]
    have hmagic : onCursor Header.readMagic (s.ahead (lead ++ (back ++ more))) =
        .ok workspace ({ s with cursor := d }.ahead (back ++ more)) := by
      rw [onCursor, Progress.ahead, hmore]
      rfl
    rw [EStateM.bind_of_ok hmagic]
    exact hextend (not_truncated_ok a t) more

def readRoot : Session.Call (Header × Value) := do
  let header ← Session.readHeader
  let value ← Session.readItem
  return (header, value)

def decodeRoot : Session.Call (Header × Value) := do
  let a ← readRoot
  Session.finish
  return a

theorem onProgress_of_ok {r : Reading α} {s : Session} {a : α} {t : Progress}
    (h : r s.progress = .ok a t) : Session.onProgress r s = .ok a { s with progress := t } := by
  rw [Session.onProgress, h]

theorem onProgress_of_error {r : Reading α} {s : Session} {err : Error} {t : Progress}
    (h : r s.progress = .error err t) :
    Session.onProgress r s = .error err { s with progress := t } := by
  rw [Session.onProgress, h]

theorem note_eq {event : Event} {s : Progress} :
    note event s = .ok () { s with log := event :: s.log } := rfl

def noting (s : Session) (events : Log) : Session :=
  { s with progress := { s.progress with log := events ++ s.progress.log } }

theorem get_session {s : Session} : (get : Session.Call Session) s = .ok s s := rfl

section Header

variable {s : Session} {t : Progress} (hs : s.header? = none)

include hs

theorem readHeader_of_ok {header : Header} (h : onCursor Header.read s.progress = .ok header t) :
    Session.readHeader s = .ok header { s with
      header? := some header
      progress := { t with log := .header header :: t.log } } := by
  rw [Session.readHeader, EStateM.bind_of_ok get_session, hs]
  exact EStateM.bind_of_ok (onProgress_of_ok h) _

theorem readHeader_of_error {err : Error} (h : onCursor Header.read s.progress = .error err t) :
    Session.readHeader s = .error err { s with progress := t } := by
  obtain ⟨options, stream, header?, progress⟩ := s
  cases hs
  rw [Session.readHeader, EStateM.bind_of_ok get_session]
  exact EStateM.bind_of_error (onProgress_of_error h) _

theorem readRoot_of_ok {a : Header × Value}
    (h : root ⟨s.options.maxDepth, s.stream⟩ s.progress = .ok a t) :
    readRoot s = .ok a { s with header? := some a.1, progress := t } := by
  obtain ⟨header, u, hu, h⟩ := EStateM.bind_eq_ok.mp h
  rw [EStateM.bind_of_ok note_eq] at h
  obtain ⟨v, u', hv, h⟩ := EStateM.bind_eq_ok.mp h
  cases h
  rw [readRoot, EStateM.bind_of_ok (readHeader_of_ok hs hu), Session.readItem, bind_assoc,
    EStateM.bind_of_ok get_session]
  exact EStateM.bind_of_ok (onProgress_of_ok hv) _

theorem readRoot_of_error {err : Error}
    (h : root ⟨s.options.maxDepth, s.stream⟩ s.progress = .error err t) :
    ∃ header?, readRoot s = .error err { s with header?, progress := t } := by
  rw [root] at h
  cases hu : onCursor Header.read s.progress with
  | error err' u =>
    rw [EStateM.bind_of_error hu] at h
    cases h
    exact ⟨_, EStateM.bind_of_error (readHeader_of_error hs hu) _⟩
  | ok header u =>
    rw [EStateM.bind_of_ok hu, EStateM.bind_of_ok note_eq] at h
    rw [readRoot, EStateM.bind_of_ok (readHeader_of_ok hs hu), Session.readItem, bind_assoc,
      EStateM.bind_of_ok get_session]
    cases hv : read ⟨s.options.maxDepth, s.stream⟩ { u with log := .header header :: u.log } with
    | ok v u' =>
      rw [EStateM.bind_of_ok hv] at h
      cases h
    | error err' u' =>
      rw [EStateM.bind_of_error hv] at h
      cases h
      exact ⟨_, EStateM.bind_of_error (onProgress_of_error hv) _⟩

theorem root_of_readRoot {a : Header × Value} {u : Session} (h : readRoot s = .ok a u) :
    root ⟨s.options.maxDepth, s.stream⟩ s.progress = .ok a u.progress := by
  cases hr : root ⟨s.options.maxDepth, s.stream⟩ s.progress with
  | ok b t =>
    rw [readRoot_of_ok hs hr] at h
    cases h
    rfl
  | error err t =>
    obtain ⟨header?, hr⟩ := readRoot_of_error hs hr
    rw [hr] at h
    cases h

end Header

variable {o : Options} {stream : Nat} {bytes : List UInt8}

theorem start_eq_ok (hc : o.check = .ok ()) (log : Log) :
    Session.start o stream bytes log = .ok ⟨o, stream, none, .start bytes log⟩ := by
  rw [Session.start, hc]

theorem finish_eq (s : Session) :
    Session.finish s =
      if s.progress.cursor.remaining = 0 then
        .ok () (noting s [.finished s.references])
      else if s.options.allowTrailing then
        .ok () (noting s [.finished s.references, .ignoredTrailing s.progress.cursor.remaining])
      else .error (.trailingBytes s.progress.cursor.remaining) s := by
  rw [Session.finish, EStateM.bind_of_ok get_session]
  dsimp only
  split
  · rfl
  · split <;> rfl

/-- How a decoding ends whose root has been read, or cannot be read. -/
def conclude (o : Options) :
    Outcome (Header × Value) → EStateM.Result Error Log (Header × Value)
  | .error err t => .error err t.log
  | .ok a t =>
    if t.cursor.remaining = 0 then .ok a (.finished t.table.size :: t.log)
    else if o.allowTrailing then
      .ok a (.finished t.table.size :: .ignoredTrailing t.cursor.remaining :: t.log)
    else .error (.trailingBytes t.cursor.remaining) t.log

theorem inSession_decodeRoot (hc : o.check = .ok ()) (log : Log) :
    Logged.inSession o stream bytes decodeRoot log =
      conclude o (root ⟨o.maxDepth, stream⟩ (.start bytes log)) := by
  rw [Logged.inSession, start_eq_ok hc]
  dsimp only
  cases h : root ⟨o.maxDepth, stream⟩ (.start bytes log) with
  | error err t =>
    obtain ⟨header?, hr⟩ := readRoot_of_error (s := ⟨o, stream, none, .start bytes log⟩) rfl h
    rw [decodeRoot, EStateM.bind_of_error hr]
    rfl
  | ok a t =>
    have hr := readRoot_of_ok (s := ⟨o, stream, none, .start bytes log⟩) rfl h
    have hf := finish_eq ⟨o, stream, some a.1, t⟩
    rw [decodeRoot, EStateM.bind_of_ok hr, conclude]
    dsimp only at hf ⊢
    split at hf
    · next hz =>
      rw [if_pos hz, EStateM.bind_of_ok hf]
      rfl
    · next hz =>
      rw [if_neg hz]
      split at hf
      · next ht =>
        rw [if_pos ht, EStateM.bind_of_ok hf]
        rfl
      · next ht => rw [if_neg ht, EStateM.bind_of_error hf]

section Results

variable [Inflater]

theorem result_eq (hd : o.decompress = false) (hc : o.check = .ok ()) :
    (decodeWithHeader o stream bytes).result =
      (Logged.inSession o stream bytes decodeRoot).result := by
  simp only [decodeWithHeader, withSession, hc, openEnvelope, hd, decodeRoot, readRoot, bind_assoc,
    pure_bind]
  rfl

theorem result_of_error {t : Progress} {err : Error} (hd : o.decompress = false)
    (hc : o.check = .ok ()) (h : root ⟨o.maxDepth, stream⟩ (.start bytes []) = .error err t) :
    (decodeWithHeader o stream bytes).result = .error err := by
  rw [result_eq hd hc, Logged.result, inSession_decodeRoot hc, h]
  rfl

theorem result_of_ok {t : Progress} {a : Header × Value} (hd : o.decompress = false)
    (hc : o.check = .ok ()) (h : root ⟨o.maxDepth, stream⟩ (.start bytes []) = .ok a t) :
    (decodeWithHeader o stream bytes).result =
      if t.cursor.remaining = 0 ∨ o.allowTrailing then .ok a
      else .error (.trailingBytes t.cursor.remaining) := by
  rw [result_eq hd hc, Logged.result, inSession_decodeRoot hc, h, conclude]
  by_cases hz : t.cursor.remaining = 0
  · rw [if_pos hz, if_pos (.inl hz)]
  · rw [if_neg hz]
    by_cases ht : o.allowTrailing = true
    · rw [if_pos ht, if_pos (.inr ht)]
    · rw [if_neg ht, if_neg (not_or.mpr ⟨hz, ht⟩)]

theorem result_of_check {err : Error} (hc : o.check = .error err) :
    (decodeWithHeader o stream bytes).result = .error err := by
  rw [Logged.result, decodeWithHeader, withSession, hc]
  rfl

theorem root_of_result {a : Header × Value} (hd : o.decompress = false)
    (h : (decodeWithHeader o stream bytes).result = .ok a) :
    o.check = .ok () ∧ ∃ t, root ⟨o.maxDepth, stream⟩ (.start bytes []) = .ok a t := by
  cases hc : o.check with
  | error err =>
    rw [result_of_check hc] at h
    cases h
  | ok _ =>
    refine ⟨rfl, ?_⟩
    cases hr : root ⟨o.maxDepth, stream⟩ (.start bytes []) with
    | error err t =>
      rw [result_of_error hd hc hr] at h
      cases h
    | ok b t =>
      rw [result_of_ok hd hc hr] at h
      split at h
      · cases h
        exact ⟨t, rfl⟩
      · cases h

/-- Both kinds of decoding judge a stream by the bytes of its root, up to the number of
bytes behind them. -/
theorem result_extend {a : Header × Value} (hd : o.decompress = false)
    (h : (decodeWithHeader o stream bytes).result = .ok a) :
    ∃ front back t, bytes = front ++ back ∧
      readRoot ⟨o, stream, none, .start bytes []⟩ = .ok a t ∧
      t.progress.cursor = ⟨front.length, back⟩ ∧
      ∀ more lenient,
        (decodeWithHeader { o with allowTrailing := lenient } stream (front ++ more)).result =
          if more.length = 0 ∨ lenient then .ok a else .error (.trailingBytes more.length) := by
  obtain ⟨hc, t, ht⟩ := root_of_result hd h
  obtain ⟨front, hrest, hposition, hmore⟩ := root_extend ht
  refine ⟨front, t.cursor.rest, _, hrest, readRoot_of_ok rfl ht, ?_, fun more lenient ↦ ?_⟩
  · exact congrArg (Cursor.mk · t.cursor.rest) (hposition.trans (Nat.zero_add _))
  · exact result_of_ok (o := { o with allowTrailing := lenient }) hd hc (hmore more)

/-- An item is judged by the bytes it consumes, and none of them can be missed. A stream is
judged by the bytes up to the end of its root, and a strict decoding refuses all others. -/
theorem read_local_and_result_local :
    (∀ (e : Setting) (s : Progress), ¬ Truncated (read e s) →
      ∃ c ≤ s.cursor.remaining,
        (progress (read e s)).cursor = s.cursor.advance c ∧
        (∀ more, read e (s.ahead (s.cursor.rest.take c ++ more)) =
          mapProgress (·.ahead more) (read e s)) ∧
        ∀ k < c, Truncated (read e (s.ahead (s.cursor.rest.take k)))) ∧
    ∀ (o : Options) (stream : Nat) (bytes : List UInt8) (header : Header) (v : Value),
      o.decompress = false → o.allowTrailing = true →
      (decodeWithHeader o stream bytes).result = .ok (header, v) →
      ∃ c ≤ bytes.length,
        (∃ t, readRoot ⟨o, stream, none, .start bytes []⟩ = .ok (header, v) t ∧
          t.progress.cursor = ⟨c, bytes.drop c⟩) ∧
        ∀ more,
          (decodeWithHeader o stream (bytes.take c ++ more)).result = .ok (header, v) ∧
          (decodeWithHeader { o with allowTrailing := false } stream
            (bytes.take c ++ more)).result =
              if more.length = 0 then .ok (header, v) else .error (.trailingBytes more.length) := by
  constructor
  · intro e s ht
    obtain ⟨front, h⟩ := local_read e s
    have hl := h.length_le
    have htake (k : Nat) (hk : k ≤ front.length) : s.cursor.rest.take k = front.take k := by
      rw [h.rest, List.take_append_of_le_length hk]
    refine ⟨front.length, hl, ?_, fun more ↦ ?_, fun k hk ↦ ?_⟩
    · rw [Cursor.advance, ← h.position, h.rest, List.drop_left]
    · rw [htake _ (Nat.le_refl _), List.take_length]
      exact h.extend ht more
    · rw [htake k (Nat.le_of_lt hk)]
      exact h.cut ht k hk
  · intro o stream bytes header v hd hlenient h
    obtain ⟨front, back, t, rfl, ht, hcursor, hmore⟩ := result_extend hd h
    refine ⟨front.length, ?_, ⟨t, ht, ?_⟩, fun more ↦ ?_⟩
    · rw [List.length_append]
      exact Nat.le_add_right _ _
    · rw [hcursor, List.drop_left]
    · rw [List.take_left]
      constructor
      · exact (hmore more o.allowTrailing).trans (if_pos (.inr hlenient))
      · rw [hmore more false]
        simp only [Bool.false_eq_true, or_false]

end Results

def listItem : List UInt8 := [0, 0, 0, 19, 0, 0, 0, 1, 0, 0, 0, 254]

/-- A stream that holds a list of one `NULL`, and one byte behind it. -/
def listStream : List UInt8 := [0x58, 0x0a, 0, 0, 0, 2, 0, 3, 6, 0, 0, 2, 3, 0] ++ listItem ++ [7]

theorem listStream_judged :
    (∀ k < 12, Truncated (read ⟨2, 0⟩ (.start (listItem.take k) []))) ∧
    ∃ a, ∀ more, (decodeWithHeader ⟨2, false, false⟩ 0 (listStream.take 26 ++ more)).result =
      if more.length = 0 then .ok a else .error (.trailingBytes more.length) := by
  obtain ⟨hread, hstream⟩ := read_local_and_result_local
  have hitem : ∃ v t, read ⟨2, 0⟩ (.start listItem []) = .ok v t ∧ t.cursor.position = 12 :=
    ⟨_, _, (Descent.read_eq_item _ (Nat.le_refl _)).trans rfl, rfl⟩
  have hroot : ∃ a t, root ⟨2, 0⟩ (.start listStream []) = .ok a t ∧ t.cursor.position = 26 :=
    ⟨_, _, EStateM.bind_eq_ok.mpr ⟨_, _, rfl, EStateM.bind_eq_ok.mpr ⟨_, _, rfl,
      EStateM.bind_eq_ok.mpr ⟨_, _, (Descent.read_eq_item _ (Nat.le_refl _)).trans rfl, rfl⟩⟩⟩, rfl⟩
  constructor
  · obtain ⟨v, t, h, hp⟩ := hitem
    obtain ⟨c, -, hcursor, -, hcut⟩ := hread ⟨2, 0⟩ (.start listItem []) (h ▸ not_truncated_ok v t)
    rw [h] at hcursor
    have hc : 12 = 0 + c := hp.symm.trans (congrArg Cursor.position hcursor)
    intro k hk
    exact hcut k (by omega)
  · obtain ⟨a, t, h, hp⟩ := hroot
    have hresult : (decodeWithHeader ⟨2, true, false⟩ 0 listStream).result = .ok a :=
      (result_of_ok rfl rfl h).trans (if_pos (.inr rfl))
    obtain ⟨c, -, ⟨u, hu, hcursor⟩, hmore⟩ :=
      hstream ⟨2, true, false⟩ 0 listStream a.1 a.2 rfl rfl hresult
    rw [readRoot_of_ok rfl h] at hu
    cases hu
    have hc : 26 = c := hp.symm.trans (congrArg Cursor.position hcursor)
    exact ⟨a, fun more ↦ hc ▸ (hmore more).2⟩

end Rds.Locality
