import Rds.Proofs.Locality
import Rds.Proofs.Wire.Meaning

namespace Rds.Account

open Item Wire

/-- The front of an item that was not read to its end. It stops in front of the items inside,
or behind some of them in the next one. The frame stands for its flag word and the bytes up to
the first item inside. -/
inductive Torn
  | stopped (bytes : List UInt8)
  | inside (frame : Wire) (done : List Wire) (next : Torn)

def Refuses (frame : Wire) (done : List Wire) : Prop :=
  match frame.form with
  | .symbol => ∀ w ∈ done, w.form ≠ .char
  | .strings => frame.word.hasAttributes = true ∨ ∃ w ∈ done, w.form ≠ .char
  | .list | .atoms => frame.word.hasAttributes = true
  | _ => False

namespace Torn

def bytes : Torn → List UInt8
  | stopped bytes => bytes
  | inside frame done next =>
    frame.word.bytes ++ frame.head ++ bytesOfAll done ++ next.bytes

/-- The items that are complete, in the order in which they end. -/
def items : Torn → Nat → List Place
  | stopped _, _ => []
  | inside frame done next, p =>
    allOf done (frame.opening p) ++ next.items (frame.opening p + (bytesOfAll done).length)

/-- Of the items that stop in front of those inside, only a reference is read to its end, and
some others that end with their flag words. -/
def WellFormed : Torn → Prop
  | stopped bytes =>
    ∀ w : Wire, w.WellFormed → ∀ more, bytes = w.word.bytes ++ (w.head ++ more) →
      more = [] ∧ (w.head = [] ∨ w.form = .reference)
  | inside frame done next =>
    frame.WellFormed ∧ AllWellFormed done ∧ next.WellFormed ∧
      done.length ≤ frame.parts.length ∧
      (done.length = frame.parts.length → next = stopped [] ∧ Refuses frame done)

end Torn

variable {α β : Type} {s t u : Progress} {bytes bytes' : List UInt8} {new new' : List Chars}

structure Moves (s t : Progress) (bytes : List UInt8) (new : List Chars) : Prop where
  rest : s.cursor.rest = bytes ++ t.cursor.rest
  position : t.cursor.position = s.cursor.position + bytes.length
  table : t.table = s.table.pushAll new

namespace Moves

theorem refl (s : Progress) : Moves s s [] [] := ⟨rfl, rfl, s.table.pushAll_nil.symm⟩

theorem trans (h : Moves s t bytes new) (h' : Moves t u bytes' new') :
    Moves s u (bytes ++ bytes') (new ++ new') where
  rest := by rw [h.rest, h'.rest, List.append_assoc]
  position := by rw [h'.position, h.position, List.length_append, Nat.add_assoc]
  table := by rw [h'.table, h.table, ReferenceTable.pushAll_append]

theorem skip (h : Moves s t bytes new) (h' : Moves t u bytes' []) :
    Moves s u (bytes ++ bytes') new := by
  have := h.trans h'
  rwa [List.append_nil] at this

theorem grows (h : Moves s t bytes new) : s.table.Extends t.table := ⟨new, h.table⟩

theorem enter (h : Moves s t bytes new) {name : Chars} (hc : u.cursor = t.cursor)
    (ht : u.table = t.table.push (.symbol name)) : Moves s u bytes (new ++ [name]) where
  rest := hc ▸ h.rest
  position := hc ▸ h.position
  table := by rw [ht, h.table, ReferenceTable.pushAll_append, ReferenceTable.pushAll_singleton]

theorem of_rest (h : Moves s t bytes new) (hrest : s.cursor.rest = bytes' ++ t.cursor.rest) :
    Moves s t bytes' new := by
  have he : bytes = bytes' := List.append_left_inj _ |>.mp (h.rest.symm.trans hrest)
  exact he ▸ h

end Moves

def Skips (r : Reading α) : Prop := ∀ s, ∃ front, Moves s (Locality.progress (r s)) front []

theorem Skips.bind {r : Reading α} {f : α → Reading β} (hr : Skips r) (hf : ∀ a, Skips (f a)) :
    Skips (r >>= f) := by
  intro s
  obtain ⟨front, h⟩ := hr s
  cases hs : r s with
  | ok a t =>
    obtain ⟨back, h'⟩ := hf a t
    rw [hs] at h
    rw [EStateM.bind_of_ok hs]
    exact ⟨front ++ back, h.skip h'⟩
  | error err t =>
    rw [hs] at h
    rw [EStateM.bind_of_error hs]
    exact ⟨front, h⟩

theorem skips_pure (a : α) : Skips (pure a) := fun s ↦ ⟨[], .refl s⟩

theorem skips_throw (err : Error) : Skips (throw err : Reading α) := fun s ↦ ⟨[], .refl s⟩

theorem skips_note (event : Event) : Skips (note event) := fun s ↦
  ⟨[], rfl, rfl, s.table.pushAll_nil.symm⟩

theorem skips_onCursor {r : Cursor.Reader α} (hr : Locality.Local (onCursor r)) :
    Skips (onCursor r) := by
  intro s
  obtain ⟨front, h⟩ := hr s
  refine ⟨front, h.rest, h.position, ?_⟩
  rw [ReferenceTable.pushAll_nil, onCursor]
  cases r s.cursor <;> rfl

theorem skips_require (checked : Except Error α) : Skips (require checked) := by
  cases checked with
  | ok a => exact skips_pure a
  | error err => exact skips_throw err

theorem skips_readReference (flags : FlagWord) : Skips (readReference flags) := by
  have resolve (i : Int32) : Skips (do require ((← get).table.resolve i) : Reading Value) :=
    fun s ↦ skips_require (s.table.resolve i) s
  unfold readReference
  split
  · exact (skips_onCursor Locality.compositional_local.int32).bind resolve
  · exact (skips_pure _).bind resolve

theorem skips_readChars (origin : Origin) : Skips (readChars origin) := by
  refine (skips_onCursor Locality.compositional_local.int32).bind fun n ↦ ?_
  split
  · exact skips_pure _
  · split
    · exact skips_throw _
    · refine (skips_onCursor (Locality.local_bytes _)).bind fun bytes ↦ ?_
      split
      · exact (skips_note _).bind fun _ ↦ skips_pure _
      · exact (skips_pure _).bind fun _ ↦ skips_pure _

/-- What holds where a reading succeeds, and what holds where it fails. -/
def Ends (r : Reading α) (s : Progress) (Q : α → Progress → Prop) (X : Progress → Prop) : Prop :=
  match r s with
  | .ok a t => Q a t
  | .error _ t => X t

namespace Ends

variable {r : Reading α} {f : α → Reading β} {Q : α → Progress → Prop}
  {R : β → Progress → Prop} {X : Progress → Prop}

theorem intro (ho : ∀ a t, r s = .ok a t → Q a t) (hx : ∀ err t, r s = .error err t → X t) :
    Ends r s Q X := by
  unfold Ends
  cases h : r s with
  | ok a t => exact ho a t h
  | error err t => exact hx err t h

theorem of_ok (h : Ends r s Q X) {a : α} (hr : r s = .ok a t) : Q a t := by
  rw [Ends, hr] at h
  exact h

theorem of_error (h : Ends r s Q X) {err : Error} (hr : r s = .error err t) : X t := by
  rw [Ends, hr] at h
  exact h

theorem pure {a : α} (h : Q a s) : Ends (Pure.pure a) s Q X := h

theorem throw {err : Error} (h : X s) : Ends (throw err : Reading α) s Q X := h

theorem bind (h : Ends r s Q X) (hf : ∀ a t, Q a t → Ends (f a) t R X) :
    Ends (r >>= f) s R X := by
  cases hs : r s with
  | ok a t =>
    rw [Ends, EStateM.bind_of_ok hs]
    exact hf a t (h.of_ok hs)
  | error err t =>
    rw [Ends, EStateM.bind_of_error hs]
    exact h.of_error hs

end Ends

variable (stream : Nat)

def Whole (s : Progress) (v : Value) (t : Progress) : Prop :=
  ∃ w : Wire, w.WellFormed ∧
    Moves s t w.bytes (names stream (Place.all ⟨s.cursor.position, w⟩)) ∧
    ∀ T, t.table.Extends T → w.value? stream T s.cursor.position = some v

def Partial (s t : Progress) : Prop :=
  ∃ x : Torn, x.WellFormed ∧ Moves s t x.bytes (names stream (x.items s.cursor.position))

/-- The front of an item with all items inside it that come first. -/
structure Midway (s : Progress) (frame : Wire) (done : List Wire) (t : Progress) : Prop where
  symbolic : s.table.Symbolic
  frame_wellFormed : frame.WellFormed
  done_wellFormed : AllWellFormed done
  moves : Moves s t (frame.word.bytes ++ frame.head ++ bytesOfAll done)
    (names stream (allOf done (frame.opening s.cursor.position)))

variable {stream} {frame w : Wire} {done : List Wire}

theorem wellFormed_stopped_nil : (Torn.stopped []).WellFormed := by
  intro w hw more h
  have := congrArg List.length h
  rw [List.length_append, FlagWord.length_bytes, List.length_nil] at this
  omega

namespace Midway

theorem start (hs : s.table.Symbolic) (hw : frame.WellFormed)
    (h : Moves s t (frame.word.bytes ++ frame.head) []) : Midway stream s frame [] t :=
  ⟨hs, hw, trivial, h.skip (.refl t)⟩

theorem symbolic_table (h : Midway stream s frame done t) : t.table.Symbolic :=
  h.symbolic.extends h.moves.grows

theorem position_eq (h : Midway stream s frame done t) :
    t.cursor.position = frame.opening s.cursor.position + (bytesOfAll done).length := by
  have hposition := h.moves.position
  rw [List.length_append, List.length_append, FlagWord.length_bytes] at hposition
  rw [hposition, opening]
  omega

theorem add (h : Midway stream s frame done t) (hw : w.WellFormed)
    (hm : Moves t u w.bytes (names stream (Place.all ⟨t.cursor.position, w⟩))) :
    Midway stream s frame (done ++ [w]) u where
  symbolic := h.symbolic
  frame_wellFormed := h.frame_wellFormed
  done_wellFormed := by
    rw [allWellFormed_iff]
    intro x hx
    obtain hx | hx := List.mem_append.mp hx
    · exact allWellFormed_iff.mp h.done_wellFormed x hx
    · exact List.mem_singleton.mp hx ▸ hw
  moves := by
    have hmoves := h.moves.trans hm
    rw [h.position_eq, ← allOf_singleton, ← names_append, ← allOf_append, ← bytesOfAll_singleton,
      List.append_assoc, ← bytesOfAll_append] at hmoves
    exact hmoves

theorem tear (h : Midway stream s frame done t) (hl : done.length < frame.parts.length)
    (hp : Partial stream t u) : Partial stream s u := by
  obtain ⟨x, hx, hm⟩ := hp
  refine ⟨.inside frame done x, ⟨h.frame_wellFormed, h.done_wellFormed, hx, ?_, ?_⟩, ?_⟩
  · exact Nat.le_of_lt hl
  · intro he
    exact absurd he (Nat.ne_of_lt hl)
  · have hmoves := h.moves.trans hm
    rw [h.position_eq, ← names_append] at hmoves
    exact hmoves

theorem refuse (h : Midway stream s frame done t) (hl : done.length ≤ frame.parts.length)
    (hf : done.length = frame.parts.length → Refuses frame done) : Partial stream s t := by
  refine ⟨.inside frame done (.stopped []), ?_, ?_⟩
  · exact ⟨h.frame_wellFormed, h.done_wellFormed, wellFormed_stopped_nil, hl, fun he ↦ ⟨rfl, hf he⟩⟩
  · have hmoves := h.moves.trans (.refl t)
    rw [List.append_nil (names _ _)] at hmoves
    rw [Torn.items, Torn.items, List.append_nil]
    exact hmoves

theorem finish (h : Midway stream s frame done t) (hword : w.word = frame.word)
    (hhead : w.head = frame.head) (hparts : w.parts = done) :
    Moves s t w.bytes (names stream (allOf w.parts (w.opening s.cursor.position))) := by
  have hopening : w.opening s.cursor.position = frame.opening s.cursor.position := by
    rw [opening, opening, hhead]
  rw [bytes_eq_parts, hword, hhead, hparts, hopening, ← List.append_assoc]
  exact h.moves

end Midway

theorem names_all (x : Place) (hx : x.item.form ≠ .symbol) :
    names stream x.all = names stream (allOf x.item.parts (x.item.opening x.offset)) := by
  rw [Place.all_eq_allOf, names_append, names, names, List.filterMap_cons,
    symbol?_of_form hx, List.filterMap_nil, List.append_nil]

end Rds.Account
