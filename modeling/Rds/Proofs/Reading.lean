import Rds.Item.Burden

namespace Rds

def Error.Ordinary : Error → Prop
  | .unsupported _ => False
  | .depthLimit _ => False
  | _ => True

namespace Item

variable {α β : Type}

/-- A property that a reading has as soon as its elementary parts have it. What comes with the
beginning of an item is left out: its note, types that cannot be read, and the limit of depth. -/
structure Composed (P : ∀ {α : Type}, Reading α → Prop) : Prop where
  pure : ∀ {α : Type} (a : α), P (pure a)
  fail : ∀ {α : Type} {err : Error}, err.Ordinary → P (throw err : Reading α)
  bind : ∀ {α β : Type} {r : Reading α} {f : α → Reading β},
    P r → (∀ a, P (f a)) → P (r >>= f)
  position : ∀ {α : Type} {f : Nat → Reading α},
    (∀ p, P (f p)) → P (get >>= fun s ↦ f s.cursor.position)
  table : ∀ {α : Type} {f : ReferenceTable → Reading α},
    (∀ t, P (f t)) → P (get >>= fun s ↦ f s.table)
  bytes : ∀ n, P (onCursor (Cursor.bytes n))
  warn : ∀ event : Event, event.level = .warn → P (note event)
  register : ∀ name, P (register (.char name))

/-- A property that every reading has as soon as its elementary parts have it. Only the
limit of depth is left out. -/
structure Compositional (P : ∀ {α : Type}, Reading α → Prop) : Prop extends Composed P where
  unsupported : ∀ {α : Type} (what : Unsupported),
    P (throw (.unsupported what) : Reading α)
  item : ∀ type offset depth, P (note (.item type offset depth))

theorem Compositional.throw {P : ∀ {α : Type}, Reading α → Prop} (hP : Compositional P)
    {err : Error} (h : ∀ k, err ≠ .depthLimit k) : P (MonadExcept.throw err : Reading α) := by
  cases err with
  | unsupported what => exact hP.unsupported what
  | depthLimit k => exact absurd rfl (h k)
  | _ => exact hP.fail trivial

theorem onCursor_bind (r : Cursor.Reader α) (f : α → Cursor.Reader β) :
    onCursor (r >>= f) = onCursor r >>= fun a ↦ onCursor (f a) := by
  funext s
  cases h : r s.cursor with
  | ok a c =>
    have hs : onCursor r s = .ok a { s with cursor := c } := by rw [onCursor, h]
    rw [EStateM.bind_of_ok hs, onCursor, EStateM.bind_of_ok h]
    rfl
  | error err c =>
    have hs : onCursor r s = .error err { s with cursor := c } := by rw [onCursor, h]
    rw [EStateM.bind_of_error hs, onCursor, EStateM.bind_of_error h]

theorem onCursor_eq_ok {r : Cursor.Reader α} {s t : Progress} {a : α} (h : onCursor r s = .ok a t) :
    ∃ d, r s.cursor = .ok a d ∧ t = { s with cursor := d } := by
  unfold onCursor at h
  split at h
  · next d hd =>
    cases h
    exact ⟨d, hd, rfl⟩
  · cases h

namespace Composed

variable {P : ∀ {α : Type}, Reading α → Prop} (hP : Composed P)

include hP

theorem map {r : Reading α} (hr : P r) (f : α → β) : P (f <$> r) := by
  rw [map_eq_pure_bind]
  exact hP.bind hr fun _ ↦ hP.pure _

theorem bindCursor {r : Cursor.Reader α} {f : α → Cursor.Reader β} (hr : P (onCursor r))
    (hf : ∀ a, P (onCursor (f a))) : P (onCursor (r >>= f)) := by
  rw [onCursor_bind]
  exact hP.bind hr hf

theorem mapCursor {r : Cursor.Reader α} (hr : P (onCursor r)) (f : α → β) :
    P (onCursor (f <$> r)) := by
  rw [map_eq_pure_bind]
  exact hP.bindCursor hr fun _ ↦ hP.pure _

theorem int32 : P (onCursor Cursor.int32) :=
  hP.bindCursor (hP.bytes 4) fun _ ↦ hP.pure _

theorem word64 : P (onCursor Cursor.word64) :=
  hP.bindCursor (hP.bytes 8) fun _ ↦ hP.pure _

theorem length : P (onCursor Cursor.length) := by
  refine hP.bindCursor hP.int32 fun n ↦ ?_
  split
  · exact hP.fail trivial
  · exact hP.pure _

theorem readMany {r : Cursor.Reader α} (hr : P (onCursor r)) (n : Nat) (done : List α) :
    P (onCursor (readMany r done n)) := by
  induction n generalizing done with
  | zero => exact hP.pure _
  | succ n ih => exact hP.bindCursor hr fun a ↦ ih (a :: done)

theorem readCounted {r : Cursor.Reader α} (hr : P (onCursor r)) :
    P (onCursor (readCounted r)) :=
  hP.bindCursor hP.length fun n ↦ hP.readMany hr n []

theorem readDouble : P (onCursor readDouble) :=
  hP.bindCursor hP.word64 fun _ ↦ hP.pure _

theorem atomsReader {type : TypeCode} {r : Cursor.Reader Atoms}
    (h : atomsReader? type = some r) : P (onCursor r) := by
  unfold atomsReader? at h
  split at h <;> cases h
  · exact hP.mapCursor (hP.readCounted (hP.bindCursor hP.int32 fun _ ↦ hP.pure _)) _
  · exact hP.mapCursor (hP.readCounted hP.int32) _
  · exact hP.mapCursor (hP.readCounted hP.readDouble) _
  · exact hP.mapCursor (hP.readCounted
      (hP.bindCursor hP.readDouble fun _ ↦ hP.bindCursor hP.readDouble fun _ ↦ hP.pure _)) _
  · exact hP.mapCursor (hP.bindCursor hP.length fun n ↦ hP.bytes n) _

theorem require {checked : Except Error α}
    (h : ∀ err, checked = .error err → err.Ordinary) : P (require checked) := by
  unfold Item.require
  split
  · exact hP.pure _
  · next err => exact hP.fail (h err rfl)

theorem readLead : P readLead :=
  hP.position (f := fun p ↦ onCursor Cursor.int32 >>= fun w ↦ Pure.pure (Lead.mk p ⟨w⟩))
    fun _ ↦ hP.bind hP.int32 fun _ ↦ hP.pure _

theorem readReference (flags : FlagWord) : P (readReference flags) := by
  have resolve (i : Int32) : P (do Item.require ((← get).table.resolve i)) := by
    refine hP.table (f := fun t ↦ Item.require (t.resolve i)) fun t ↦ hP.require fun err h ↦ ?_
    unfold ReferenceTable.resolve at h
    split at h <;> cases h
    trivial
  unfold Item.readReference
  split
  · exact hP.bind hP.int32 resolve
  · exact hP.bind (hP.pure _) resolve

theorem readChars (origin : Origin) : P (readChars origin) := by
  refine hP.bind hP.int32 fun n ↦ ?_
  split
  · exact hP.pure _
  · split
    · exact hP.fail trivial
    · refine hP.bind (hP.bytes _) fun bytes ↦ ?_
      split
      · exact hP.bind (hP.warn _ rfl) fun _ ↦ hP.pure _
      · exact hP.bind (hP.pure _) fun _ ↦ hP.pure _

theorem bindAttributes (v : Value) : P (bindAttributes v) := by
  unfold Item.bindAttributes
  split
  · exact hP.pure _
  · exact hP.fail trivial

theorem requireTag (v : Value) : P (Item.require (tagOf v)) := by
  refine hP.require fun err h ↦ ?_
  unfold tagOf at h
  split at h <;> cases h
  trivial

theorem registered (v : Value) : P (Item.register v) := by
  cases v with
  | char name => exact hP.register name
  | null | symbol _ | vector _ _ _ _ | list _ _ _ _ | pair _ _ _ _ _ _ _ =>
    exact hP.fail trivial

end Composed

theorem compositional_advances : Compositional (Advances 0) where
  pure := advances_pure
  fail _ := advances_throw 0 _
  unsupported _ := advances_throw 0 _
  bind hr hf := hr.bind hf
  position hf := advances_get.bind fun _ ↦ hf _
  table hf := advances_get.bind fun _ ↦ hf _
  bytes n := (advances_onCursor (Cursor.spends_bytes n)).mono (Nat.zero_le _)
  warn event _ := advances_note event
  item _ _ _ := advances_note _
  register name := advances_register (.char name)

end Item

end Rds
