import Rds.Proofs.Descent.Agreement

namespace Rds

namespace Item.Progress

def ahead (s : Progress) (bytes : List UInt8) : Progress :=
  { s with cursor := ⟨s.cursor.position, bytes⟩ }

end Item.Progress

namespace Locality

open Item

variable {α β : Type}

abbrev Outcome (α : Type) := EStateM.Result Error Progress α

def progress : Outcome α → Progress
  | .ok _ t => t
  | .error _ t => t

def mapProgress (f : Progress → Progress) : Outcome α → Outcome α
  | .ok a t => .ok a (f t)
  | .error err t => .error err (f t)

def Truncated (o : Outcome α) : Prop :=
  ∃ needed remaining t, o = .error (.truncated needed remaining) t

theorem not_truncated_ok (a : α) (t : Progress) : ¬ Truncated (.ok a t) := nofun

/-- From `s` the reading consumes `front`. Unless it misses bytes, what lies behind `front`
does not matter to it, and no shorter front is enough for it. -/
structure Consumes (r : Reading α) (s : Progress) (front : List UInt8) : Prop where
  rest : s.cursor.rest = front ++ (progress (r s)).cursor.rest
  position : (progress (r s)).cursor.position = s.cursor.position + front.length
  extend : ¬ Truncated (r s) → ∀ more,
    r (s.ahead (front ++ more)) = mapProgress (·.ahead more) (r s)
  cut : ¬ Truncated (r s) → ∀ k < front.length, Truncated (r (s.ahead (front.take k)))

theorem Consumes.length_le {r : Reading α} {s : Progress} {front : List UInt8}
    (h : Consumes r s front) : front.length ≤ s.cursor.remaining := by
  rw [Cursor.remaining, h.rest, List.length_append]
  exact Nat.le_add_right _ _

theorem Consumes.nil {r : Reading α} {s : Progress}
    (hc : (progress (r s)).cursor = s.cursor)
    (he : ∀ more, r (s.ahead more) = mapProgress (·.ahead more) (r s)) :
    Consumes r s [] where
  rest := by rw [hc, List.nil_append]
  position := by rw [hc, List.length_nil, Nat.add_zero]
  extend _ more := he more
  cut _ k hk := absurd hk (Nat.not_lt_zero k)

theorem Consumes.bind_error {r : Reading α} {f : α → Reading β} {s t : Progress} {err : Error}
    {front : List UInt8} (h : Consumes r s front) (hr : r s = .error err t) :
    Consumes (r >>= f) s front := by
  have hs : (r >>= f) s = .error err t := EStateM.bind_of_error hr f
  obtain ⟨hrest, hposition, hextend, hcut⟩ := h
  rw [hr] at hrest hposition hextend hcut
  have ht : ¬ Truncated ((r >>= f) s) → ¬ Truncated (.error err t : Outcome α) := by
    rintro h ⟨needed, remaining, u, he⟩
    cases he
    exact h ⟨needed, remaining, t, hs⟩
  refine ⟨?_, ?_, fun hn more ↦ ?_, fun hn k hk ↦ ?_⟩
  · rw [hs]
    exact hrest
  · rw [hs]
    exact hposition
  · rw [hs]
    exact EStateM.bind_of_error (hextend (ht hn) more) f
  · obtain ⟨needed, remaining, u, he⟩ := hcut (ht hn) k hk
    exact ⟨needed, remaining, u, EStateM.bind_of_error he f⟩

theorem Consumes.bind_ok {r : Reading α} {f : α → Reading β} {s t : Progress} {a : α}
    {front back : List UInt8} (h : Consumes r s front) (hr : r s = .ok a t)
    (h' : Consumes (f a) t back) : Consumes (r >>= f) s (front ++ back) := by
  have hs : (r >>= f) s = f a t := EStateM.bind_of_ok hr f
  obtain ⟨hrest, hposition, hextend, hcut⟩ := h
  rw [hr] at hrest hposition hextend hcut
  have hn := not_truncated_ok a t
  have hfront (more : List UInt8) : (r >>= f) (s.ahead (front ++ more)) = f a (t.ahead more) :=
    EStateM.bind_of_ok (hextend hn more) f
  refine ⟨?_, ?_, fun hb more ↦ ?_, fun hb k hk ↦ ?_⟩
  · rw [hs, List.append_assoc, ← h'.rest]
    exact hrest
  · rw [hs, h'.position, List.length_append, ← Nat.add_assoc]
    exact congrArg (· + back.length) hposition
  · rw [hs] at hb ⊢
    rw [List.append_assoc, hfront]
    exact h'.extend hb more
  · rw [hs] at hb
    rw [List.take_append]
    by_cases hkf : k < front.length
    · obtain ⟨needed, remaining, u, he⟩ := hcut hn k hkf
      rw [Nat.sub_eq_zero_of_le (Nat.le_of_lt hkf), List.take_zero, List.append_nil]
      exact ⟨needed, remaining, u, EStateM.bind_of_error he f⟩
    · rw [List.take_of_length_le (Nat.le_of_not_lt hkf), hfront]
      rw [List.length_append] at hk
      exact h'.cut hb _ (by omega)

/-- Wherever it starts, the reading looks at nothing but what it consumes. -/
def Local (r : Reading α) : Prop := ∀ s, ∃ front, Consumes r s front

theorem Local.bind {r : Reading α} {f : α → Reading β} (hr : Local r) (hf : ∀ a, Local (f a)) :
    Local (r >>= f) := by
  intro s
  obtain ⟨front, h⟩ := hr s
  cases hs : r s with
  | ok a t =>
    obtain ⟨back, h'⟩ := hf a t
    exact ⟨front ++ back, h.bind_ok hs h'⟩
  | error err t => exact ⟨front, h.bind_error hs⟩

theorem Local.advances {r : Reading α} (hr : Local r) : Advances 0 r := by
  intro s a t h
  obtain ⟨front, hc⟩ := hr s
  have hrest := hc.rest
  rw [h] at hrest
  rw [Cursor.remaining, Cursor.remaining, hrest, List.length_append]
  exact Nat.le_add_left _ _

theorem onCursor_bytes_ok {n : Nat} {s : Progress} {front back : List UInt8}
    (hl : front.length = n) (hs : s.cursor.rest = front ++ back) :
    onCursor (Cursor.bytes n) s = .ok front { s with cursor := ⟨s.cursor.position + n, back⟩ } := by
  have hn : n ≤ s.cursor.remaining := by
    rw [Cursor.remaining, hs, List.length_append, hl]
    exact Nat.le_add_right _ _
  rw [onCursor, Cursor.bytes_ok hn, Cursor.advance, hs, List.take_left' hl, List.drop_left' hl]

theorem onCursor_bytes_error {n : Nat} {s : Progress} (h : s.cursor.remaining < n) :
    onCursor (Cursor.bytes n) s = .error (.truncated n s.cursor.remaining) s := by
  rw [onCursor, Cursor.bytes_error h]

theorem local_bytes (n : Nat) : Local (onCursor (Cursor.bytes n)) := by
  intro s
  by_cases hn : n ≤ s.cursor.remaining
  · have hl : (s.cursor.rest.take n).length = n := Cursor.front_length_eq_iff.mpr hn
    have hrest := (List.take_append_drop n s.cursor.rest).symm
    have hs := onCursor_bytes_ok hl hrest
    refine ⟨s.cursor.rest.take n, ?_, ?_, fun _ more ↦ ?_, fun _ k hk ↦ ?_⟩
    · rw [hs]
      exact hrest
    · rw [hs, hl]
      rfl
    · rw [hs, onCursor_bytes_ok hl rfl]
      rfl
    · refine ⟨_, _, _, onCursor_bytes_error ?_⟩
      exact Nat.lt_of_le_of_lt (List.length_take_le k _) (hl ▸ hk)
  · have hs := onCursor_bytes_error (Nat.lt_of_not_le hn)
    have ht : Truncated (onCursor (Cursor.bytes n) s) := ⟨_, _, _, hs⟩
    refine ⟨[], ?_, ?_, fun h ↦ absurd ht h, fun h ↦ absurd ht h⟩
    · rw [hs]
      rfl
    · rw [hs]
      rfl

theorem local_note (event : Event) : Local (note event) := fun _ ↦ ⟨[], .nil rfl fun _ ↦ rfl⟩

theorem compositional_local : Compositional Local where
  pure a s := ⟨[], .nil rfl fun _ ↦ rfl⟩
  fail _ s := ⟨[], .nil rfl fun _ ↦ rfl⟩
  unsupported _ s := ⟨[], .nil rfl fun _ ↦ rfl⟩
  bind := Local.bind
  position {_ f} hf s := by
    obtain ⟨front, h⟩ := hf s.cursor.position s
    exact ⟨front, h.rest, h.position, h.extend, h.cut⟩
  table {_ f} hf s := by
    obtain ⟨front, h⟩ := hf s.table s
    exact ⟨front, h.rest, h.position, h.extend, h.cut⟩
  bytes := local_bytes
  warn event _ := local_note event
  item _ _ _ := local_note _
  register name s := ⟨[], .nil rfl fun _ ↦ rfl⟩

theorem local_item (e : Setting) (n depth : Nat) : Local (Descent.item e n depth) :=
  (Descent.compositional_item_rest e compositional_local
    (fun _ _ ↦ ⟨[], .nil rfl fun _ ↦ rfl⟩) n).1 depth

theorem exists_consumes_item (e : Setting) (s : Progress) :
    ∃ front, ∀ n ≥ s.cursor.remaining, Consumes (Descent.item e n 0) s front := by
  obtain ⟨front, h⟩ := local_item e s.cursor.remaining 0 s
  refine ⟨front, fun n hn ↦ ?_⟩
  obtain ⟨front', h'⟩ := local_item e n 0 s
  have hs : Descent.item e n 0 s = Descent.item e s.cursor.remaining 0 s :=
    (Descent.read_eq_item e hn).symm.trans (Descent.read_eq_item e (Nat.le_refl _))
  have hrest := h'.rest
  rw [hs, h.rest, List.append_left_inj] at hrest
  rwa [hrest]

theorem local_read (e : Setting) : Local (read e) := by
  intro s
  obtain ⟨front, h⟩ := exists_consumes_item e s
  have hl := (h _ (Nat.le_refl _)).length_le
  have hs (n : Nat) (hn : s.cursor.remaining ≤ n) : read e s = Descent.item e n 0 s :=
    Descent.read_eq_item e hn
  refine ⟨front, ?_, ?_, fun ht more ↦ ?_, fun ht k hk ↦ ?_⟩
  · rw [hs _ (Nat.le_refl _)]
    exact (h _ (Nat.le_refl _)).rest
  · rw [hs _ (Nat.le_refl _)]
    exact (h _ (Nat.le_refl _)).position
  · have hn : s.cursor.remaining ≤ s.cursor.remaining + more.length := Nat.le_add_right _ _
    have hm : (s.ahead (front ++ more)).cursor.remaining ≤ s.cursor.remaining + more.length := by
      simp only [Progress.ahead, Cursor.remaining, List.length_append] at hl ⊢
      omega
    rw [hs _ hn] at ht ⊢
    rw [Descent.read_eq_item e hm]
    exact (h _ hn).extend ht more
  · have hk' : (s.ahead (front.take k)).cursor.remaining ≤ s.cursor.remaining :=
      Nat.le_trans (List.length_take_le' k front) hl
    rw [hs _ (Nat.le_refl _)] at ht
    rw [Descent.read_eq_item e hk']
    exact (h _ (Nat.le_refl _)).cut ht k hk

end Locality

end Rds
