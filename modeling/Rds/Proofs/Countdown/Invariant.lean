import Rds.Proofs.Countdown

namespace Rds

def Item.Payload.length : Item.Payload → Nat
  | .atoms a => a.length
  | .elements values => values.length

theorem Wire.Data.bytes_eq (data : Wire.Data) :
    ∃ back, data.bytes = lengthBytes data.length ++ back := by
  cases data with
  | logical items | integer items | double items | complex items | raw items => exact ⟨_, rfl⟩

namespace Countdown

open Item Wire

variable {α : Type} {e : Setting} {s₀ s t : Progress} {lead : Lead} {stack : List Frame}
  {frame : Frame}

/-- The flag word of an item stands at its offset in the bytes ahead of `s₀`, and these bytes
stand behind it. -/
def Precedes (s₀ : Progress) (lead : Lead) (back : List UInt8) : Prop :=
  ∃ front, s₀.cursor.rest = front ++ (lead.flags.bytes ++ back) ∧
    lead.offset = s₀.cursor.position + front.length

/-- The length field behind the flag word of an item holds `n`. -/
def Declares (s₀ : Progress) (lead : Lead) (n : Nat) : Prop :=
  n < 2 ^ 31 ∧ ∃ back, Precedes s₀ lead (lengthBytes n ++ back)

def Ahead (s₀ s : Progress) : Prop :=
  ∃ front, s₀.cursor.rest = front ++ s.cursor.rest ∧
    s.cursor.position = s₀.cursor.position + front.length

theorem Ahead.precedes (h : Ahead s₀ s) (hl : readLead s = .ok lead t) :
    Precedes s₀ lead t.cursor.rest := by
  obtain ⟨front, hrest, hposition⟩ := h
  obtain ⟨hoffset, hm⟩ := Account.readLead_eq_ok hl
  exact ⟨front, by rw [hrest, hm.rest], by rw [hoffset, hposition]⟩

/-- What holds of every frame on the stack. -/
def Frame.Sound (s₀ : Progress) : Frame → Prop
  | .list lead elements remaining =>
    1 ≤ remaining ∧ Declares s₀ lead (elements.length + remaining)
  | .strings lead elements remaining =>
    1 ≤ remaining ∧ Declares s₀ lead (elements.length + remaining)
  | .attributes lead payload => Declares s₀ lead payload.length
  | .chain ⟨cells, current⟩ =>
    current.step ≠ .cdr ∧
      (current.step = .attributes → current.lead.flags.hasAttributes = true) ∧
      (current.step = .tag → current.lead.flags.hasTag = true) ∧
      (current.step = .tail → cells ≠ [])
  | _ => True

theorem sound_car {cells : List Cell} {c : OpenCell} (h : c.step = .car) :
    (Frame.chain ⟨cells, c⟩).Sound s₀ := by
  unfold Frame.Sound
  simp [h]

theorem sound_tail {cells : List Cell} {c : OpenCell} (h : c.step = .tail) (hc : cells ≠ []) :
    (Frame.chain ⟨cells, c⟩).Sound s₀ := by
  unfold Frame.Sound
  simp [h, hc]

theorem Frame.Sound.waits (h : frame.Sound s₀) : frame.Waits := by
  cases frame with
  | list _ _ remaining | strings _ _ remaining => exact Nat.ne_of_gt h.1
  | chain c => exact h.1
  | _ => trivial

structure Stands (e : Setting) (s₀ : Progress) (stack : List Frame) : Prop where
  height : stack.length ≤ e.maxDepth
  frames : ∀ frame ∈ stack, frame.Sound s₀

structure Room (e : Setting) (s₀ : Progress) (stack : List Frame) : Prop where
  height : stack.length < e.maxDepth
  frames : ∀ frame ∈ stack, frame.Sound s₀

theorem Room.stands (h : Room e s₀ stack) : Stands e s₀ stack :=
  ⟨Nat.le_of_lt h.height, h.frames⟩

theorem Room.push (h : Room e s₀ stack) (hf : frame.Sound s₀) : Stands e s₀ (frame :: stack) :=
  ⟨h.height, List.forall_mem_cons.mpr ⟨hf, h.frames⟩⟩

theorem Stands.pop (h : Stands e s₀ (frame :: stack)) : Room e s₀ stack :=
  ⟨h.height, fun _ hf ↦ h.frames _ (List.mem_cons_of_mem _ hf)⟩

structure Config.Sound (e : Setting) (s₀ : Progress) (c : Config) (s : Progress) : Prop where
  ahead : Ahead s₀ s
  stands : Stands e s₀ c.stack
  word : ∀ lead, c.next = .itemBehind lead → Precedes s₀ lead s.cursor.rest

def Turn.Sound (e : Setting) (s₀ : Progress) (t : Progress) : Turn → Prop
  | .onward c =>
    Stands e s₀ c.stack ∧ ∀ lead, c.next = .itemBehind lead → Precedes s₀ lead t.cursor.rest
  | .vector lead payload stack => Room e s₀ stack ∧ Declares s₀ lead payload.length
  | .link cells _ stack => Stands e s₀ stack ∧ cells ≠ []

theorem Turn.Sound.config {x : Turn} (h : x.Sound e s₀ t) (ha : Ahead s₀ t) :
    (x.config e).Sound e s₀ t := by
  cases x with
  | onward c => exact ⟨ha, h.1, h.2⟩
  | vector lead payload stack =>
    have hframe : (Frame.attributes lead payload).Sound s₀ := h.2
    rw [Turn.config, closeVector]
    split
    · exact ⟨ha, h.1.push hframe, nofun⟩
    · exact ⟨ha, h.1.stands, nofun⟩
  | link cells tail stack => exact ⟨ha, h.1, nofun⟩

/-- Whatever the step comes to is sound. -/
def Keeps (e : Setting) (s₀ : Progress) (r : Attempt Turn) (s : Progress) : Prop :=
  ∀ x t, r s = .ok x t → x.Sound e s₀ t

theorem keeps_pure {x : Turn} (h : x.Sound e s₀ s) : Keeps e s₀ (pure x) s := by
  rintro _ _ ⟨⟩
  exact h

theorem keeps_throw (failure : Failure) : Keeps e s₀ (throw failure) s := nofun

theorem keeps_bind {r : Reading α} {f : α → Attempt Turn}
    (h : ∀ a u, r s = .ok a u → Keeps e s₀ (f a) u) : Keeps e s₀ (attempt r >>= f) s := by
  intro x t hx
  obtain ⟨a, u, ha, hx⟩ := EStateM.bind_eq_ok.mp hx
  exact h a u (attempt_eq_ok ha) x t hx

theorem Room.done (h : Room e s₀ stack) (v : Value) : Turn.Sound e s₀ t (.onward ⟨stack, .done v⟩) :=
  ⟨h.stands, nofun⟩

theorem Room.item (h : Room e s₀ stack) (hf : frame.Sound s₀) :
    Turn.Sound e s₀ t (.onward ⟨frame :: stack, .item⟩) :=
  ⟨h.push hf, nofun⟩

section Settle

variable (hroom : Room e s₀ stack)

include hroom

theorem keeps_settle {frame : Nat → Frame} {payload : Payload} (hc : Counts stack frame lead payload)
    (hsound : ∀ n, 1 ≤ n → Declares s₀ lead (payload.length + n) → (frame n).Sound s₀) {n : Nat}
    (h : Declares s₀ lead (payload.length + n)) : Keeps e s₀ (settle stack (frame n)) s := by
  cases n with
  | zero =>
    rw [hc.complete]
    exact keeps_pure ⟨hroom, h⟩
  | succ n =>
    rw [hc.further]
    exact keeps_pure (hroom.item (hsound (n + 1) (Nat.le_add_left 1 n) h))

theorem sound_start (kind : PairKind) (lead : Lead) (cells : List Cell) :
    Turn.Sound e s₀ t (.onward ⟨.chain ⟨cells, .start kind lead⟩ :: stack, .item⟩) := by
  refine hroom.item ?_
  unfold Frame.Sound OpenCell.start
  dsimp only
  cases lead.flags.hasAttributes <;> cases lead.flags.hasTag <;> simp

theorem keeps_settle_cdr (ha : Ahead s₀ s) {c : OpenCell} (h : c.step = .cdr) {cells : List Cell}
    (hc : cells ≠ []) : Keeps e s₀ (settle stack (.chain ⟨cells, c⟩)) s := by
  rw [settle, if_pos h]
  refine keeps_bind fun next u hu ↦ ?_
  split
  · exact keeps_pure (sound_start hroom _ _ _)
  · refine keeps_pure ⟨hroom.push (sound_tail rfl hc), ?_⟩
    rintro _ ⟨⟩
    exact ha.precedes hu

end Settle

theorem declares_length {n : Nat} (hl : Precedes s₀ lead s.cursor.rest)
    (hn : onCursor Cursor.length s = .ok n t) : Declares s₀ lead n := by
  obtain ⟨hlt, hrest⟩ := onCursor_spelled Cursor.spells_length hn
  exact ⟨hlt, t.cursor.rest, hrest ▸ hl⟩

theorem declares_atoms {type : TypeCode} {r : Cursor.Reader Atoms} {atoms : Atoms}
    (hl : Precedes s₀ lead s.cursor.rest) (hr : atomsReader? type = some r)
    (ha : onCursor r s = .ok atoms t) : Declares s₀ lead atoms.length := by
  obtain ⟨d, hd, -⟩ := onCursor_eq_ok ha
  obtain ⟨data, rfl, hlt, hrest⟩ := Data.spelled hr hd
  rw [Data.onCursor_read hlt hr hrest] at ha
  cases ha
  obtain ⟨back, hback⟩ := data.bytes_eq
  rw [hrest, hback, List.append_assoc] at hl
  exact data.length_atoms ▸ ⟨hlt, _, hl⟩

theorem keeps_beginAs (hroom : Room e s₀ stack) (hl : Precedes s₀ lead s.cursor.rest)
    (type : TypeCode) : Keeps e s₀ (beginAs e lead stack type) s := by
  unfold beginAs
  split
  · split
    · exact keeps_pure (sound_start hroom _ _ _)
    · exact keeps_throw _
  · split
    · exact keeps_pure (hroom.done _)
    · exact keeps_pure (hroom.done _)
    · exact keeps_bind fun _ _ _ ↦ keeps_pure (hroom.done _)
    · refine keeps_bind fun _ _ _ ↦ ?_
      split
      · exact keeps_bind fun _ _ _ ↦ keeps_pure (hroom.item trivial)
      · exact keeps_pure (hroom.done _)
    · split
      · exact keeps_throw _
      · exact keeps_pure (hroom.item trivial)
    · refine keeps_bind fun n u hn ↦ keeps_settle hroom (counts_list ..) (fun _ ↦ And.intro) ?_
      exact (Nat.zero_add n).symm ▸ declares_length hl hn
    · refine keeps_bind fun n u hn ↦ keeps_settle hroom (counts_strings ..) (fun _ ↦ And.intro) ?_
      exact (Nat.zero_add n).symm ▸ declares_length hl hn
    · split
      · next hr => exact keeps_bind fun _ _ ha ↦ keeps_pure ⟨hroom, declares_atoms hl hr ha⟩
      · exact keeps_throw _

theorem keeps_begin (h : Stands e s₀ stack) (hl : Precedes s₀ lead s.cursor.rest) :
    Keeps e s₀ (begin e lead stack) s := by
  unfold begin
  split
  · exact keeps_throw _
  · split
    · exact keeps_throw _
    · next hd =>
      refine keeps_bind fun p u hu ↦ keeps_bind fun _ w hw ↦ ?_
      cases hu
      cases hw
      refine keeps_beginAs ⟨Nat.lt_of_not_le hd, h.frames⟩ ?_ _
      exact hl

theorem sound_afterAttributes {c : OpenCell} (cells : List Cell) (attributes : Attributes) :
    (Frame.chain ⟨cells, { c with attributes, step := c.afterAttributes }⟩).Sound s₀ := by
  unfold Frame.Sound OpenCell.afterAttributes
  dsimp only
  cases c.lead.flags.hasTag <;> simp

theorem keeps_feedChain (hroom : Room e s₀ stack) (ha : Ahead s₀ s) (v : Value)
    {cells : List Cell} {c : OpenCell} (h : (Frame.chain ⟨cells, c⟩).Sound s₀) :
    Keeps e s₀ (feedChain e v stack cells c) s := by
  obtain ⟨-, -, -, htail⟩ := h
  unfold feedChain
  split
  · refine keeps_bind fun attributes _ _ ↦ ?_
    rw [settle_chain stack (afterAttributes_ne_cdr c)]
    exact keeps_pure (hroom.item (sound_afterAttributes cells attributes))
  · exact keeps_bind fun _ _ _ ↦ keeps_pure (hroom.item (sound_car rfl))
  · exact keeps_settle_cdr hroom ha rfl (List.append_ne_nil_of_right_ne_nil _ (List.cons_ne_nil _ _))
  · next hstep => exact keeps_pure ⟨hroom.stands, htail hstep⟩
  · exact keeps_throw _

/-- An element handed over and the count taken down are the number declared, as before. -/
theorem Declares.next {n m : Nat} (h : Declares s₀ lead (m + (n + 1))) :
    Declares s₀ lead (m + 1 + n) := by
  rwa [Nat.add_assoc, Nat.add_comm 1]

theorem keeps_feed (hroom : Room e s₀ stack) (ha : Ahead s₀ s) (v : Value)
    (h : frame.Sound s₀) : Keeps e s₀ (feed e v stack frame) s := by
  cases frame with
  | list lead elements remaining =>
    cases remaining with
    | zero => exact absurd h.1 (Nat.not_succ_le_zero 0)
    | succ n =>
      refine keeps_settle hroom (counts_list ..) (fun _ ↦ And.intro) ?_
      rw [Payload.length, List.length_append]
      exact h.2.next
  | strings lead elements remaining =>
    cases remaining with
    | zero => exact absurd h.1 (Nat.not_succ_le_zero 0)
    | succ n =>
      cases v with
      | char content =>
        refine keeps_settle hroom (counts_strings ..) (fun _ ↦ And.intro) ?_
        rw [Payload.length, Atoms.length, List.length_append]
        exact h.2.next
      | _ => exact keeps_throw _
  | attributes lead payload => exact keeps_bind fun _ _ _ ↦ keeps_pure (hroom.done _)
  | charAttributes content => exact keeps_pure (hroom.done _)
  | symbolName => exact keeps_bind fun _ _ _ ↦ keeps_pure (hroom.done _)
  | chain c => exact keeps_feedChain hroom ha v h

theorem keeps_inr {r : Attempt Turn} (h : Keeps e s₀ r s) {x : Turn}
    (hx : ((.inr <$> r : Attempt (Value ⊕ Turn)) s) = .ok (.inr x) t) : x.Sound e s₀ t := by
  obtain ⟨y, hy, hxy⟩ := EStateM.map_eq_ok.mp hx
  cases hxy
  exact h x t hy

theorem Config.Sound.keeps {c : Config} (h : c.Sound e s₀ s) {x : Turn}
    (hx : turn e c s = .ok (.inr x) t) : x.Sound e s₀ t := by
  obtain ⟨stack, next⟩ := c
  cases next with
  | item =>
    obtain ⟨lead, u, hl, hx⟩ := EStateM.bind_eq_ok.mp hx
    exact keeps_inr (keeps_begin h.stands (h.ahead.precedes (attempt_eq_ok hl))) hx
  | itemBehind lead => exact keeps_inr (keeps_begin h.stands (h.word lead rfl)) hx
  | done v =>
    cases stack with
    | nil => cases hx
    | cons frame stack =>
      exact keeps_inr (keeps_feed h.stands.pop h.ahead v
        (h.stands.frames frame List.mem_cons_self)) hx

section Turns

variable {c : Config}

theorem Config.Sound.waits (h : c.Sound e s₀ s) : ∀ frame ∈ c.stack, frame.Waits :=
  fun _ hf ↦ (h.stands.frames _ hf).waits

theorem step_of_turn_ok (h : ∀ frame ∈ c.stack, frame.Waits) {y : Value ⊕ Turn}
    (hy : turn e c s = .ok y t) :
    step e c.image s = .ok (y.map id (Turn.image e)) t := by
  apply attempt_eq_ok
  rw [← image_turn e h]
  exact EStateM.map_of_ok hy _

theorem step_of_turn_error (h : ∀ frame ∈ c.stack, frame.Waits) {failure : Failure}
    (hf : turn e c s = .error failure t) :
    ∃ err, failure = .error err ∧ step e c.image s = .error err t := by
  apply attempt_eq_error
  rw [← image_turn e h]
  exact EStateM.map_of_error hf _

theorem Ahead.trans {u : Progress} (h : Ahead s t) (h' : Ahead t u) : Ahead s u := by
  obtain ⟨front, hrest, hposition⟩ := h
  obtain ⟨back, hrest', hposition'⟩ := h'
  exact ⟨front ++ back, by rw [hrest, hrest', List.append_assoc],
    by rw [hposition', hposition, List.length_append, Nat.add_assoc]⟩

theorem ahead_of_step {c d : Item.Config} (h : step e c s = .ok (.inr d) t) : Ahead s t := by
  obtain ⟨front, hc⟩ := local_step e c s
  have hrest := hc.rest
  have hposition := hc.position
  rw [h] at hrest hposition
  exact ⟨front, hrest, hposition⟩

theorem Reaches.sound (h : Reaches e s₀ c s) : c.Sound e s₀ s := by
  induction h with
  | start => exact ⟨⟨[], rfl, rfl⟩, ⟨Nat.zero_le _, nofun⟩, nofun⟩
  | next _ hx ih =>
    exact (ih.keeps hx).config (ih.ahead.trans (ahead_of_step (step_of_turn_ok ih.waits hx)))

theorem Reaches.read_eq (h : Reaches e s₀ c s) : read e s₀ = run e c.image s := by
  induction h with
  | start => rfl
  | next h hx ih => rw [ih, run_of_inr (step_of_turn_ok h.sound.waits hx)]; rfl

theorem Reaches.ends (h : Reaches e s₀ c s) :
    ∃ d u, Reaches e s₀ d u ∧
      ((∃ v t, turn e d u = .ok (.inl v) t ∧ read e s₀ = .ok v t) ∨
        ∃ err t, turn e d u = .error (.error err) t ∧ read e s₀ = .error err t) := by
  induction hn : burden c.image s using Nat.strongRecOn generalizing c s with
  | ind n ih =>
    cases hx : turn e c s with
    | ok y t =>
      have hstep := step_of_turn_ok h.sound.waits hx
      cases y with
      | inl v => exact ⟨c, s, h, .inl ⟨v, t, hx, by rw [h.read_eq, run_of_inl hstep]; rfl⟩⟩
      | inr x => exact ih _ (hn ▸ burden_step_lt e hstep) (h.next hx) rfl
    | error failure t =>
      obtain ⟨err, rfl, hstep⟩ := step_of_turn_error h.sound.waits hx
      exact ⟨c, s, h, .inr ⟨err, t, hx, by rw [h.read_eq, run_of_error hstep]⟩⟩

end Turns

theorem read_eq_ok {v : Value} :
    read e s₀ = .ok v t ↔ ∃ c s, Reaches e s₀ c s ∧ turn e c s = .ok (.inl v) t := by
  constructor
  · intro h
    have hstart : Reaches e s₀ ⟨[], .item⟩ s₀ := .start
    obtain ⟨c, s, hr, ⟨v', t', hx, he⟩ | ⟨err, t', -, he⟩⟩ := hstart.ends
    · rw [h] at he
      cases he
      exact ⟨c, s, hr, hx⟩
    · rw [h] at he
      cases he
  · rintro ⟨c, s, hr, hx⟩
    rw [hr.read_eq, run_of_inl (step_of_turn_ok hr.sound.waits hx)]
    rfl

theorem read_eq_error {err : Error} :
    read e s₀ = .error err t ↔ ∃ c s, Reaches e s₀ c s ∧ turn e c s = .error (.error err) t := by
  constructor
  · intro h
    have hstart : Reaches e s₀ ⟨[], .item⟩ s₀ := .start
    obtain ⟨c, s, hr, ⟨v', t', -, he⟩ | ⟨err', t', hx, he⟩⟩ := hstart.ends
    · rw [h] at he
      cases he
    · rw [h] at he
      cases he
      exact ⟨c, s, hr, hx⟩
  · rintro ⟨c, s, hr, hx⟩
    obtain ⟨err', herr, hstep⟩ := step_of_turn_error hr.sound.waits hx
    cases herr
    rw [hr.read_eq, run_of_error hstep]

theorem isCell_of_implemented {type : TypeCode} (h : type.isCell = true) :
    type.code ∈ implemented := by
  cases type with
  | pairlist | language | closure | promise | dots => decide
  | _ => cases h

/-- A step never takes a count below zero and never meets a cell that is left behind its car. It
refuses no type for its own sake whose items are cells. -/
theorem Config.Sound.failure {c : Config} (h : c.Sound e s₀ s) {failure : Failure}
    (hf : turn e c s = .error failure t) :
    ∃ err, failure = .error err ∧ ∀ code, err = .unsupported (.type code) →
      ∀ type, TypeCode.ofCode? code = some type → type.isCell = false := by
  obtain ⟨err, rfl, hstep⟩ := step_of_turn_error h.waits hf
  refine ⟨err, rfl, ?_⟩
  rintro code rfl type ht
  cases hc : type.isCell with
  | false => rfl
  | true =>
    have hcode := isCell_of_implemented hc
    rw [TypeCode.code_of_ofCode? ht] at hcode
    exact absurd hcode (code_of_step hstep)

/-- Reading an item is a run of the machine that counts down. In every configuration that it
reaches the stack is within the limit of depth and its frames are sound. From there a step is one
of `Item`. A vector is complete with as many elements as its length field declares, a chain is
linked with one cell at least, and there are no failures but the errors of `Item`. -/
theorem stack_invariant (e : Setting) (s₀ : Progress) :
    (∀ v t, read e s₀ = .ok v t ↔
      ∃ c s, Reaches e s₀ c s ∧ turn e c s = .ok (.inl v) t) ∧
    (∀ err t, read e s₀ = .error err t ↔
      ∃ c s, Reaches e s₀ c s ∧ turn e c s = .error (.error err) t) ∧
    ∀ c s, Reaches e s₀ c s →
      c.stack.length ≤ e.maxDepth ∧ (∀ frame ∈ c.stack, frame.Sound s₀) ∧
      Sum.map id (Turn.image e) <$> turn e c = attempt (step e c.image) ∧
      (∀ lead payload stack t, turn e c s = .ok (.inr (.vector lead payload stack)) t →
        Declares s₀ lead payload.length) ∧
      (∀ cells tail stack t, turn e c s = .ok (.inr (.link cells tail stack)) t → cells ≠ []) ∧
      ∀ failure t, turn e c s = .error failure t →
        ∃ err, failure = .error err ∧ ∀ code, err = .unsupported (.type code) →
          ∀ type, TypeCode.ofCode? code = some type → type.isCell = false := by
  refine ⟨fun v t ↦ read_eq_ok, fun err t ↦ read_eq_error, fun c s h ↦ ?_⟩
  have hs := h.sound
  exact ⟨hs.stands.height, hs.stands.frames, image_turn e hs.waits,
    fun _ _ _ _ hx ↦ (hs.keeps hx).2, fun _ _ _ _ hx ↦ (hs.keeps hx).2, fun _ _ hf ↦ hs.failure hf⟩

/-- One of two elements of a list has been read. -/
example : ∃ s, Reaches ⟨2, 0⟩ (.start [0, 0, 0, 19, 0, 0, 0, 2, 0, 0, 0, 254] [])
    ⟨[.list ⟨0, ⟨19⟩⟩ [.null] 1], .item⟩ s :=
  ⟨_, .next (x := .onward _) (.next (x := .onward _) (.next (x := .onward _) .start rfl) rfl) rfl⟩

end Countdown

end Rds
