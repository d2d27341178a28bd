import Rds.Proofs.Logging
import Rds.Proofs.Refusal

namespace Rds

/-- Where an item was begun, behind its flag word, and inside how many others. -/
structure Mark where
  offset : Nat
  depth : Nat

namespace Event

def mark? : Event → Option Mark
  | item _ offset depth => some ⟨offset, depth⟩
  | _ => none

def index? : Event → Option Nat
  | registered _ index => some index
  | _ => none

def isClosing : Event → Bool
  | ignoredTrailing _ => true
  | finished _ => true
  | _ => false

end Event

namespace Records

open Item Locality

variable {α β γ : Type} {e : Setting} {c d : Config} {s t : Progress} {lead : Lead} {stack : Stack}

def marks (log : Log) : List Mark := log.filterMap Event.mark?

def indices (log : Log) : List Nat := log.filterMap Event.index?

def closings (log : Log) : Log := log.filter Event.isClosing

theorem progress_bind (r : Reading α) (f : α → Reading β) (s : Progress) :
    progress ((r >>= f) s) = progress (r s) ∨
      ∃ a t, r s = .ok a t ∧ progress ((r >>= f) s) = progress (f a t) := by
  cases h : r s with
  | ok a t => exact .inr ⟨a, t, rfl, congrArg progress (EStateM.bind_of_ok h f)⟩
  | error err t => exact .inl (congrArg progress (EStateM.bind_of_error h f))

theorem log_onCursor (r : Cursor.Reader α) (s : Progress) :
    (progress (onCursor r s)).log = s.log ∧ (progress (onCursor r s)).table = s.table := by
  unfold onCursor
  cases r s.cursor <;> exact ⟨rfl, rfl⟩

/-- Nothing that a reading notes can be seen through `view`. -/
def Unseen (view : Log → γ) (r : Reading α) : Prop := ∀ s, view (progress (r s)).log = view s.log

section Unseen

variable {view : Log → γ}

theorem Unseen.bind {r : Reading α} {f : α → Reading β} (hr : Unseen view r)
    (hf : ∀ a, Unseen view (f a)) : Unseen view (r >>= f) := by
  intro s
  obtain h | ⟨a, t, hs, h⟩ := progress_bind r f s
  · rw [h]
    exact hr s
  · have hrs := hr s
    rw [hs] at hrs
    rw [h, hf a t]
    exact hrs

theorem unseen_onCursor (r : Cursor.Reader α) : Unseen view (onCursor r) :=
  fun s ↦ congrArg view (log_onCursor r s).1

theorem composed_unseen
    (hwarn : ∀ (event : Event) log, event.level = .warn → view (event :: log) = view log)
    (hregister : ∀ name index log, view (.registered name index :: log) = view log) :
    Composed (Unseen view) where
  pure _ _ := rfl
  fail _ _ := rfl
  bind := Unseen.bind
  position hf s := hf s.cursor.position s
  table hf s := hf s.table s
  bytes _ := unseen_onCursor _
  warn event h s := hwarn event s.log h
  register name s := hregister name _ s.log

end Unseen

theorem marks_of_warn (event : Event) (log : Log) (h : event.level = .warn) :
    marks (event :: log) = marks log := by
  cases event <;> first | rfl | cases h

theorem closings_of_warn (event : Event) (log : Log) (h : event.level = .warn) :
    closings (event :: log) = closings log := by
  cases event <;> first | rfl | cases h

theorem indices_of_warn (event : Event) (log : Log) (h : event.level = .warn) :
    indices (event :: log) = indices log := by
  cases event <;> first | rfl | cases h

section Marks

def origin : Mark := ⟨0, 0⟩

def latest (marks : List Mark) : Mark := marks.headD origin

def Follows (m m' : Mark) : Prop := m.offset + 4 ≤ m'.offset ∧ m'.depth ≤ m.depth + 1

structure Paced (maxDepth : Nat) (marks : List Mark) : Prop where
  chain : (marks ++ [origin]).IsChain fun m' m ↦ Follows m m'
  depth : ∀ m ∈ marks, 1 ≤ m.depth ∧ m.depth ≤ maxDepth

theorem paced_nil (maxDepth : Nat) : Paced maxDepth [] :=
  ⟨.singleton origin, fun _ hm ↦ absurd hm List.not_mem_nil⟩

theorem Paced.cons {maxDepth : Nat} {ms : List Mark} {m : Mark} (h : Paced maxDepth ms)
    (hf : Follows (latest ms) m) (hpos : 1 ≤ m.depth) (hle : m.depth ≤ maxDepth) :
    Paced maxDepth (m :: ms) := by
  constructor
  · cases ms with
    | nil => exact List.isChain_cons_cons.mpr ⟨hf, h.chain⟩
    | cons m' ms => exact List.isChain_cons_cons.mpr ⟨hf, h.chain⟩
  · intro m' hm'
    obtain rfl | hm' := List.mem_cons.mp hm'
    · exact ⟨hpos, hle⟩
    · exact h.depth m' hm'

/-- The bytes that have been read ahead of the item that they begin. -/
def wordInHand : Next → Nat
  | .itemBehind _ => 4
  | _ => 0

/-- Where a run stands after the items it has begun. -/
structure Tracked (e : Setting) (c : Config) (s : Progress) : Prop where
  paced : Paced e.maxDepth (marks s.log)
  offset_le : (latest (marks s.log)).offset + wordInHand c.next ≤ s.cursor.position
  height_le : c.stack.height ≤ (latest (marks s.log)).depth

structure Quiet (r : Reading α) : Prop where
  unseen : Unseen marks r
  position_le : ∀ s, s.cursor.position ≤ (progress (r s)).cursor.position

theorem quiet_of_composed {r : Reading α}
    (h : ∀ {P : ∀ {α : Type}, Reading α → Prop}, Composed P → P r) : Quiet r :=
  ⟨h (composed_unseen marks_of_warn fun _ _ _ ↦ rfl),
    (h compositional_local.toComposed).position_le⟩

theorem quiet_readLead : Quiet readLead := quiet_of_composed fun hP ↦ hP.readLead

theorem quiet_deliver (e : Setting) (v : Value) (stack : Stack) (frame : Frame) :
    Quiet (deliver e v stack frame) :=
  quiet_of_composed fun hP ↦ composed_deliver e hP v stack frame

theorem quiet_enterAs (e : Setting) (lead : Lead) (stack : Stack) (type : TypeCode) :
    Quiet (enterAs e lead stack type) := by
  by_cases h : type.code ∈ implemented
  · exact quiet_of_composed fun hP ↦ composed_enterAs e hP lead stack h
  · rw [enterAs_of_not_implemented e lead stack h]
    exact ⟨fun _ ↦ rfl, fun _ ↦ Nat.le_refl _⟩

/-- How a reading leaves a run that goes on with the configuration it leads to. -/
structure Tracks (e : Setting) (r : Reading Config) (s : Progress) : Prop where
  paced : Paced e.maxDepth (marks (progress (r s)).log)
  tracked : ∀ d t, r s = .ok d t → Tracked e d t

theorem Quiet.tracks {r : Reading Config} {height : Nat} (hr : Quiet r) (hd : Settles height r)
    (hp : Paced e.maxDepth (marks s.log)) (ho : (latest (marks s.log)).offset ≤ s.cursor.position)
    (hh : height + 1 ≤ (latest (marks s.log)).depth) : Tracks e r s := by
  have hm := hr.unseen s
  have hle := hr.position_le s
  refine ⟨by rwa [hm], fun d t h ↦ ?_⟩
  rw [h] at hm hle
  change marks t.log = marks s.log at hm
  obtain ⟨hnext, hheight⟩ := hd s d t h
  rw [← hm] at hp ho hh
  refine ⟨hp, ?_, Nat.le_trans hheight hh⟩
  cases hn : d.next with
  | itemBehind lead => exact absurd hn (hnext lead)
  | _ => exact Nat.le_trans ho hle

def begin (s : Progress) (type : TypeCode) (height : Nat) : Progress :=
  { s with log := .item type s.cursor.position (height + 1) :: s.log }

theorem enter_cases (e : Setting) (lead : Lead) (stack : Stack) (s : Progress) :
    (∃ err, enter e lead stack s = .error err s) ∨
      ∃ type, stack.height < e.maxDepth ∧
        enter e lead stack s = enterAs e lead stack type (begin s type stack.height) := by
  unfold enter
  cases TypeCode.ofCode? lead.flags.typeByte with
  | none => exact .inl ⟨_, rfl⟩
  | some type =>
    dsimp only
    by_cases hd : e.maxDepth ≤ stack.height
    · rw [if_pos hd]
      exact .inl ⟨_, rfl⟩
    · rw [if_neg hd]
      exact .inr ⟨type, Nat.lt_of_not_le hd, rfl⟩

theorem tracks_enter (lead : Lead) (hp : Paced e.maxDepth (marks s.log))
    (ho : (latest (marks s.log)).offset + 4 ≤ s.cursor.position)
    (hh : stack.height ≤ (latest (marks s.log)).depth) : Tracks e (enter e lead stack) s := by
  obtain ⟨err, h⟩ | ⟨type, hd, h⟩ := enter_cases e lead stack s
  · exact ⟨by rwa [h], by rw [h]; exact nofun⟩
  · have hbegun : Paced e.maxDepth (marks (begin s type stack.height).log) :=
      hp.cons (m := ⟨s.cursor.position, stack.height + 1⟩) ⟨ho, Nat.succ_le_succ hh⟩
        (Nat.le_add_left 1 _) hd
    obtain ⟨hpaced, htracked⟩ := (quiet_enterAs e lead stack type).tracks
      (settles_enterAs lead stack type) hbegun (Nat.le_refl _) (Nat.le_refl _)
    exact ⟨by rwa [h], by rwa [h]⟩

theorem Tracks.inr {r : Reading Config} (h : Tracks e r s) :
    Paced e.maxDepth
        (marks (progress ((r >>= fun d ↦ (pure (.inr d) : Reading (Value ⊕ Config))) s)).log) ∧
      ∀ d t, (r >>= fun d ↦ (pure (.inr d) : Reading (Value ⊕ Config))) s = .ok (.inr d) t →
        Tracked e d t := by
  obtain ⟨hp, ht⟩ := h
  cases hs : r s with
  | ok d t =>
    rw [hs] at hp
    rw [EStateM.bind_of_ok hs]
    refine ⟨hp, ?_⟩
    rintro _ _ ⟨⟩
    exact ht d t hs
  | error err t =>
    rw [hs] at hp
    rw [EStateM.bind_of_error hs]
    exact ⟨hp, nofun⟩

theorem tracked_behindCar (closed : List Cell) (stack : Stack) (lead : Lead)
    (hp : Paced e.maxDepth (marks s.log))
    (ho : (latest (marks s.log)).offset + 4 ≤ s.cursor.position)
    (hh : stack.height + 1 ≤ (latest (marks s.log)).depth) :
    Tracked e (behindCar closed stack lead) s := by
  unfold behindCar
  split
  · exact ⟨hp, Nat.le_trans (Nat.le_add_right _ 4) ho, hh⟩
  · exact ⟨hp, ho, hh⟩

theorem tracked_step (h : Tracked e c s) :
    Paced e.maxDepth (marks (progress (step e c s)).log) ∧
      ∀ d t, step e c s = .ok (.inr d) t → Tracked e d t := by
  obtain ⟨hp, ho, hh⟩ := h
  -- A step that reads a flag word begins its item at once or, behind a car, leaves it to the next.
  cases hf : onLead? e c with
  | some f =>
    rw [step_eq_readLead e hf]
    have hm := quiet_readLead.unseen s
    cases hread : readLead s with
    | error err t =>
      rw [hread] at hm
      rw [EStateM.bind_of_error hread]
      refine ⟨?_, nofun⟩
      change marks t.log = marks s.log at hm
      rw [← hm] at hp
      exact hp
    | ok lead t =>
      rw [hread] at hm
      change marks t.log = marks s.log at hm
      obtain ⟨-, hmoves⟩ := Account.readLead_eq_ok hread
      have hposition : t.cursor.position = s.cursor.position + 4 := by
        rw [hmoves.position, FlagWord.length_bytes]
      rw [← hm] at hp ho hh
      have ho' : (latest (marks t.log)).offset + 4 ≤ t.cursor.position := by omega
      rw [EStateM.bind_of_ok hread]
      obtain ⟨-, rfl⟩ | ⟨closed, stack, hheight, rfl⟩ := onLead?_cases hf
      · exact (tracks_enter lead hp ho' hh).inr
      · rw [hheight] at hh
        refine ⟨hp, ?_⟩
        rintro _ _ ⟨⟩
        exact tracked_behindCar closed stack lead hp ho' hh
  | none =>
    obtain ⟨stack, next⟩ := c
    cases next with
    | item => cases hf
    | itemBehind lead =>
      rw [step_itemBehind]
      exact (tracks_enter lead hp ho hh).inr
    | done v =>
      cases hpop : stack.pop? with
      | none =>
        rw [step_done_of_none hpop]
        exact ⟨hp, nofun⟩
      | some top =>
        obtain ⟨frame, rest⟩ := top
        have hheight : rest.height + 1 ≤ (latest (marks s.log)).depth :=
          Stack.pop?_height hpop ▸ hh
        rw [step_done hpop]
        exact ((quiet_deliver e v rest frame).tracks (settles_deliver hpop hf) hp ho hheight).inr

/-- Whatever stops a run, the items that it has begun are paced. -/
theorem paced_run (h : Tracked e c s) : Paced e.maxDepth (marks (progress (run e c s)).log) := by
  fun_induction run e c s with
  | case1 c s v t hstep =>
    have hp := (tracked_step h).1
    rw [hstep] at hp
    exact hp
  | case2 c s d t hstep ih => exact ih ((tracked_step h).2 d t hstep)
  | case3 c s err t hstep =>
    have hp := (tracked_step h).1
    rw [hstep] at hp
    exact hp

end Marks

section Counts

/-- As many symbols have been registered as the table holds, each under the index that was next. -/
def Counted (s : Progress) : Prop := indices s.log = (List.range' 1 s.table.size).reverse

def Counts (r : Reading α) : Prop := ∀ s, Counted s → Counted (progress (r s))

theorem Counts.bind {r : Reading α} {f : α → Reading β} (hr : Counts r) (hf : ∀ a, Counts (f a)) :
    Counts (r >>= f) := by
  intro s hc
  have hrs := hr s hc
  obtain h | ⟨a, t, hs, h⟩ := progress_bind r f s
  · rwa [h]
  · rw [hs] at hrs
    rw [h]
    exact hf a t hrs

theorem counts_onCursor (r : Cursor.Reader α) : Counts (onCursor r) := by
  intro s hc
  obtain ⟨hlog, htable⟩ := log_onCursor r s
  rwa [Counted, hlog, htable]

theorem counts_register (name : Chars) : Counts (register (.char name)) := by
  intro s hc
  have hsize : (s.table.push (.symbol name)).size = s.table.size + 1 := Array.size_push _
  change (s.table.push (.symbol name)).size :: indices s.log =
    (List.range' 1 (s.table.push (.symbol name)).size).reverse
  rw [hsize, List.range'_1_concat, List.reverse_append, hc, Nat.add_comm 1]
  rfl

theorem compositional_counts : Compositional Counts where
  pure _ _ hc := hc
  fail _ _ hc := hc
  unsupported _ _ hc := hc
  bind := Counts.bind
  position hf s := hf s.cursor.position s
  table hf s := hf s.table s
  bytes _ := counts_onCursor _
  warn event h s hc := (indices_of_warn event s.log h).trans hc
  item _ _ _ _ hc := hc
  register := counts_register

end Counts

theorem compositional_unseen_closings : Compositional (Unseen closings) where
  toComposed := composed_unseen closings_of_warn fun _ _ _ ↦ rfl
  unsupported _ _ := rfl
  item _ _ _ _ := rfl

theorem counts_read (e : Setting) : Counts (read e) := by
  intro s hc
  obtain ⟨r, hr, heq⟩ := Descent.exists_read_eq e compositional_counts (fun _ _ hc ↦ hc)
    s.cursor.remaining
  rw [heq s (Nat.le_refl _)]
  exact hr s hc

theorem unseen_read (e : Setting) : Unseen closings (read e) := by
  intro s
  obtain ⟨r, hr, heq⟩ := Descent.exists_read_eq e compositional_unseen_closings (fun _ _ ↦ rfl)
    s.cursor.remaining
  rw [heq s (Nat.le_refl _)]
  exact hr s

structure Bare (log : Log) : Prop where
  marks : marks log = []
  indices : indices log = []
  closings : closings log = []

section Root

variable {log : Log} (content : List UInt8)

theorem counted_root (e : Setting) (h : Bare log) :
    Counted (progress (root e (.start content log))) := by
  have hroot : Counts (root e) :=
    (counts_onCursor _).bind fun _ ↦ Counts.bind (fun _ hc ↦ hc) fun _ ↦
      (counts_read e).bind fun _ _ hc ↦ hc
  exact hroot _ h.indices

theorem closings_root (e : Setting) (h : Bare log) :
    closings (progress (root e (.start content log))).log = [] := by
  have hroot : Unseen closings (root e) :=
    (unseen_onCursor _).bind fun _ ↦ Unseen.bind (fun _ ↦ rfl) fun _ ↦
      (unseen_read e).bind fun _ _ ↦ rfl
  exact (hroot _).trans h.closings

theorem progress_root (e : Setting) (s : Progress) :
    progress (root e s) = progress (onCursor Header.read s) ∨
      ∃ header t, onCursor Header.read s = .ok header t ∧
        progress (root e s) = progress (read e { t with log := .header header :: t.log }) := by
  obtain h | ⟨header, t, ht, h⟩ := progress_bind (onCursor Header.read)
    (fun header ↦ note (.header header) >>= fun _ ↦ read e >>= fun v ↦ pure (header, v)) s
  · exact .inl h
  · refine .inr ⟨header, t, ht, h.trans ?_⟩
    rw [EStateM.bind_of_ok note_eq]
    obtain hv | ⟨v, u, hu, hv⟩ := progress_bind (read e)
      (fun v ↦ (pure (header, v) : Reading (Header × Value)))
      { t with log := .header header :: t.log }
    · exact hv
    · rw [hv, hu]
      rfl

theorem paced_root (e : Setting) (h : Bare log) :
    Paced e.maxDepth (marks (progress (root e (.start content log))).log) := by
  have hlog := (log_onCursor Header.read (.start content log)).1
  obtain hr | ⟨header, t, ht, hr⟩ := progress_root e (.start content log)
  · rw [hr, hlog]
    exact h.marks ▸ paced_nil e.maxDepth
  · rw [ht] at hlog
    change t.log = log at hlog
    have hmarks : marks (.header header :: t.log) = [] := by
      rw [hlog]
      exact h.marks
    rw [hr]
    refine paced_run ⟨?_, ?_, ?_⟩
    · rw [hmarks]
      exact paced_nil e.maxDepth
    · rw [hmarks]
      exact Nat.zero_le _
    · rw [hmarks]
      exact Nat.le_refl _

end Root

end Records

end Rds
