import Rds.Cursor.Spending
import Rds.Item.Step

namespace Rds.Item

open Cursor

variable {α β : Type}

theorem spends_readMany {r : Cursor.Reader α} (hr : Spends 0 r) (n : Nat) (done : List α) :
    Spends 0 (readMany r done n) := by
  induction n generalizing done with
  | zero => exact spends_pure _
  | succ n ih => exact hr.bind fun a ↦ ih (a :: done)

theorem spends_readCounted {r : Cursor.Reader α} (hr : Spends 0 r) : Spends 0 (readCounted r) :=
  (spends_length.bind fun n ↦ spends_readMany hr n []).mono (Nat.zero_le _)

theorem spends_readDouble : Spends 0 readDouble :=
  (spends_word64.bind fun _ ↦ spends_pure _).mono (Nat.zero_le _)

theorem spends_readComplex : Spends 0 readComplex :=
  spends_readDouble.bind fun _ ↦ spends_readDouble.bind fun _ ↦ spends_pure _

theorem spends_readLogical : Spends 0 readLogical :=
  (spends_int32.bind fun _ ↦ spends_pure _).mono (Nat.zero_le _)

theorem spends_readRaw : Spends 0 readRaw :=
  (spends_length.bind fun n ↦ (spends_bytes n).mono (Nat.zero_le _)).mono (Nat.zero_le _)

theorem spends_atomsReader {t : TypeCode} {r : Cursor.Reader Atoms}
    (h : atomsReader? t = some r) : Spends 0 r := by
  unfold atomsReader? at h
  split at h <;> cases h
  · exact (spends_readCounted spends_readLogical).map _
  · exact (spends_readCounted (spends_int32.mono (Nat.zero_le _))).map _
  · exact (spends_readCounted spends_readDouble).map _
  · exact (spends_readCounted spends_readComplex).map _
  · exact spends_readRaw.map _

/-- A step of reading that spends `k` bytes or more whenever it succeeds. -/
def Advances (k : Nat) (r : Reading α) : Prop :=
  ∀ s a t, r s = .ok a t → t.cursor.remaining + k ≤ s.cursor.remaining

theorem advances_pure (a : α) : Advances 0 (pure a) := by
  intro s b t h
  rw [EStateM.pure_eq_ok] at h
  rw [h.2]
  exact Nat.le_refl _

theorem advances_throw (k : Nat) (e : Error) : Advances k (throw e : Reading α) :=
  fun _ _ _ h ↦ absurd h EStateM.throw_ne_ok

theorem Advances.bind {j k : Nat} {r : Reading α} {f : α → Reading β} (hr : Advances j r)
    (hf : ∀ a, Advances k (f a)) : Advances (j + k) (r >>= f) := by
  intro s b t h
  obtain ⟨a, u, h, h'⟩ := EStateM.bind_eq_ok.mp h
  have := hr s a u h
  have := hf a u b t h'
  omega

theorem Advances.mono {j k : Nat} {r : Reading α} (hr : Advances k r) (h : j ≤ k) :
    Advances j r :=
  fun s a t hs ↦ Nat.le_trans (Nat.add_le_add_left h _) (hr s a t hs)

theorem advances_onCursor {k : Nat} {r : Cursor.Reader α} (hr : Spends k r) :
    Advances k (onCursor r) := by
  intro s a t h
  unfold onCursor at h
  split at h
  · next b c hc =>
    cases h
    exact hr _ _ _ hc
  · cases h

theorem advances_note (event : Event) : Advances 0 (note event) := by
  intro s a t h
  cases h
  exact Nat.le_refl _

theorem advances_get : Advances 0 (get : Reading Progress) := by
  intro s a t h
  cases h
  exact Nat.le_refl _

theorem advances_require (checked : Except Error α) : Advances 0 (require checked) := by
  unfold require
  split
  · exact advances_pure _
  · exact advances_throw 0 _

theorem advances_bindAttributes (v : Value) : Advances 0 (bindAttributes v) := by
  unfold bindAttributes
  split
  · exact advances_pure _
  · exact advances_throw 0 _

theorem advances_register (v : Value) : Advances 0 (register v) := by
  unfold register
  split
  · intro s a t h
    cases h
    exact Nat.le_refl _
  · exact advances_throw 0 _

theorem advances_readLead : Advances 4 readLead :=
  advances_get.bind fun _ ↦ (advances_onCursor spends_int32).bind fun _ ↦ advances_pure _

theorem advances_readReference (flags : FlagWord) : Advances 0 (readReference flags) := by
  have rest : ∀ i, Advances 0 (do require ((← get).table.resolve i) : Reading Value) :=
    fun _ ↦ advances_get.bind fun _ ↦ advances_require _
  unfold readReference
  split
  · exact ((advances_onCursor spends_int32).bind rest).mono (Nat.zero_le _)
  · exact (advances_pure _).bind rest

theorem advances_readChars (origin : Origin) : Advances 0 (readChars origin) := by
  refine ((advances_onCursor spends_int32).bind (k := 0) fun n ↦ ?_).mono (Nat.zero_le _)
  split
  · exact advances_pure _
  · split
    · exact advances_throw 0 _
    · refine ((advances_onCursor (spends_bytes _)).bind (k := 0) fun bytes ↦ ?_).mono
        (Nat.zero_le _)
      split
      · exact (advances_note _).bind fun _ ↦ advances_pure _
      · exact (advances_pure _).bind fun _ ↦ advances_pure _

def Next.weight : Next → Nat
  | .item => 0
  | .done _ => 1
  | .itemBehind _ => 2

def Config.load (c : Config) : Nat := c.stack.height + c.next.weight

/-- From a place with `r` bytes ahead to one with `r'` bytes ahead: the load is `b` at most, and
two more for every word of four bytes in between. -/
def Paid (b load r r' : Nat) : Prop := ∃ words, r' + 4 * words ≤ r ∧ load ≤ b + 2 * words

def Within (b : Nat) (r : Reading Config) : Prop :=
  ∀ s c t, r s = .ok c t → Paid b c.load s.cursor.remaining t.cursor.remaining

theorem within_pure {b : Nat} {c : Config} (h : c.load ≤ b) : Within b (pure c) := by
  intro s d t hs
  rw [EStateM.pure_eq_ok] at hs
  rw [← hs.1, ← hs.2]
  exact ⟨0, Nat.le_refl _, h⟩

theorem within_throw (b : Nat) (e : Error) : Within b (throw e) :=
  fun _ _ _ h ↦ absurd h EStateM.throw_ne_ok

theorem Advances.within {b : Nat} {r : Reading α} {f : α → Reading Config}
    (hr : Advances 0 r) (hf : ∀ a, Within b (f a)) : Within b (r >>= f) := by
  intro s c t h
  obtain ⟨a, u, h, h'⟩ := EStateM.bind_eq_ok.mp h
  have := hr s a u h
  obtain ⟨words, hrest, hload⟩ := hf a u c t h'
  exact ⟨words, by omega, hload⟩

theorem within_readLead {b : Nat} {f : Lead → Reading Config}
    (hf : ∀ lead, Within (b + 2) (f lead)) : Within b (readLead >>= f) := by
  intro s c t h
  obtain ⟨lead, u, h, h'⟩ := EStateM.bind_eq_ok.mp h
  have := advances_readLead s lead u h
  obtain ⟨words, hrest, hload⟩ := hf lead u c t h'
  exact ⟨words + 1, by omega, by omega⟩

variable (e : Setting)

theorem load_close (lead : Lead) (p : Payload) (stack : Stack) :
    (close e lead p stack).load ≤ stack.height + 1 := by
  unfold close
  split <;> exact Nat.le_refl _

theorem load_awaitNext (frame : Nat → Frame) (lead : Lead) (payload : Payload) (stack : Stack)
    (n : Nat) : (awaitNext e frame lead payload stack n).load ≤ stack.height + 1 := by
  cases n with
  | zero => exact load_close e _ _ _
  | succ n => exact Nat.le_refl _

theorem within_enterAs (lead : Lead) (stack : Stack) (type : TypeCode) :
    Within (stack.height + 1) (enterAs e lead stack type) := by
  unfold enterAs
  split
  · exact within_pure (Nat.le_refl _)
  · exact within_pure (Nat.le_refl _)
  · exact (advances_readReference _).within fun _ ↦ within_pure (Nat.le_refl _)
  · refine (advances_readChars _).within fun content ↦ ?_
    split
    · exact (advances_note _).within fun _ ↦ within_pure (Nat.le_refl _)
    · exact within_pure (Nat.le_refl _)
  · split
    · exact within_throw _ _
    · exact within_pure (Nat.le_refl _)
  · exact ((advances_onCursor spends_length).mono (Nat.zero_le _)).within fun n ↦
      within_pure (load_awaitNext e _ _ _ _ n)
  · exact ((advances_onCursor spends_length).mono (Nat.zero_le _)).within fun n ↦
      within_pure (load_awaitNext e _ _ _ _ n)
  · split
    · next r _ _ hr =>
      exact (advances_onCursor (spends_atomsReader hr)).within fun _ ↦
        within_pure (load_close e _ _ _)
    · exact within_pure (Nat.le_refl _)
    · exact within_throw _ _

theorem within_enter (lead : Lead) (stack : Stack) :
    Within (stack.height + 1) (enter e lead stack) := by
  unfold enter
  split
  · exact within_throw _ _
  · split
    · exact within_throw _ _
    · exact advances_get.within fun _ ↦ (advances_note _).within fun _ ↦ within_enterAs e _ _ _

theorem within_follow (closed : List Cell) (stack : Stack) :
    Within (stack.height + 1) (follow closed stack) := by
  refine within_readLead fun lead ↦ ?_
  split
  · exact within_pure (Nat.le_add_right (stack.height + 1) 2)
  · exact within_pure (Nat.le_refl _)

theorem within_deliver (v : Value) (stack : Stack) (frame : Frame) :
    Within (stack.height + 1) (deliver e v stack frame) := by
  unfold deliver
  split
  · exact within_pure (load_awaitNext e _ _ _ _ _)
  · split
    · exact within_pure (load_awaitNext e _ _ _ _ _)
    · exact within_throw _ _
  · exact (advances_bindAttributes v).within fun _ ↦ within_pure (Nat.le_refl _)
  · exact within_pure (Nat.le_refl _)
  · exact (advances_register v).within fun _ ↦ within_pure (Nat.le_refl _)
  · unfold deliverPart
    split
    · exact (advances_bindAttributes v).within fun _ ↦ within_pure (Nat.le_refl _)
    · exact (advances_require _).within fun _ ↦ within_pure (Nat.le_refl _)
    · exact within_follow _ _
  · exact within_pure (Nat.le_refl _)

/-- A step lowers the load by one, but for what the words that it reads pay for. -/
theorem load_step {c d : Config} {s t : Progress} (h : step e c s = .ok (.inr d) t) :
    Paid c.load (d.load + 1) s.cursor.remaining t.cursor.remaining := by
  obtain ⟨stack, next⟩ := c
  unfold step at h
  cases next with
  | item =>
    obtain ⟨lead, u, hu, h⟩ := EStateM.bind_eq_ok.mp h
    obtain ⟨_, h, hd⟩ := EStateM.map_eq_ok.mp h
    cases hd
    have := advances_readLead _ _ _ hu
    obtain ⟨words, hrest, hload⟩ := within_enter e lead stack _ _ _ h
    refine ⟨words + 1, by omega, ?_⟩
    simp only [Config.load, Next.weight] at hload ⊢
    omega
  | itemBehind lead =>
    obtain ⟨_, h, hd⟩ := EStateM.map_eq_ok.mp h
    cases hd
    obtain ⟨words, hrest, hload⟩ := within_enter e lead stack _ _ _ h
    refine ⟨words, hrest, ?_⟩
    simp only [Config.load, Next.weight] at hload ⊢
    omega
  | done v =>
    cases hpop : stack.pop? with
    | none =>
      simp only [hpop] at h
      cases h
    | some top =>
      obtain ⟨frame, rest⟩ := top
      simp only [hpop] at h
      obtain ⟨_, h, hd⟩ := EStateM.map_eq_ok.mp h
      cases hd
      obtain ⟨words, hrest, hload⟩ := within_deliver e v rest frame _ _ _ h
      have := Stack.pop?_height hpop
      refine ⟨words, hrest, ?_⟩
      simp only [Config.load, Next.weight] at hload ⊢
      omega

/-- The bytes ahead and the load fall with every step. -/
def burden (c : Config) (s : Progress) : Nat := s.cursor.remaining + c.load

theorem burden_step_lt {c d : Config} {s t : Progress} (h : step e c s = .ok (.inr d) t) :
    burden d t < burden c s := by
  obtain ⟨words, hrest, hload⟩ := load_step e h
  unfold burden
  omega

end Rds.Item
