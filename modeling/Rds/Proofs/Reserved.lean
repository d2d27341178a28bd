import Rds.Proofs.Lockstep

namespace Rds

def wordAt (bytes : List UInt8) (offset : Nat) : FlagWord :=
  ⟨(UInt32.ofNat (bigEndian ((bytes.drop offset).take 4))).toInt32⟩

namespace Item

def implemented : List UInt8 := [0, 1, 2, 3, 5, 6, 9, 10, 13, 14, 15, 16, 17, 19, 24, 254, 255]

theorem enterAs_of_not_implemented (e : Setting) (lead : Lead) (stack : Stack) {type : TypeCode}
    (h : type.code ∉ implemented) :
    enterAs e lead stack type = throw (.unsupported (.type lead.flags.typeByte)) := by
  cases type <;> first | rfl | exact absurd (by decide) h

section Composed

variable (e : Setting) {P : ∀ {α : Type}, Reading α → Prop} (hP : Composed P)

include hP

theorem composed_enterAs (lead : Lead) (stack : Stack) {type : TypeCode}
    (h : type.code ∈ implemented) : P (enterAs e lead stack type) := by
  unfold enterAs
  split
  · exact hP.pure _
  · exact hP.pure _
  · exact hP.bind (hP.readReference _) fun _ ↦ hP.pure _
  · refine hP.bind (hP.readChars _) fun content ↦ ?_
    split
    · exact hP.bind (hP.warn _ rfl) fun _ ↦ hP.pure _
    · exact hP.pure _
  · split
    · exact hP.fail trivial
    · exact hP.pure _
  · exact hP.bind hP.length fun _ ↦ hP.pure _
  · exact hP.bind hP.length fun _ ↦ hP.pure _
  · split
    · next hr => exact hP.bind (hP.atomsReader hr) fun _ ↦ hP.pure _
    · exact hP.pure _
    · cases type <;> contradiction

theorem composed_deliver (v : Value) (stack : Stack) (frame : Frame) :
    P (deliver e v stack frame) := by
  unfold deliver
  split
  · exact hP.pure _
  · split
    · exact hP.pure _
    · exact hP.fail trivial
  · exact hP.bind (hP.bindAttributes v) fun _ ↦ hP.pure _
  · exact hP.pure _
  · exact hP.bind (hP.registered v) fun _ ↦ hP.pure _
  · unfold deliverPart
    split
    · exact hP.bind (hP.bindAttributes v) fun _ ↦ hP.pure _
    · exact hP.bind (hP.requireTag v) fun _ ↦ hP.pure _
    · rw [follow_eq]
      exact hP.bind hP.readLead fun _ ↦ hP.pure _
  · exact hP.pure _

end Composed

section Machine

variable (e : Setting) {P : ∀ {α : Type}, Reading α → Prop} (hP : Compositional P)
  (hlimit : ∀ k, P (throw (.depthLimit k) : Reading Config))

include hP

theorem compositional_enterAs (lead : Lead) (stack : Stack) (type : TypeCode) :
    P (enterAs e lead stack type) := by
  by_cases h : type.code ∈ implemented
  · exact composed_enterAs e hP.toComposed lead stack h
  · rw [enterAs_of_not_implemented e lead stack h]
    exact hP.unsupported _

include hlimit

theorem compositional_enter (lead : Lead) (stack : Stack) : P (enter e lead stack) := by
  unfold enter
  split
  · exact hP.throw nofun
  · split
    · exact hlimit _
    · next type _ _ =>
      exact hP.position (f := fun p ↦
          note (.item type p (stack.height + 1)) >>= fun _ ↦ enterAs e lead stack type)
        fun _ ↦ hP.bind (hP.item _ _ _) fun _ ↦ compositional_enterAs e hP _ _ _

theorem compositional_step (c : Config) : P (step e c) := by
  obtain ⟨stack, next⟩ := c
  cases next with
  | item =>
    exact hP.bind hP.readLead fun _ ↦ hP.map (compositional_enter e hP hlimit _ _) _
  | itemBehind lead => exact hP.map (compositional_enter e hP hlimit _ _) _
  | done v =>
    unfold step
    dsimp only
    split
    · exact hP.pure _
    · exact hP.map (composed_deliver e hP.toComposed _ _ _) _

theorem compositional_onLead {c : Config} {f : Lead → Reading (Value ⊕ Config)}
    (h : onLead? e c = some f) (lead : Lead) : P (f lead) := by
  obtain ⟨stack, next⟩ := c
  cases next with
  | item =>
    cases h
    exact hP.map (compositional_enter e hP hlimit _ _) _
  | itemBehind _ => cases h
  | done v =>
    rw [onLead?] at h
    dsimp only at h
    split at h
    · cases h
      exact hP.pure _
    · cases h

end Machine

namespace Progress

variable {s : Progress} {bytes : List UInt8}

def rebase (s : Progress) (bytes : List UInt8) : Progress := s.ahead (bytes.drop s.cursor.position)

def In (s : Progress) (bytes : List UInt8) : Prop :=
  s.cursor.rest = bytes.drop s.cursor.position

theorem In.rebase_eq (hs : s.In bytes) : s.rebase bytes = s := by
  rw [rebase, ahead, ← hs]

theorem in_rebase (s : Progress) (bytes : List UInt8) : (s.rebase bytes).In bytes := rfl

theorem remaining_rebase {bytes' : List UInt8} (hs : s.In bytes)
    (hl : bytes'.length = bytes.length) :
    (s.rebase bytes').cursor.remaining = s.cursor.remaining := by
  rw [Cursor.remaining, Cursor.remaining, in_rebase, hs, List.length_drop, List.length_drop, hl]
  rfl

end Progress

end Item

namespace Locality

open Item

variable {α : Type} {s : Progress} {bytes bytes' : List UInt8}

theorem mapProgress_congr {f g : Progress → Progress} {o : Outcome α}
    (h : f (progress o) = g (progress o)) : mapProgress f o = mapProgress g o := by
  cases o with
  | ok a t => exact congrArg (EStateM.Result.ok a) h
  | error err t => exact congrArg (EStateM.Result.error err) h

theorem mapProgress_id {f : Progress → Progress} {o : Outcome α} (h : f (progress o) = progress o) :
    mapProgress f o = o := by
  cases o with
  | ok a t => exact congrArg (EStateM.Result.ok a) h
  | error err t => exact congrArg (EStateM.Result.error err) h

theorem Local.in {r : Reading α} (hr : Local r) (hs : s.In bytes) : (progress (r s)).In bytes := by
  obtain ⟨front, h⟩ := hr s
  rw [Progress.In, h.position, ← List.drop_drop, ← hs, h.rest, List.drop_left]

theorem Local.position_le {r : Reading α} (hr : Local r) (s : Progress) :
    s.cursor.position ≤ (progress (r s)).cursor.position := by
  obtain ⟨front, h⟩ := hr s
  rw [h.position]
  exact Nat.le_add_right _ _

/-- Where the reading looks the two buffers agree. -/
def Agree (r : Reading α) (s : Progress) (bytes bytes' : List UInt8) : Prop :=
  ∀ k, s.cursor.position ≤ k → (k < (progress (r s)).cursor.position ∨ Truncated (r s)) →
    bytes'[k]? = bytes[k]?

theorem drop_eq_drop {p : Nat} (h : ∀ k, p ≤ k → bytes'[k]? = bytes[k]?) :
    bytes'.drop p = bytes.drop p := by
  refine List.ext_getElem? fun i ↦ ?_
  rw [List.getElem?_drop, List.getElem?_drop]
  exact h _ (Nat.le_add_right p i)

theorem take_drop_eq {p : Nat} {front back : List UInt8} (hfront : bytes.drop p = front ++ back)
    (h : ∀ k, p ≤ k → k < p + front.length → bytes'[k]? = bytes[k]?) :
    (bytes'.drop p).take front.length = front := by
  refine List.ext_getElem? fun i ↦ ?_
  by_cases hi : i < front.length
  · rw [List.getElem?_take, if_pos hi, List.getElem?_drop, h _ (by omega) (by omega),
      ← List.getElem?_drop, hfront, List.getElem?_append_left hi]
  · rw [List.getElem?_take, if_neg hi, List.getElem?_eq_none (Nat.le_of_not_lt hi)]

/-- A reading goes on in another buffer as it did, if the buffers agree where it looks. -/
theorem Local.rebase {r : Reading α} (hr : Local r) (hs : s.In bytes)
    (ha : Agree r s bytes bytes') : r (s.rebase bytes') = mapProgress (·.rebase bytes') (r s) := by
  by_cases ht : Truncated (r s)
  · have hdrop {p : Nat} (hp : s.cursor.position ≤ p) : bytes'.drop p = bytes.drop p :=
      drop_eq_drop fun k hk ↦ ha k (Nat.le_trans hp hk) (.inr ht)
    have hsame {t : Progress} (hp : s.cursor.position ≤ t.cursor.position) (h : t.In bytes) :
        t.rebase bytes' = t := by
      rw [Progress.rebase, hdrop hp]
      exact h.rebase_eq
    rw [hsame (Nat.le_refl _) hs, mapProgress_id (hsame (hr.position_le s) (hr.in hs))]
  · obtain ⟨front, h⟩ := hr s
    have hfront : bytes.drop s.cursor.position = front ++ (progress (r s)).cursor.rest :=
      hs.symm.trans h.rest
    have htake := take_drop_eq hfront fun k hk hlt ↦ ha k hk (.inl (h.position ▸ hlt))
    have hsplit : bytes'.drop s.cursor.position =
        front ++ bytes'.drop (progress (r s)).cursor.position := by
      rw [h.position, ← List.drop_drop]
      exact (htake ▸ List.take_append_drop front.length _).symm
    rw [Progress.rebase, hsplit, h.extend ht]
    exact mapProgress_congr rfl

end Locality

namespace Item

open Locality

variable {e : Setting} {c c' d : Config} {s t : Progress} {bytes bytes' : List UInt8}

theorem readLead_of_le (hs : s.In bytes) (h : 4 ≤ s.cursor.remaining) :
    readLead s = .ok ⟨s.cursor.position, wordAt bytes s.cursor.position⟩
      { s with cursor := s.cursor.advance 4 } := by
  have hword : onCursor Cursor.int32 s =
      .ok (wordAt bytes s.cursor.position).raw { s with cursor := s.cursor.advance 4 } := by
    rw [onCursor, Cursor.int32, EStateM.bind_of_ok (Cursor.bytes_ok h), hs]
    rfl
  have hget : (get : Reading Progress) s = .ok s s := rfl
  rw [readLead, EStateM.bind_of_ok hget, EStateM.bind_of_ok hword]
  rfl

theorem readLead_of_lt (h : s.cursor.remaining < 4) :
    readLead s = .error (.truncated 4 s.cursor.remaining) s := by
  have hword : onCursor Cursor.int32 s = .error (.truncated 4 s.cursor.remaining) s := by
    rw [onCursor, Cursor.int32, EStateM.bind_of_error (Cursor.bytes_error h)]
  have hget : (get : Reading Progress) s = .ok s s := rfl
  rw [readLead, EStateM.bind_of_ok hget, EStateM.bind_of_error hword]

theorem local_limit (k : Nat) : Local (throw (.depthLimit k) : Reading Config) :=
  fun _ ↦ ⟨[], .nil rfl fun _ ↦ rfl⟩

theorem local_step (e : Setting) (c : Config) : Local (step e c) :=
  compositional_step e compositional_local local_limit c

theorem local_onLead (e : Setting) {c : Config} {f : Lead → Reading (Value ⊕ Config)}
    (h : onLead? e c = some f) (lead : Lead) : Local (f lead) :=
  compositional_onLead e compositional_local local_limit h lead

def lead? (e : Setting) (c : Config) (s : Progress) : Option Lead :=
  match onLead? e c, readLead s with
  | some _, .ok lead _ => some lead
  | _, _ => none

def leads (e : Setting) (c : Config) (s : Progress) : List Lead :=
  match _h : step e c s with
  | .ok (.inr d) t => (lead? e c s).toList ++ leads e d t
  | .ok (.inl _) _ => (lead? e c s).toList
  | .error _ _ => (lead? e c s).toList
termination_by burden c s
decreasing_by exact burden_step_lt e _h

theorem leads_of_step (h : step e c s = .ok (.inr d) t) :
    leads e c s = (lead? e c s).toList ++ leads e d t := by
  rw [leads]
  split
  · next h' =>
    cases h.symm.trans h'
    rfl
  · next h' => cases h.symm.trans h'
  · next h' => cases h.symm.trans h'

theorem offset_eq_of_lead? (hs : s.In bytes) {lead : Lead} (h : lead? e c s = some lead) :
    4 ≤ s.cursor.remaining ∧ lead = ⟨s.cursor.position, wordAt bytes s.cursor.position⟩ := by
  unfold lead? at h
  split at h
  · next hread =>
    cases h
    by_cases hr : 4 ≤ s.cursor.remaining
    · rw [readLead_of_le hs hr] at hread
      cases hread
      exact ⟨hr, rfl⟩
    · rw [readLead_of_lt (Nat.lt_of_not_le hr)] at hread
      cases hread
  · cases h

theorem add_four_le_of_lead? (hs : s.In bytes) {lead : Lead} (h : lead? e c s = some lead) :
    lead.offset + 4 ≤ (progress (step e c s)).cursor.position := by
  obtain ⟨hr, rfl⟩ := offset_eq_of_lead? hs h
  unfold lead? at h
  split at h
  · next f _ _ hf _ =>
    rw [step_eq_readLead e hf, EStateM.bind_of_ok (readLead_of_le hs hr)]
    exact (local_onLead e hf _).position_le { s with cursor := s.cursor.advance 4 }
  · cases h

theorem le_offset_of_mem_leads (hs : s.In bytes) {lead : Lead} (h : lead ∈ leads e c s) :
    s.cursor.position ≤ lead.offset := by
  have hfirst {c : Config} {s : Progress} (hs : s.In bytes) (h : lead ∈ (lead? e c s).toList) :
      s.cursor.position ≤ lead.offset := by
    obtain ⟨-, rfl⟩ := offset_eq_of_lead? hs (Option.mem_toList.mp h)
    exact Nat.le_refl _
  fun_induction leads e c s with
  | case1 c s d t hstep ih =>
    rcases List.mem_append.mp h with h | h
    · exact hfirst hs h
    · have hin := (local_step e c).in hs
      have hle := (local_step e c).position_le s
      rw [hstep] at hin hle
      exact Nat.le_trans hle (ih hin h)
  | case2 c s _ _ _ => exact hfirst hs h
  | case3 c s _ _ _ => exact hfirst hs h

/-- What a step reads behind its own flag word ends before the next flag word. -/
theorem mem_leads (hs : s.In bytes) {lead : Lead} (h : lead ∈ leads e c s) :
    lead? e c s = some lead ∨
      ¬ Truncated (step e c s) ∧ (progress (step e c s)).cursor.position ≤ lead.offset := by
  unfold leads at h
  split at h
  · next d t hstep =>
    rcases List.mem_append.mp h with h | h
    · exact .inl (Option.mem_toList.mp h)
    · have hin := (local_step e c).in hs
      rw [hstep] at hin ⊢
      exact .inr ⟨not_truncated_ok _ _, le_offset_of_mem_leads hin h⟩
  · exact .inl (Option.mem_toList.mp h)
  · exact .inl (Option.mem_toList.mp h)

/-- From `p` on, the second buffer differs from the first one in reserved bits of flag words
only. -/
structure Respelled (leads : List Lead) (p : Nat) (bytes bytes' : List UInt8) : Prop where
  length : bytes'.length = bytes.length
  outside : ∀ k, p ≤ k → (∀ lead ∈ leads, k < lead.offset ∨ lead.offset + 4 ≤ k) →
    bytes'[k]? = bytes[k]?
  inside : ∀ lead ∈ leads, lead.flags.Alike (wordAt bytes' lead.offset)

theorem Respelled.agree (h : Respelled (leads e c s) s.cursor.position bytes bytes')
    (hs : s.In bytes) {r : Reading (Value ⊕ Config)} (hstep : step e c s = r t)
    (ht : s.cursor.position ≤ t.cursor.position)
    (hfirst : ∀ lead, lead? e c s = some lead → lead.offset + 4 ≤ t.cursor.position) :
    Agree r t bytes bytes' := by
  intro k hk hlook
  rw [← hstep] at hlook
  refine h.outside k (Nat.le_trans ht hk) fun lead hlead ↦ ?_
  rcases mem_leads hs hlead with hlead | ⟨hn, hle⟩
  · exact .inr (Nat.le_trans (hfirst lead hlead) hk)
  · rcases hlook with hlt | htruncated
    · exact .inl (Nat.lt_of_lt_of_le hlt hle)
    · exact absurd htruncated hn

theorem lead?_mem_leads {lead : Lead} (h : lead? e c s = some lead) : lead ∈ leads e c s := by
  unfold leads
  split
  · exact List.mem_append_left _ (Option.mem_toList.mpr h)
  · exact Option.mem_toList.mpr h
  · exact Option.mem_toList.mpr h

theorem paired_step (hc : c.Mirrors c') (hs : s.In bytes)
    (h : Respelled (leads e c s) s.cursor.position bytes bytes') :
    Paired Stepped (mapProgress (·.rebase bytes') (step e c s)) (step e c' (s.rebase bytes')) := by
  cases hf : onLead? e c with
  | none =>
    have hnone (lead : Lead) : lead? e c s ≠ some lead := by
      rw [lead?, hf]
      exact fun h ↦ by cases h
    have hagree := h.agree hs rfl (Nat.le_refl _) fun lead hl ↦ absurd hl (hnone lead)
    rw [← (local_step e c).rebase hs hagree]
    exact lockstep_step e hc hf _
  | some f =>
    obtain ⟨f', hf', hlock⟩ := lockstep_onLead e hc hf
    have hstep : step e c s = (readLead >>= f) s := by rw [step_eq_readLead e hf]
    rw [step_eq_readLead e hf']
    by_cases hr : 4 ≤ s.cursor.remaining
    · have hr' : 4 ≤ (s.rebase bytes').cursor.remaining := by
        rwa [Progress.remaining_rebase hs h.length]
      have hread := readLead_of_le hs hr
      have hread' := readLead_of_le (Progress.in_rebase s bytes') hr'
      have hlead : lead? e c s = some ⟨s.cursor.position, wordAt bytes s.cursor.position⟩ := by
        rw [lead?, hf, hread]
      have halike : Lead.Alike ⟨s.cursor.position, wordAt bytes s.cursor.position⟩
          ⟨s.cursor.position, wordAt bytes' s.cursor.position⟩ :=
        ⟨rfl, h.inside _ (lead?_mem_leads hlead)⟩
      rw [EStateM.bind_of_ok hread] at hstep
      rw [EStateM.bind_of_ok hread', hstep]
      have hin : Progress.In { s with cursor := s.cursor.advance 4 } bytes := by
        rw [Progress.In, Cursor.advance, ← List.drop_drop, ← hs]
      have hadvance : { s.rebase bytes' with cursor := (s.rebase bytes').cursor.advance 4 } =
          Progress.rebase { s with cursor := s.cursor.advance 4 } bytes' := by
        simp only [Progress.rebase, Progress.ahead, Cursor.advance, List.drop_drop]
      have hagree := h.agree hs hstep (Nat.le_add_right _ 4) fun lead hl ↦ by
        obtain ⟨-, rfl⟩ := offset_eq_of_lead? hs hl
        exact Nat.le_refl _
      rw [hadvance, ← (local_onLead e hf _).rebase hin hagree]
      exact hlock _ _ halike _
    · have hlt := Nat.lt_of_not_le hr
      have hlt' := hlt
      rw [← Progress.remaining_rebase hs h.length] at hlt'
      rw [hstep, EStateM.bind_of_error (readLead_of_lt hlt),
        EStateM.bind_of_error (readLead_of_lt hlt'), Progress.remaining_rebase hs h.length]
      exact .error _ _

theorem Respelled.of_step (h : Respelled (leads e c s) s.cursor.position bytes bytes')
    (hs : s.In bytes) (hstep : step e c s = .ok (.inr d) t) :
    Respelled (leads e d t) t.cursor.position bytes bytes' := by
  have hleads := leads_of_step hstep
  have hle := (local_step e c).position_le s
  rw [hstep] at hle
  refine ⟨h.length, fun k hk hclear ↦ h.outside k (Nat.le_trans hle hk) fun lead hlead ↦ ?_, ?_⟩
  · rw [hleads] at hlead
    rcases List.mem_append.mp hlead with hfirst | hlead
    · have hbehind := add_four_le_of_lead? hs (Option.mem_toList.mp hfirst)
      rw [hstep] at hbehind
      exact .inr (Nat.le_trans hbehind hk)
    · exact hclear lead hlead
  · intro lead hlead
    exact h.inside lead (hleads ▸ List.mem_append_right _ hlead)

theorem run_of_inl {v : Value} (h : step e c s = .ok (.inl v) t) : run e c s = .ok v t :=
  (congrFun (Descent.resume_eq e c) s).trans (EStateM.bind_of_ok h _)

theorem run_of_inr (h : step e c s = .ok (.inr d) t) : run e c s = run e d t :=
  (congrFun (Descent.resume_eq e c) s).trans (EStateM.bind_of_ok h _)

theorem run_of_error {err : Error} (h : step e c s = .error err t) :
    run e c s = .error err t :=
  (congrFun (Descent.resume_eq e c) s).trans (EStateM.bind_of_error h _)

theorem run_rebase (hc : c.Mirrors c') (hs : s.In bytes)
    (h : Respelled (leads e c s) s.cursor.position bytes bytes') :
    run e c' (s.rebase bytes') = mapProgress (·.rebase bytes') (run e c s) := by
  -- By induction on the first run; the second one is carried along as the outcome of its step.
  have hpaired := paired_step hc hs h
  generalize hstep' : step e c' (s.rebase bytes') = o at hpaired
  fun_induction run e c s generalizing c' o with
  | case1 c s v t hstep =>
    rw [hstep] at hpaired
    cases hpaired with
    | ok hv _ =>
      cases hv
      exact run_of_inl hstep'
  | case2 c s d t hstep ih =>
    rw [hstep] at hpaired
    cases hpaired with
    | ok hd _ =>
      cases hd with
      | inr hd =>
        have hin := (local_step e c).in hs
        rw [hstep] at hin
        have hrest := h.of_step hs hstep
        rw [run_of_inr hstep']
        exact ih hd hin hrest _ rfl (paired_step hd hin hrest)
  | case3 c s err t hstep =>
    rw [hstep] at hpaired
    cases hpaired with
    | error _ _ => exact run_of_error hstep'

/-- Reserved bits count for nothing: if a second buffer differs from the first one in reserved bits
of the flag words that are read, the same value or error comes from it, with the cursor at the same
offset and with the same table. -/
theorem read_respelled (hs : s.In bytes)
    (h : Respelled (leads e ⟨.empty, .item⟩ s) s.cursor.position bytes bytes') :
    read e (s.rebase bytes') = mapProgress (·.rebase bytes') (read e s) :=
  run_rebase ⟨.nil, .item⟩ hs h

def plainCell : List UInt8 := [0, 0, 0, 2, 0, 0, 0, 0, 0, 0, 0, 254]

def gaudyCell : List UInt8 := [255, 255, 248, 2, 255, 255, 255, 0, 255, 255, 255, 254]

theorem read_gaudyCell :
    Respelled (leads ⟨3, 0⟩ ⟨.empty, .item⟩ (.start plainCell [])) 0 plainCell gaudyCell ∧
      ∃ v t, read ⟨3, 0⟩ (.start plainCell []) = .ok v t ∧ v.kind = .pair .list ∧
        read ⟨3, 0⟩ (.start gaudyCell []) = .ok v (t.rebase gaudyCell) := by
  have hrespelled :
      Respelled (leads ⟨3, 0⟩ ⟨.empty, .item⟩ (.start plainCell [])) 0 plainCell gaudyCell := by
    have hwithin : ∀ k < 12, (∀ lead ∈ leads ⟨3, 0⟩ ⟨.empty, .item⟩ (.start plainCell []),
        k < lead.offset ∨ lead.offset + 4 ≤ k) → gaudyCell[k]? = plainCell[k]? := by
      decide +kernel
    refine ⟨rfl, fun k _ hk ↦ ?_, by decide +kernel⟩
    by_cases hlt : k < 12
    · exact hwithin k hlt hk
    · have hle := Nat.le_of_not_lt hlt
      rw [List.getElem?_eq_none hle, List.getElem?_eq_none hle]
  have hread := read_respelled (s := .start plainCell []) rfl hrespelled
  have hplain : ∃ log, read ⟨3, 0⟩ (.start plainCell []) =
      .ok (.pair ⟨0, 0⟩ .list none .null .null [] false) ⟨⟨12, []⟩, ⟨#[]⟩, log⟩ :=
    ⟨_, (Descent.read_eq_item _ (Nat.le_refl _)).trans rfl⟩
  obtain ⟨log, hplain⟩ := hplain
  rw [hplain] at hread
  exact ⟨hrespelled, _, _, hplain, rfl, hread⟩

end Item

end Rds
