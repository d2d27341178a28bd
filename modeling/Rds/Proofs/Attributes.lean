import Rds.Value.Attributes

namespace Rds.Attributes

/-- The first attribute stands in front of the second one in canonical order. -/
def Before (a b : String × Value) : Prop := rank a.1 ≤ rank b.1 ∧ a.1 ≠ b.1

def Admitted (a : String × Value) : Prop :=
  ∀ shape, slotShape? a.1 = some shape → shape.admits a.2.kind

structure Canonical (as : Attributes) : Prop where
  ordered : as.Pairwise Before
  admitted : ∀ a ∈ as, Admitted a

theorem nodup_names {as : Attributes} (h : as.Pairwise Before) : (as.map Prod.fst).Nodup :=
  List.pairwise_map.mpr (h.imp And.right)

/-- Entries that are looked up name by name are those whose names are asked for. -/
theorem filter_names_perm {names : List String} (hn : names.Nodup) (as : Attributes) :
    (names.flatMap fun name ↦ as.filter fun a ↦ a.1 == name).Perm
      (as.filter fun a ↦ names.contains a.1) := by
  induction names with
  | nil => simp
  | cons name names ih =>
    obtain ⟨hname, hn⟩ := List.nodup_cons.mp hn
    have hsplit := List.filter_append_perm (fun a : String × Value ↦ a.1 == name)
      (as.filter fun a ↦ (name :: names).contains a.1)
    have hhere (a : String × Value) :
        (a.1 == name && (name :: names).contains a.1) = (a.1 == name) := by
      by_cases h : a.1 = name <;> simp [h]
    have hthere (a : String × Value) :
        (!(a.1 == name) && (name :: names).contains a.1) = names.contains a.1 := by
      by_cases h : a.1 = name <;> simp [h, hname]
    rw [List.filter_filter, List.filter_filter] at hsplit
    simp only [hhere, hthere] at hsplit
    rw [List.flatMap_cons]
    exact ((ih hn).append_left _).trans hsplit

theorem listed_perm (as : Attributes) : as.listed.Perm as :=
  ((filter_names_perm (by decide) as).append_right _).trans
    (List.filter_append_perm (fun a : String × Value ↦ isSlot a.1) as)

theorem mem_put {name : String} {v : Value} {as : Attributes} {a : String × Value}
    (h : a ∈ put name v as) : a = (name, v) ∨ a ∈ as := by
  induction as with
  | nil => exact .inl (List.mem_singleton.mp h)
  | cons b as ih =>
    rw [put] at h
    split at h
    · obtain rfl | h := List.mem_cons.mp h
      · exact .inl rfl
      · exact .inr (List.mem_cons_of_mem _ h)
    · split at h
      · exact List.mem_cons.mp h
      · obtain rfl | h := List.mem_cons.mp h
        · exact .inr List.mem_cons_self
        · exact (ih h).imp id (List.mem_cons_of_mem _)

theorem pairwise_put {name : String} {v : Value} {as : Attributes} (h : as.Pairwise Before) :
    (put name v as).Pairwise Before := by
  induction as with
  | nil => exact List.pairwise_singleton _ _
  | cons b as ih =>
    obtain ⟨hb, has⟩ := List.pairwise_cons.mp h
    rw [put]
    split
    · next hk =>
      obtain rfl := hk
      exact List.pairwise_cons.mpr ⟨hb, has⟩
    · next hk =>
      split
      · next hr =>
        refine List.pairwise_cons.mpr ⟨fun a ha ↦ ?_, h⟩
        obtain rfl | ha := List.mem_cons.mp ha
        · exact ⟨Nat.le_of_lt hr, fun he ↦ hk he.symm⟩
        · have hlt := Nat.lt_of_lt_of_le hr (hb a ha).1
          refine ⟨Nat.le_of_lt hlt, ?_⟩
          rintro rfl
          exact Nat.lt_irrefl _ hlt
      · next hr =>
        refine List.pairwise_cons.mpr ⟨fun a ha ↦ ?_, ih has⟩
        obtain rfl | ha := mem_put ha
        · exact ⟨Nat.le_of_not_lt hr, hk⟩
        · exact hb a ha

theorem put_last {name : String} {v : Value} {as : Attributes}
    (h : ∀ a ∈ as, Before a (name, v)) : put name v as = as ++ [(name, v)] := by
  induction as with
  | nil => rfl
  | cons b as ih =>
    obtain ⟨hr, hk⟩ := h b List.mem_cons_self
    rw [put, if_neg hk, if_neg (Nat.not_lt.mpr hr), ih fun a ha ↦ h a (List.mem_cons_of_mem _ ha)]
    rfl

theorem put_ne_nil (name : String) (v : Value) (as : Attributes) : put name v as ≠ [] := by
  cases as with
  | nil => exact nofun
  | cons b as =>
    rw [put]
    split
    · exact nofun
    · split <;> exact nofun

theorem insert_eq_ok {as bs : Attributes} {name : String} {v : Value} :
    as.insert name v = .ok bs ↔ Admitted (name, v) ∧ put name v as = bs := by
  unfold insert Admitted
  cases hs : slotShape? name with
  | none =>
    constructor
    · intro h
      cases h
      exact ⟨nofun, rfl⟩
    · rintro ⟨-, rfl⟩
      rfl
  | some shape =>
    dsimp only
    constructor
    · intro h
      split at h
      · next ha =>
        cases h
        exact ⟨fun _ he ↦ by cases he; exact ha, rfl⟩
      · cases h
    · rintro ⟨ha, rfl⟩
      rw [if_pos (ha shape rfl)]

theorem Canonical.insert {as bs : Attributes} {name : String} {v : Value} (h : Canonical as)
    (hi : as.insert name v = .ok bs) : Canonical bs := by
  obtain ⟨ha, rfl⟩ := insert_eq_ok.mp hi
  refine ⟨pairwise_put h.ordered, fun a hm ↦ ?_⟩
  obtain rfl | hm := mem_put hm
  · exact ha
  · exact h.admitted a hm

theorem collect_pair {as bs : Attributes} {origin : Origin} {kind : PairKind}
    {tag : Option Chars} {car cdr : Value} {attributes : Attributes} {object : Bool}
    (h : collect as (.pair origin kind tag car cdr attributes object) = .ok bs) :
    ∃ name cs, as.insert name car = .ok cs ∧ collect cs cdr = .ok bs := by
  rw [collect] at h
  split at h
  · cases h
  · next name _ =>
    split at h
    · next cs hcs => exact ⟨name, cs, hcs, h⟩
    · cases h

theorem Canonical.collect {as bs : Attributes} {v : Value} (h : Canonical as)
    (hc : collect as v = .ok bs) : Canonical bs ∧ (as ≠ [] → bs ≠ []) := by
  match v with
  | .pair origin kind tag car cdr attributes object =>
    obtain ⟨name, cs, hi, hc⟩ := collect_pair hc
    obtain ⟨hb, hne⟩ := (h.insert hi).collect hc
    exact ⟨hb, fun _ ↦ hne ((insert_eq_ok.mp hi).2 ▸ put_ne_nil name car as)⟩
  | .null =>
    cases hc
    exact ⟨h, id⟩
  | .symbol _ => cases hc
  | .char _ => cases hc
  | .vector .. => cases hc
  | .list .. => cases hc
termination_by structural v

theorem canonical_of_bind {v : Value} {as : Attributes} (h : bind v = .ok as) :
    Canonical as ∧ as ≠ [] := by
  cases v with
  | pair origin kind tag car cdr attributes object =>
    change collect [] (.pair origin kind tag car cdr attributes object) = .ok as at h
    obtain ⟨name, cs, hi, hc⟩ := collect_pair h
    have hnil : Canonical [] := ⟨.nil, nofun⟩
    obtain ⟨hb, hne⟩ := (hnil.insert hi).collect hc
    exact ⟨hb, hne ((insert_eq_ok.mp hi).2 ▸ put_ne_nil name car [])⟩
  | null | symbol _ | char _ | vector _ _ _ _ | list _ _ _ _ => cases h

/-- The tagged chain that spells an attribute set out. -/
def chain : Attributes → Value
  | [] => .null
  | (name, v) :: as => .pair ⟨0, 0⟩ .list (some (.text ⟨0, 0⟩ name)) v (chain as) [] false

theorem collect_chain {front back : Attributes} (h : (front ++ back).Pairwise Before)
    (ha : ∀ a ∈ back, Admitted a) : collect front (chain back) = .ok (front ++ back) := by
  induction back generalizing front with
  | nil =>
    rw [List.append_nil]
    rfl
  | cons a back ih =>
    obtain ⟨name, v⟩ := a
    have hlast := fun b hb ↦ (List.pairwise_append.mp h).2.2 b hb (name, v) List.mem_cons_self
    have hput := insert_eq_ok.mpr ⟨ha _ List.mem_cons_self, put_last hlast⟩
    have hassoc : front ++ (name, v) :: back = front ++ [(name, v)] ++ back := by
      rw [List.append_assoc, List.singleton_append]
    rw [hassoc] at h ⊢
    rw [chain, Attributes.collect]
    simp only [Option.bind_some, Chars.text?, hput]
    exact ih h fun b hb ↦ ha b (List.mem_cons_of_mem _ hb)

theorem bind_chain {as : Attributes} (h : Canonical as) (hne : as ≠ []) :
    bind (chain as) = .ok as := by
  cases as with
  | nil => exact absurd rfl hne
  | cons a as =>
    change collect [] (chain (a :: as)) = .ok ([] ++ a :: as)
    exact collect_chain h.ordered h.admitted

end Rds.Attributes
