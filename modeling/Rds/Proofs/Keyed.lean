import Mathlib.Data.List.Nodup
import Mathlib.Data.List.Perm.Subperm
import Rds.Json.Tree

namespace Rds.Keyed

variable {α β : Type} {xs ys : List (String × α)} {key : String} {v : α}

def sort (xs : List (String × α)) : List (String × α) := xs.mergeSort fun a b ↦ a.1 ≤ b.1

def mapValues (f : α → β) (xs : List (String × α)) : List (String × β) :=
  xs.map fun a ↦ (a.1, f a.2)

theorem names_mapValues (f : α → β) (xs : List (String × α)) :
    (mapValues f xs).map Prod.fst = xs.map Prod.fst := by
  simp [mapValues]

theorem sort_perm (xs : List (String × α)) : (sort xs).Perm xs := List.mergeSort_perm _ _

theorem pairwise_sort (xs : List (String × α)) : (sort xs).Pairwise fun a b ↦ a.1 ≤ b.1 := by
  have h := @List.pairwise_mergeSort (String × α) (fun a b ↦ decide (a.1 ≤ b.1))
    (fun a b c hab hbc ↦ by simpa using String.le_trans (by simpa using hab) (by simpa using hbc))
    (fun a b ↦ by simpa using String.le_total a.1 b.1) xs
  simpa [sort] using h

theorem sort_eq_of_perm (h : xs.Perm ys) (hn : (xs.map Prod.fst).Nodup) : sort xs = sort ys := by
  have hperm : (sort xs).Perm (sort ys) := (sort_perm xs).trans (h.trans (sort_perm ys).symm)
  refine hperm.eq_of_pairwise ?_ (pairwise_sort xs) (pairwise_sort ys)
  intro a b ha hb hab hba
  have ha := (sort_perm xs).mem_iff.mp ha
  have hb := h.mem_iff.mpr ((sort_perm ys).mem_iff.mp hb)
  exact List.inj_on_of_nodup_map hn ha hb (String.le_antisymm hab hba)

theorem perm_of_sort_eq (h : sort xs = sort ys) : xs.Perm ys :=
  (sort_perm xs).symm.trans (h ▸ sort_perm ys)

theorem lookup_cons_eq (k key : String) (v : α) (xs : List (String × α)) :
    List.lookup key ((k, v) :: xs) = if key = k then some v else xs.lookup key := by
  rw [List.lookup_cons]
  by_cases h : key = k
  · rw [if_pos h, beq_iff_eq.mpr h]
  · rw [if_neg h, beq_false_of_ne h]

theorem mem_of_lookup (h : xs.lookup key = some v) : (key, v) ∈ xs := by
  obtain ⟨front, back, rfl, -⟩ := List.lookup_eq_some_iff.mp h
  exact List.mem_append_right _ List.mem_cons_self

theorem lookup_of_mem (hn : (xs.map Prod.fst).Nodup) (h : (key, v) ∈ xs) :
    xs.lookup key = some v := by
  induction xs with
  | nil => cases h
  | cons a xs ih =>
    obtain ⟨hnot, hn⟩ := List.nodup_cons.mp hn
    rw [lookup_cons_eq]
    rcases List.mem_cons.mp h with rfl | h
    · exact if_pos rfl
    · have hne : key ≠ a.1 := fun he ↦ hnot (he ▸ List.mem_map_of_mem h)
      rw [if_neg hne]
      exact ih hn h

theorem lookup_of_perm (h : xs.Perm ys) (hn : (xs.map Prod.fst).Nodup) (key : String) :
    xs.lookup key = ys.lookup key := by
  have hn' : (ys.map Prod.fst).Nodup := (h.map Prod.fst).nodup_iff.mp hn
  ext v
  constructor
  · intro hv
    exact lookup_of_mem hn' (h.mem_iff.mp (mem_of_lookup hv))
  · intro hv
    exact lookup_of_mem hn (h.mem_iff.mpr (mem_of_lookup hv))

theorem lookup_sort (hn : (xs.map Prod.fst).Nodup) (key : String) :
    (sort xs).lookup key = xs.lookup key :=
  (lookup_of_perm (sort_perm xs).symm hn key).symm

theorem lookup_mapValues (f : α → β) (xs : List (String × α)) (key : String) :
    (mapValues f xs).lookup key = (xs.lookup key).map f := by
  induction xs with
  | nil => rfl
  | cons a xs ih =>
    change List.lookup key ((a.1, f a.2) :: mapValues f xs) = _
    rw [lookup_cons_eq, lookup_cons_eq, ih]
    split <;> rfl

/-- Two sets of entries are the same up to their order and to `f` if they are equally many, and
each of the first ones has a counterpart of its name. -/
theorem sort_mapValues_eq_iff (f : α → β) (hxs : (xs.map Prod.fst).Nodup)
    (hys : (ys.map Prod.fst).Nodup) :
    sort (mapValues f xs) = sort (mapValues f ys) ↔
      xs.length = ys.length ∧ ∀ a ∈ xs, ∃ w, ys.lookup a.1 = some w ∧ f a.2 = f w := by
  have hlength (zs : List (String × α)) : (mapValues f zs).length = zs.length := List.length_map _
  constructor
  · intro h
    have hperm := perm_of_sort_eq h
    refine ⟨by simpa only [hlength] using hperm.length_eq, fun a ha ↦ ?_⟩
    have hmem : (a.1, f a.2) ∈ mapValues f ys := hperm.mem_iff.mp (List.mem_map_of_mem ha)
    obtain ⟨b, hb, he⟩ := List.mem_map.mp hmem
    obtain ⟨hname, hvalue⟩ := Prod.mk.inj he
    exact ⟨b.2, lookup_of_mem hys (hname ▸ hb), hvalue.symm⟩
  · rintro ⟨hlen, h⟩
    have hn : ((mapValues f xs).map Prod.fst).Nodup := (names_mapValues f xs).symm ▸ hxs
    refine sort_eq_of_perm ?_ hn
    have hsub : mapValues f xs ⊆ mapValues f ys := by
      intro b hb
      obtain ⟨a, ha, rfl⟩ := List.mem_map.mp hb
      obtain ⟨w, hw, he⟩ := h a ha
      rw [he]
      exact List.mem_map_of_mem (f := fun c : String × α ↦ (c.1, f c.2)) (mem_of_lookup hw)
    refine (List.subperm_of_subset (hn.of_map Prod.fst) hsub).perm_of_length_le ?_
    rw [hlength, hlength]
    exact Nat.le_of_eq hlen.symm

end Rds.Keyed
