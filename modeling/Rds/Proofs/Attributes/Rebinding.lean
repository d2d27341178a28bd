import Rds.Proofs.Attributes.Binding
import Rds.Proofs.Equality
import Rds.Proofs.Nodes

namespace Rds

namespace Cell

def entry (c : Cell) : Option String × Value := (c.name?, c.car)

end Cell

namespace Value

theorem entries_eq (v : Value) :
    v.entries = (v.cells.map Cell.entry).filterMap fun e ↦ e.1.map (·, e.2) := by
  rw [List.filterMap_map]
  rfl

theorem names_eq (v : Value) : v.names = (v.cells.map Cell.entry).filterMap Prod.fst := by
  rw [List.filterMap_map]
  rfl

theorem lastTagged?_eq_lookup (name : String) (v : Value) :
    v.lastTagged? name = v.entries.reverse.lookup name := by
  rw [lastTagged?, entries, ← List.filterMap_reverse]
  induction v.cells.reverse with
  | nil => rfl
  | cons c cs ih =>
    rw [List.find?_cons, List.filterMap_cons]
    cases hc : c.name? with
    | none => exact ih
    | some k =>
      dsimp only [Option.map_some]
      rw [Keyed.lookup_cons_eq]
      by_cases h : name = k
      · rw [if_pos h, decide_eq_true (congrArg some h.symm)]
        rfl
      · rw [if_neg h, decide_eq_false fun he ↦ h (Option.some.inj he).symm]
        exact ih

theorem car_bound {v : Value} (h : v.Bound) {c : Cell} (hc : c ∈ v.cells) : c.car.Bound := by
  match v with
  | pair origin kind tag car cdr attributes object =>
    rw [cells_pair] at hc
    rcases List.mem_cons.mp hc with rfl | hc
    · exact h.of_mem_children List.mem_cons_self
    · exact car_bound (h.of_mem_children (List.mem_cons_of_mem _ List.mem_cons_self)) hc
  | null => cases hc
  | symbol _ => cases hc
  | char _ => cases hc
  | vector .. => cases hc
  | list .. => cases hc
termination_by structural v

theorem attributesFault?_eq_none_iff (v : Value) :
    v.attributesFault? = none ↔
      v.cells ≠ [] ∧ (∀ c ∈ v.cells, c.fault? = none) ∧ v.tail.isNull = true := by
  rw [attributesFault?, chainFault?]
  split
  · next h => exact iff_of_false (Option.some_ne_none _) fun hand ↦ hand.1 h
  · next h =>
    rw [Option.or_eq_none_iff, List.findSome?_eq_none_iff]
    cases v.tail.isNull <;> simp [h]

theorem fault?_of_entry {c d : Cell} (h : c.entry = d.entry) : c.fault? = d.fault? := by
  obtain ⟨hname, hcar⟩ := Prod.mk.inj h
  rw [Cell.fault?, Cell.fault?, hname, hcar]

variable {v w : Value}

/-- Neither the order of the cells nor what does not count of them makes an attribute set. -/
theorem attributesFault?_of_perm (hv : v.tail = null) (hw : w.tail = null)
    (h : (v.cells.map Cell.entry).Perm (w.cells.map Cell.entry)) :
    v.attributesFault? = none → w.attributesFault? = none := by
  rw [attributesFault?_eq_none_iff, attributesFault?_eq_none_iff, hv, hw]
  rintro ⟨hne, hcells, -⟩
  refine ⟨fun hnil ↦ ?_, fun c hc ↦ ?_, rfl⟩
  · rw [hnil] at h
    exact hne (List.map_eq_nil_iff.mp h.eq_nil)
  · obtain ⟨d, hd, he⟩ := List.mem_map.mp (h.mem_iff.mpr (List.mem_map_of_mem hc))
    rw [← fault?_of_entry he]
    exact hcells d hd

end Value

namespace Attributes

open Value Keyed

variable {as bs : Attributes} {p v w : Value}

theorem bind_eq_ok_iff (v : Value) (as : Attributes) :
    bind v = .ok as ↔ v.attributesFault? = none ∧ putAll [] v.entries = as := by
  rw [bind_eq]
  cases v.attributesFault? <;> simp

theorem entries_chain (as : Attributes) :
    (chain as).cells.map Cell.entry = as.map fun a ↦ (some a.1, a.2) := by
  induction as with
  | nil => rfl
  | cons a as ih =>
    obtain ⟨name, v⟩ := a
    rw [chain, cells_pair, List.map_cons, ih]
    rfl

theorem tail_chain (as : Attributes) : (chain as).tail = .null := by
  induction as with
  | nil => rfl
  | cons a as ih =>
    obtain ⟨name, v⟩ := a
    rw [chain, tail_pair, ih]

theorem rebind (h : bind p = .ok as) (hv : v.tail = .null)
    (hcells : v.cells.map Cell.entry = as.map fun a ↦ (some a.1, a.2)) : bind v = .ok as := by
  obtain ⟨hcanonical, hne⟩ := canonical_of_bind h
  have hchain := bind_chain hcanonical hne
  rw [← entries_chain] at hcells
  rw [bind_eq_ok_iff] at hchain ⊢
  refine ⟨attributesFault?_of_perm (tail_chain as) hv (.of_eq hcells.symm) hchain.1, ?_⟩
  rw [entries_eq, hcells, ← entries_eq]
  exact hchain.2

def Ranked (a b : String × Value) : Prop := rank a.1 < rank b.1

theorem ranked_found (h : as.Pairwise Before) :
    (slots.flatMap fun name ↦ as.filter fun a ↦ a.1 == name).Pairwise Ranked := by
  have hslots : slots.Pairwise fun m n ↦ rank m < rank n := by decide
  have hname {a : String × Value} {name : String} (ha : a ∈ as.filter fun a ↦ a.1 == name) :
      a.1 = name := beq_iff_eq.mp (List.mem_filter.mp ha).2
  refine List.pairwise_flatMap.mpr ⟨fun name _ ↦ ?_, hslots.imp fun hlt a ha b hb ↦ ?_⟩
  · -- No two attributes have one name.
    refine (h.filter _).imp_of_mem fun ha hb hbefore ↦ ?_
    exact absurd ((hname ha).trans (hname hb).symm) hbefore.2
  · rw [Ranked, hname ha, hname hb]
    exact hlt

theorem ranked_filter (h : as.Pairwise Before) :
    (as.filter fun a ↦ isSlot a.1).Pairwise Ranked := by
  refine (h.filter _).imp_of_mem fun {a b} ha _ h ↦ ?_
  have hslot := (isSlot_iff a.1).mp (List.mem_filter.mp ha).2
  exact Nat.lt_of_le_of_ne h.1 fun he ↦ h.2 ((List.idxOf_inj hslot).mp he)

theorem listed_eq (h : as.Pairwise Before) : as.listed = as := by
  have hfound : slots.flatMap (fun name ↦ as.filter fun a ↦ a.1 == name) =
      as.filter fun a ↦ isSlot a.1 := by
    refine (filter_names_perm (by decide) as).eq_of_pairwise (fun a b _ _ hab hba ↦ ?_)
      (ranked_found h) (ranked_filter h)
    exact absurd hba (Nat.lt_asymm hab)
  rw [listed, hfound]
  exact (filter_isSlot_append h).symm

theorem bound_values_of_bind (hp : p.Bound) (h : bind p = .ok as) {a : String × Value}
    (ha : a ∈ as) : a.2.Bound := by
  have hlookup := lookup_of_mem (nodup_names (canonical_of_bind h).1.ordered) ha
  rw [lookup_bind h, tagged?_eq, lastTagged?] at hlookup
  obtain ⟨c, hc, hcar⟩ := Option.map_eq_some_iff.mp hlookup
  rw [← hcar]
  exact car_bound hp (List.mem_reverse.mp (List.mem_of_find?_eq_some hc))

theorem same_of_lookup (ha : (as.map Prod.fst).Nodup) (hbound : ∀ a ∈ as, a.2.Bound)
    (hlength : as.length = bs.length) (h : ∀ name, as.get? name = bs.get? name) :
    as.same bs = true := by
  rw [same, Bool.and_eq_true, beq_iff_eq, within_iff]
  refine ⟨hlength, fun a hmem ↦ ⟨a.2, ?_, beq_refl (hbound a hmem)⟩⟩
  exact (h a.1).symm.trans (lookup_of_mem ha hmem)

theorem same_of_perm (hp : v.Bound) (hn : v.names.Nodup)
    (h : (v.cells.map Cell.entry).Perm (w.cells.map Cell.entry))
    (hv : bind v = .ok as) (hw : bind w = .ok bs) : as.same bs = true := by
  have hnames : v.names.Perm w.names := by
    rw [names_eq, names_eq]
    exact h.filterMap _
  have hentries : v.entries.Perm w.entries := by
    rw [entries_eq, entries_eq]
    exact h.filterMap _
  refine same_of_lookup (nodup_names (canonical_of_bind hv).1.ordered)
    (fun a ↦ bound_values_of_bind hp hv) ?_ fun name ↦ ?_
  · rw [length_of_bind hv, length_of_bind hw, List.toFinset_eq_of_perm _ _ hnames]
  · change as.lookup name = bs.lookup name
    rw [lookup_bind hv, lookup_bind hw, tagged?_eq, tagged?_eq, lastTagged?_eq_lookup,
      lastTagged?_eq_lookup]
    refine lookup_of_perm
      ((v.entries.reverse_perm.trans hentries).trans w.entries.reverse_perm.symm) ?_ name
    rw [List.map_reverse, List.nodup_reverse, map_fst_entries]
    exact hn

/-- An attribute set stands in canonical order, lists each of its names once with the value found
under it, and is bound again by each chain that spells the list out. Chains with different tags that
have the same cells up to their order are bound to equal sets, or neither of them is bound. -/
theorem binding_canonical :
    (∀ (p : Value) (as : Attributes), p.Bound → bind p = .ok as →
      as.listed = as ∧ (as.listed.map Prod.fst).Nodup ∧ as.listed.length = as.length ∧
      (∀ name u, (name, u) ∈ as.listed ↔ as.get? name = some u) ∧
      (∀ a ∈ as.others, a.1 ∉ slots) ∧
      ∀ v : Value, v.tail = .null →
        v.cells.map Cell.entry = as.listed.map (fun a ↦ (some a.1, a.2)) →
        ∃ bs, bind v = .ok bs ∧ bs.same as = true ∧ bs.listed = as.listed) ∧
    ∀ v w : Value, v.Bound → v.tail = .null → w.tail = .null → v.names.Nodup →
      (v.cells.map Cell.entry).Perm (w.cells.map Cell.entry) →
      (∃ f g, bind v = .error f ∧ bind w = .error g) ∨
        ∃ as bs, bind v = .ok as ∧ bind w = .ok bs ∧ as.same bs = true := by
  refine ⟨fun p as hp h ↦ ?_, fun v w hbound hv hw hn h ↦ ?_⟩
  · have hcanonical := (canonical_of_bind h).1
    have hnodup := nodup_names hcanonical.ordered
    rw [listed_eq hcanonical.ordered]
    refine ⟨rfl, hnodup, rfl, fun name u ↦ ⟨lookup_of_mem hnodup, mem_of_lookup⟩,
      hcanonical.sound.generic, fun v hv hcells ↦ ⟨as, rebind h hv hcells, ?_, ?_⟩⟩
    · exact same_of_lookup hnodup (fun a ↦ bound_values_of_bind hp h) rfl fun _ ↦ rfl
    · exact listed_eq hcanonical.ordered
  · have hfaults : v.attributesFault? = none ↔ w.attributesFault? = none :=
      ⟨attributesFault?_of_perm hv hw h, attributesFault?_of_perm hw hv h.symm⟩
    have hbv := bind_eq v
    have hbw := bind_eq w
    cases hf : v.attributesFault? with
    | none =>
      right
      rw [hf] at hbv
      rw [hfaults.mp hf] at hbw
      exact ⟨_, _, hbv, hbw, same_of_perm hbound hn h hbv hbw⟩
    | some f =>
      left
      cases hg : w.attributesFault? with
      | none =>
        rw [hfaults.mpr hg] at hf
        cases hf
      | some g =>
        rw [hf] at hbv
        rw [hg] at hbw
        exact ⟨f, g, hbv, hbw⟩

theorem bound_chain (h : ∀ a ∈ as, a.2.Bound) : (chain as).Bound := by
  induction as with
  | nil => exact bound_null
  | cons a as ih =>
    obtain ⟨hcar, hcdr⟩ := List.forall_mem_cons.mp h
    refine bound_of_children (.inl rfl) fun u hu ↦ ?_
    rw [chain, children, List.map_nil] at hu
    rcases List.mem_cons.mp hu with rfl | hu
    · exact hcar
    · exact List.mem_singleton.mp hu ▸ ih hcdr

/-- Dimension names between two attributes without a meaning of their own. -/
def mixed : Attributes := [("zeta", .null), ("dimnames", .null), ("alpha", .null)]

theorem binding_canonical_mixed :
    (chain mixed).Bound ∧ (∃ as, bind (chain mixed) = .ok as ∧
      as.map Prod.fst = ["dimnames", "zeta", "alpha"] ∧
      ∃ bs, bind (chain as.listed) = .ok bs ∧ bs.same as = true ∧ bs.listed = as.listed) ∧
    ∃ as bs, bind (chain mixed) = .ok as ∧ bind (chain mixed.reverse) = .ok bs ∧
      as.map Prod.fst ≠ bs.map Prod.fst ∧ as.same bs = true := by
  have hbound : (chain mixed).Bound := bound_chain fun a ha ↦ by
    have hnull : a.2 = .null := by
      simp only [mixed, List.mem_cons, List.not_mem_nil, or_false] at ha
      obtain rfl | rfl | rfl := ha <;> rfl
    exact hnull ▸ bound_null
  obtain ⟨hset, hperm⟩ := binding_canonical
  refine ⟨hbound, ⟨_, rfl, rfl, ?_⟩, ?_⟩
  · exact (hset _ _ hbound rfl).2.2.2.2.2 _ (tail_chain _) (entries_chain _)
  · have hcells : ((chain mixed).cells.map Cell.entry).Perm
        ((chain mixed.reverse).cells.map Cell.entry) := by
      rw [entries_chain, entries_chain]
      exact mixed.reverse_perm.symm.map _
    obtain ⟨f, g, hf, -⟩ | ⟨as, bs, has, hbs, hsame⟩ :=
      hperm _ _ hbound (tail_chain _) (tail_chain _) (by decide) hcells
    · cases hf
    · refine ⟨as, bs, has, hbs, ?_, hsame⟩
      cases has
      cases hbs
      decide

end Attributes

end Rds
