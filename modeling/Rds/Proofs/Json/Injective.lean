import Rds.Json.Numerals
import Rds.Proofs.Attributes
import Rds.Proofs.Decimal.Text
import Rds.Proofs.Json.Shown

namespace Rds

namespace Json

open Value

variable {fs gs : List (String × Json)}

theorem ofFields_eq_of_withAttributes_eq {name : String} {xs ys : List Json}
    (h : withAttributes name (array xs) fs = withAttributes name (array ys) gs) :
    xs = ys ∧ ofFields fs = ofFields gs := by
  unfold withAttributes at h
  split_ifs at h with hf hg hg
  · rw [List.isEmpty_iff.mp hf, List.isEmpty_iff.mp hg]
    exact ⟨array.inj h, rfl⟩
  · cases h
  · cases h
  · have hlookup := lookup_of_ofFields_eq (by simp) h
    have hvalues : array xs = array ys := Option.some.inj (hlookup "values")
    have hattributes : ofFields fs = ofFields gs := Option.some.inj (hlookup "attributes")
    exact ⟨array.inj hvalues, hattributes⟩

theorem lookup_cellFields (tag : Option Chars) (car : Json) (fs : List (String × Json)) :
    let fields := (tag.map fun t ↦ ("tag", ofChars t)).toList ++ ("value", car) ::
      if fs.isEmpty then [] else [("attributes", ofFields fs)]
    (fields.map Prod.fst).Nodup ∧ fields.lookup "tag" = tag.map ofChars ∧
      fields.lookup "value" = some car ∧
      fields.lookup "attributes" = if fs.isEmpty then none else some (ofFields fs) := by
  cases tag <;> cases fs.isEmpty <;> simp [Keyed.lookup_cons_eq]

theorem of_ofCell_eq {tag tag' : Option Chars} {car car' : Json}
    (h : ofCell tag car fs = ofCell tag' car' gs) :
    tag.map ofChars = tag'.map ofChars ∧ car = car' ∧ ofFields fs = ofFields gs := by
  obtain ⟨hn, htag, hcar, hattributes⟩ := lookup_cellFields tag car fs
  obtain ⟨-, htag', hcar', hattributes'⟩ := lookup_cellFields tag' car' gs
  have hlookup := lookup_of_ofFields_eq hn h
  rw [hlookup] at htag hcar hattributes
  refine ⟨htag.symm.trans htag', Option.some.inj (hcar.symm.trans hcar'), ?_⟩
  have hsame := hattributes.symm.trans hattributes'
  split_ifs at hsame with hf hg hg
  · rw [List.isEmpty_iff.mp hf, List.isEmpty_iff.mp hg]
  · exact Option.some.inj hsame

theorem lookup_chainFields [Numerals] (name : String) (cells : List Json) (v : Value) :
    let fields := [("type", string name), ("cells", array cells)] ++ tailField v
    (fields.map Prod.fst).Nodup ∧ fields.lookup "type" = some (string name) ∧
      fields.lookup "cells" = some (array cells) ∧
      fields.lookup "tail" = if v.isNull then none else some (ofValue v) := by
  cases h : v.isNull <;> simp [tailField, h, Keyed.lookup_cons_eq]

theorem of_chain_eq [Numerals] {name name' : String} {xs ys : List Json} {u w : Value}
    (h : ofFields ([("type", string name), ("cells", array xs)] ++ tailField u) =
      ofFields ([("type", string name'), ("cells", array ys)] ++ tailField w)) :
    name = name' ∧ xs = ys ∧ tailField u = tailField w := by
  obtain ⟨hn, htype, hcells, htail⟩ := lookup_chainFields name xs u
  obtain ⟨-, htype', hcells', htail'⟩ := lookup_chainFields name' ys w
  have hlookup := lookup_of_ofFields_eq hn h
  rw [hlookup] at htype hcells htail
  refine ⟨string.inj (Option.some.inj (htype.symm.trans htype')),
    array.inj (Option.some.inj (hcells.symm.trans hcells')), ?_⟩
  have hsame := htail.symm.trans htail'
  unfold tailField
  split_ifs at hsame ⊢
  · rfl
  · rw [Option.some.inj hsame]

section Parts

theorem name_injective : Function.Injective PairKind.name := by
  intro k l h
  cases k <;> cases l <;> first | rfl | exact absurd h (by decide)

theorem tags_eq {tag tag' : Option Chars} (h : tag.map ofChars = tag'.map ofChars) :
    (tag == tag') = true := by
  rw [Chars.beq_option_iff_erase]
  cases tag with
  | none => cases tag' <;> simp at h ⊢
  | some c =>
    cases tag' with
    | none => simp at h
    | some d =>
      rw [Option.map_some, Option.map_some, Option.some.injEq, ofChars_eq_iff] at h
      rw [Option.map_some, Option.map_some, Chars.beq_iff_erase.mp h]

variable [Numerals]

theorem sameAll_shownAll {es fs : List Value} (h : es.map ofValue = fs.map ofValue)
    (hsame : ∀ (i : Nat) (e f : Value), es[i]? = some e → fs[i]? = some f →
      ofValue e = ofValue f → same e.shown f.shown = true) :
    sameAll (shownAll es) (shownAll fs) = true := by
  induction es generalizing fs with
  | nil =>
    rw [List.map_nil, eq_comm, List.map_eq_nil_iff] at h
    rw [h]
    rfl
  | cons e es ih =>
    cases fs with
    | nil => cases h
    | cons f fs =>
      obtain ⟨hfirst, hrest⟩ := List.cons.inj h
      have hhead : same (shownIn false e) (shownIn false f) = true := hsame 0 e f rfl rfl hfirst
      rw [shownAll, shownAll, sameAll, hhead, Bool.true_and]
      exact ih hrest fun i ↦ hsame (i + 1)

theorem within_shownAttributes {as bs : Attributes} (has : as.Bound)
    (h : ofFields (Keyed.mapValues ofValue as.listed) = ofFields (Keyed.mapValues ofValue bs.listed))
    (hsame : ∀ name u w, as.lookup name = some u → bs.lookup name = some w →
      ofValue u = ofValue w → same u.shown w.shown = true) :
    ((shownAttributes as).length == (shownAttributes bs).length) = true ∧
      within (shownAttributes as) (shownAttributes bs) = true := by
  have hn := Attributes.nodup_names has.ordered
  have hperm : (Keyed.mapValues ofValue as).Perm (Keyed.mapValues ofValue bs) :=
    ((as.listed_perm.map _).symm.trans (Keyed.perm_of_sort_eq (object.inj h))).trans
      (bs.listed_perm.map _)
  have hlookup := Keyed.lookup_of_perm hperm ((Keyed.names_mapValues ofValue as).symm ▸ hn)
  rw [shownAttributes_eq_mapValues, shownAttributes_eq_mapValues, within_iff]
  constructor
  · simpa [Keyed.mapValues] using hperm.length_eq
  · intro a ha
    obtain ⟨⟨name, u⟩, hu, rfl⟩ := List.mem_map.mp ha
    have hua := Keyed.lookup_of_mem hn hu
    have hub := hlookup name
    rw [Keyed.lookup_mapValues, Keyed.lookup_mapValues, hua, Option.map_some] at hub
    obtain ⟨w, hw, hdoc⟩ := Option.map_eq_some_iff.mp hub.symm
    refine ⟨w.shown, ?_, hsame name u w hua hw hdoc.symm⟩
    rw [Keyed.lookup_mapValues, hw, Option.map_some]

end Parts

section Chains

variable {a b : Value}

theorem cells_of_ne (h : a.variant ≠ .pairlist) : a.cells = [] := by
  cases a with
  | pair _ _ _ _ _ _ _ => exact absurd rfl h
  | null | symbol _ | char _ | vector _ _ _ _ | list _ _ _ _ => rfl

theorem tail_of_ne (h : a.variant ≠ .pairlist) : a.tail = a := by
  cases a with
  | pair _ _ _ _ _ _ _ => exact absurd rfl h
  | null | symbol _ | char _ | vector _ _ _ _ | list _ _ _ _ => rfl

theorem ne_of_cells_eq_nil (h : b.cells = []) : b.variant ≠ .pairlist := by
  cases b with
  | pair _ _ _ _ _ _ _ =>
    rw [cells_pair] at h
    cases h
  | null | symbol _ | char _ | vector _ _ _ _ | list _ _ _ _ => nofun

theorem eq_null_of_isNull (h : a.isNull = true) : a = .null := by
  cases a with
  | null => rfl
  | symbol _ | char _ | vector _ _ _ _ | list _ _ _ _ | pair _ _ _ _ _ _ _ => cases h

/-- Where a chain ends, its document shows what ends it, unless that is null. -/
theorem same_end [Numerals] (hne : a.variant ≠ .pairlist)
    (hsame : ∀ b, Alike a b → ofValue a = ofValue b → same a.shown b.shown = true)
    (hchain : ChainAlike a b) (hcells : a.cells.map cellDoc = b.cells.map cellDoc)
    (htail : tailField a.tail = tailField b.tail) :
    same (shownIn true a) (shownIn true b) = true := by
  rw [cells_of_ne hne, List.map_nil, eq_comm, List.map_eq_nil_iff] at hcells
  have hneb := ne_of_cells_eq_nil hcells
  have halike := hchain.tail
  rw [tail_of_ne hne, tail_of_ne hneb] at htail halike
  rw [shownIn_true_of_ne a hne, shownIn_true_of_ne b hneb]
  unfold tailField at htail
  split_ifs at htail with hanull hbnull
  · rw [eq_null_of_isNull hanull, eq_null_of_isNull hbnull]
    rfl
  · exact hsame b halike (congrArg Prod.snd (List.head_eq_of_cons_eq htail))

end Chains

section Nodes

variable [Numerals] {a b : Value}

def ShowsBelow (a : Value) : Prop :=
  ∀ u ∈ a.children, ∀ w, Alike u w → ofValue u = ofValue w → same u.shown w.shown = true

theorem ShowsBelow.attributes (h : ShowsBelow a) (ha : a.Bound) {bs : Attributes}
    (halike : ∀ name u w, a.attributes.lookup name = some u → bs.lookup name = some w → Alike u w)
    (hdoc : ofFields (Keyed.mapValues ofValue a.attributes.listed) =
      ofFields (Keyed.mapValues ofValue bs.listed)) :
    ((shownAttributes a.attributes).length == (shownAttributes bs).length) = true ∧
      within (shownAttributes a.attributes) (shownAttributes bs) = true :=
  within_shownAttributes ha.attributes hdoc fun name u w hu hw ↦
    h u (mem_children_of_attribute (Keyed.mem_of_lookup hu)) w (halike name u w hu hw)

theorem exists_ofAtoms (atoms : Atoms) : ∃ xs, ofAtoms atoms = array xs := by
  cases atoms <;> exact ⟨_, rfl⟩

theorem same_shown_of_ne (hw : Numerals.Distinct) (hne : a.variant ≠ .pairlist) (ha : a.Bound) (hbelow : ShowsBelow a)
    (halike : Alike a b) (hdoc : ofValue a = ofValue b) : same a.shown b.shown = true := by
  cases a with
  | null =>
    cases b with
    | null => rfl
    | _ => cases halike.variant_eq
  | symbol name =>
    cases b with
    | symbol name' =>
      rw [ofValue, ofValue] at hdoc
      have hname : ofChars name = ofChars name' :=
        Option.some.inj (lookup_of_ofFields_eq (by simp) hdoc "symbol")
      exact ofChars_eq_iff.mp hname
    | _ => cases halike.variant_eq
  | char content =>
    cases b with
    | char content' =>
      rw [ofValue, ofValue] at hdoc
      exact ofChars_eq_iff.mp hdoc
    | _ => cases halike.variant_eq
  | vector origin atoms as object =>
    cases b with
    | vector origin' atoms' bs object' =>
      have hkind : atoms.kind = atoms'.kind := Variant.vector.inj halike.variant_eq
      obtain ⟨xs, hxs⟩ := exists_ofAtoms atoms
      obtain ⟨ys, hys⟩ := exists_ofAtoms atoms'
      rw [ofValue_vector, ofValue_vector, ← hkind, hxs, hys] at hdoc
      obtain ⟨rfl, hfields⟩ := ofFields_eq_of_withAttributes_eq hdoc
      have hatoms := shown_of_ofAtoms_eq hw hkind (hxs.trans hys.symm)
      obtain ⟨hlength, hwithin⟩ := hbelow.attributes ha (fun name u w hu hw ↦
        halike.of_part (.attr name) hu hw) hfields
      simp only [shown, shownIn, same, Bool.and_eq_true]
      exact ⟨⟨⟨rfl, hatoms⟩, hlength⟩, hwithin⟩
    | _ => cases halike.variant_eq
  | list origin es as object =>
    cases b with
    | list origin' fs bs object' =>
      rw [ofValue_list, ofValue_list] at hdoc
      obtain ⟨helements, hfields⟩ := ofFields_eq_of_withAttributes_eq hdoc
      obtain ⟨hlength, hwithin⟩ := hbelow.attributes ha (fun name u w hu hw ↦
        halike.of_part (.attr name) hu hw) hfields
      have hall := sameAll_shownAll helements fun i e f he hf ↦
        hbelow e (List.mem_append_left _ (List.mem_of_getElem? he)) f
          (halike.of_part (.element i) he hf)
      simp only [shown, shownIn, same, Bool.and_eq_true]
      exact ⟨⟨⟨rfl, hlength⟩, hwithin⟩, hall⟩
    | _ => cases halike.variant_eq
  | pair _ _ _ _ _ _ _ => exact absurd rfl hne

variable {o o' : Origin} {k k' : PairKind} {t t' : Option Chars} {car car' cdr cdr' : Value}
  {as bs : Attributes} {f f' : Bool}

theorem same_cell {rest : Bool}
    (hk : (if rest then PairKind.list else k) = if rest then PairKind.list else k')
    (ha : (pair o k t car cdr as f).Bound) (hbelow : ShowsBelow (pair o k t car cdr as f))
    (hchain : ChainAlike (pair o k t car cdr as f) (pair o' k' t' car' cdr' bs f'))
    (hcell : cellDoc ⟨o, k, t, car, as, f⟩ = cellDoc ⟨o', k', t', car', bs, f'⟩)
    (hcdr : same (shownIn true cdr) (shownIn true cdr') = true) :
    same (shownIn rest (pair o k t car cdr as f)) (shownIn rest (pair o' k' t' car' cdr' bs f')) =
      true := by
  obtain ⟨htag, hcar, hfields⟩ := of_ofCell_eq hcell
  obtain ⟨halike, hattributes⟩ := hchain.head
  obtain ⟨hlength, hwithin⟩ := hbelow.attributes ha hattributes hfields
  have hcar := hbelow car List.mem_cons_self car' halike hcar
  simp only [shownIn, same, Bool.and_eq_true]
  exact ⟨⟨⟨⟨⟨⟨rfl, beq_iff_eq.mpr hk⟩, tags_eq htag⟩, hlength⟩, hwithin⟩, hcar⟩, hcdr⟩

end Nodes

/-- Alike values with one document show the same, and so do chains that go on alike. -/
theorem same_shown [Numerals] (hw : Numerals.Distinct) {a : Value} (ha : a.Bound) :
    (∀ b, Alike a b → ofValue a = ofValue b → same a.shown b.shown = true) ∧
    ∀ b, ChainAlike a b → a.cells.map cellDoc = b.cells.map cellDoc →
      tailField a.tail = tailField b.tail → same (shownIn true a) (shownIn true b) = true := by
  induction a using induction_children with
  | h a ih =>
    have hbelow : ShowsBelow a := fun u hu ↦ (ih u hu (ha.of_mem_children hu)).1
    by_cases hne : a.variant ≠ .pairlist
    · have hsame (b : Value) := same_shown_of_ne (b := b) hw hne ha hbelow
      exact ⟨hsame, fun b ↦ same_end hne hsame⟩
    · cases a with
      | pair origin kind tag car cdr as object =>
        have hmem : cdr ∈ (pair origin kind tag car cdr as object).children :=
          List.mem_cons_of_mem _ List.mem_cons_self
        have hcdr := (ih cdr hmem (ha.of_mem_children hmem)).2
        constructor
        · intro b halike hdoc
          cases b with
          | pair origin' kind' tag' car' cdr' bs object' =>
            rw [ofValue_pair, ofValue_pair] at hdoc
            obtain ⟨hname, hcells, htail⟩ := of_chain_eq hdoc
            obtain ⟨hcell, hcells⟩ := List.cons.inj hcells
            have hchain := halike.chain
            exact same_cell (name_injective hname) ha hbelow hchain hcell
              (hcdr cdr' hchain.rest hcells htail)
          | _ => cases halike.variant_eq
        · intro b hchain hcells htail
          cases b with
          | pair origin' kind' tag' car' cdr' bs object' =>
            rw [cells_pair, cells_pair] at hcells
            rw [tail_pair, tail_pair] at htail
            obtain ⟨hcell, hcells⟩ := List.cons.inj hcells
            exact same_cell rfl ha hbelow hchain hcell (hcdr cdr' hchain.rest hcells htail)
          | _ =>
            rw [cells_pair] at hcells
            cases hcells
      | _ => exact absurd nofun hne

/-- A document tells all of a value but for the object flags, the kinds of all cells but the first
of a chain, the bits of NaN and of missing doubles, and the parts of missing complex numbers. -/
theorem shown_eq_of_ofValue_eq [Numerals] (hw : Numerals.Distinct) {a b : Value} (ha : a.Bound)
    (h : a.Alike b) (hdoc : ofValue a = ofValue b) : (a.shown == b.shown) = true :=
  (same_shown hw ha).1 b h hdoc

/-- A call whose second cell has some kind, and whose car has a NaN and a missing double. -/
def nanCall (kind : PairKind) (nan na : UInt64) (object : Bool) : Value :=
  .pair ⟨0, 0⟩ .language none (.vector ⟨0, 4⟩ (.double [⟨nan⟩, ⟨na⟩]) [] object)
    (.pair ⟨0, 8⟩ kind (some .na) .null .null [] object) [] object

variable {kind kind' : PairKind} {nan na nan' na' : UInt64} {object object' : Bool}

theorem bound_nanCall : (nanCall kind nan na object).Bound := by
  refine bound_of_children (.inl rfl) fun u hu ↦ ?_
  simp only [nanCall, children, List.map_nil, List.mem_cons, List.not_mem_nil, or_false] at hu
  rcases hu with rfl | rfl
  · exact bound_of_children (.inl rfl) fun w hw ↦ by cases hw
  · refine bound_of_children (.inl rfl) fun w hw ↦ ?_
    simp only [children, List.map_nil, List.mem_cons, List.not_mem_nil, or_false, or_self] at hw
    exact hw ▸ bound_null

theorem alike_nanCall : Alike (nanCall kind nan na object) (nanCall kind' nan' na' object') := by
  have hnull : Alike .null .null := alike_of_part?_eq_none rfl fun _ ↦ rfl
  refine alike_of_parts rfl fun part u w hu hw ↦ ?_
  cases part with
  | element i => cases hu
  | attr name => cases hu
  | car i =>
    match i with
    | 0 =>
      cases hu
      cases hw
      refine alike_of_part?_eq_none rfl fun part ↦ ?_
      cases part <;> rfl
    | 1 =>
      cases hu
      cases hw
      exact hnull
    | i + 2 => cases hu
  | cellAttr i name =>
    match i with
    | 0 => cases hu
    | 1 => cases hu
    | i + 2 => cases hu
  | tail =>
    cases hu
    cases hw
    exact hnull

theorem shown_nanCall :
    let a := nanCall .closure 0x7ff8000000000000 0x7ff00000000007a2 true
    let b := nanCall .dots 0xfff8000000000001 0x7ff80000000007a2 false
    Numerals.Distinct ∧ a.Bound ∧ a.Alike b ∧ ofValue a = ofValue b ∧
      (a.shown == b.shown) = true ∧ (a == b) = false := by
  intro a b
  have hwritten : Numerals.Distinct :=
    Set.injOn_of_injective (Decimal.Layout.text_injective numberLayout)
  have hnan {x : Double} (h : x.isNA = false) (hn : x.isNaN = true) : ofDouble x = string "NaN" := by
    rw [ofDouble, h, ofPresent_of_isNaN hn]
    rfl
  have hna {x : Double} (h : x.isNA = true) : ofDouble x = null := if_pos h
  have hatoms : ofAtoms (.double [⟨0x7ff8000000000000⟩, ⟨0x7ff00000000007a2⟩]) =
      ofAtoms (.double [⟨0xfff8000000000001⟩, ⟨0x7ff80000000007a2⟩]) := by
    simp only [ofAtoms, List.map_cons]
    rw [hnan (by decide) (by decide), hna (by decide), hnan (by decide) (by decide),
      hna (by decide)]
  have hdoc : ofValue a = ofValue b := by
    simp only [a, b, nanCall, ofValue_pair, cells_pair, cellDoc, ofValue_vector, hatoms,
      List.map_cons]
    rfl
  exact ⟨hwritten, bound_nanCall, alike_nanCall, hdoc,
    shown_eq_of_ofValue_eq hwritten bound_nanCall alike_nanCall hdoc, by decide⟩

end Json

end Rds
