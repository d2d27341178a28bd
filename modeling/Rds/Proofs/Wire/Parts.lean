import Rds.Proofs.Wire.Unique

namespace Rds.Wire

open Item

def head : Wire → List UInt8
  | null _ => []
  | reference _ index? => indexBytes index?
  | char _ content? _ => contentBytes content?
  | symbol _ _ => []
  | atoms _ data _ => data.bytes
  | strings _ elements _ => lengthBytes elements.length
  | list _ elements _ => lengthBytes elements.length
  | cell _ _ _ _ _ => []

/-- The items directly inside an item. -/
def parts : Wire → List Wire
  | null _ => []
  | reference _ _ => []
  | char _ _ attributes? => attributes?.toList
  | symbol _ name => [name]
  | atoms _ _ attributes? => attributes?.toList
  | strings _ elements attributes? => elements ++ attributes?.toList
  | list _ elements attributes? => elements ++ attributes?.toList
  | cell _ attributes? tag? car cdr => attributes?.toList ++ (tag?.toList ++ [car, cdr])

variable {w x : Wire} {ws : List Wire} {p : Nat}

theorem bytesOfPart_eq (part? : Option Wire) : bytesOfPart part? = bytesOfAll part?.toList := by
  cases part? with
  | none => rfl
  | some w => exact (List.append_nil _).symm

theorem bytesOfAll_append (ws ws' : List Wire) :
    bytesOfAll (ws ++ ws') = bytesOfAll ws ++ bytesOfAll ws' := by
  induction ws with
  | nil => rfl
  | cons w ws ih => rw [List.cons_append, bytesOfAll, bytesOfAll, ih, List.append_assoc]

theorem bytesOfAll_singleton (w : Wire) : bytesOfAll [w] = w.bytes := List.append_nil _

theorem payload_eq (w : Wire) : w.payload = w.head ++ bytesOfAll w.parts := by
  cases w with
  | null _ => rfl
  | reference _ _ => exact (List.append_nil _).symm
  | char _ _ _ | atoms _ _ _ => rw [payload, parts, bytesOfPart_eq, head]
  | symbol _ name => exact (bytesOfAll_singleton name).symm
  | strings _ _ _ | list _ _ _ => rw [payload, parts, bytesOfPart_eq, bytesOfAll_append, head]
  | cell _ _ _ car cdr =>
    rw [payload, parts, bytesOfPart_eq, bytesOfPart_eq, bytesOfAll_append, bytesOfAll_append, head,
      ← bytesOfAll_singleton cdr]
    rfl

theorem bytes_eq_parts (w : Wire) : w.bytes = w.word.bytes ++ (w.head ++ bytesOfAll w.parts) := by
  rw [bytes_eq, payload_eq]

def opening (w : Wire) (p : Nat) : Nat := p + (4 + w.head.length)

theorem add_length_bytes (w : Wire) (p : Nat) :
    p + w.bytes.length = w.opening p + (bytesOfAll w.parts).length := by
  rw [bytes_eq_parts, List.length_append, List.length_append, FlagWord.length_bytes, opening]
  omega

theorem allWellFormed_iff : AllWellFormed ws ↔ ∀ w ∈ ws, w.WellFormed := by
  induction ws with
  | nil => exact iff_of_true trivial nofun
  | cons w ws ih => rw [List.forall_mem_cons, AllWellFormed, ih]

theorem partWellFormed_iff {part? : Option Wire} :
    PartWellFormed part? ↔ ∀ w ∈ part?.toList, w.WellFormed := by
  cases part? with
  | none => exact iff_of_true trivial nofun
  | some w => rw [PartWellFormed, Option.toList_some, List.forall_mem_singleton]

theorem WellFormed.of_mem_parts (h : w.WellFormed) (hx : x ∈ w.parts) : x.WellFormed := by
  cases w with
  | null _ => cases hx
  | reference _ _ => cases hx
  | char _ _ _ => exact partWellFormed_iff.mp h.2.2.2 x hx
  | symbol _ name => exact List.mem_singleton.mp hx ▸ h.2.2
  | atoms _ _ _ => exact partWellFormed_iff.mp h.2.2.2 x hx
  | strings _ _ _ | list _ _ _ =>
    obtain ⟨-, -, he, -, ha⟩ := h
    obtain hx | hx := List.mem_append.mp hx
    · exact allWellFormed_iff.mp he x hx
    · exact partWellFormed_iff.mp ha x hx
  | cell _ _ _ car cdr =>
    obtain ⟨-, -, ha, -, ht, hcar, hcdr⟩ := h
    obtain hx | hx := List.mem_append.mp hx
    · exact partWellFormed_iff.mp ha x hx
    · obtain hx | hx := List.mem_append.mp hx
      · exact partWellFormed_iff.mp ht x hx
      · exact List.forall_mem_cons.mpr ⟨hcar, List.forall_mem_singleton.mpr hcdr⟩ x hx

theorem sizeOf_lt_of_mem_toList {part? : Option Wire} (hx : x ∈ part?.toList) :
    sizeOf x < sizeOf part? := by
  rw [Option.mem_toList.mp hx, Option.some.sizeOf_spec]
  exact Nat.lt_add_of_pos_left Nat.one_pos

theorem sizeOf_lt_of_mem_parts (hx : x ∈ w.parts) : sizeOf x < sizeOf w := by
  cases w with
  | null _ => cases hx
  | reference _ _ => cases hx
  | char _ _ _ | atoms _ _ _ =>
    have := sizeOf_lt_of_mem_toList hx
    simp only [char.sizeOf_spec, atoms.sizeOf_spec]
    omega
  | symbol _ name =>
    obtain rfl := List.mem_singleton.mp hx
    simp only [symbol.sizeOf_spec]
    omega
  | strings _ _ _ | list _ _ _ =>
    simp only [strings.sizeOf_spec, list.sizeOf_spec]
    obtain hx | hx := List.mem_append.mp hx
    · have := List.sizeOf_lt_of_mem hx
      omega
    · have := sizeOf_lt_of_mem_toList hx
      omega
  | cell _ _ _ car cdr =>
    simp only [cell.sizeOf_spec]
    obtain hx | hx := List.mem_append.mp hx
    · have := sizeOf_lt_of_mem_toList hx
      omega
    · obtain hx | hx := List.mem_append.mp hx
      · have := sizeOf_lt_of_mem_toList hx
        omega
      · obtain rfl | hx := List.mem_cons.mp hx
        · omega
        · obtain rfl := List.mem_singleton.mp hx
          omega

structure Place where
  offset : Nat
  item : Wire

def locate : List Wire → Nat → List Place
  | [], _ => []
  | w :: ws, p => ⟨p, w⟩ :: locate ws (p + w.bytes.length)

theorem locate_append (ws ws' : List Wire) (p : Nat) :
    locate (ws ++ ws') p = locate ws p ++ locate ws' (p + (bytesOfAll ws).length) := by
  induction ws generalizing p with
  | nil => rfl
  | cons w ws ih =>
    rw [List.cons_append, locate, ih, locate, bytesOfAll, List.length_append, Nat.add_assoc]
    rfl

namespace Place

def stop (x : Place) : Nat := x.offset + x.item.bytes.length

def parts (x : Place) : List Place := locate x.item.parts (x.item.opening x.offset)

end Place

variable {x y : Place}

theorem four_le_length_bytes (w : Wire) : 4 ≤ w.bytes.length := by
  rw [bytes_eq, List.length_append, FlagWord.length_bytes]
  exact Nat.le_add_right 4 _

theorem mem_locate (h : x ∈ locate ws p) :
    x.item ∈ ws ∧ p ≤ x.offset ∧ x.stop ≤ p + (bytesOfAll ws).length := by
  induction ws generalizing p with
  | nil => cases h
  | cons w ws ih =>
    rw [bytesOfAll, List.length_append]
    obtain rfl | h := List.mem_cons.mp h
    · exact ⟨List.mem_cons_self, Nat.le_refl p, by simp only [Place.stop]; omega⟩
    · obtain ⟨hw, hp, hstop⟩ := ih h
      exact ⟨List.mem_cons_of_mem _ hw, by omega, by omega⟩

theorem bytes_of_mem_locate (h : x ∈ locate ws p) :
    ∃ front back, bytesOfAll ws = front ++ (x.item.bytes ++ back) ∧
      x.offset = p + front.length := by
  induction ws generalizing p with
  | nil => cases h
  | cons w ws ih =>
    obtain rfl | h := List.mem_cons.mp h
    · exact ⟨[], bytesOfAll ws, rfl, rfl⟩
    · obtain ⟨front, back, hbytes, hoffset⟩ := ih h
      refine ⟨w.bytes ++ front, back, ?_, ?_⟩
      · rw [bytesOfAll, hbytes, List.append_assoc]
      · rw [hoffset, List.length_append, Nat.add_assoc]

theorem pairwise_locate (ws : List Wire) (p : Nat) :
    (locate ws p).Pairwise fun x y ↦ x.stop ≤ y.offset := by
  induction ws generalizing p with
  | nil => exact .nil
  | cons w ws ih => exact .cons (fun y hy ↦ (mem_locate hy).2.1) (ih _)

namespace Place

theorem mem_parts (h : y ∈ x.parts) :
    y.item ∈ x.item.parts ∧ x.offset < y.offset ∧ y.stop ≤ x.stop := by
  obtain ⟨hw, hp, hstop⟩ := mem_locate h
  rw [← add_length_bytes] at hstop
  have := Nat.le_add_right 4 x.item.head.length
  exact ⟨hw, by rw [opening] at hp; omega, hstop⟩

/-- The items in an item, itself included, in the order in which they end. -/
def all (x : Place) : List Place :=
  x.parts.attach.flatMap (fun y ↦ all y.1) ++ [x]
termination_by sizeOf x.item
decreasing_by exact sizeOf_lt_of_mem_parts (mem_parts y.2).1

theorem all_eq (x : Place) : x.all = x.parts.flatMap all ++ [x] := by
  rw [all, List.flatMap_subtype (g := all) fun _ _ ↦ rfl, List.unattach_attach]

theorem induction_parts {P : Place → Prop} (step : ∀ x, (∀ y ∈ x.parts, P y) → P x) (x : Place) :
    P x :=
  step x fun y _ ↦ induction_parts step y
termination_by sizeOf x.item
decreasing_by exact sizeOf_lt_of_mem_parts (mem_parts ‹_›).1

theorem mem_all_self (x : Place) : x ∈ x.all := by
  rw [all_eq]
  exact List.mem_append_right _ (List.mem_singleton_self x)

theorem mem_all_of_mem_parts {z : Place} (h : y ∈ x.parts) (hz : z ∈ y.all) : z ∈ x.all := by
  rw [all_eq]
  exact List.mem_append_left _ (List.mem_flatMap.mpr ⟨y, h, hz⟩)

theorem mem_all (h : y ∈ x.all) : x.offset ≤ y.offset ∧ y.stop ≤ x.stop := by
  induction x using induction_parts generalizing y with
  | step x ih =>
    rw [all_eq] at h
    obtain h | h := List.mem_append.mp h
    · obtain ⟨z, hz, hy⟩ := List.mem_flatMap.mp h
      obtain ⟨-, hlt, hstop⟩ := mem_parts hz
      obtain ⟨hle, hstop'⟩ := ih z hz hy
      exact ⟨by omega, by omega⟩
    · obtain rfl := List.mem_singleton.mp h
      exact ⟨Nat.le_refl _, Nat.le_refl _⟩

theorem mem_all_trans {z : Place} (hy : y ∈ x.all) (hz : z ∈ y.all) : z ∈ x.all := by
  induction x using induction_parts with
  | step x ih =>
    rw [all_eq] at hy
    obtain hy | hy := List.mem_append.mp hy
    · obtain ⟨a, ha, hy⟩ := List.mem_flatMap.mp hy
      exact mem_all_of_mem_parts ha (ih a ha hy)
    · exact List.mem_singleton.mp hy ▸ hz

theorem wellFormed_of_mem_all (hx : x.item.WellFormed) (h : y ∈ x.all) : y.item.WellFormed := by
  induction x using induction_parts with
  | step x ih =>
    rw [all_eq] at h
    obtain h | h := List.mem_append.mp h
    · obtain ⟨z, hz, hy⟩ := List.mem_flatMap.mp h
      exact ih z hz (hx.of_mem_parts (mem_parts hz).1) hy
    · exact List.mem_singleton.mp h ▸ hx

theorem bytes_of_mem_all (h : y ∈ x.all) :
    ∃ front back, x.item.bytes = front ++ (y.item.bytes ++ back) ∧
      y.offset = x.offset + front.length := by
  induction x using induction_parts with
  | step x ih =>
    rw [all_eq] at h
    obtain h | h := List.mem_append.mp h
    · obtain ⟨z, hz, hy⟩ := List.mem_flatMap.mp h
      obtain ⟨front, back, hbytes, hoffset⟩ := ih z hz hy
      obtain ⟨before, behind, hparts, hz⟩ := bytes_of_mem_locate hz
      refine ⟨x.item.word.bytes ++ x.item.head ++ before ++ front, back ++ behind, ?_, ?_⟩
      · rw [bytes_eq_parts, hparts, hbytes]
        simp only [List.append_assoc]
      · rw [hoffset, hz, opening]
        simp only [List.length_append, FlagWord.length_bytes]
        omega
    · obtain rfl := List.mem_singleton.mp h
      exact ⟨[], [], (List.append_nil _).symm, rfl⟩

/-- No two items begin at one offset. -/
def Apart (x y : Place) : Prop := x.offset ≠ y.offset

theorem pairwise_flatMap_all {xs : List Place} (h : xs.Pairwise fun x y ↦ x.stop ≤ y.offset)
    (hx : ∀ x ∈ xs, x.all.Pairwise Apart) : (xs.flatMap all).Pairwise Apart := by
  refine List.pairwise_flatMap.mpr ⟨hx, h.imp fun {x y} hxy a ha b hb ↦ ?_⟩
  have hstop := (mem_all ha).2
  have hoffset := (mem_all hb).1
  have hpos := four_le_length_bytes a.item
  rw [stop] at hstop
  exact Nat.ne_of_lt (by omega)

theorem pairwise_all (x : Place) : x.all.Pairwise Apart := by
  induction x using induction_parts with
  | step x ih =>
    rw [all_eq]
    refine List.pairwise_append.mpr ⟨?_, List.pairwise_singleton _ _, fun y hy z hz ↦ ?_⟩
    · exact pairwise_flatMap_all (pairwise_locate _ _) ih
    · obtain rfl := List.mem_singleton.mp hz
      obtain ⟨a, ha, hy⟩ := List.mem_flatMap.mp hy
      have hlt := (mem_parts ha).2.1
      have hle := (mem_all hy).1
      exact Nat.ne_of_gt (by omega)

end Place

def allOf (ws : List Wire) (p : Nat) : List Place := (locate ws p).flatMap Place.all

theorem allOf_append (ws ws' : List Wire) (p : Nat) :
    allOf (ws ++ ws') p = allOf ws p ++ allOf ws' (p + (bytesOfAll ws).length) := by
  rw [allOf, locate_append, List.flatMap_append]
  rfl

theorem allOf_singleton (w : Wire) (p : Nat) : allOf [w] p = Place.all ⟨p, w⟩ :=
  List.append_nil _

theorem Place.all_eq_allOf (x : Place) :
    x.all = allOf x.item.parts (x.item.opening x.offset) ++ [x] := x.all_eq

end Rds.Wire
