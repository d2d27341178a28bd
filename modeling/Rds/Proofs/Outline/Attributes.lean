import Mathlib.Algebra.GroupWithZero.Nat
import Rds.Json.Numerals
import Rds.Proofs.Json.Entries
import Rds.Proofs.Outline

namespace Rds

namespace Value

/-- In every chain of a graph, no cell but the first has attributes. -/
def HeadOnly (v : Value) : Prop := ∀ u ∈ v.nodes, ∀ c ∈ u.cells.tail, c.attributes = []

instance (v : Value) : Decidable v.HeadOnly :=
  inferInstanceAs (Decidable (∀ u ∈ v.nodes, ∀ c ∈ u.cells.tail, c.attributes = []))

theorem headOnly_iff (v : Value) :
    v.HeadOnly ↔ (∀ c ∈ v.cells.tail, c.attributes = []) ∧ ∀ u ∈ v.children, u.HeadOnly := by
  rw [HeadOnly, nodes_eq, List.forall_mem_cons]
  refine and_congr_right fun _ ↦ ⟨fun h u hu w hw ↦ ?_, fun h w hw ↦ ?_⟩
  · exact h w (List.mem_flatMap.mpr ⟨u, hu, hw⟩)
  · obtain ⟨u, hu, hw⟩ := List.mem_flatMap.mp hw
    exact h u hu w hw

end Value

namespace Outline

open Value

/-- The first character of a line that is no space. -/
def mark (line : List Char) : Option Char := line.find? (· != ' ')

/-- The number of lines of a text that start with an at sign, spaces aside. -/
def attributeLines (s : String) : Nat :=
  (s.toList.splitOn '\n').countP fun line ↦ mark line = some '@'

theorem splitOn_text {v : Value} (h : Unbroken v) :
    (text v).toList.splitOn '\n' = (lines 0 v).map String.toList ++ [[]] := by
  have hsplit (ss : List String) (hss : ∀ s ∈ ss, OneLine s) :
      (String.join (ss.map (· ++ "\n"))).toList.splitOn '\n' = ss.map String.toList ++ [[]] := by
    rw [String.toList_join, List.flatMap_map]
    induction ss with
    | nil => rfl
    | cons s ss ih =>
      obtain ⟨hs, hss⟩ := List.forall_mem_cons.mp hss
      have happend (cs : List Char) : (s ++ "\n").toList ++ cs = s.toList ++ '\n' :: cs := by
        rw [String.toList_append, List.append_assoc]
        rfl
      rw [List.flatMap_cons, happend, List.splitOn, List.splitOnP_append_cons _ _ (by decide)]
      change s.toList.splitOn '\n' ++ List.splitOn '\n' _ = _
      rw [List.splitOn_eq_singleton hs, ih hss]
      rfl
  exact hsplit _ (oneLine_lines h 0)

def countMarked (ss : List String) : Nat := ss.countP fun s ↦ mark s.toList = some '@'

theorem attributeLines_text {v : Value} (h : Unbroken v) :
    attributeLines (text v) = countMarked (lines 0 v) := by
  rw [attributeLines, splitOn_text h, List.countP_append, List.countP_map]
  rfl

theorem countMarked_cons_of_ne {s : String} (h : mark s.toList ≠ some '@') (ss : List String) :
    countMarked (s :: ss) = countMarked ss :=
  List.countP_cons_of_neg (by simpa using h)

theorem countMarked_append (ss ts : List String) :
    countMarked (ss ++ ts) = countMarked ss + countMarked ts :=
  List.countP_append

theorem countMarked_flatMap {α : Type} (xs : List α) (f : α → List String) :
    countMarked (xs.flatMap f) = (xs.map fun x ↦ countMarked (f x)).sum :=
  List.countP_flatMap

theorem mark_append (s t : String) : mark (s ++ t).toList = (mark s.toList).or (mark t.toList) := by
  rw [mark, String.toList_append, List.find?_append]
  rfl

theorem mark_pad (depth : Nat) : mark (pad depth).toList = none := by
  rw [mark, pad, String.toList_ofList, List.find?_eq_none]
  intro c hc
  rw [List.eq_of_mem_replicate hc]
  decide

theorem exists_mark_kind (k : Kind) : ∃ c, mark k.name.toList = some c ∧ c ≠ '@' := by
  cases k with
  | pair k => cases k <;> exact ⟨_, rfl, by decide⟩
  | _ => exact ⟨_, rfl, by decide⟩

theorem mark_heading_ne (depth : Nat) (k : Kind) (length : Nat) :
    mark (heading depth k.name length).toList ≠ some '@' := by
  obtain ⟨c, hc, hne⟩ := exists_mark_kind k
  simp only [heading, mark_append, mark_pad, hc, Option.none_or, Option.some_or]
  exact fun h ↦ hne (Option.some.inj h)

theorem mark_summary_ne (depth : Nat) (atoms : Atoms) :
    mark (pad depth ++ summary atoms).toList ≠ some '@' := by
  obtain ⟨c, hc, hne⟩ := exists_mark_kind atoms.kind
  simp only [summary, mark_append, mark_pad, hc, Option.none_or, Option.some_or]
  exact fun h ↦ hne (Option.some.inj h)

theorem mark_of_pad {s : String} {c : Char} (h : mark s.toList = some c) (depth : Nat) :
    mark (pad depth ++ s).toList = some c := by
  rw [mark_append, mark_pad, h]
  rfl

theorem mark_tagLine_ne (depth : Nat) (tag : Option Chars) :
    mark (tagLine depth tag).toList ≠ some '@' := by
  rw [tagLine, mark_append, mark_of_pad (c := '$') (by decide), Option.some_or]
  decide

theorem mark_symbol_ne (depth : Nat) (name : Chars) :
    mark (pad depth ++ "symbol `" ++ name.plain ++ "`").toList ≠ some '@' := by
  rw [mark_append, mark_append, mark_of_pad (c := 's') (by decide), Option.some_or, Option.some_or]
  decide

theorem mark_char_ne (depth : Nat) (content : Chars) :
    mark (pad depth ++ "char " ++ content.quoted).toList ≠ some '@' := by
  rw [mark_append, mark_of_pad (c := 'c') (by decide), Option.some_or]
  decide

theorem mark_tailLine_ne (depth : Nat) : mark (tailLine depth).toList ≠ some '@' := by
  rw [tailLine, mark_of_pad (c := '.') (by decide)]
  decide

theorem mark_attributeLine (depth : Nat) (name : String) :
    mark (attributeLine depth name).toList = some '@' := by
  rw [attributeLine, mark_append, mark_of_pad (c := '@') (by decide)]
  rfl

theorem countMarked_setLines (depth : Nat) (as : Attributes) :
    countMarked (setLines depth as) =
      (as.map fun a ↦ 1 + countMarked (lines (depth + 2) a.2)).sum := by
  rw [setLines, countMarked_flatMap, (as.listed_perm.map _).sum_eq]
  congr 1
  refine List.map_congr_left fun a _ ↦ ?_
  rw [countMarked, List.countP_cons_of_pos (by simpa using mark_attributeLine depth a.1),
    Nat.add_comm]
  rfl

theorem countMarked_tag (depth : Nat) (tag : Option Chars) (ss : List String) :
    countMarked (tagLine depth tag :: ss) = countMarked ss :=
  countMarked_cons_of_ne (mark_tagLine_ne depth tag) ss

theorem countMarked_null (depth : Nat) : countMarked (lines depth .null) = 0 := by
  have hmark : mark (pad depth ++ "NULL").toList = some 'N' := mark_of_pad (by decide) depth
  rw [lines, countMarked_cons_of_ne (by rw [hmark]; decide)]
  rfl

theorem countMarked_chainLines_of_cells_nil {v : Value} (h : v.cells = []) (depth : Nat) :
    countMarked (chainLines depth v) = countMarked (lines (depth + 2) v) := by
  rw [chainLines_of_cells_nil h]
  split
  · next hnull =>
    cases v with
    | null => exact (countMarked_null _).symm
    | _ => cases hnull
  · exact countMarked_cons_of_ne (mark_tailLine_ne depth) _

/-- A count is below another one and reaches it in just one case. -/
structure Attains (m n : Nat) (p : Prop) : Prop where
  le : m ≤ n
  eq_iff : m = n ↔ p

namespace Attains

variable {α : Type} {m n m' n' : Nat} {p p' : Prop}

theorem refl (n : Nat) : Attains n n True := ⟨Nat.le_refl n, by simp⟩

theorem congr (h : Attains m n p) (hp : p ↔ p') : Attains m n p' := ⟨h.le, h.eq_iff.trans hp⟩

theorem add (h : Attains m n p) (h' : Attains m' n' p') :
    Attains (m + m') (n + n') (p ∧ p') := by
  have := h.le
  have := h'.le
  refine ⟨by omega, ?_⟩
  rw [← h.eq_iff, ← h'.eq_iff]
  omega

theorem sum {xs : List α} {f g : α → Nat} {P : α → Prop} (h : ∀ x ∈ xs, Attains (f x) (g x) (P x)) :
    Attains (xs.map f).sum (xs.map g).sum (∀ x ∈ xs, P x) := by
  induction xs with
  | nil => exact (refl 0).congr (by simp)
  | cons x xs ih =>
    obtain ⟨hx, hxs⟩ := List.forall_mem_cons.mp h
    simp only [List.map_cons, List.sum_cons, List.forall_mem_cons]
    exact hx.add (ih hxs)

end Attains

theorem attains_setLines {as : Attributes}
    (h : ∀ a ∈ as, ∀ depth, Attains (countMarked (lines depth a.2)) a.2.attributeCount a.2.HeadOnly)
    (depth : Nat) :
    Attains (countMarked (setLines depth as)) (countOfSet as) (∀ a ∈ as, a.2.HeadOnly) := by
  rw [countMarked_setLines, countOfSet]
  exact .sum fun a ha ↦ ((Attains.refl 1).add (h a ha _)).congr (iff_of_eq (true_and _))

theorem attains_zero (as : Attributes) : Attains 0 (countOfSet as) (as = []) := by
  refine ⟨Nat.zero_le _, ?_⟩
  cases as with
  | nil => exact iff_of_true rfl rfl
  | cons a as =>
    rw [countOfSet, List.map_cons, List.sum_cons]
    exact iff_of_false (by omega) (List.cons_ne_nil _ _)

theorem attains_lines_of_cells_nil {v : Value} (hcells : v.cells = [])
    (h : ∀ u ∈ v.children, ∀ depth,
      Attains (countMarked (lines depth u)) u.attributeCount u.HeadOnly) (depth : Nat) :
    Attains (countMarked (lines depth v)) v.attributeCount v.HeadOnly := by
  have hset := attains_setLines (fun a ha ↦ h a.2 (mem_children_of_attribute ha)) depth
  have hhead : (∀ u ∈ v.children, u.HeadOnly) ↔ v.HeadOnly := by simp [headOnly_iff v, hcells]
  refine Attains.congr ?_ hhead
  cases v with
  | null =>
    rw [countMarked_null]
    exact (Attains.refl 0).congr (by simp [children])
  | symbol name =>
    rw [lines, countMarked_cons_of_ne (mark_symbol_ne depth name)]
    exact (Attains.refl 0).congr (by simp [children])
  | char content =>
    rw [lines, countMarked_cons_of_ne (mark_char_ne depth content)]
    exact (Attains.refl 0).congr (by simp [children])
  | vector origin atoms as object =>
    rw [lines_vector, countMarked_cons_of_ne (mark_summary_ne depth atoms), attributeCount_vector]
    exact hset.congr List.forall_mem_map.symm
  | list origin elements as object =>
    have helements := Attains.sum fun u hu ↦ h u (List.mem_append_left _ hu) (depth + 1)
    rw [lines_list, countMarked_cons_of_ne (mark_heading_ne depth .list _), countMarked_append,
      countMarked_flatMap, attributeCount_list]
    refine (helements.add hset).congr ?_
    rw [children, List.forall_mem_append, List.forall_mem_map]
    rfl
  | pair => simp [cells_pair] at hcells

theorem attains_chainLines_of_cells_nil {v : Value} (hcells : v.cells = [])
    (h : ∀ depth, Attains (countMarked (lines depth v)) v.attributeCount v.HeadOnly)
    (depth : Nat) :
    Attains (countMarked (chainLines depth v)) v.attributeCount
      ((∀ c ∈ v.cells, c.attributes = []) ∧ v.HeadOnly) := by
  rw [countMarked_chainLines_of_cells_nil hcells]
  exact (h _).congr (by simp [hcells])

theorem headOnly_pair_iff {origin : Origin} {kind : PairKind} {tag : Option Chars}
    {car cdr : Value} {as : Attributes} {object : Bool} :
    (pair origin kind tag car cdr as object).HeadOnly ↔
      (car.HeadOnly ∧ (∀ c ∈ cdr.cells, c.attributes = []) ∧ cdr.HeadOnly) ∧
        ∀ a ∈ as, a.2.HeadOnly := by
  rw [headOnly_iff (pair ..), cells_pair, children, List.tail_cons, List.forall_mem_cons,
    List.forall_mem_cons, List.forall_mem_map]
  tauto

/-- A graph has no more marked lines than attributes, and so does the rest of a chain. None is
missing when only first cells have attributes. -/
theorem attains_lines_and_chain (v : Value) :
    (∀ depth, Attains (countMarked (lines depth v)) v.attributeCount v.HeadOnly) ∧
      ∀ depth, Attains (countMarked (chainLines depth v)) v.attributeCount
        ((∀ c ∈ v.cells, c.attributes = []) ∧ v.HeadOnly) := by
  refine induction_chain (fun v ↦ attains_lines_of_cells_nil)
    (fun v ↦ attains_chainLines_of_cells_nil) ?_ v
  intro origin kind tag car cdr as object hcar hcdr hset
  have hrest (depth : Nat) := (hcar (depth + 2)).add (hcdr depth)
  refine ⟨fun depth ↦ ?_, fun depth ↦ ?_⟩
  · have hheading (n : Nat) : mark (heading depth kind.name n).toList ≠ some '@' :=
      mark_heading_ne depth (.pair kind) n
    rw [lines_pair, countMarked_cons_of_ne (hheading _), countMarked_append, List.cons_append,
      countMarked_tag, countMarked_append, attributeCount_pair]
    exact ((hrest depth).add (attains_setLines hset depth)).congr headOnly_pair_iff.symm
  · -- Here the attributes of the cell are not shown, so that there must be none.
    rw [chainLines_pair, List.cons_append, countMarked_tag, countMarked_append,
      attributeCount_pair]
    refine ((hrest depth).add (attains_zero as)).congr ?_
    rw [headOnly_pair_iff, cells_pair, List.forall_mem_cons]
    constructor
    · rintro ⟨hbelow, rfl⟩
      exact ⟨⟨rfl, hbelow.2.1⟩, hbelow, fun a ha ↦ absurd ha List.not_mem_nil⟩
    · rintro ⟨⟨has, -⟩, hbelow, -⟩
      exact ⟨hbelow, has⟩

/-- The document of a graph shows each of its attributes, and its lines show no more. They show
each of them if and only if no cell behind the first of a chain has any. -/
theorem attributeLines_text_and_entries [Json.Numerals] {v : Value} (h : Unbroken v) :
    (Json.ofValue v).entries = v.attributeCount ∧
      attributeLines (text v) ≤ v.attributeCount ∧
        (attributeLines (text v) = v.attributeCount ↔ v.HeadOnly) := by
  rw [attributeLines_text h]
  have hlines := (attains_lines_and_chain v).1 0
  exact ⟨Json.entries_ofValue v, hlines.le, hlines.eq_iff⟩

def framed : Value :=
  list .nowhere
    [vector .nowhere (.integer [1]) [("dim", vector .nowhere (.integer [1]) [("a", null)] false)]
      false,
      pair .nowhere .list none null (pair .nowhere .list (some (.text .nowhere "t")) null
        (symbol (.text .nowhere "s")) [] false) [("b", null)] false]
    [] false

theorem attributeLines_framed :
    Unbroken framed ∧ framed.HeadOnly ∧ attributeLines (text framed) = 3 ∧
      (Json.ofValue framed).entries = 3 := by
  have h : Unbroken framed := by decide
  have hhead : framed.HeadOnly := by decide
  obtain ⟨hentries, -, hiff⟩ := attributeLines_text_and_entries h
  exact ⟨h, hhead, hiff.mpr hhead, hentries⟩

def lateCell : Value :=
  pair .nowhere .list none null (pair .nowhere .list none null null [("a", null)] false) [] false

/-- The attribute of a second cell stands in the document and on no line. -/
theorem attributeLines_lateCell :
    Unbroken lateCell ∧ text lateCell = "pairlist [2]\n  $\n    NULL\n  $\n    NULL\n" ∧
      attributeLines (text lateCell) = 0 ∧ lateCell.attributeCount = 1 ∧
        (Json.ofValue lateCell).entries = 1 := by
  have htext : text lateCell = "pairlist [2]\n  $\n    NULL\n  $\n    NULL\n" := by
    rw [text, lateCell, lines_pair, chainLines_pair, chainLines_of_cells_nil rfl, lines]
    decide
  refine ⟨by decide, htext, ?_, rfl, Json.entries_ofValue _⟩
  rw [htext]
  decide

end Outline

end Rds
