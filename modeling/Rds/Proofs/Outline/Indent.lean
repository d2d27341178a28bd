import Rds.Proofs.Outline

namespace Rds.Outline

open Value

/-- The lines of a graph at a depth, each with its end. -/
def textAt (depth : Nat) (v : Value) : String := String.join ((lines depth v).map (· ++ "\n"))

/-- Puts a margin in front of each line. A line begins in front of a text and behind each line
break, if anything follows. -/
def indentFrom (margin : List Char) : Bool → List Char → List Char
  | _, [] => []
  | true, c :: cs => margin ++ c :: indentFrom margin (c == '\n') cs
  | false, c :: cs => c :: indentFrom margin (c == '\n') cs

def indent (depth : Nat) (s : String) : String :=
  String.ofList (indentFrom (pad depth).toList true s.toList)

def Shifted (f : Nat → List String) : Prop :=
  ∀ margin depth, f (margin + depth) = (f depth).map (pad margin ++ ·)

theorem pad_add (m n : Nat) : pad (m + n) = pad m ++ pad n := by
  rw [pad, Nat.mul_add, List.replicate_add, String.ofList_append]
  rfl

theorem Shifted.cons {line : Nat → String} {f : Nat → List String}
    (hline : ∀ margin depth, line (margin + depth) = pad margin ++ line depth) (hf : Shifted f) :
    Shifted fun depth ↦ line depth :: f depth := by
  intro margin depth
  dsimp only
  rw [hline, hf, List.map_cons]

theorem Shifted.append {f g : Nat → List String} (hf : Shifted f) (hg : Shifted g) :
    Shifted fun depth ↦ f depth ++ g depth := by
  intro margin depth
  dsimp only
  rw [hf, hg, List.map_append]

theorem Shifted.flatMap {α : Type} {xs : List α} {f : Nat → α → List String}
    (h : ∀ x ∈ xs, Shifted fun depth ↦ f depth x) : Shifted fun depth ↦ xs.flatMap (f depth) := by
  intro margin depth
  rw [List.map_flatMap]
  exact List.flatMap_congr fun x hx ↦ h x hx margin depth

theorem shifted_nil : Shifted fun _ ↦ [] := fun _ _ ↦ rfl

theorem Shifted.deeper {f : Nat → List String} (h : Shifted f) (k : Nat) :
    Shifted fun depth ↦ f (depth + k) := by
  intro margin depth
  dsimp only
  rw [Nat.add_assoc, h]

theorem padded (s : String) (margin depth : Nat) :
    pad (margin + depth) ++ s = pad margin ++ (pad depth ++ s) := by
  rw [pad_add, String.append_assoc]

theorem heading_add (name : String) (length margin depth : Nat) :
    heading (margin + depth) name length = pad margin ++ heading depth name length := by
  simp only [heading, pad_add, String.append_assoc]

theorem tagLine_add (tag : Option Chars) (margin depth : Nat) :
    tagLine (margin + depth) tag = pad margin ++ tagLine depth tag := by
  simp only [tagLine, pad_add, String.append_assoc]

theorem attributeLine_add (name : String) (margin depth : Nat) :
    attributeLine (margin + depth) name = pad margin ++ attributeLine depth name := by
  simp only [attributeLine, pad_add, String.append_assoc]

theorem shifted_setLines {as : Attributes} (h : ∀ a ∈ as, Shifted (lines · a.2)) :
    Shifted (setLines · as) :=
  .flatMap fun a ha ↦ .cons (attributeLine_add a.1) ((h a (Attributes.mem_of_mem_listed ha)).deeper 2)

theorem shifted_lines_of_cells_nil {v : Value} (hcells : v.cells = [])
    (h : ∀ u ∈ v.children, Shifted (lines · u)) : Shifted (lines · v) := by
  have hset : Shifted (setLines · v.attributes) :=
    shifted_setLines fun a ha ↦ h a.2 (mem_children_of_attribute ha)
  cases v with
  | null =>
    simp only [lines]
    exact .cons (padded _) shifted_nil
  | symbol name =>
    simp only [lines, String.append_assoc]
    exact .cons (padded _) shifted_nil
  | char content =>
    simp only [lines, String.append_assoc]
    exact .cons (padded _) shifted_nil
  | vector origin atoms as object =>
    simp only [lines_vector]
    exact .cons (padded _) hset
  | list origin elements as object =>
    simp only [lines_list]
    refine .cons (heading_add _ _) (.append (.flatMap fun u hu ↦ ?_) hset)
    exact (h u (List.mem_append_left _ hu)).deeper 1
  | pair => simp [cells_pair] at hcells

theorem shifted_chainLines_of_cells_nil {v : Value} (hcells : v.cells = [])
    (h : Shifted (lines · v)) : Shifted (chainLines · v) := by
  simp only [chainLines_of_cells_nil hcells]
  split
  · exact shifted_nil
  · exact .cons (padded "  . (tail)") (h.deeper 2)

theorem shifted_lines_and_chain (v : Value) :
    Shifted (lines · v) ∧ Shifted (chainLines · v) := by
  refine induction_chain (fun v ↦ shifted_lines_of_cells_nil)
    (fun v ↦ shifted_chainLines_of_cells_nil) ?_ v
  intro origin kind tag car cdr as object hcar hcdr hset
  have hcell : Shifted fun depth ↦
      tagLine depth tag :: lines (depth + 2) car ++ chainLines depth cdr :=
    .append (.cons (tagLine_add tag) (hcar.deeper 2)) hcdr
  refine ⟨?_, ?_⟩
  · simp only [lines_pair]
    exact .cons (heading_add _ _) (hcell.append (shifted_setLines hset))
  · simp only [chainLines_pair]
    exact hcell

theorem lines_eq_map (depth : Nat) (v : Value) : lines depth v = (lines 0 v).map (pad depth ++ ·) :=
  (shifted_lines_and_chain v).1 depth 0

section Indent

variable {margin line : List Char}

theorem indentFrom_append (h : '\n' ∉ line) (begins : Bool) (rest : List Char) :
    indentFrom margin begins (line ++ '\n' :: rest) =
      (if begins then margin else []) ++ (line ++ '\n' :: indentFrom margin true rest) := by
  induction line generalizing begins with
  | nil => cases begins <;> rfl
  | cons c line ih =>
    rw [List.mem_cons, not_or] at h
    have hrest : (c == '\n') = false := by simpa using Ne.symm h.1
    rw [List.cons_append]
    cases begins <;> simp [indentFrom, hrest, ih h.2]

theorem length_indentFrom (begins : Bool) (cs : List Char) :
    (indentFrom margin begins (cs ++ ['\n'])).length =
      cs.length + 1 + margin.length * (cs.count '\n' + if begins then 1 else 0) := by
  induction cs generalizing begins with
  | nil => cases begins <;> simp [indentFrom, Nat.add_comm]
  | cons c cs ih =>
    by_cases hc : c = '\n'
    · subst hc
      cases begins <;> simp [indentFrom, ih] <;> ring
    · cases begins <;> simp [indentFrom, ih, hc] <;> ring

def column (lines : List String) : List Char := lines.flatMap fun line ↦ line.toList ++ ['\n']

theorem column_cons (line : String) (lines : List String) :
    column (line :: lines) = line.toList ++ '\n' :: column lines := by
  rw [column, List.flatMap_cons, List.append_assoc]
  rfl

theorem indentFrom_column {lines : List String} (h : Clean lines) (depth : Nat) :
    indentFrom (pad depth).toList true (column lines) = column (lines.map (pad depth ++ ·)) := by
  induction lines with
  | nil => rfl
  | cons line lines ih =>
    obtain ⟨hline, hlines⟩ := List.forall_mem_cons.mp h
    rw [column_cons, indentFrom_append hline, ih hlines, List.map_cons, column_cons,
      String.toList_append, List.append_assoc]
    rfl

theorem length_indentFrom_column (lines : List String) :
    (indentFrom margin true (column lines)).length =
      (column lines).length + margin.length * (column lines).count '\n' := by
  obtain rfl | ⟨front, last, rfl⟩ := List.eq_nil_or_concat lines
  · rfl
  · have hcolumn : column (front.concat last) = column front ++ last.toList ++ ['\n'] := by
      simp [column]
    rw [hcolumn, length_indentFrom]
    simp [Nat.add_assoc]

theorem length_column_map (lines : List String) (depth : Nat) :
    (column (lines.map (pad depth ++ ·))).length =
      (column lines).length + (pad depth).toList.length * lines.length := by
  induction lines with
  | nil => rfl
  | cons line lines ih =>
    rw [List.map_cons, column_cons, column_cons]
    simp only [List.length_append, List.length_cons, ih, String.toList_append]
    ring

/-- Each line ends with a break, and there are no more breaks if the lines are free of them. -/
theorem count_column (lines : List String) :
    lines.length ≤ (column lines).count '\n' ∧
      ((column lines).count '\n' = lines.length ↔ Clean lines) := by
  induction lines with
  | nil => exact ⟨Nat.le_refl 0, iff_of_true rfl nofun⟩
  | cons line lines ih =>
    have hline : OneLine line ↔ line.toList.count '\n' = 0 := List.count_eq_zero.symm
    rw [column_cons, List.count_append, List.count_cons_self, List.length_cons, Clean,
      List.forall_mem_cons, hline]
    change _ ∧ (_ ↔ _ ∧ Clean lines)
    rw [← ih.2]
    omega

end Indent

theorem toList_textAt (depth : Nat) (v : Value) :
    (textAt depth v).toList = column (lines depth v) := by
  rw [textAt, String.toList_join, List.flatMap_map, column]
  exact List.flatMap_congr fun line _ ↦ String.toList_append

theorem indent_zero (s : String) : indent 0 s = s := by
  have h (begins : Bool) (cs : List Char) : indentFrom [] begins cs = cs := by
    induction cs generalizing begins with
    | nil => cases begins <;> rfl
    | cons c cs ih => cases begins <;> simp [indentFrom, ih]
  change String.ofList (indentFrom [] true s.toList) = s
  rw [h, String.ofList_toList]

/-- At a depth each line of a graph is what it is at the root, behind a margin of two spaces for
each level. Its text is the text at the root with that margin in front of every line, if and only if
there is no margin or no name of a symbol, no tag and no name of an attribute that it shows has a
line break. Its strings do not matter. -/
theorem textAt_eq_indent_iff (depth : Nat) (v : Value) :
    lines depth v = (lines 0 v).map (pad depth ++ ·) ∧
      (textAt depth v = indent depth (text v) ↔ depth = 0 ∨ Inline v) := by
  have hlines := lines_eq_map depth v
  refine ⟨hlines, ?_⟩
  have htext : (text v).toList = column (lines 0 v) := toList_textAt 0 v
  constructor
  · intro h
    refine or_iff_not_imp_left.mpr fun hdepth ↦ ?_
    have hlength := congrArg (fun s ↦ s.toList.length) h
    simp only [toList_textAt, indent, String.toList_ofList, htext, hlines, length_column_map,
      length_indentFrom_column, Nat.add_left_cancel_iff] at hlength
    have hpad : 0 < (pad depth).toList.length := by
      rw [pad, String.toList_ofList, List.length_replicate]
      omega
    rw [← clean_lines_iff v 0, ← (count_column (lines 0 v)).2]
    exact (Nat.eq_of_mul_eq_mul_left hpad hlength).symm
  · rintro (rfl | h)
    · exact (indent_zero _).symm
    · rw [← String.toList_inj, toList_textAt, indent, String.toList_ofList, htext,
        indentFrom_column ((clean_lines_iff v 0).mpr h), hlines]

def brokenSymbol : Value := .symbol (.text .nowhere "a\nb")

/-- Inside a list, the second line of the symbol stands where a line of the root would. -/
theorem textAt_brokenSymbol :
    textAt 1 brokenSymbol = "  symbol `a\nb`\n" ∧
      indent 1 (text brokenSymbol) = "  symbol `a\n  b`\n" ∧
      text (.list .nowhere [brokenSymbol] [] false) = "list [1]\n  symbol `a\nb`\n" := by
  have hsymbol (depth : Nat) : lines depth brokenSymbol = [pad depth ++ "symbol `a\nb`"] := by
    simp only [brokenSymbol, lines, String.append_assoc]
    rfl
  refine ⟨?_, ?_, ?_⟩
  · rw [textAt, hsymbol]
    decide
  · rw [text, hsymbol]
    decide
  · rw [text, lines_list, List.flatMap_singleton, hsymbol]
    decide

end Rds.Outline
