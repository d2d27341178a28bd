import Rds.Outline
import Rds.Proofs.Attributes
import Rds.Proofs.Decimal.Numeral
import Rds.Proofs.Graph

namespace Rds

def OneLine (s : String) : Prop := '\n' ∉ s.toList

instance (s : String) : Decidable (OneLine s) := inferInstanceAs (Decidable (¬ _))

namespace OneLine

variable {s t : String} {ss : List String}

theorem append (hs : OneLine s) (ht : OneLine t) : OneLine (s ++ t) := by
  rw [OneLine, String.toList_append, List.mem_append]
  exact not_or.mpr ⟨hs, ht⟩

theorem ofList {cs : List Char} (h : '\n' ∉ cs) : OneLine (String.ofList cs) := by
  rwa [OneLine, String.toList_ofList]

theorem intercalate (ht : OneLine t) (h : ∀ s ∈ ss, OneLine s) :
    OneLine (String.intercalate t ss) := by
  rw [OneLine, String.toList_intercalate]
  induction ss with
  | nil => exact List.not_mem_nil
  | cons s ss ih =>
    obtain ⟨hs, hss⟩ := List.forall_mem_cons.mp h
    cases ss with
    | nil =>
      rw [List.map_singleton, List.intercalate_singleton]
      exact hs
    | cons s' ss =>
      rw [List.map_cons, List.map_cons, List.intercalate_cons_cons, List.mem_append,
        List.mem_append]
      exact not_or.mpr ⟨not_or.mpr ⟨hs, ht⟩, ih hss⟩

end OneLine

theorem oneLine_append_iff {s t : String} : OneLine (s ++ t) ↔ OneLine s ∧ OneLine t := by
  rw [OneLine, String.toList_append, List.mem_append, not_or]
  rfl

theorem newline_notMem_toDigits {b : Nat} (hb : 1 < b) (hb' : b ≤ 16) (n : Nat) :
    '\n' ∉ Nat.toDigits b n := by
  have hdigit : ∀ d < 16, '\n' ≠ Nat.digitChar d := by decide
  induction n using Nat.strongRecOn with
  | ind n ih =>
    have hlast := hdigit (n % b) (Nat.lt_of_lt_of_le (Nat.mod_lt n (by omega)) hb')
    rw [Nat.toDigits_eq_if hb]
    split
    · next hn => exact List.mem_singleton.not.mpr (hdigit n (Nat.lt_of_lt_of_le hn hb'))
    · next hn =>
      have hlt : n / b < n := Nat.div_lt_self (by omega) hb
      rw [List.mem_append, List.mem_singleton]
      exact not_or.mpr ⟨ih _ hlt, hlast⟩

theorem oneLine_nat (n : Nat) : OneLine (toString n) :=
  .ofList (newline_notMem_toDigits (by decide) (by decide) n)

theorem oneLine_int (n : Int) : OneLine (toString n) := by
  cases n with
  | ofNat n => exact oneLine_nat n
  | negSucc n => exact OneLine.append (s := "-") (by decide) (oneLine_nat (n + 1))

namespace Quoted

theorem newline_notMem_escape (c : Char) : '\n' ∉ escape c := by
  by_cases hc : c = '\n'
  · rw [hc]
    decide
  unfold escape
  repeat' split
  iterate 5 decide
  · have hdigits := newline_notMem_toDigits (b := 16) (by decide) (by decide) c.toNat
    simp [hdigits]
  · exact List.mem_singleton.not.mpr fun he ↦ hc he.symm

theorem oneLine (s : String) : OneLine (ofString s) := by
  refine .ofList ?_
  simp [encode, newline_notMem_escape]

end Quoted

theorem Chars.oneLine_quoted (c : Chars) : OneLine c.quoted := by
  cases c with
  | na => decide
  | text _ s => exact Quoted.oneLine s

theorem Hex.oneLine_lower (b : UInt8) : OneLine (lower b) := by
  have hdigit : ∀ n < 16, '\n' ≠ digit 'a' n := by decide
  have hb := b.toNat_lt
  refine .ofList ?_
  rw [digits, List.mem_cons, List.mem_singleton]
  exact not_or.mpr ⟨hdigit _ (by omega), hdigit _ (by omega)⟩

namespace Outline

open Decimal

theorem newline_notMem_writePlain {ds : List Char} (h : '\n' ∉ ds) (e : Int) :
    '\n' ∉ numberLayout.writePlain ds e := by
  have hzeros (n : Nat) : '\n' ∉ Layout.zeros n := (digits_zeros n).notMem rfl
  have htake (n : Nat) : '\n' ∉ ds.take n := fun hm ↦ h (List.mem_of_mem_take hm)
  have hdrop (n : Nat) : '\n' ∉ ds.drop n := fun hm ↦ h (List.mem_of_mem_drop hm)
  unfold Layout.writePlain
  split
  · simp [hzeros, h]
  · split
    · simp [hzeros, h, numberLayout]
    · simp [htake, hdrop]

theorem oneLine_text (x : Double) : OneLine (numberLayout.text x) := by
  have hmagnitude : '\n' ∉ numberLayout.magnitude x := by
    unfold Layout.magnitude
    split
    · exact newline_notMem_writePlain (by decide) 0
    · rw [Layout.write]
      exact newline_notMem_writePlain
        ((digits_dropTrailingZeros (digits_toDigits _)).notMem rfl) _
  refine .ofList ?_
  split
  · simp [hmagnitude]
  · exact hmagnitude

theorem oneLine_presentDouble (x : Double) : OneLine (presentDouble x) := by
  unfold presentDouble
  repeat' split
  · exact oneLine_text x
  all_goals decide

theorem oneLine_double (x : Double) : OneLine (double x) := by
  unfold double
  split
  · decide
  · exact oneLine_presentDouble x

theorem oneLine_complex (z : Complex) : OneLine (complex z) := by
  have hsigned : OneLine (signedDouble z.im) := by
    unfold signedDouble
    split
    · exact oneLine_presentDouble _
    · exact OneLine.append (by decide) (oneLine_presentDouble _)
  unfold complex
  split
  · decide
  · exact ((oneLine_double _).append hsigned).append (by decide)

theorem oneLine_logical (x : Logical) : OneLine (logical x) := by
  cases x <;> decide

theorem oneLine_integer (n : Int32) : OneLine (integer n) := by
  unfold integer
  split
  · decide
  · exact oneLine_int _

theorem oneLine_shown (atoms : Atoms) : ∀ s ∈ shown atoms, OneLine s := by
  have hmap {α : Type} {f : α → String} (hf : ∀ x, OneLine (f x)) (xs : List α) :
      ∀ s ∈ (xs.take shownElements).map f, OneLine s := by
    intro s hs
    obtain ⟨x, -, rfl⟩ := List.mem_map.mp hs
    exact hf x
  cases atoms with
  | logical xs => exact hmap oneLine_logical xs
  | integer xs => exact hmap oneLine_integer xs
  | double xs => exact hmap oneLine_double xs
  | complex xs => exact hmap oneLine_complex xs
  | character xs => exact hmap Chars.oneLine_quoted xs
  | raw xs => exact hmap Hex.oneLine_lower xs

theorem oneLine_kind (k : Kind) : OneLine k.name := by
  cases k with
  | pair k => cases k <;> decide
  | _ => decide

theorem oneLine_summary (atoms : Atoms) : OneLine (summary atoms) := by
  have hellipsis : OneLine (if shownElements < atoms.length then " ..." else "") := by
    split <;> decide
  unfold summary
  exact (((((oneLine_kind _).append (by decide)).append (oneLine_nat _)).append (by decide)).append
    (.intercalate (by decide) (oneLine_shown atoms))).append hellipsis

theorem oneLine_pad (depth : Nat) : OneLine (pad depth) :=
  .ofList fun h ↦ by cases List.eq_of_mem_replicate h

open Value

def setLines (depth : Nat) (as : Attributes) : List String :=
  as.listed.flatMap fun a ↦ attributeLine depth a.1 :: lines (depth + 2) a.2

def chainLines (depth : Nat) (v : Value) : List String :=
  v.cells.flatMap (fun c ↦ tagLine depth c.tag :: lines (depth + 2) c.car) ++
    if v.tail.isNull then [] else tailLine depth :: lines (depth + 2) v.tail

theorem flatten_attach {α β : Type} (xs : List α) (f : α → List β) :
    (xs.attach.map fun x ↦ f x.1).flatten = xs.flatMap f := by
  rw [List.map_subtype (g := f) (fun _ _ ↦ rfl), List.unattach_attach, List.flatMap_def]

theorem lines_vector (depth : Nat) (origin : Origin) (atoms : Atoms) (as : Attributes)
    (object : Bool) :
    lines depth (.vector origin atoms as object) =
      (pad depth ++ summary atoms) :: setLines depth as := by
  rw [lines, flatten_attach as.listed fun a ↦ attributeLine depth a.1 :: lines (depth + 2) a.2]
  rfl

theorem lines_list (depth : Nat) (origin : Origin) (elements : List Value) (as : Attributes)
    (object : Bool) :
    lines depth (.list origin elements as object) =
      heading depth Kind.list.name elements.length ::
        (elements.flatMap (lines (depth + 1)) ++ setLines depth as) := by
  rw [lines, flatten_attach as.listed fun a ↦ attributeLine depth a.1 :: lines (depth + 2) a.2,
    flatten_attach elements (lines (depth + 1))]
  rfl

theorem lines_pair (depth : Nat) (origin : Origin) (kind : PairKind) (tag : Option Chars)
    (car cdr : Value) (as : Attributes) (object : Bool) :
    lines depth (.pair origin kind tag car cdr as object) =
      heading depth kind.name (cdr.cells.length + 1) ::
        (tagLine depth tag :: lines (depth + 2) car ++ chainLines depth cdr ++
          setLines depth as) := by
  rw [lines, flatten_attach as.listed fun a ↦ attributeLine depth a.1 :: lines (depth + 2) a.2,
    flatten_attach _ fun c : Cell ↦ tagLine depth c.tag :: lines (depth + 2) c.car, cells_pair,
    tail_pair, List.flatMap_cons, List.length_cons, chainLines, setLines]
  simp only [List.cons_append, List.append_assoc]

theorem chainLines_pair (depth : Nat) (origin : Origin) (kind : PairKind) (tag : Option Chars)
    (car cdr : Value) (as : Attributes) (object : Bool) :
    chainLines depth (.pair origin kind tag car cdr as object) =
      tagLine depth tag :: lines (depth + 2) car ++ chainLines depth cdr := by
  rw [chainLines, cells_pair, tail_pair, List.flatMap_cons, List.append_assoc]
  rfl

theorem chainLines_of_cells_nil {v : Value} (h : v.cells = []) (depth : Nat) :
    chainLines depth v = if v.isNull then [] else tailLine depth :: lines (depth + 2) v := by
  have htail : v.tail = v := by
    cases v with
    | pair => simp [cells_pair] at h
    | _ => rfl
  rw [chainLines, h, htail]
  rfl

/-- The texts at a node that its lines show as they are. -/
def plainTexts : Value → List String
  | .symbol name => [name.plain]
  | .pair _ _ tag _ _ as _ => (tag.bind Chars.text?).toList ++ as.map Prod.fst
  | v => v.attributes.map Prod.fst

theorem oneLine_heading {name : String} (h : OneLine name) (depth length : Nat) :
    OneLine (heading depth name length) :=
  (((((oneLine_pad depth).append h).append (by decide)).append (oneLine_nat length)).append
    (by decide))

/-- The names that the lines of a graph show as they are: of symbols, as tags, and of
attributes. -/
inductive Shows : Value → String → Prop
  | symbol (name : Chars) : Shows (.symbol name) name.plain
  | element {origin : Origin} {elements : List Value} {as : Attributes} {object : Bool} {u : Value}
      {s : String} : u ∈ elements → Shows u s → Shows (.list origin elements as object) s
  | tag {v : Value} {c : Cell} {s : String} :
      c ∈ v.cells → c.tag.bind Chars.text? = some s → Shows v s
  | car {v : Value} {c : Cell} {s : String} : c ∈ v.cells → Shows c.car s → Shows v s
  | tail {v : Value} {s : String} : v.cells ≠ [] → Shows v.tail s → Shows v s
  | attributeName {v : Value} {a : String × Value} : a ∈ v.attributes → Shows v a.1
  | attributeValue {v : Value} {a : String × Value} {s : String} :
      a ∈ v.attributes → Shows a.2 s → Shows v s

def Inline (v : Value) : Prop := ∀ s, Shows v s → OneLine s

def InlineContent : Value → Prop
  | .symbol name => OneLine name.plain
  | .list _ elements _ _ => ∀ u ∈ elements, Inline u
  | _ => True

structure InlineParts (v : Value) : Prop where
  content : InlineContent v
  cells : ∀ c ∈ v.cells, (∀ s, c.tag.bind Chars.text? = some s → OneLine s) ∧ Inline c.car
  tail : v.cells ≠ [] → Inline v.tail
  attributes : ∀ a ∈ v.attributes, OneLine a.1 ∧ Inline a.2

theorem inlineContent_of_inline {v : Value} (h : Inline v) : InlineContent v := by
  cases v with
  | symbol name => exact h _ (.symbol name)
  | list origin elements as object => exact fun u hu s hs ↦ h s (.element hu hs)
  | null | char _ | vector _ _ _ _ | pair _ _ _ _ _ _ _ => trivial

theorem inline_iff (v : Value) : Inline v ↔ InlineParts v := by
  constructor
  · intro h
    exact {
      content := inlineContent_of_inline h
      cells := fun c hc ↦ ⟨fun s hs ↦ h s (.tag hc hs), fun s hs ↦ h s (.car hc hs)⟩
      tail := fun hne s hs ↦ h s (.tail hne hs)
      attributes := fun a ha ↦ ⟨h _ (.attributeName ha), fun s hs ↦ h s (.attributeValue ha hs)⟩ }
  · intro h s hs
    cases hs with
    | symbol name => exact h.content
    | element hu hs => exact h.content _ hu s hs
    | tag hc hs => exact (h.cells _ hc).1 s hs
    | car hc hs => exact (h.cells _ hc).2 s hs
    | tail hne hs => exact h.tail hne s hs
    | attributeName ha => exact (h.attributes _ ha).1
    | attributeValue ha hs => exact (h.attributes _ ha).2 s hs

theorem inline_iff_of_cells_nil {v : Value} (h : v.cells = []) :
    Inline v ↔ InlineContent v ∧ ∀ a ∈ v.attributes, OneLine a.1 ∧ Inline a.2 := by
  rw [inline_iff]
  constructor
  · exact fun h ↦ ⟨h.content, h.attributes⟩
  · rintro ⟨hcontent, hattributes⟩
    refine ⟨hcontent, fun c hc ↦ ?_, fun hne ↦ absurd h hne, hattributes⟩
    rw [h] at hc
    exact absurd hc List.not_mem_nil

theorem inline_pair_iff (origin : Origin) (kind : PairKind) (tag : Option Chars) (car cdr : Value)
    (as : Attributes) (object : Bool) : let v := Value.pair origin kind tag car cdr as object
    Inline v ↔
      ((∀ c ∈ v.cells, (∀ s, c.tag.bind Chars.text? = some s → OneLine s) ∧ Inline c.car) ∧
        Inline v.tail) ∧ ∀ a ∈ as, OneLine a.1 ∧ Inline a.2 := by
  intro v
  have hne : v.cells ≠ [] := by
    rw [cells_pair]
    exact List.cons_ne_nil _ _
  rw [inline_iff]
  constructor
  · exact fun h ↦ ⟨⟨h.cells, h.tail hne⟩, h.attributes⟩
  · exact fun h ↦ ⟨trivial, h.1.1, fun _ ↦ h.1.2, h.2⟩

theorem inline_of_no_attributes {v : Value} (h : v.cells = []) (ha : v.attributes = [])
    (hc : InlineContent v) : Inline v := by
  rw [inline_iff_of_cells_nil h, ha]
  exact ⟨hc, fun _ ha ↦ absurd ha List.not_mem_nil⟩

theorem inline_null : Inline .null := inline_of_no_attributes rfl rfl trivial

def Clean (lines : List String) : Prop := ∀ line ∈ lines, OneLine line

theorem clean_nil : Clean [] := fun _ h ↦ absurd h List.not_mem_nil

theorem clean_cons_iff {line : String} {lines : List String} (h : OneLine line) :
    Clean (line :: lines) ↔ Clean lines := by
  rw [Clean, List.forall_mem_cons]
  exact and_iff_right h

theorem clean_append_iff {lines lines' : List String} :
    Clean (lines ++ lines') ↔ Clean lines ∧ Clean lines' := List.forall_mem_append

theorem clean_flatMap_iff {α : Type} {xs : List α} {f : α → List String} :
    Clean (xs.flatMap f) ↔ ∀ x ∈ xs, Clean (f x) := List.forall_mem_flatMap

theorem clean_setLines_iff {as : Attributes}
    (h : ∀ a ∈ as, ∀ depth, Clean (lines depth a.2) ↔ Inline a.2) (depth : Nat) :
    Clean (setLines depth as) ↔ ∀ a ∈ as, OneLine a.1 ∧ Inline a.2 := by
  rw [setLines, clean_flatMap_iff]
  simp only [as.listed_perm.mem_iff]
  refine forall₂_congr fun a ha ↦ ?_
  rw [Clean, List.forall_mem_cons, ← h a ha, attributeLine, oneLine_append_iff]
  exact and_congr_left' (and_iff_right ((oneLine_pad depth).append (by decide)))

theorem oneLine_tagLine_iff (depth : Nat) (tag : Option Chars) :
    OneLine (tagLine depth tag) ↔ ∀ s, tag.bind Chars.text? = some s → OneLine s := by
  rw [tagLine, oneLine_append_iff, and_iff_right ((oneLine_pad depth).append (by decide))]
  cases tag.bind Chars.text? with
  | none => exact iff_of_true (by decide) nofun
  | some name => simp

theorem clean_chainLines_iff {v : Value}
    (hcar : ∀ c ∈ v.cells, ∀ depth, Clean (lines depth c.car) ↔ Inline c.car)
    (htail : ∀ depth, Clean (lines depth v.tail) ↔ Inline v.tail) (depth : Nat) :
    Clean (chainLines depth v) ↔
      (∀ c ∈ v.cells, (∀ s, c.tag.bind Chars.text? = some s → OneLine s) ∧ Inline c.car) ∧
        Inline v.tail := by
  rw [chainLines, clean_append_iff, clean_flatMap_iff]
  refine and_congr (forall₂_congr fun c hc ↦ ?_) ?_
  · rw [Clean, List.forall_mem_cons, oneLine_tagLine_iff, ← hcar c hc (depth + 2)]
    rfl
  · split
    · next hnull =>
      refine iff_of_true clean_nil ?_
      cases ht : v.tail with
      | null => exact inline_null
      | _ =>
        rw [ht] at hnull
        cases hnull
    · have hline : OneLine (tailLine depth) := (oneLine_pad depth).append (by decide)
      rw [clean_cons_iff hline]
      exact htail (depth + 2)

/-- The lines of a graph are free of line breaks just if the names are that they show. Strings do
not matter, since they are quoted. -/
theorem clean_lines_iff (v : Value) (depth : Nat) : Clean (lines depth v) ↔ Inline v := by
  have hpad {s : String} (hs : OneLine s) : OneLine (pad depth ++ s) := (oneLine_pad depth).append hs
  cases v with
  | null =>
    rw [lines, clean_cons_iff (hpad (by decide))]
    exact iff_of_true clean_nil inline_null
  | symbol name =>
    rw [lines, Clean, List.forall_mem_singleton, oneLine_append_iff, oneLine_append_iff,
      and_iff_right (hpad (by decide)), and_iff_left (by decide)]
    exact ⟨fun h ↦ inline_of_no_attributes rfl rfl h, inlineContent_of_inline⟩
  | char content =>
    rw [lines, clean_cons_iff ((hpad (by decide)).append content.oneLine_quoted)]
    exact iff_of_true clean_nil (inline_of_no_attributes rfl rfl trivial)
  | vector origin atoms as object =>
    have hset := clean_setLines_iff (fun a (ha : a ∈ as) d ↦ clean_lines_iff a.2 d) depth
    rw [lines_vector, clean_cons_iff (hpad (oneLine_summary atoms)), hset,
      inline_iff_of_cells_nil rfl]
    exact (and_iff_right trivial).symm
  | list origin elements as object =>
    have hset := clean_setLines_iff (fun a (ha : a ∈ as) d ↦ clean_lines_iff a.2 d) depth
    have helements : (∀ u ∈ elements, Clean (lines (depth + 1) u)) ↔ ∀ u ∈ elements, Inline u :=
      forall₂_congr fun u hu ↦ clean_lines_iff u _
    rw [lines_list, clean_cons_iff (oneLine_heading (oneLine_kind .list) _ _), clean_append_iff,
      clean_flatMap_iff, helements, hset, inline_iff_of_cells_nil rfl]
    exact Iff.rfl
  | pair origin kind tag car cdr as object =>
    have hset := clean_setLines_iff (fun a (ha : a ∈ as) d ↦ clean_lines_iff a.2 d) depth
    have hchain := clean_chainLines_iff (v := .pair origin kind tag car cdr as object)
      (fun c hc d ↦ clean_lines_iff c.car d) (fun d ↦ clean_lines_iff _ d) depth
    have hheading : OneLine (heading depth kind.name (cdr.cells.length + 1)) :=
      oneLine_heading (oneLine_kind (.pair kind)) _ _
    rw [lines_pair, ← chainLines_pair depth origin kind tag car cdr as object,
      clean_cons_iff hheading, clean_append_iff, hchain, hset]
    exact (inline_pair_iff origin kind tag car cdr as object).symm
termination_by sizeOf v
decreasing_by
  · have := sizeOf_entry_lt ha
    simp only [vector.sizeOf_spec]
    omega
  · have := sizeOf_entry_lt ha
    simp only [list.sizeOf_spec]
    omega
  · have := List.sizeOf_lt_of_mem hu
    simp only [list.sizeOf_spec]
    omega
  · have := sizeOf_entry_lt ha
    simp only [pair.sizeOf_spec]
    omega
  · exact (sizeOf_cell_lt hc).1
  · exact sizeOf_tail_lt _ _ _ _ _ _ _

/-- No text that the lines of a graph show as it is has a line break. -/
def Unbroken (v : Value) : Prop := ∀ u ∈ v.nodes, ∀ text ∈ plainTexts u, OneLine text

instance (v : Value) : Decidable (Unbroken v) :=
  inferInstanceAs (Decidable (∀ u ∈ v.nodes, ∀ text ∈ plainTexts u, OneLine text))

theorem Unbroken.of_mem_children {u v : Value} (h : Unbroken v) (hu : u ∈ v.children) :
    Unbroken u :=
  fun w hw ↦ h w (nodes_subset_of_mem_children hu hw)

theorem Unbroken.texts {v : Value} (h : Unbroken v) : ∀ text ∈ plainTexts v, OneLine text :=
  h v v.self_mem_nodes

theorem Unbroken.chain {v : Value} (h : Unbroken v) :
    (∀ c ∈ v.cells, (∀ s, c.tag.bind Chars.text? = some s → OneLine s) ∧ Unbroken c.car) ∧
      Unbroken v.tail := by
  match v with
  | .pair origin kind tag car cdr as object =>
    have hcar : Unbroken car := h.of_mem_children List.mem_cons_self
    have hcdr : Unbroken cdr := h.of_mem_children (List.mem_cons_of_mem _ List.mem_cons_self)
    have htag := (List.forall_mem_append.mp h.texts).1
    obtain ⟨hcells, htail⟩ := hcdr.chain
    rw [cells_pair, tail_pair, List.forall_mem_cons]
    exact ⟨⟨⟨fun s hs ↦ htag s (Option.mem_toList.mpr hs), hcar⟩, hcells⟩, htail⟩
  | .null | .symbol _ | .char _ | .vector _ _ _ _ | .list _ _ _ _ => exact ⟨nofun, h⟩
termination_by structural v

theorem Unbroken.inline {v : Value} (h : Unbroken v) : Inline v := by
  intro s hs
  induction hs with
  | symbol name => exact h.texts _ List.mem_cons_self
  | element hu _ ih => exact ih (h.of_mem_children (List.mem_append_left _ hu))
  | tag hc ht => exact (h.chain.1 _ hc).1 _ ht
  | car hc _ ih => exact ih (h.chain.1 _ hc).2
  | tail _ _ ih => exact ih h.chain.2
  | @attributeName v a ha =>
    have hname : a.1 ∈ v.attributes.map Prod.fst := List.mem_map_of_mem ha
    cases v with
    | null | symbol _ | char _ => cases ha
    | vector _ _ _ _ | list _ _ _ _ => exact h.texts _ hname
    | pair _ _ _ _ _ _ _ => exact h.texts _ (List.mem_append_right _ hname)
  | attributeValue ha _ ih => exact ih (h.of_mem_children (mem_children_of_attribute ha))

theorem oneLine_lines {v : Value} (h : Unbroken v) (depth : Nat) :
    ∀ line ∈ lines depth v, OneLine line :=
  (clean_lines_iff v depth).mpr h.inline

end Outline

end Rds
