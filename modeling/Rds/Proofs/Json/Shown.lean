import Rds.Proofs.Graph
import Rds.Proofs.Json.Scalar
import Rds.Proofs.Normal

namespace Rds

namespace Value

/-- What there are kinds of values, vectors by their elements and all cells alike. -/
inductive Variant
  | null | symbol | char | list | pairlist
  | vector (kind : Kind)
deriving DecidableEq

def variant : Value → Variant
  | null => .null
  | symbol _ => .symbol
  | char _ => .char
  | vector _ atoms _ _ => .vector atoms.kind
  | list _ _ _ _ => .list
  | pair _ _ _ _ _ _ _ => .pairlist

/-- Where a value stands directly inside another one. A chain is one value with all its cells. -/
inductive Part
  | element (i : Nat)
  | attr (name : String)
  | car (i : Nat)
  | cellAttr (i : Nat) (name : String)
  | tail
deriving DecidableEq

def part? : Value → Part → Option Value
  | vector _ _ attributes _, .attr name => attributes.lookup name
  | list _ _ attributes _, .attr name => attributes.lookup name
  | list _ elements _ _, .element i => elements[i]?
  | v@(pair _ _ _ _ _ _ _), .car i => v.cells[i]?.map Cell.car
  | v@(pair _ _ _ _ _ _ _), .cellAttr i name =>
    v.cells[i]?.bind fun c ↦ c.attributes.lookup name
  | v@(pair _ _ _ _ _ _ _), .tail => some v.tail
  | _, _ => none

def under? (v : Value) : List Part → Option Value
  | [] => some v
  | part :: path => (v.part? part).bind (·.under? path)

/-- At each position that both have there are values of one variant. -/
def Alike (a b : Value) : Prop :=
  ∀ path u w, a.under? path = some u → b.under? path = some w → u.variant = w.variant

mutual

/-- What the document of a value tells of it. The cells in the rest of a chain show no kind. -/
def shownIn (rest : Bool) : Value → Value
  | null => null
  | symbol name => symbol name
  | char content => char content
  | vector origin atoms attributes _ =>
    vector origin atoms.shown (shownAttributes attributes) false
  | list origin elements attributes _ =>
    list origin (shownAll elements) (shownAttributes attributes) false
  | pair origin kind tag car cdr attributes _ =>
    pair origin (if rest then .list else kind) tag (shownIn false car) (shownIn true cdr)
      (shownAttributes attributes) false
termination_by structural v => v

def shownAll : List Value → List Value
  | [] => []
  | v :: vs => shownIn false v :: shownAll vs
termination_by structural vs => vs

def shownAttributes : List (String × Value) → List (String × Value)
  | [] => []
  | (name, v) :: as => (name, shownIn false v) :: shownAttributes as
termination_by structural as => as

end

def shown (v : Value) : Value := shownIn false v

theorem shownIn_true_of_ne (v : Value) (h : v.variant ≠ .pairlist) : shownIn true v = v.shown := by
  cases v with
  | pair _ _ _ _ _ _ _ => exact absurd rfl h
  | null | symbol _ | char _ | vector _ _ _ _ | list _ _ _ _ => rfl

theorem shownAttributes_eq_mapValues (as : Attributes) :
    shownAttributes as = Keyed.mapValues shown as := by
  induction as with
  | nil => rfl
  | cons a as ih =>
    rw [shownAttributes, ih]
    rfl

variable {a b u w : Value}

theorem Alike.variant_eq (h : Alike a b) : a.variant = b.variant := h [] a b rfl rfl

theorem Alike.of_part (h : Alike a b) (part : Part) (hu : a.part? part = some u)
    (hw : b.part? part = some w) : Alike u w := by
  intro path x y hx hy
  refine h (part :: path) x y ?_ ?_
  · rw [under?, hu]
    exact hx
  · rw [under?, hw]
    exact hy

theorem alike_of_parts (hv : a.variant = b.variant)
    (h : ∀ part u w, a.part? part = some u → b.part? part = some w → Alike u w) : Alike a b := by
  intro path u w hu hw
  cases path with
  | nil =>
    cases hu
    cases hw
    exact hv
  | cons part path =>
    obtain ⟨x, hx, hu⟩ := Option.bind_eq_some_iff.mp hu
    obtain ⟨y, hy, hw⟩ := Option.bind_eq_some_iff.mp hw
    exact h part x y hx hy path u w hu hw

theorem alike_of_part?_eq_none (hv : a.variant = b.variant) (h : ∀ part, a.part? part = none) :
    Alike a b := by
  refine alike_of_parts hv fun part u w hu _ ↦ ?_
  rw [h part] at hu
  cases hu

structure ChainAlike (a b : Value) : Prop where
  cells : ∀ (i : Nat) (c d : Cell), a.cells[i]? = some c → b.cells[i]? = some d →
    Alike c.car d.car ∧ ∀ name u w, c.attributes.lookup name = some u →
      d.attributes.lookup name = some w → Alike u w
  tail : Alike a.tail b.tail

variable {o o' : Origin} {k k' : PairKind} {t t' : Option Chars} {car car' cdr cdr' : Value}
  {as as' : Attributes} {f f' : Bool}

theorem Alike.chain (h : Alike (pair o k t car cdr as f) (pair o' k' t' car' cdr' as' f')) :
    ChainAlike (pair o k t car cdr as f) (pair o' k' t' car' cdr' as' f') where
  cells i c d hc hd := by
    refine ⟨h.of_part (.car i) ?_ ?_, fun name u w hu hw ↦
      h.of_part (.cellAttr i name) ?_ ?_⟩
    · rw [part?, hc, Option.map_some]
    · rw [part?, hd, Option.map_some]
    · rw [part?, hc, Option.bind_some, hu]
    · rw [part?, hd, Option.bind_some, hw]
  tail := h.of_part .tail rfl rfl

theorem ChainAlike.head
    (h : ChainAlike (pair o k t car cdr as f) (pair o' k' t' car' cdr' as' f')) :
    Alike car car' ∧ ∀ name u w, as.lookup name = some u → as'.lookup name = some w →
      Alike u w :=
  h.cells 0 ⟨o, k, t, car, as, f⟩ ⟨o', k', t', car', as', f'⟩ (by rw [cells_pair]; rfl)
    (by rw [cells_pair]; rfl)

theorem ChainAlike.rest
    (h : ChainAlike (pair o k t car cdr as f) (pair o' k' t' car' cdr' as' f')) :
    ChainAlike cdr cdr' where
  cells i c d hc hd := by
    apply h.cells (i + 1) c d
    · rw [cells_pair]
      exact hc
    · rw [cells_pair]
      exact hd
  tail := by
    have htail := h.tail
    rwa [tail_pair, tail_pair] at htail

end Value

end Rds
