import Rds.Json.OfValue
import Rds.Proofs.Keyed

namespace Rds.Json

open Value

theorem lookup_of_ofFields_eq {fs gs : List (String × Json)} (hn : (fs.map Prod.fst).Nodup)
    (h : ofFields fs = ofFields gs) (key : String) : fs.lookup key = gs.lookup key :=
  Keyed.lookup_of_perm (Keyed.perm_of_sort_eq (object.inj h)) hn key

variable [Numerals]

theorem fields_attach (as : List (String × Value)) :
    (as.attach.map fun a ↦ (a.1.1, ofValue a.1.2)) = Keyed.mapValues ofValue as := by
  rw [List.map_subtype (g := fun a : String × Value ↦ (a.1, ofValue a.2)) (fun _ _ ↦ rfl),
    List.unattach_attach, Keyed.mapValues]

def cellDoc (c : Cell) : Json :=
  ofCell c.tag (ofValue c.car) (Keyed.mapValues ofValue c.attributes.listed)

def tailField (v : Value) : List (String × Json) :=
  if v.isNull then [] else [("tail", ofValue v)]

theorem ofValue_vector (origin : Origin) (atoms : Atoms) (as : Attributes) (object : Bool) :
    ofValue (.vector origin atoms as object) =
      withAttributes atoms.kind.name (ofAtoms atoms) (Keyed.mapValues ofValue as.listed) := by
  rw [ofValue, fields_attach]

theorem ofValue_list (origin : Origin) (elements : List Value) (as : Attributes) (object : Bool) :
    ofValue (.list origin elements as object) =
      withAttributes Kind.list.name (array (elements.map ofValue))
        (Keyed.mapValues ofValue as.listed) := by
  rw [ofValue, fields_attach]

theorem ofValue_pair (origin : Origin) (kind : PairKind) (tag : Option Chars) (car cdr : Value)
    (as : Attributes) (object : Bool) :
    ofValue (.pair origin kind tag car cdr as object) =
      ofFields ([("type", string kind.name),
        ("cells", array (cellDoc ⟨origin, kind, tag, car, as, object⟩ :: cdr.cells.map cellDoc))]
          ++ tailField cdr.tail) := by
  rw [← List.map_cons, ← cells_pair, ← tail_pair origin kind tag car cdr as object, ofValue]
  congr 4
  rw [List.map_subtype (g := cellDoc), List.unattach_attach]
  intro c hc
  rw [cellDoc, fields_attach]

end Rds.Json
