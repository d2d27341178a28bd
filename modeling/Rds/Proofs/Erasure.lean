import Rds.Proofs.Attributes
import Rds.Value.Equality

namespace Rds

def Origin.nowhere : Origin := ⟨0, 0⟩

namespace Chars

def erase : Chars → Chars
  | na => na
  | text _ s => text .nowhere s

theorem text?_erase (c : Chars) : c.erase.text? = c.text? := by
  cases c <;> rfl

theorem erase_eq_iff {c d : Chars} : c.erase = d.erase ↔ c.text? = d.text? := by
  constructor
  · intro h
    rw [← text?_erase, h, text?_erase]
  · intro h
    cases c <;> cases d <;> cases h <;> rfl

theorem beq_iff_erase {c d : Chars} : (c == d) = true ↔ c.erase = d.erase := by
  rw [erase_eq_iff]
  exact @beq_iff_eq (Option String) _ _ _ _

theorem beq_option_iff_erase {c? d? : Option Chars} :
    (c? == d?) = true ↔ c?.map erase = d?.map erase := by
  cases c? with
  | none => cases d? <;> simp
  | some c =>
    cases d? with
    | none => simp
    | some d =>
      rw [Option.map_some, Option.map_some, Option.some.injEq, ← beq_iff_erase]
      exact Iff.rfl

theorem beq_list_iff_erase {cs ds : List Chars} :
    (cs == ds) = true ↔ cs.map erase = ds.map erase := by
  induction cs generalizing ds with
  | nil => cases ds <;> simp
  | cons c cs ih =>
    cases ds with
    | nil => simp
    | cons d ds =>
      rw [List.cons_beq_cons, Bool.and_eq_true, beq_iff_erase, ih, List.map_cons, List.map_cons,
        List.cons.injEq]

end Chars

namespace Atoms

def erase : Atoms → Atoms
  | character xs => character (xs.map Chars.erase)
  | a => a

theorem kind_erase (a : Atoms) : a.erase.kind = a.kind := by
  cases a <;> rfl

theorem beq_iff_erase {a b : Atoms} : (a == b) = true ↔ a.erase = b.erase := by
  constructor
  · intro h
    cases a with
    | character xs =>
      cases b with
      | character ys => exact congrArg character (Chars.beq_list_iff_erase.mp h)
      | logical _ | integer _ | double _ | complex _ | raw _ => cases h
    | logical xs => cases b <;> first | cases h | exact congrArg logical (eq_of_beq h)
    | integer xs => cases b <;> first | cases h | exact congrArg integer (eq_of_beq h)
    | double xs => cases b <;> first | cases h | exact congrArg double (eq_of_beq h)
    | complex xs => cases b <;> first | cases h | exact congrArg complex (eq_of_beq h)
    | raw xs => cases b <;> first | cases h | exact congrArg raw (eq_of_beq h)
  · intro h
    cases a with
    | character xs =>
      cases b with
      | character ys => exact Chars.beq_list_iff_erase.mpr (character.inj h)
      | logical _ | integer _ | double _ | complex _ | raw _ => cases h
    | logical xs => cases b <;> cases h; exact beq_self_eq_true xs
    | integer xs => cases b <;> cases h; exact beq_self_eq_true xs
    | double xs => cases b <;> cases h; exact beq_self_eq_true xs
    | complex xs => cases b <;> cases h; exact beq_self_eq_true xs
    | raw xs => cases b <;> cases h; exact beq_self_eq_true xs

end Atoms

namespace Value

mutual

/-- A value without its origins. -/
def erase : Value → Value
  | null => null
  | symbol name => symbol name.erase
  | char content => char content.erase
  | vector _ atoms attributes object =>
    vector .nowhere atoms.erase (eraseAttributes attributes) object
  | list _ elements attributes object =>
    list .nowhere (eraseAll elements) (eraseAttributes attributes) object
  | pair _ kind tag car cdr attributes object =>
    pair .nowhere kind (tag.map Chars.erase) car.erase cdr.erase (eraseAttributes attributes) object
termination_by structural v => v

def eraseAll : List Value → List Value
  | [] => []
  | v :: vs => v.erase :: eraseAll vs
termination_by structural vs => vs

def eraseAttributes : List (String × Value) → List (String × Value)
  | [] => []
  | (name, v) :: as => (name, v.erase) :: eraseAttributes as
termination_by structural as => as

end

theorem eraseAll_eq_map (vs : List Value) : eraseAll vs = vs.map erase := by
  induction vs with
  | nil => rfl
  | cons v vs ih => rw [eraseAll, ih, List.map_cons]

theorem kind_erase (v : Value) : v.erase.kind = v.kind := by
  cases v with
  | vector _ atoms _ _ => exact atoms.kind_erase
  | null | symbol _ | char _ | list _ _ _ _ | pair _ _ _ _ _ _ _ => rfl

end Value

namespace Attributes

open Value

variable {as : Attributes} {name : String} {v : Value}

theorem put_erase : put name v.erase (eraseAttributes as) = eraseAttributes (put name v as) := by
  induction as with
  | nil => rfl
  | cons a as ih =>
    obtain ⟨k, w⟩ := a
    simp only [eraseAttributes, put]
    split
    · rfl
    · split
      · rfl
      · rw [ih, eraseAttributes]

theorem insert_erase :
    Attributes.insert (eraseAttributes as) name v.erase =
      (as.insert name v).map eraseAttributes := by
  unfold Attributes.insert
  rw [kind_erase, put_erase]
  split
  · rfl
  · split <;> rfl

theorem collect_erase (as : Attributes) (v : Value) :
    collect (eraseAttributes as) v.erase = (collect as v).map eraseAttributes := by
  match v with
  | .pair origin kind tag car cdr attributes object =>
    have htag : (tag.map Chars.erase).bind Chars.text? = tag.bind Chars.text? := by
      cases tag with
      | none => rfl
      | some c => exact c.text?_erase
    rw [erase, collect, collect, htag]
    cases tag.bind Chars.text? with
    | none => rfl
    | some name =>
      dsimp only
      rw [insert_erase]
      cases as.insert name car with
      | error fault => rfl
      | ok bs => exact collect_erase bs cdr
  | .null => rfl
  | .symbol _ => rfl
  | .char _ => rfl
  | .vector _ atoms _ _ =>
    simp only [erase, collect, kind, atoms.kind_erase]
    rfl
  | .list .. => rfl
termination_by structural v

theorem bind_erase (v : Value) : bind v.erase = (bind v).map eraseAttributes := by
  cases v with
  | pair origin kind tag car cdr attributes object =>
    exact collect_erase [] (.pair origin kind tag car cdr attributes object)
  | vector _ atoms _ _ =>
    simp only [erase, bind, kind, atoms.kind_erase]
    rfl
  | null | symbol _ | char _ | list _ _ _ _ => rfl

/-- A value that differs in origins alone binds alike. -/
theorem bind_of_erase_eq {u : Value} (h : u.erase = v.erase) (hv : bind v = .ok as) :
    ∃ bs, bind u = .ok bs ∧ eraseAttributes bs = eraseAttributes as := by
  have he := bind_erase u
  rw [h, bind_erase, hv] at he
  cases hu : bind u with
  | error fault =>
    rw [hu] at he
    cases he
  | ok bs =>
    rw [hu] at he
    exact ⟨bs, rfl, (Except.ok.inj he).symm⟩

end Attributes

end Rds
