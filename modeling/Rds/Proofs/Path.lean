import Rds.Proofs.Attributes
import Rds.Proofs.Keyed

namespace Rds

namespace Value

/-- A way from one node of an object graph to the next. -/
inductive Step
  | element (i : Nat)
  | car
  | cdr
  | attr (name : String)
deriving DecidableEq

def step? : Value → Step → Option Value
  | list _ elements _ _, .element i => elements[i]?
  | pair _ _ _ car _ _ _, .car => some car
  | pair _ _ _ _ cdr _ _, .cdr => some cdr
  | v, .attr name => v.attributes.lookup name
  | _, _ => none

def at? (v : Value) : List Step → Option Value
  | [] => some v
  | step :: path => (v.step? step).bind (·.at? path)

def origin? : Value → Option Origin
  | vector origin _ _ _ => some origin
  | list origin _ _ _ => some origin
  | pair origin _ _ _ _ _ _ => some origin
  | _ => none

def tagged? (name : String) : Value → Option Value
  | pair _ _ tag car cdr _ _ =>
    (cdr.tagged? name).or (if tag.bind Chars.text? = some name then some car else none)
  | _ => none

theorem step?_attr (v : Value) (name : String) :
    v.step? (.attr name) = v.attributes.lookup name := by
  cases v <;> rfl

theorem at?_cons {v u : Value} {step : Step} {path : List Step}
    (h : v.at? (step :: path) = some u) :
    ∃ w, v.step? step = some w ∧ w.at? path = some u :=
  Option.bind_eq_some_iff.mp h

end Value

namespace Attributes

open Keyed

theorem lookup_put (name key : String) (v : Value) (as : Attributes) :
    (put name v as).lookup key = if key = name then some v else as.lookup key := by
  induction as with
  | nil => exact lookup_cons_eq name key v []
  | cons a as ih =>
    obtain ⟨k, u⟩ := a
    rw [put]
    by_cases hk : k = name
    · simp only [hk, if_true, lookup_cons_eq]
      by_cases h : key = name
      · rw [if_pos h, if_pos h]
      · rw [if_neg h, if_neg h, if_neg h]
    · rw [if_neg hk]
      by_cases hr : rank name < rank k
      · rw [if_pos hr, lookup_cons_eq]
      · rw [if_neg hr, lookup_cons_eq, lookup_cons_eq, ih]
        by_cases h : key = k
        · have hne : key ≠ name := fun he ↦ hk (h.symm.trans he)
          rw [if_pos h, if_neg hne, if_pos h]
        · rw [if_neg h, if_neg h]

/-- Of the cells with one tag the last one counts. -/
theorem lookup_collect {as bs : Attributes} {v : Value} (h : collect as v = .ok bs)
    (key : String) : bs.lookup key = (v.tagged? key).or (as.lookup key) := by
  match v with
  | .pair origin kind tag car cdr attributes object =>
    rw [collect] at h
    split at h
    · cases h
    · next name hname =>
      split at h
      · next cs hcs =>
        obtain ⟨-, rfl⟩ := insert_eq_ok.mp hcs
        have ih := lookup_collect h key
        rw [ih, lookup_put, Value.tagged?, hname, Option.or_assoc]
        congr 1
        by_cases hkey : key = name
        · rw [if_pos hkey, if_pos (congrArg some hkey.symm), Option.some_or]
        · rw [if_neg hkey, if_neg fun he ↦ hkey (Option.some.inj he).symm, Option.none_or]
      · cases h
  | .null =>
    cases h
    rfl
  | .symbol _ => cases h
  | .char _ => cases h
  | .vector .. => cases h
  | .list .. => cases h
termination_by structural v

theorem lookup_bind {as : Attributes} {v : Value} (h : bind v = .ok as) (key : String) :
    as.lookup key = v.tagged? key := by
  cases v with
  | pair origin kind tag car cdr attributes object =>
    exact (lookup_collect h key).trans (Option.or_none)
  | null | symbol _ | char _ | vector _ _ _ _ | list _ _ _ _ => cases h

end Attributes

end Rds
