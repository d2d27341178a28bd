import Rds.Proofs.Sharing
import Rds.Proofs.Storage

namespace Rds.Account

open Item Wire

variable {stream : Nat} {T : ReferenceTable} {xs : List Place}

def itemAt (xs : List Place) (offset : Nat) : Option Place := xs.find? (·.offset == offset)

theorem itemAt_offset (hxs : xs.Pairwise Place.Apart) {x : Place} (hx : x ∈ xs) :
    itemAt xs x.offset = some x := by
  cases h : itemAt xs x.offset with
  | none =>
    have hne := List.find?_eq_none.mp h x hx
    simp at hne
  | some y =>
    have he : y.offset = x.offset := by simpa using List.find?_some h
    rw [eq_of_offset_eq hxs (List.mem_of_find?_eq_some h) hx he]

def text? (x : Place) : Option String :=
  match x.item with
  | .char _ content? _ => (charsOf ⟨0, x.offset⟩ content?).text?
  | _ => none

/-- What memory holds when the items have been read from a stream. -/
def memory (stream : Nat) (T : ReferenceTable) (xs : List Place) : Store where
  text origin := ((itemAt xs origin.offset).bind text?).getD ""
  container origin := ((itemAt xs origin.offset).bind (·.value? stream T)).getD .null

theorem charsOf_in_memory (hxs : xs.Pairwise Place.Apart) {p : Nat} {word : FlagWord}
    {content? : Option (List UInt8)} {part? : Option Wire}
    (h : ⟨p, .char word content? part?⟩ ∈ xs) :
    (charsOf ⟨stream, p⟩ content?).In (memory stream T xs) := by
  cases content? with
  | none => trivial
  | some bytes =>
    have hitem := itemAt_offset hxs h
    simp only [charsOf, Chars.In, memory, hitem]
    rfl

/-- Items that come with all items inside them. -/
def Closed (xs : List Place) : Prop := ∀ x ∈ xs, ∀ y ∈ x.all, y ∈ xs

theorem Closed.append {ys : List Place} (hxs : Closed xs) (hys : Closed ys) :
    Closed (xs ++ ys) := by
  intro x hx y hy
  rcases List.mem_append.mp hx with hx | hx
  · exact List.mem_append_left _ (hxs x hx y hy)
  · exact List.mem_append_right _ (hys x hx y hy)

theorem closed_nil : Closed [] := nofun

theorem closed_all (x : Place) : Closed x.all := fun _ hy _ hz ↦ Place.mem_all_trans hy hz

theorem closed_allOf (ws : List Wire) (p : Nat) : Closed (allOf ws p) := by
  intro x hx y hy
  obtain ⟨a, ha, hx⟩ := List.mem_flatMap.mp hx
  exact List.mem_flatMap.mpr ⟨a, ha, closed_all a x hx y hy⟩

theorem closed_torn (x : Torn) (p : Nat) : Closed (x.items p) := by
  induction x generalizing p with
  | stopped bytes => exact closed_nil
  | inside frame done next ih => exact (closed_allOf done _).append (ih _)

theorem closed_items (spans : List Span) (p : Nat) : Closed (items spans p) := by
  induction spans generalizing p with
  | nil => exact closed_nil
  | cons span spans ih =>
    refine Closed.append ?_ (ih _)
    cases span with
    | header bytes => exact closed_nil
    | whole w => exact closed_all ⟨p, w⟩
    | torn x => exact closed_torn x p

theorem symbol?_in_memory (hxs : xs.Pairwise Place.Apart) (hclosed : Closed xs) {z : Place}
    {name : Chars} (hz : z ∈ xs) (h : z.symbol? stream = some name) :
    name.In (memory stream T xs) := by
  obtain ⟨p, w⟩ := z
  cases w with
  | symbol word w =>
    cases w with
    | char word' content? part? =>
      cases h
      have hpart : (⟨p + 4, .char word' content? part?⟩ : Place) ∈
          (⟨p, .symbol word (.char word' content? part?)⟩ : Place).parts := List.mem_cons_self
      have hmem := hclosed _ hz _ (Place.mem_all_of_mem_parts hpart (Place.mem_all_self _))
      exact charsOf_in_memory hxs hmem
    | _ => cases h
  | _ => cases h

/-- All graphs that a session returns lie in one memory. -/
theorem exists_store {o : Options} {bytes : List UInt8} {log : Log} {s₀ : Session}
    (h : Session.start o stream bytes log = .ok s₀) (rs : List Session.Request) :
    ∃ σ : Store, ∀ i path u, s₀.node? rs i path = some u → u.In σ := by
  obtain rfl := Session.eq_of_start h
  obtain ⟨⟨hsymbolic, -, -⟩, -⟩ := sound_start h
  obtain ⟨spans, -, hm, hvalues⟩ := exists_history hsymbolic rs
  have hT := hsymbolic.extends hm.grows
  have happart := (within_items spans 0).2
  let s : Session := ⟨o, stream, none, .start bytes log⟩
  refine ⟨memory stream (s.afterAll rs).progress.table (items spans 0), ?_⟩
  intro i path u hu
  obtain ⟨x, -, hx, hxu⟩ := exists_place hT (hvalues _ (.refl _)) hu
  have hitem := itemAt_offset happart hx
  cases u with
  | null => trivial
  | symbol name =>
    rw [hm.table] at hxu
    obtain ⟨z, -, hz, hname⟩ := exists_source hx hxu
    exact symbol?_in_memory happart (closed_items spans 0) hz hname
  | char content =>
    obtain ⟨p, w⟩ := x
    obtain ⟨word, content?, part?, rfl, rfl⟩ := eq_char_of_value? hT hxu
    exact charsOf_in_memory happart hx
  | vector origin _ _ _ | list origin _ _ _ | pair origin _ _ _ _ _ _ =>
    intro origin' ho
    cases Place.origin_eq hT hxu ho
    simp only [memory, hitem]
    exact congrArg (·.getD .null) hxu

end Rds.Account
