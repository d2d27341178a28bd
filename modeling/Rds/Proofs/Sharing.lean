import Mathlib.Data.List.Forall2
import Mathlib.Data.List.Nodup
import Rds.Proofs.Account.Session
import Rds.Proofs.Wire.Path

namespace Rds

namespace Session

def values (s : Session) : List Request → List Value
  | [] => []
  | r :: rs =>
    match perform r s with
    | .ok (.item v) _ => v :: values (s.after r) rs
    | _ => values (s.after r) rs

/-- A node of the returned graphs: the number of the graph, and a path in it. -/
def node? (s : Session) (rs : List Request) (i : Nat) (path : List Value.Step) : Option Value :=
  (s.values rs)[i]?.bind (·.at? path)

end Session

namespace Account

open Item Wire

variable {stream : Nat} {T : ReferenceTable} {s : Session} {rs : List Session.Request}

inductive History : Session → List Session.Request → List Span → Prop
  | nil (s : Session) : History s [] []
  | cons {s : Session} {r : Session.Request} {rs : List Session.Request} {span : Span}
      {spans : List Span} (hspan : Covers s r span) (hspans : History (s.after r) rs spans) :
      History s (r :: rs) (span :: spans)

def items : List Span → Nat → List Place
  | [], _ => []
  | span :: spans, p => span.items p ++ items spans (p + span.bytes.length)

def roots : List Span → Nat → List Place
  | [], _ => []
  | .whole w :: spans, p => ⟨p, w⟩ :: roots spans (p + w.bytes.length)
  | span :: spans, p => roots spans (p + span.bytes.length)

def place? (stream : Nat) (T : ReferenceTable) (spans : List Span) (i : Nat)
    (path : List Value.Step) : Option Place :=
  (roots spans 0)[i]?.bind (·.at? stream T path)

def symbols (stream : Nat) (xs : List Place) : List Place :=
  xs.filter fun x ↦ (x.symbol? stream).isSome

/-- The item that made a symbol: the item itself, or for a reference the one that it counts to. -/
def source? (stream : Nat) (xs : List Place) (x : Place) : Option Place :=
  match x.item with
  | .symbol _ _ => some x
  | .reference word index? =>
    match (index?.getD word.packedIndex).toInt with
    | .ofNat (n + 1) => (symbols stream xs)[n]?
    | _ => none
  | _ => none

theorem values_cons_whole {v : Value} {t : Session}
    (h : Session.perform .item s = .ok (.item v) t) :
    s.values (.item :: rs) = v :: (s.after .item).values rs := by
  rw [Session.values, h]

theorem values_cons_torn {err : Error} {t : Session} (h : Session.perform .item s = .error err t) :
    s.values (.item :: rs) = (s.after .item).values rs := by
  rw [Session.values, h]

theorem values_cons_header : s.values (.header :: rs) = (s.after .header).values rs := by
  have hne (v : Value) (t : Session) : Session.perform .header s ≠ .ok (.item v) t := by
    intro h
    obtain ⟨header, -, he⟩ := EStateM.map_eq_ok.mp h
    cases he
  rw [Session.values]
  split
  · next v t h => exact absurd h (hne v t)
  · rfl

theorem exists_history (hs : s.progress.table.Symbolic) (rs : List Session.Request) :
    ∃ spans, History s rs spans ∧
      Moves s.progress (s.afterAll rs).progress (spans.flatMap Span.bytes)
        (names s.stream (items spans s.position)) ∧
      ∀ T, (s.afterAll rs).progress.table.Extends T →
        List.Forall₂ (fun v x ↦ x.value? s.stream T = some v) (s.values rs)
          (roots spans s.position) := by
  induction rs generalizing s with
  | nil => exact ⟨[], .nil s, .refl _, fun T _ ↦ .nil⟩
  | cons r rs ih =>
    obtain ⟨span, hspan, hstream, hm⟩ := exists_covers hs r
    obtain ⟨spans, hspans, hms, hvalues⟩ := ih (hs.extends hm.grows)
    have hposition : (s.after r).position = s.position + span.bytes.length := hm.position
    rw [hstream, hposition] at hms hvalues
    refine ⟨span :: spans, .cons hspan hspans, ?_, fun T hT ↦ ?_⟩
    · rw [List.flatMap_cons, items, names_append]
      exact hm.trans hms
    · cases hspan with
      | header bytes =>
        rw [values_cons_header]
        exact hvalues T hT
      | whole hperform hw hv =>
        rw [values_cons_whole hperform]
        exact .cons (hv T (hms.grows.trans hT)) (hvalues T hT)
      | torn hperform hx =>
        rw [values_cons_torn hperform]
        exact hvalues T hT

section Offsets

def Within (xs : List Place) (p q : Nat) : Prop :=
  (∀ x ∈ xs, p ≤ x.offset ∧ x.stop ≤ q) ∧ xs.Pairwise Place.Apart

theorem Within.append {xs ys : List Place} {p q r : Nat} (hxs : Within xs p q)
    (hys : Within ys q r) (hpq : p ≤ q) (hqr : q ≤ r) : Within (xs ++ ys) p r := by
  refine ⟨fun x hx ↦ ?_, List.pairwise_append.mpr ⟨hxs.2, hys.2, fun x hx y hy ↦ ?_⟩⟩
  · rcases List.mem_append.mp hx with hx | hx
    · exact ⟨(hxs.1 x hx).1, Nat.le_trans (hxs.1 x hx).2 hqr⟩
    · exact ⟨Nat.le_trans hpq (hys.1 x hx).1, (hys.1 x hx).2⟩
  · have hstop := (hxs.1 x hx).2
    have hoffset := (hys.1 y hy).1
    have hpos := four_le_length_bytes x.item
    rw [Place.stop] at hstop
    exact Nat.ne_of_lt (by omega)

theorem within_all (x : Place) : Within x.all x.offset x.stop :=
  ⟨fun _ hy ↦ Place.mem_all hy, x.pairwise_all⟩

theorem within_allOf (ws : List Wire) (p : Nat) :
    Within (allOf ws p) p (p + (bytesOfAll ws).length) := by
  induction ws generalizing p with
  | nil => exact ⟨nofun, .nil⟩
  | cons w ws ih =>
    rw [bytesOfAll, List.length_append, ← Nat.add_assoc]
    exact (within_all ⟨p, w⟩).append (ih _) (Nat.le_add_right _ _) (Nat.le_add_right _ _)

theorem within_torn (x : Torn) (p : Nat) : Within (x.items p) p (p + x.bytes.length) := by
  induction x generalizing p with
  | stopped bytes => exact ⟨nofun, .nil⟩
  | inside frame done next ih =>
    have h := (within_allOf done (frame.opening p)).append (ih _) (Nat.le_add_right _ _)
      (Nat.le_add_right _ _)
    have hopening : frame.opening p = p + (frame.word.bytes ++ frame.head).length := by
      rw [List.length_append, FlagWord.length_bytes, opening]
    refine ⟨fun y hy ↦ ?_, h.2⟩
    obtain ⟨hoffset, hstop⟩ := h.1 y hy
    rw [Torn.bytes, List.length_append, List.length_append]
    omega

theorem within_span (span : Span) (p : Nat) : Within (span.items p) p (p + span.bytes.length) := by
  cases span with
  | header bytes => exact ⟨nofun, .nil⟩
  | whole w => exact within_all ⟨p, w⟩
  | torn x => exact within_torn x p

theorem within_items (spans : List Span) (p : Nat) :
    Within (items spans p) p (p + (spans.flatMap Span.bytes).length) := by
  induction spans generalizing p with
  | nil => exact ⟨nofun, .nil⟩
  | cons span spans ih =>
    rw [List.flatMap_cons, List.length_append, ← Nat.add_assoc]
    exact (within_span span p).append (ih _) (Nat.le_add_right _ _) (Nat.le_add_right _ _)

theorem eq_of_offset_eq {xs : List Place} (h : xs.Pairwise Place.Apart) {x y : Place}
    (hx : x ∈ xs) (hy : y ∈ xs) (he : x.offset = y.offset) : x = y :=
  List.inj_on_of_nodup_map (List.pairwise_map.mpr h) hx hy he

theorem le_offset_of_mem_roots {spans : List Span} {p : Nat} {x : Place}
    (h : x ∈ roots spans p) : p ≤ x.offset := by
  induction spans generalizing p with
  | nil => cases h
  | cons span spans ih =>
    cases span with
    | header bytes => exact Nat.le_trans (Nat.le_add_right _ _) (ih h)
    | torn x => exact Nat.le_trans (Nat.le_add_right _ _) (ih h)
    | whole w =>
      rcases List.mem_cons.mp h with rfl | h
      · exact Nat.le_refl p
      · exact Nat.le_trans (Nat.le_add_right _ _) (ih h)

theorem pairwise_roots (spans : List Span) (p : Nat) :
    (roots spans p).Pairwise Place.Clear := by
  induction spans generalizing p with
  | nil => exact .nil
  | cons span spans ih =>
    cases span with
    | header bytes => exact ih _
    | torn x => exact ih _
    | whole w => exact .cons (fun y hy ↦ .inl (le_offset_of_mem_roots hy)) (ih _)

theorem all_subset_items {spans : List Span} {p : Nat} {x y : Place} (hx : x ∈ roots spans p)
    (hy : y ∈ x.all) : y ∈ items spans p := by
  induction spans generalizing p with
  | nil => cases hx
  | cons span spans ih =>
    cases span with
    | header bytes => exact ih hx
    | torn x => exact List.mem_append_right _ (ih hx)
    | whole w =>
      rcases List.mem_cons.mp hx with rfl | hx
      · exact List.mem_append_left _ hy
      · exact List.mem_append_right _ (ih hx)

/-- Different positions in the returned graphs stand at different offsets. -/
theorem offset_ne_of_place? {spans : List Span} {i j : Nat} {path path' : List Value.Step}
    {x y : Place} (hx : place? stream T spans i path = some x)
    (hy : place? stream T spans j path' = some y) (hne : ¬ (i = j ∧ path = path')) :
    x.offset ≠ y.offset := by
  obtain ⟨a, ha, hx⟩ := Option.bind_eq_some_iff.mp hx
  obtain ⟨b, hb, hy⟩ := Option.bind_eq_some_iff.mp hy
  by_cases hij : i = j
  · obtain rfl := hij
    cases ha.symm.trans hb
    exact Place.offset_ne_of_at? (fun he ↦ hne ⟨rfl, he⟩) hx hy
  · have hclear : a.Clear b := by
      obtain ⟨hi, rfl⟩ := List.getElem?_eq_some_iff.mp ha
      obtain ⟨hj, rfl⟩ := List.getElem?_eq_some_iff.mp hb
      have hpairs := List.pairwise_iff_getElem.mp (pairwise_roots spans 0)
      rcases Nat.lt_or_gt_of_ne hij with h | h
      · exact hpairs i j hi hj h
      · exact (hpairs j i hj hi h).symm
    exact hclear.offset_ne (Place.mem_all_of_at? hx) (Place.mem_all_of_at? hy)

end Offsets

section Sources

variable {xs : List Place} {x y z : Place} {a b : Chars}

theorem forall₂_symbols (xs : List Place) :
    List.Forall₂ (fun z a ↦ z.symbol? stream = some a) (symbols stream xs) (names stream xs) := by
  induction xs with
  | nil => exact .nil
  | cons z xs ih =>
    cases h : z.symbol? stream with
    | none => simpa [symbols, names, h] using ih
    | some a => simpa [symbols, names, h] using ih

theorem getElem?_of_forall₂ {α β : Type} {R : α → β → Prop} {as : List α} {bs : List β}
    (h : List.Forall₂ R as bs) {n : Nat} {b : β} (hb : bs[n]? = some b) :
    ∃ a, as[n]? = some a ∧ R a b := by
  induction h generalizing n with
  | nil => cases hb
  | cons hab _ ih =>
    cases n with
    | zero =>
      cases hb
      exact ⟨_, rfl, hab⟩
    | succ n => exact ih hb

theorem mem_symbols (hz : z ∈ xs) (h : z.symbol? stream = some a) : z ∈ symbols stream xs := by
  rw [symbols, List.mem_filter, h]
  exact ⟨hz, rfl⟩

theorem symbol?_origin (h : z.symbol? stream = some a) :
    a = .na ∨ ∃ text, a = .text ⟨stream, z.offset + 4⟩ text := by
  obtain ⟨p, w⟩ := z
  cases w with
  | symbol word name =>
    cases name with
    | char _ content? _ =>
      cases h
      cases content? with
      | none => exact .inl rfl
      | some bytes => exact .inr ⟨_, rfl⟩
    | _ => cases h
  | _ => cases h

theorem exists_source (hx : x ∈ xs)
    (h : x.value? stream (ReferenceTable.empty.pushAll (names stream xs)) = some (.symbol a)) :
    ∃ z, source? stream xs x = some z ∧ z ∈ xs ∧ z.symbol? stream = some a := by
  have hsymbolic : (ReferenceTable.empty.pushAll (names stream xs)).Symbolic :=
    ReferenceTable.symbolic_empty.extends (ReferenceTable.extends_pushAll _ _)
  obtain ⟨p, w⟩ := x
  cases evaluates_of_value? hsymbolic h with
  | symbol hname => exact ⟨_, rfl, hx, hname⟩
  | @reference word index? _ _ hget =>
    unfold ReferenceTable.get? at hget
    split at hget
    · next n hn =>
      have hname : (names stream xs)[n]? = some a := by
        simp only [ReferenceTable.pushAll, ReferenceTable.empty, Array.empty_append,
          List.getElem?_toArray, List.getElem?_map, Option.map_eq_some_iff] at hget
        obtain ⟨name, hname, he⟩ := hget
        cases he
        exact hname
      obtain ⟨z, hz, hza⟩ := getElem?_of_forall₂ (forall₂_symbols xs) hname
      refine ⟨z, ?_, (List.mem_filter.mp (List.mem_of_getElem? hz)).1, hza⟩
      rw [source?]
      simp only [hn]
      exact hz
    · cases hget

theorem shares_iff_source (hxs : xs.Pairwise Place.Apart) (hz : z ∈ xs)
    (hza : z.symbol? stream = some a) (hy : y ∈ xs) (hyb : y.symbol? stream = some b) :
    (Value.symbol a).shares (.symbol b) = true ↔ (a = .na ∧ b = .na) ∨ z = y := by
  constructor
  · intro h
    rcases symbol?_origin hza with rfl | ⟨text, rfl⟩
    · rcases symbol?_origin hyb with rfl | ⟨text', rfl⟩
      · exact .inl ⟨rfl, rfl⟩
      · cases h
    · rcases symbol?_origin hyb with rfl | ⟨text', rfl⟩
      · cases h
      · have horigin := congrArg Origin.offset (beq_iff_eq.mp h)
        exact .inr (eq_of_offset_eq hxs hz hy (Nat.add_right_cancel horigin))
  · rintro (⟨rfl, rfl⟩ | rfl)
    · rfl
    · cases hza.symm.trans hyb
      exact Value.shares_refl _

end Sources

theorem exists_place {spans : List Span} (hT : T.Symbolic)
    (hvalues : List.Forall₂ (fun v x ↦ x.value? stream T = some v) (s.values rs) (roots spans 0))
    {i : Nat} {path : List Value.Step} {u : Value} (hu : s.node? rs i path = some u) :
    ∃ x, place? stream T spans i path = some x ∧ x ∈ items spans 0 ∧
      x.value? stream T = some u := by
  obtain ⟨root, hroot, hu⟩ := Option.bind_eq_some_iff.mp hu
  obtain ⟨a, ha, hav⟩ := getElem?_of_forall₂ hvalues.flip hroot
  obtain ⟨x, hx, hxu⟩ := Place.at?_evaluates hT hav hu
  refine ⟨x, Option.bind_eq_some_iff.mpr ⟨a, ha, hx⟩, ?_, hxu⟩
  exact all_subset_items (List.mem_of_getElem? ha) (Place.mem_all_of_at? hx)

/-- The graphs that a session returns share what their items share: two symbols are one and the
same if they have no name, or if one item made both of them, and a container is only the same as
itself. -/
theorem shares_iff {o : Options} {bytes : List UInt8} {log : Log} {s₀ : Session}
    (h : Session.start o stream bytes log = .ok s₀) (rs : List Session.Request) :
    ∃ spans, History s₀ rs spans ∧
      bytes = spans.flatMap Span.bytes ++ (s₀.afterAll rs).progress.cursor.rest ∧
      (s₀.afterAll rs).progress.table =
        ReferenceTable.empty.pushAll (names stream (items spans 0)) ∧
      ∀ i path u j path' v, s₀.node? rs i path = some u → s₀.node? rs j path' = some v →
        ∃ x y, place? stream (s₀.afterAll rs).progress.table spans i path = some x ∧
          place? stream (s₀.afterAll rs).progress.table spans j path' = some y ∧
          (∀ a b, u = .symbol a → v = .symbol b →
            ∃ x' ∈ symbols stream (items spans 0), ∃ y' ∈ symbols stream (items spans 0),
              source? stream (items spans 0) x = some x' ∧
              source? stream (items spans 0) y = some y' ∧
              (u.shares v = true ↔ (a = .na ∧ b = .na) ∨ x' = y')) ∧
          (u.origin?.isSome = true → (u.shares v = true ↔ i = j ∧ path = path')) := by
  obtain rfl := Session.eq_of_start h
  obtain ⟨⟨hsymbolic, -, -⟩, -⟩ := sound_start h
  obtain ⟨spans, hspans, hm, hvalues⟩ := exists_history hsymbolic rs
  have hT := hsymbolic.extends hm.grows
  have hvalues := hvalues _ (.refl _)
  refine ⟨spans, hspans, hm.rest, hm.table, fun i path u j path' v hu hv ↦ ?_⟩
  obtain ⟨x, hx, hxmem, hxu⟩ := exists_place hT hvalues hu
  obtain ⟨y, hy, hymem, hyv⟩ := exists_place hT hvalues hv
  refine ⟨x, y, hx, hy, ?_, fun hsome ↦ ⟨fun hshares ↦ ?_, ?_⟩⟩
  · rintro a b rfl rfl
    rw [hm.table] at hxu hyv
    obtain ⟨x', hx', hxmem', hxa⟩ := exists_source hxmem hxu
    obtain ⟨y', hy', hymem', hyb⟩ := exists_source hymem hyv
    refine ⟨x', mem_symbols hxmem' hxa, y', mem_symbols hymem' hyb, hx', hy', ?_⟩
    exact shares_iff_source (within_items spans 0).2 hxmem' hxa hymem' hyb
  · obtain ⟨origin, horigin⟩ := Option.isSome_iff_exists.mp hsome
    have hxo := Place.origin_eq hT hxu horigin
    have hyo := Place.origin_eq hT hyv ((Value.origin?_eq_of_shares hshares).symm.trans horigin)
    by_contra hne
    exact offset_ne_of_place? hx hy hne (congrArg Origin.offset (hxo.symm.trans hyo))
  · rintro ⟨rfl, rfl⟩
    cases hu.symm.trans hv
    exact u.shares_refl

/-- A list of two symbols with one text, and behind it a reference to the first one. -/
def twins : List UInt8 :=
  [0, 0, 0, 19, 0, 0, 0, 2, 0, 0, 0, 1, 0, 0, 0, 9, 0, 0, 0, 1, 120,
    0, 0, 0, 1, 0, 0, 0, 9, 0, 0, 0, 1, 120, 0, 0, 1, 255]

theorem twins_share :
    ∃ s, Session.start ⟨3, true, false⟩ 0 twins [] = .ok s ∧
      ∃ spans x y z, History s [.item, .item] spans ∧
        place? 0 (s.afterAll [.item, .item]).progress.table spans 0 [.element 0] = some x ∧
        place? 0 (s.afterAll [.item, .item]).progress.table spans 0 [.element 1] = some y ∧
        place? 0 (s.afterAll [.item, .item]).progress.table spans 1 [] = some z ∧
        source? 0 (items spans 0) x = source? 0 (items spans 0) z ∧
        source? 0 (items spans 0) x ≠ source? 0 (items spans 0) y := by
  let s : Session := ⟨⟨3, true, false⟩, 0, none, .start twins []⟩
  have hstart : Session.start ⟨3, true, false⟩ 0 twins [] = .ok s := rfl
  obtain ⟨spans, hspans, -, -, hshares⟩ := shares_iff hstart [.item, .item]
  have hsymbol (i : Nat) (path : List Value.Step)
      (h : ((s.node? [.item, .item] i path).bind Value.symbolName?).isSome = true) :
      ∃ origin text, s.node? [.item, .item] i path = some (.symbol (.text origin text)) := by
    obtain ⟨text, h⟩ := Option.isSome_iff_exists.mp h
    obtain ⟨u, hu, h⟩ := Option.bind_eq_some_iff.mp h
    rw [hu]
    cases u with
    | symbol name =>
      cases name with
      | na => cases h
      | text origin text => exact ⟨origin, text, rfl⟩
    | _ => cases h
  obtain ⟨oa, ta, ha⟩ := hsymbol 0 [.element 0] (by decide +kernel)
  obtain ⟨ob, tb, hb⟩ := hsymbol 0 [.element 1] (by decide +kernel)
  obtain ⟨oc, tc, hc⟩ := hsymbol 1 [] (by decide +kernel)
  have hac : ((s.node? [.item, .item] 0 [.element 0]).bind fun u ↦
      (s.node? [.item, .item] 1 []).map u.shares) = some true := by decide +kernel
  have hab : ((s.node? [.item, .item] 0 [.element 0]).bind fun u ↦
      (s.node? [.item, .item] 0 [.element 1]).map u.shares) = some false := by decide +kernel
  rw [ha, hc] at hac
  rw [ha, hb] at hab
  obtain ⟨x, z, hx, hz, hsame, -⟩ := hshares _ _ _ _ _ _ ha hc
  obtain ⟨x₁, y, hx₁, hy, hother, -⟩ := hshares _ _ _ _ _ _ ha hb
  cases hx.symm.trans hx₁
  obtain ⟨x', -, z', -, hx', hz', hxz⟩ := hsame _ _ rfl rfl
  obtain ⟨x₁', -, y', -, hx₁', hy', hxy⟩ := hother _ _ rfl rfl
  refine ⟨s, hstart, spans, x, y, z, hspans, hx, hy, hz, ?_, fun he ↦ ?_⟩
  · rcases hxz.mp (Option.some.inj hac) with ⟨h, -⟩ | rfl
    · cases h
    · rw [hx', hz']
  · rw [hx₁', hy'] at he
    have := hxy.mpr (.inr (Option.some.inj he))
    rw [Option.some.inj hab] at this
    cases this

end Account

end Rds
