import JsonbAlgebra.Document.Containment
import JsonbAlgebra.Proofs.KeyedLookups

/-!
# The depth of containment

An object contains another if it has a value under each of its keys that contains the
value there, an array contains another if it has an item that contains each of its
items, and a scalar contains its equals.  Besides, an array contains a scalar that it
holds.  PostgreSQL makes this exception for the two documents that are
compared and not for anything below their tops.

Containment here is one recursion, so the exception comes with it to every depth.  It
finds all that PostgreSQL finds, and more only where an array below the top of one
document holds a scalar below the top of the other.
-/

namespace JsonbAlgebra.Document

/-- Two equal scalars; numbers are equal by value. -/
inductive SameScalar : Document → Document → Prop
  | null : SameScalar .null .null
  | boolean (value : Bool) : SameScalar (.boolean value) (.boolean value)
  | number {x y : Number} (h : x.equal y = true) : SameScalar (.number x) (.number y)
  | string (value : String) : SameScalar (.string value) (.string value)

def Holds (items : List Document) (scalar : Document) : Prop :=
  ∃ item ∈ items, SameScalar item scalar

/-- Containment in depth.  The parameter says whether, at every depth, an array also
contains a scalar that it holds. -/
def Covers (held : Prop) (outer inner : Document) : Prop :=
  match outer, inner with
  | .object fields, .object wanted =>
    ∀ key value, (key, value) ∈ wanted →
      ∃ found, Keyed.find? fields key = some found ∧ Covers held found value
  | .array items, .array wanted =>
    ∀ item, item ∈ wanted → ∃ candidate ∈ items, Covers held candidate item
  | .array items, inner => held ∧ Holds items inner
  | outer, inner => SameScalar outer inner
termination_by inner
decreasing_by
  · have hfield := List.sizeOf_lt_of_mem ‹(key, value) ∈ wanted›
    simp only [Prod.mk.sizeOf_spec, object.sizeOf_spec] at hfield ⊢
    omega
  · have hitem := List.sizeOf_lt_of_mem ‹item ∈ wanted›
    simp only [array.sizeOf_spec]
    omega

/-- The exception, for the tops of two documents. -/
def HeldAtTop (outer inner : Document) : Prop :=
  ∃ items, outer = .array items ∧ Holds items inner

/-! ## Scalars -/

theorem SameScalar.isContainer {outer inner : Document} (h : SameScalar outer inner) :
    outer.isContainer = false ∧ inner.isContainer = false := by
  cases h <;> exact ⟨rfl, rfl⟩

theorem sameScalar_iff {outer inner : Document} (hinner : inner.isContainer = false) :
    SameScalar outer inner ↔ outer.equal inner = true := by
  constructor
  · intro h
    cases h with
    | number h => rw [equal, h]
    | _ => simp [equal]
  · fun_cases equal outer inner with
    | case1 => exact fun _ => .null
    | case2 a b =>
        intro h
        obtain rfl := beq_iff_eq.1 h
        exact .boolean a
    | case3 a b => exact .number
    | case4 a b =>
        intro h
        obtain rfl := beq_iff_eq.1 h
        exact .string a
    | case5 | case6 => cases hinner
    | case7 => exact nofun

theorem holds_iff {items : List Document} {inner : Document}
    (hinner : inner.isContainer = false) :
    Holds items inner ↔ (items.any fun item => equal item inner) = true := by
  simp only [Holds, List.any_eq_true, sameScalar_iff hinner]

/-! ## Views of containment -/

section Views

variable {held : Prop}

theorem covers_object {fields wanted : List (String × Document)} :
    Covers held (.object fields) (.object wanted) ↔
      ∀ key value, (key, value) ∈ wanted →
        ∃ found, Keyed.find? fields key = some found ∧ Covers held found value := by
  rw [Covers]

theorem covers_array {items wanted : List Document} :
    Covers held (.array items) (.array wanted) ↔
      ∀ item ∈ wanted, ∃ candidate ∈ items, Covers held candidate item := by
  rw [Covers]

/-- A scalar is contained in an array that holds it and in a scalar it equals. -/
theorem covers_scalar {outer inner : Document} (hinner : inner.isContainer = false) :
    Covers held outer inner ↔ SameScalar outer inner ∨ held ∧ HeldAtTop outer inner := by
  have houter : ∀ items, ¬ SameScalar (.array items) inner := nofun
  cases inner with
  | array wanted | object wanted => cases hinner
  | _ => cases outer <;> simp [Covers, HeldAtTop, houter]

theorem covers_container {outer inner : Document} (hinner : inner.isContainer = true)
    (hkind : outer.kind ≠ inner.kind) : ¬ Covers held outer inner := by
  have hsame : ∀ outer, ¬ SameScalar outer inner := fun _ h =>
    absurd hinner (by rw [h.isContainer.2]; simp)
  have hholds : ∀ items, ¬ Holds items inner := fun items ⟨item, _, h⟩ => hsame item h
  cases inner with
  | array wanted | object wanted =>
      cases outer <;> simp_all [Covers, kind]
  | _ => cases hinner

end Views

theorem withinItems_iff {items outer : List Document} :
    withinItems items outer = true ↔
      ∀ item ∈ items, ∃ candidate ∈ outer, within item candidate = true := by
  induction items with
  | nil => simp [withinItems]
  | cons item items ih => simp [withinItems, ih]

theorem withinFields_iff {fields outer : List (String × Document)} :
    withinFields fields outer = true ↔
      ∀ key value, (key, value) ∈ fields →
        ∃ found, Keyed.find? outer key = some found ∧ within value found = true := by
  have hcons : ∀ key value rest, withinFields ((key, value) :: rest) outer =
      ((Keyed.find? outer key).any (within value) && withinFields rest outer) := by
    intro key value rest
    rw [withinFields]
    cases Keyed.find? outer key <;> rfl
  exact Keyed.all_found_iff (withinFields · outer) rfl hcons

theorem within_scalar {outer inner : Document} (hinner : inner.isContainer = false) :
    within inner outer = true ↔ Covers True outer inner := by
  rw [covers_scalar hinner]
  have hscalar : outer.isContainer = false → within inner outer = equal outer inner := by
    intro houter
    cases outer with
    | array items | object fields => cases houter
    | _ => cases inner <;> rfl
  cases outer with
  | array items =>
      have hwithin : within inner (.array items) = items.any fun item => equal item inner := by
        cases inner <;> first | rfl | cases hinner
      have hsame : ¬ SameScalar (.array items) inner := nofun
      simp [hwithin, ← holds_iff hinner, HeldAtTop, hsame]
  | object fields =>
      have hwithin : within inner (.object fields) = false := by
        cases inner <;> first | rfl | cases hinner
      have hsame : ¬ SameScalar (.object fields) inner := nofun
      simp [hwithin, HeldAtTop, hsame]
  | _ => simp [hscalar rfl, ← sameScalar_iff hinner, HeldAtTop]

/-- What is contained is what is covered with the exception made at every depth. -/
theorem within_iff {outer inner : Document} :
    within inner outer = true ↔ Covers True outer inner := by
  induction inner generalizing outer with
  | array wanted ih =>
      by_cases houter : outer.kind = .array
      · cases outer with
        | array items =>
            rw [within, withinItems_iff, covers_array]
            exact forall₂_congr fun item hmem =>
              exists_congr fun candidate => and_congr_right fun _ => ih item hmem
        | _ => cases houter
      · refine iff_of_false ?_ (covers_container rfl houter)
        cases outer <;> simp_all [within, kind, equal]
  | object wanted ih =>
      by_cases houter : outer.kind = .object
      · cases outer with
        | object fields =>
            rw [within, withinFields_iff, covers_object]
            exact forall₃_congr fun key value hmem =>
              exists_congr fun found => and_congr_right fun _ => ih key value hmem
        | _ => cases houter
      · refine iff_of_false ?_ (covers_container rfl houter)
        cases outer <;> simp_all [within, kind, equal]
  | _ => exact within_scalar rfl

/-! ## The exception below the top -/

/-- An array below the top of one document holds a scalar below the top of the other. -/
def HeldBelow (outer inner : Document) : Prop :=
  ∃ items scalar, Below (.array items) outer ∧ Below scalar inner ∧ Holds items scalar

theorem Covers.kind_eq {held : Prop} {outer inner : Document} (h : Covers held outer inner)
    (hinner : inner.isContainer = true) : outer.kind = inner.kind :=
  by_contra fun hkind => covers_container hinner hkind h

/-- What covers a container is decided by the children of both. -/
theorem Covers.of_children {held other : Prop} {outer inner : Document}
    (hinner : inner.isContainer = true) (h : Covers held outer inner)
    (hchildren : ∀ child part, Child child outer → Child part inner →
      Covers held child part → Covers other child part) : Covers other outer inner := by
  have hkind := h.kind_eq hinner
  cases inner with
  | array wanted =>
      cases outer with
      | array items =>
          refine covers_array.2 fun item hmem => ?_
          obtain ⟨candidate, hcandidate, hcovers⟩ := covers_array.1 h item hmem
          exact ⟨candidate, hcandidate,
            hchildren candidate item (.item hcandidate) (.item hmem) hcovers⟩
      | _ => cases hkind
  | object wanted =>
      cases outer with
      | object fields =>
          refine covers_object.2 fun key value hmem => ?_
          obtain ⟨found, hfound, hcovers⟩ := covers_object.1 h key value hmem
          exact ⟨found, hfound,
            hchildren found value (.field (Keyed.mem_of_find? hfound)) (.field hmem) hcovers⟩
      | _ => cases hkind
  | _ => cases hinner

/-- Two rules for the exception cover alike if they agree wherever it applies. -/
theorem Covers.imp {held other : Prop} {outer inner : Document} (h : Covers held outer inner)
    (himp : ∀ items scalar, Relation.ReflTransGen Child (.array items) outer →
      Relation.ReflTransGen Child scalar inner → Holds items scalar → held → other) :
    Covers other outer inner := by
  induction inner generalizing outer with
  | array wanted ih =>
      refine h.of_children rfl fun child part hchild hpart hcovers => ?_
      cases hpart with
      | item hmem =>
          exact ih part hmem hcovers fun items scalar hitems hscalar =>
            himp items scalar (hitems.tail hchild) (hscalar.tail (.item hmem))
  | object wanted ih =>
      refine h.of_children rfl fun child part hchild hpart hcovers => ?_
      cases hpart with
      | field hmem =>
          exact ih _ part hmem hcovers fun items scalar hitems hscalar =>
            himp items scalar (hitems.tail hchild) (hscalar.tail (.field hmem))
  | _ =>
      obtain hsame | ⟨hheld, items, rfl, hholds⟩ := (covers_scalar rfl).1 h
      · exact (covers_scalar rfl).2 (.inl hsame)
      · refine (covers_scalar rfl).2 (.inr ⟨?_, items, rfl, hholds⟩)
        exact himp items _ .refl .refl hholds hheld

/-- Where no array below the top holds a scalar, the exception matters at the top only. -/
theorem Covers.top {outer inner : Document} (h : Covers True outer inner)
    (hbelow : ¬ HeldBelow outer inner) : Covers False outer inner ∨ HeldAtTop outer inner := by
  cases hinner : inner.isContainer with
  | true =>
      refine .inl (h.of_children hinner fun child part hchild hpart hcovers => ?_)
      exact hcovers.imp fun items scalar hitems hscalar hholds _ =>
        hbelow ⟨items, scalar, .tail' hitems hchild, .tail' hscalar hpart, hholds⟩
  | false =>
      obtain hsame | ⟨-, hheld⟩ := (covers_scalar hinner).1 h
      · exact .inl ((covers_scalar hinner).2 (.inl hsame))
      · exact .inr hheld

/-- A document contains what it covers when the exception is made at every depth.  That
is all it covers in depth without the exception and what it holds at the top, and no more
unless an array below the top holds a scalar below the top. -/
theorem contains_at_every_depth (outer inner : Document) :
    (outer.contains inner = true ↔ Covers True outer inner) ∧
      (Covers False outer inner ∨ HeldAtTop outer inner → outer.contains inner = true) ∧
      (¬ HeldBelow outer inner →
        (outer.contains inner = true ↔ Covers False outer inner ∨ HeldAtTop outer inner)) := by
  have hcovers : outer.contains inner = true ↔ Covers True outer inner := within_iff
  have htop : Covers False outer inner ∨ HeldAtTop outer inner → Covers True outer inner := by
    rintro (hdeep | ⟨items, rfl, item, hmem, hsame⟩)
    · exact hdeep.imp fun _ _ _ _ _ => False.elim
    · refine (covers_scalar hsame.isContainer.2).2 (.inr ⟨trivial, items, rfl, ?_⟩)
      exact ⟨item, hmem, hsame⟩
  refine ⟨hcovers, fun h => hcovers.2 (htop h), fun hbelow => ?_⟩
  rw [hcovers]
  exact ⟨fun h => h.top hbelow, htop⟩

/-- An array of two scalars contains each of them. -/
theorem contains_at_every_depth_scalar :
    let items : List Document := [.null, .string "x"]
    HeldAtTop (.array items) (.string "x") ∧ ¬ HeldBelow (.array items) (.string "x") ∧
      (array items).contains (.string "x") = true := by
  intro items
  have hheld : HeldAtTop (.array items) (.string "x") :=
    ⟨items, rfl, .string "x", by simp [items], .string "x"⟩
  have hbelow : ¬ HeldBelow (.array items) (.string "x") := by
    rintro ⟨_, _, -, hscalar, -⟩
    obtain ⟨_, -, hchild⟩ := Relation.TransGen.tail'_iff.1 hscalar
    cases hchild
  have hlaws := contains_at_every_depth (.array items) (.string "x")
  exact ⟨hheld, hbelow, (hlaws.2.2 hbelow).2 (.inr hheld)⟩

/-- A scalar under a key is contained in an array that holds it under that key, and a
scalar in an array in an array of arrays. -/
theorem contains_held_below :
    let under (value : Document) : Document := .object [("a", value)]
    let among (value : Document) : Document := .array [value]
    let x : Document := .string "x"
    ((under (among x)).contains (under x) = true ∧
      ¬ (Covers False (under (among x)) (under x) ∨ HeldAtTop (under (among x)) (under x))) ∧
    (among (among x)).contains (among x) = true ∧
      ¬ (Covers False (among (among x)) (among x) ∨ HeldAtTop (among (among x)) (among x)) := by
  intro under among x
  have hx : ¬ Covers False (among x) x := by
    intro h
    obtain hsame | hheld := (covers_scalar rfl).1 h
    · cases hsame
    · exact hheld.1
  refine ⟨⟨rfl, ?_⟩, rfl, ?_⟩
  · rintro (hdeep | ⟨items, hitems, -⟩)
    · obtain ⟨found, hfound, hcovers⟩ := covers_object.1 hdeep "a" x List.mem_cons_self
      obtain rfl := Option.some.inj hfound
      exact hx hcovers
    · cases hitems
  · rintro (hdeep | ⟨items, -, item, -, hsame⟩)
    · obtain ⟨candidate, hcandidate, hcovers⟩ := covers_array.1 hdeep x List.mem_cons_self
      obtain rfl := List.mem_singleton.1 hcandidate
      exact hx hcovers
    · cases hsame

end JsonbAlgebra.Document
