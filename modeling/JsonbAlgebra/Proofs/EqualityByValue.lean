import JsonbAlgebra.Document.Containment
import JsonbAlgebra.Proofs.DocumentEdits
import JsonbAlgebra.Proofs.ExactNumbers
import JsonbAlgebra.Proofs.KeyedLookups

/-!
# Equality by value

Documents of one shape, with the same texts and truth values, differ at most in their
numbers, so a relation of numbers carries over to documents: the numbers in the same
places are related.  The laws of the relation carry over with it.

Equality is what equality of numbers carries over to.  It holds of any two documents
whose numbers have the same values, and of no others as long as the numbers are signed
words, or else representable.  Since it rounds all other numbers, it also holds of some
documents of different values, and while it is reflexive and symmetric, it passes from
one document over a second to a third only if no signed word of the first stands where
the third has a different one.
-/

namespace JsonbAlgebra.Document

/-- Documents that differ at most in their numbers, and there only as the relation
allows. -/
inductive Alike (related : Number → Number → Prop) : Document → Document → Prop
  | null : Alike related .null .null
  | boolean (value : Bool) : Alike related (.boolean value) (.boolean value)
  | number {x y : Number} (h : related x y) : Alike related (.number x) (.number y)
  | string (value : String) : Alike related (.string value) (.string value)
  | array {items others : List Document} (hlength : items.length = others.length)
      (hitems : ∀ (place : Nat) a b, items[place]? = some a → others[place]? = some b →
        Alike related a b) :
      Alike related (.array items) (.array others)
  | object {fields others : List (String × Document)}
      (hkeys : ∀ key, key ∈ Keyed.keys fields ↔ key ∈ Keyed.keys others)
      (hfields : ∀ key a b, Keyed.find? fields key = some a → Keyed.find? others key = some b →
        Alike related a b) :
      Alike related (.object fields) (.object others)

/-- A number stands in a document, at any depth. -/
def HasNumber (document : Document) (x : Number) : Prop :=
  Relation.ReflTransGen Child (.number x) document

/-! ## Relations of numbers in documents -/

section Alike

variable {related other : Number → Number → Prop} {first second third : Document}

theorem alike_number {x y : Number} :
    Alike related (.number x) (.number y) ↔ related x y := by
  refine ⟨fun h => ?_, .number⟩
  cases h with
  | number h => exact h

theorem alike_array {items others : List Document} :
    Alike related (.array items) (.array others) ↔
      items.length = others.length ∧
        ∀ (place : Nat) a b, items[place]? = some a → others[place]? = some b →
          Alike related a b := by
  refine ⟨fun h => ?_, fun h => .array h.1 h.2⟩
  cases h with
  | array hlength hitems => exact ⟨hlength, hitems⟩

theorem alike_object {fields others : List (String × Document)} :
    Alike related (.object fields) (.object others) ↔
      (∀ key, key ∈ Keyed.keys fields ↔ key ∈ Keyed.keys others) ∧
        ∀ key a b, Keyed.find? fields key = some a → Keyed.find? others key = some b →
          Alike related a b := by
  refine ⟨fun h => ?_, fun h => .object h.1 h.2⟩
  cases h with
  | object hkeys hfields => exact ⟨hkeys, hfields⟩

theorem Alike.refl (hrefl : ∀ x, related x x) (document : Document) :
    Alike related document document := by
  induction document with
  | null => exact .null
  | boolean value => exact .boolean value
  | number x => exact .number (hrefl x)
  | string value => exact .string value
  | array items ih =>
      refine .array rfl fun place a b ha hb => ?_
      obtain rfl := Option.some.inj (ha.symm.trans hb)
      exact ih a (List.mem_of_getElem? ha)
  | object fields ih =>
      refine .object (fun _ => Iff.rfl) fun key a b ha hb => ?_
      obtain rfl := Option.some.inj (ha.symm.trans hb)
      exact ih key a (Keyed.mem_of_find? ha)

theorem Alike.symm (hsymm : ∀ x y, related x y → related y x)
    (h : Alike related first second) : Alike related second first := by
  induction h with
  | null => exact .null
  | boolean value => exact .boolean value
  | number h => exact .number (hsymm _ _ h)
  | string value => exact .string value
  | array hlength _ ih => exact .array hlength.symm fun place a b ha hb => ih place b a hb ha
  | object hkeys _ ih =>
      exact .object (fun key => (hkeys key).symm) fun key a b ha hb => ih key b a hb ha

/-- Documents that are alike with a third between them. -/
theorem Alike.trans {composed : Number → Number → Prop}
    (htrans : ∀ x y z, related x y → other y z → composed x z)
    (hfirst : Alike related first second) (hsecond : Alike other second third) :
    Alike composed first third := by
  induction hfirst generalizing third with
  | null => cases hsecond; exact .null
  | boolean value => cases hsecond; exact .boolean value
  | number h =>
      cases hsecond with
      | number hother => exact .number (htrans _ _ _ h hother)
  | string value => cases hsecond; exact .string value
  | @array items others hlength hitems ih =>
      cases hsecond with
      | array hlater hothers =>
          refine .array (hlength.trans hlater) fun place a c ha hc => ?_
          obtain ⟨hplace, -⟩ := List.getElem?_eq_some_iff.1 ha
          have hb := List.getElem?_eq_getElem (hlength ▸ hplace)
          exact ih place a _ ha hb (hothers place _ c hb hc)
  | @object fields others hkeys hfields ih =>
      cases hsecond with
      | object hlater hothers =>
          refine .object (fun key => (hkeys key).trans (hlater key)) fun key a c ha hc => ?_
          obtain ⟨b, hb⟩ := Keyed.mem_keys_iff.1 ((hkeys key).1 (Keyed.mem_keys_iff.2 ⟨a, ha⟩))
          exact ih key a b ha hb (hothers key b c hb hc)

/-- Only the numbers that stand in the two documents matter. -/
theorem Alike.imp (h : Alike related first second)
    (himp : ∀ x y, first.HasNumber x → second.HasNumber y → related x y → other x y) :
    Alike other first second := by
  induction h with
  | null => exact .null
  | boolean value => exact .boolean value
  | number h => exact .number (himp _ _ .refl .refl h)
  | string value => exact .string value
  | array hlength _ ih =>
      refine .array hlength fun place a b ha hb => ih place a b ha hb fun x y hx hy => ?_
      exact himp x y (hx.tail (.item (List.mem_of_getElem? ha)))
        (hy.tail (.item (List.mem_of_getElem? hb)))
  | object hkeys _ ih =>
      refine .object hkeys fun key a b ha hb => ih key a b ha hb fun x y hx hy => ?_
      exact himp x y (hx.tail (.field (Keyed.mem_of_find? ha)))
        (hy.tail (.field (Keyed.mem_of_find? hb)))

theorem Alike.mono (h : Alike related first second) (himp : ∀ x y, related x y → other x y) :
    Alike other first second :=
  h.imp fun x y _ _ => himp x y

theorem Alike.and (h : Alike related first second) (hother : Alike other first second) :
    Alike (fun x y => related x y ∧ other x y) first second := by
  induction h with
  | null => exact .null
  | boolean value => exact .boolean value
  | number h => exact .number ⟨h, alike_number.1 hother⟩
  | string value => exact .string value
  | array hlength _ ih =>
      exact .array hlength fun place a b ha hb =>
        ih place a b ha hb ((alike_array.1 hother).2 place a b ha hb)
  | object hkeys _ ih =>
      exact .object hkeys fun key a b ha hb =>
        ih key a b ha hb ((alike_object.1 hother).2 key a b ha hb)

end Alike

/-! ## Equality as a relation of numbers -/

theorem equalItems_iff {items others : List Document} :
    equalItems items others = true ↔
      items.length = others.length ∧
        ∀ (place : Nat) a b, items[place]? = some a → others[place]? = some b →
          a.equal b = true := by
  induction items generalizing others with
  | nil => cases others <;> simp [equalItems]
  | cons item items ih =>
      cases others with
      | nil => simp [equalItems]
      | cons first others =>
          rw [equalItems, Bool.and_eq_true, ih, List.length_cons, List.length_cons,
            Nat.add_right_cancel_iff]
          constructor
          · rintro ⟨hfirst, hlength, hitems⟩
            refine ⟨hlength, fun place a b ha hb => ?_⟩
            cases place with
            | zero =>
                obtain rfl := Option.some.inj ha
                obtain rfl := Option.some.inj hb
                exact hfirst
            | succ place => exact hitems place a b ha hb
          · rintro ⟨hlength, hitems⟩
            exact ⟨hitems 0 item first rfl rfl, hlength, fun place => hitems (place + 1)⟩

theorem equalFields_iff {fields others : List (String × Document)} :
    equalFields fields others = true ↔
      ∀ key value, (key, value) ∈ fields →
        ∃ found, Keyed.find? others key = some found ∧ value.equal found = true := by
  have hcons : ∀ key value rest, equalFields ((key, value) :: rest) others =
      ((Keyed.find? others key).any (equal value) && equalFields rest others) := by
    intro key value rest
    rw [equalFields]
    cases Keyed.find? others key <;> rfl
  exact Keyed.all_found_iff (equalFields · others) rfl hcons

/-- Objects are equal if they have the same keys, and equal values under each. -/
theorem equal_object_iff {fields others : List (String × Document)}
    (hfields : Keyed.Ordered fields) (hothers : Keyed.Ordered others) :
    (object fields).equal (.object others) = true ↔
      (∀ key, key ∈ Keyed.keys fields ↔ key ∈ Keyed.keys others) ∧
        ∀ key a b, Keyed.find? fields key = some a → Keyed.find? others key = some b →
          a.equal b = true := by
  rw [equal, Bool.and_eq_true, beq_iff_eq, equalFields_iff, hfields.sameKeys_iff hothers]
  constructor
  · rintro ⟨hlength, hfound⟩
    refine ⟨⟨hlength, fun key hkey => ?_⟩, fun key a b ha hb => ?_⟩
    · obtain ⟨a, ha⟩ := Keyed.mem_keys_iff.1 hkey
      obtain ⟨b, hb, -⟩ := hfound key a (Keyed.mem_of_find? ha)
      exact Keyed.mem_keys_iff.2 ⟨b, hb⟩
    · obtain ⟨found, hfind, hequal⟩ := hfound key a (Keyed.mem_of_find? ha)
      obtain rfl := Option.some.inj (hb.symm.trans hfind)
      exact hequal
  · rintro ⟨⟨hlength, hkeys⟩, hvalues⟩
    refine ⟨hlength, fun key a hmem => ?_⟩
    obtain ⟨b, hb⟩ := Keyed.mem_keys_iff.1 (hkeys key (Keyed.mem_keys_of_mem hmem))
    exact ⟨b, hb, hvalues key a b (hfields.find?_of_mem hmem) hb⟩

theorem kind_eq_of_equal {first second : Document} (h : first.equal second = true) :
    first.kind = second.kind := by
  cases first <;> cases second <;> first | rfl | simp [equal] at h

theorem Alike.kind_eq {related : Number → Number → Prop} {first second : Document}
    (h : Alike related first second) : first.kind = second.kind := by
  cases h <;> rfl

/-- Documents are equal if their numbers are no different words and are rounded to the
same. -/
theorem equal_iff_alike {first second : Document} (hfirst : first.Ordered)
    (hsecond : second.Ordered) :
    first.equal second = true ↔
      Alike (fun x y => x.WordsAgree y ∧ x.SameRounded y) first second := by
  have hkinds : ∀ {a b : Document}, a.kind ≠ b.kind →
      (a.equal b = true ↔ Alike (fun x y => x.WordsAgree y ∧ x.SameRounded y) a b) := fun hkind =>
    iff_of_false (fun h => hkind (kind_eq_of_equal h)) fun h => hkind h.kind_eq
  induction first generalizing second with
  | null =>
      cases second with
      | null => exact iff_of_true (by rw [equal]) .null
      | _ => exact hkinds nofun
  | boolean value =>
      cases second with
      | boolean other =>
          rw [equal, beq_iff_eq]
          refine ⟨fun h => h ▸ .boolean value, fun h => ?_⟩
          cases h
          rfl
      | _ => exact hkinds nofun
  | number x =>
      cases second with
      | number y =>
          rw [equal, alike_number, Number.equal_iff]
      | _ => exact hkinds nofun
  | string value =>
      cases second with
      | string other =>
          rw [equal, beq_iff_eq]
          refine ⟨fun h => h ▸ .string value, fun h => ?_⟩
          cases h
          rfl
      | _ => exact hkinds nofun
  | array items ih =>
      cases second with
      | array others =>
          rw [equal, equalItems_iff, alike_array]
          refine and_congr_right fun _ => forall₃_congr fun place a b => ?_
          refine forall₂_congr fun ha hb => ?_
          have hmem := List.mem_of_getElem? ha
          exact ih a hmem (orderedItems_iff.1 hfirst a hmem)
            (orderedItems_iff.1 hsecond b (List.mem_of_getElem? hb))
      | _ => exact hkinds nofun
  | object fields ih =>
      cases second with
      | object others =>
          rw [equal_object_iff hfirst.1 hsecond.1, alike_object]
          refine and_congr_right fun _ => forall₃_congr fun key a b => ?_
          refine forall₂_congr fun ha hb => ?_
          have hmem := Keyed.mem_of_find? ha
          exact ih key a hmem (orderedFields_iff.1 hfirst.2 _ hmem)
            (orderedFields_iff.1 hsecond.2 _ (Keyed.mem_of_find? hb))
      | _ => exact hkinds nofun

/-! ## The laws of equality -/

section Laws

variable {first second third : Document} (hfirst : first.Ordered) (hsecond : second.Ordered)
include hfirst

theorem equal_self : first.equal first = true :=
  (equal_iff_alike hfirst hfirst).2
    (.refl (fun x => Number.equal_iff.1 x.equal_self) first)

include hsecond

theorem equal_comm : first.equal second = second.equal first := by
  have hsymm : ∀ x y : Number, x.WordsAgree y ∧ x.SameRounded y →
      y.WordsAgree x ∧ y.SameRounded x := fun x y h => ⟨h.1.symm, h.2.symm⟩
  rw [Bool.eq_iff_iff, equal_iff_alike hfirst hsecond, equal_iff_alike hsecond hfirst]
  exact ⟨.symm hsymm, .symm hsymm⟩

theorem equal_of_sameValue (h : Alike Number.SameValue first second) :
    first.equal second = true :=
  (equal_iff_alike hfirst hsecond).2 (h.mono fun _ _ h => ⟨h.wordsAgree, h.sameRounded⟩)

/-- The values of signed words and of representable numbers are compared exactly. -/
theorem equal_iff_sameValue
    (hnumbers : ∀ x y, first.HasNumber x → second.HasNumber y →
      x.word?.isSome ∧ y.word?.isSome ∨ x.Representable ∧ y.Representable) :
    first.equal second = true ↔ Alike Number.SameValue first second := by
  refine ⟨fun h => ?_, equal_of_sameValue hfirst hsecond⟩
  refine ((equal_iff_alike hfirst hsecond).1 h).imp fun x y hx hy hxy => ?_
  rcases hnumbers x y hx hy with ⟨hxword, hyword⟩ | ⟨hxkept, hykept⟩
  · obtain ⟨a, ha⟩ := Option.isSome_iff_exists.1 hxword
    obtain ⟨b, hb⟩ := Option.isSome_iff_exists.1 hyword
    obtain rfl := hxy.1 a b ha hb
    rw [Number.eq_ofWord_of_word? ha, Number.eq_ofWord_of_word? hb]
    rfl
  · exact (Number.sameRounded_iff hxkept hykept).1 hxy.2

theorem equal_trans_iff (hthird : third.Ordered) (hequal : first.equal second = true)
    (hlater : second.equal third = true) :
    first.equal third = true ↔ Alike Number.WordsAgree first third := by
  have hrounded : Alike Number.SameRounded first third :=
    Alike.trans (fun _ _ _ hxy hyz => hxy.2.trans hyz.2)
      ((equal_iff_alike hfirst hsecond).1 hequal) ((equal_iff_alike hsecond hthird).1 hlater)
  rw [equal_iff_alike hfirst hthird]
  exact ⟨fun h => h.mono fun _ _ => And.left, fun hwords => hwords.and hrounded⟩

end Laws

/-- Equality of documents is reflexive and symmetric, and it holds of documents that have
the same shape, texts and truth values if at each place their numbers are not different
signed words and are rounded to the same.  That includes all documents whose numbers
have the same values, and no others if any two numbers are signed words or else
representable.  It passes on from one document over another to a third just if these
two have no different signed words in the same place. -/
theorem equality_up_to_rounding {first second third : Document} (hfirst : first.Ordered)
    (hsecond : second.Ordered) (hthird : third.Ordered) :
    first.equal first = true ∧ first.equal second = second.equal first ∧
      (first.equal second = true ↔
        Alike (fun x y => x.WordsAgree y ∧ x.SameRounded y) first second) ∧
      (Alike Number.SameValue first second → first.equal second = true) ∧
      ((∀ x y, first.HasNumber x → second.HasNumber y →
          x.word?.isSome ∧ y.word?.isSome ∨ x.Representable ∧ y.Representable) →
        (first.equal second = true ↔ Alike Number.SameValue first second)) ∧
      (first.equal second = true → second.equal third = true →
        (first.equal third = true ↔ Alike Number.WordsAgree first third)) :=
  ⟨equal_self hfirst, equal_comm hfirst hsecond, equal_iff_alike hfirst hsecond,
    equal_of_sameValue hfirst hsecond, equal_iff_sameValue hfirst hsecond,
    equal_trans_iff hfirst hsecond hthird⟩

/-- A whole number and the real number of the same value, below a key. -/
theorem equality_up_to_rounding_one :
    let one : Number := .whole 1 (by decide)
    let real : Number := .real ⟨false, 1 * Binary64.one, Binary64.onGrid_mul_one (by decide)⟩
    let below (x : Number) : Document := .object [("a", .array [.null, .number x])]
    (∀ x, (below x).Ordered) ∧ one.SameValue real ∧
      (below one).equal (below real) = true ∧ (below real).equal (below one) = true := by
  intro one real below
  have hordered : ∀ x, (below x).Ordered := fun x => by
    simp [below, Document.Ordered, OrderedFields, OrderedItems, Keyed.Ordered]
  have hvalue : one.SameValue real := by
    refine (Binary64.exact_eq_intCast.2 ?_).symm
    exact Int.natCast_mul 1 Binary64.one
  have halike : Alike Number.SameValue (below one) (below real) := by
    refine .object (fun _ => Iff.rfl) fun key a b ha hb => ?_
    obtain rfl : "a" = key := by
      by_contra hkey
      simp [Keyed.find?, hkey] at ha
    obtain rfl := Option.some.inj ha
    obtain rfl := Option.some.inj hb
    refine .array rfl fun place a b ha hb => ?_
    rcases place with _ | _ | place
    · obtain rfl := Option.some.inj ha
      obtain rfl := Option.some.inj hb
      exact .null
    · obtain rfl := Option.some.inj ha
      obtain rfl := Option.some.inj hb
      exact .number hvalue
    · cases ha
  obtain ⟨-, hcomm, -, hequal, -, -⟩ :=
    equality_up_to_rounding (hordered one) (hordered real) (hordered one)
  exact ⟨hordered, hvalue, hequal halike, hcomm ▸ hequal halike⟩

/-- The next whole number behind `2 ^ 53` equals the real number `2 ^ 53`, which equals
the whole number `2 ^ 53`, but the two whole numbers are not equal; and the largest
signed word equals the next whole number. -/
theorem equal_of_other_value :
    let whole : Document := .number (.whole 9007199254740992 (by decide))
    let next : Document := .number (.whole 9007199254740993 (by decide))
    let real : Document :=
      .number (.real ⟨false, 2 ^ 53 * Binary64.one, Binary64.onGrid_mul_one (by decide)⟩)
    let word : Document := .number (.whole 9223372036854775807 (by decide))
    let behind : Document := .number (.whole 9223372036854775808 (by decide))
    (next.equal real = true ∧ real.equal whole = true ∧ next.equal whole = false ∧
        ¬ Alike Number.SameValue next real) ∧
      word.equal behind = true ∧ ¬ Alike Number.SameValue word behind := by
  intro whole next real word behind
  refine ⟨⟨by decide +kernel, by decide +kernel, by decide +kernel, ?_⟩, by decide +kernel, ?_⟩
  · intro h
    have hvalue := Binary64.exact_eq_intCast.1 (Eq.symm (alike_number.1 h))
    have hpos := Binary64.one_pos
    simp only [Binary64.value] at hvalue
    push_cast at hvalue
    generalize Binary64.one = one at hvalue hpos
    omega
  · intro h
    exact absurd (Rat.intCast_inj.1 (alike_number.1 h)) (by decide)

end JsonbAlgebra.Document
