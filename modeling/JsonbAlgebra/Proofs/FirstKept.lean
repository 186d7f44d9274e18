import Mathlib.Data.List.Forall2
import Mathlib.Data.List.Nodup

/-!
# Keeping first occurrences

A keyed list of an update grows at its end by elements that nothing in it
repeats.  Adding one element after another this way keeps the first of each
kind in the order of the first occurrences.
-/

namespace JsonbAlgebra

/-- The elements with one more at the end, unless it repeats one of them. -/
def addNew {α : Type} (repeats : α → α → Bool) (kept : List α) (a : α) : List α :=
  if kept.any (repeats a) then kept else kept ++ [a]

theorem foldl_addNew {α : Type} {repeats : α → α → Bool} (added kept : List α) :
    added.foldl (addNew repeats) kept =
      kept ++ (added.filter fun a => !kept.any (repeats a)).eraseDupsBy repeats := by
  induction added generalizing kept with
  | nil => simp
  | cons a added ih =>
      rw [List.foldl_cons, ih, addNew]
      cases hkept : kept.any (repeats a) with
      | true => simp [hkept]
      | false =>
          have hrest :
              (added.filter fun b => !(kept ++ [a]).any (repeats b)) =
                (added.filter fun b => !kept.any (repeats b)).filter
                  fun b => repeats b a = false := by
            rw [List.filter_filter]
            apply List.filter_congr
            intro b _
            simp [Bool.and_comm]
          rw [List.filter_cons_of_pos (by simp [hkept]), List.eraseDupsBy_cons, ← hrest]
          simp

theorem foldl_addNew_nil {α : Type} {repeats : α → α → Bool} (added : List α) :
    added.foldl (addNew repeats) [] = added.eraseDupsBy repeats := by
  simp [foldl_addNew]

theorem head?_eraseDupsBy {α : Type} {repeats : α → α → Bool} (as : List α) :
    (as.eraseDupsBy repeats).head? = as.head? := by
  cases as with
  | nil => rfl
  | cons a as => rw [List.eraseDupsBy_cons, List.head?_cons, List.head?_cons]

theorem eraseDupsBy_eq_nil {α : Type} {repeats : α → α → Bool} {as : List α} :
    as.eraseDupsBy repeats = [] ↔ as = [] := by
  rw [← List.head?_eq_none_iff, head?_eraseDupsBy, List.head?_eq_none_iff]

theorem mem_of_mem_foldl_addNew {α : Type} {repeats : α → α → Bool} {added kept : List α}
    {a : α} (h : a ∈ added.foldl (addNew repeats) kept) : a ∈ kept ∨ a ∈ added := by
  induction added generalizing kept with
  | nil => exact .inl h
  | cons b added ih =>
      have hstep : a ∈ addNew repeats kept b ∨ a ∈ added := ih h
      rw [addNew] at hstep
      split at hstep
      · exact hstep.imp_right (List.mem_cons_of_mem b)
      · rw [List.mem_append, List.mem_singleton] at hstep
        rcases hstep with (hkept | rfl) | hadded
        · exact .inl hkept
        · exact .inr List.mem_cons_self
        · exact .inr (List.mem_cons_of_mem b hadded)

/-- Elements that repeat each other answer alike, so the first answer is found
among the kept elements as well. -/
theorem findSome?_foldl_addNew {α β : Type} {repeats : α → α → Bool} {f : α → Option β}
    (hf : ∀ a b, repeats a b = true → f a = f b) (added kept : List α) :
    (added.foldl (addNew repeats) kept).findSome? f = (kept ++ added).findSome? f := by
  induction added generalizing kept with
  | nil => simp
  | cons a added ih =>
      rw [List.foldl_cons, ih, addNew]
      by_cases hkept : kept.any (repeats a) = true
      · obtain ⟨b, hb, hab⟩ := List.any_eq_true.1 hkept
        rw [if_pos hkept, List.findSome?_append, List.findSome?_append, List.findSome?_cons]
        cases hfirst : kept.findSome? f with
        | some answer => rfl
        | none =>
            have hnone : f a = none :=
              (hf a b hab).trans (List.findSome?_eq_none_iff.1 hfirst b hb)
            rw [hnone]
      · rw [if_neg hkept, List.append_assoc, List.singleton_append]

/-- Elements that repeat each other are chosen together, so that choosing
before or after an addition makes no difference. -/
theorem filter_addNew {α : Type} {repeats within : α → α → Bool} {chosen : α → Bool}
    (hchosen : ∀ a b, repeats a b = true → chosen a = chosen b)
    (hwithin : ∀ a b, chosen a = true → chosen b = true → repeats a b = within a b)
    (kept : List α) (a : α) :
    (addNew repeats kept a).filter chosen =
      if chosen a then addNew within (kept.filter chosen) a else kept.filter chosen := by
  have hany (hself : chosen a = true) :
      (kept.filter chosen).any (within a) = kept.any (repeats a) := by
    rw [List.any_filter, Bool.eq_iff_iff, List.any_eq_true, List.any_eq_true]
    refine exists_congr fun b => and_congr_right fun _ => ?_
    rw [Bool.and_eq_true]
    constructor
    · rintro ⟨hb, hab⟩
      rw [hwithin a b hself hb]
      exact hab
    · intro hab
      have hb : chosen b = true := (hchosen a b hab).symm.trans hself
      exact ⟨hb, (hwithin a b hself hb).symm.trans hab⟩
  cases hself : chosen a with
  | false =>
      rw [addNew, if_neg Bool.false_ne_true]
      split <;> simp [hself]
  | true =>
      rw [if_pos rfl, addNew, addNew, hany hself]
      split <;> simp [hself]

theorem filter_foldl_addNew {α : Type} {repeats within : α → α → Bool} {chosen : α → Bool}
    (hchosen : ∀ a b, repeats a b = true → chosen a = chosen b)
    (hwithin : ∀ a b, chosen a = true → chosen b = true → repeats a b = within a b)
    (added kept : List α) :
    (added.foldl (addNew repeats) kept).filter chosen =
      (added.filter chosen).foldl (addNew within) (kept.filter chosen) := by
  induction added generalizing kept with
  | nil => rfl
  | cons a added ih =>
      rw [List.foldl_cons, ih, filter_addNew hchosen hwithin]
      cases hself : chosen a with
      | false => rw [if_neg Bool.false_ne_true, List.filter_cons_of_neg (by simp [hself])]
      | true => rw [if_pos rfl, List.filter_cons_of_pos hself, List.foldl_cons]

section Related

variable {α β : Type} {R : α → β → Prop} {repeats : α → α → Bool} {repeats' : β → β → Bool}
  (hrepeats : ∀ a b, R a b → ∀ c d, R c d → repeats a c = repeats' b d)
include hrepeats

/-- Lists that are related element by element stay so if the relation decides
what repeats what. -/
theorem rel_addNew {kept : List α} {kept' : List β} (hkept : List.Forall₂ R kept kept') {a : α}
    {b : β} (h : R a b) : List.Forall₂ R (addNew repeats kept a) (addNew repeats' kept' b) := by
  have hany : kept.any (repeats a) = kept'.any (repeats' b) := by
    induction hkept with
    | nil => rfl
    | cons hfirst _ ih => rw [List.any_cons, List.any_cons, ih, hrepeats a b h _ _ hfirst]
  rw [addNew, addNew, hany]
  split
  · exact hkept
  · exact List.rel_append hkept (.cons h .nil)

theorem rel_eraseDupsBy {as : List α} {bs : List β} (h : List.Forall₂ R as bs) :
    List.Forall₂ R (as.eraseDupsBy repeats) (bs.eraseDupsBy repeats') := by
  rw [← foldl_addNew_nil, ← foldl_addNew_nil]
  refine List.rel_foldl (P := List.Forall₂ R) (R := R) ?_ .nil h
  intro kept kept' hkept a b hab
  exact rel_addNew hrepeats hkept hab

end Related

section Lawful

variable {α : Type} [BEq α] [LawfulBEq α]

theorem addNew_of_mem {kept : List α} {a : α} (h : a ∈ kept) :
    addNew (· == ·) kept a = kept :=
  if_pos (List.any_eq_true.2 ⟨a, h, beq_self_eq_true a⟩)

theorem addNew_of_not_mem {kept : List α} {a : α} (h : a ∉ kept) :
    addNew (· == ·) kept a = kept ++ [a] := by
  refine if_neg fun hany => h ?_
  obtain ⟨b, hb, heq⟩ := List.any_eq_true.1 hany
  rw [eq_of_beq heq]
  exact hb

theorem addNew_cons_of_ne {kept : List α} {a b : α} (h : b ≠ a) :
    addNew (· == ·) (b :: kept) a = b :: addNew (· == ·) kept a := by
  by_cases hmem : a ∈ kept
  · rw [addNew_of_mem hmem, addNew_of_mem (List.mem_cons_of_mem b hmem)]
  · have hmem' : a ∉ b :: kept := by
      simp [hmem, h.symm]
    rw [addNew_of_not_mem hmem, addNew_of_not_mem hmem', List.cons_append]

theorem nodup_addNew {kept : List α} (h : kept.Nodup) (a : α) :
    (addNew (· == ·) kept a).Nodup := by
  by_cases hmem : a ∈ kept
  · rw [addNew_of_mem hmem]
    exact h
  · rw [addNew_of_not_mem hmem]
    rw [← List.concat_eq_append]
    exact h.concat hmem

theorem nodup_foldl_addNew (added : List α) {kept : List α} (h : kept.Nodup) :
    (added.foldl (addNew (· == ·)) kept).Nodup := by
  induction added generalizing kept with
  | nil => exact h
  | cons a added ih => exact ih (nodup_addNew h a)

theorem mem_addNew {kept : List α} {a b : α} :
    a ∈ addNew (· == ·) kept b ↔ a ∈ kept ∨ a = b := by
  by_cases hmem : b ∈ kept
  · rw [addNew_of_mem hmem]
    constructor
    · exact .inl
    · rintro (hkept | rfl)
      · exact hkept
      · exact hmem
  · rw [addNew_of_not_mem hmem, List.mem_append, List.mem_singleton]

theorem mem_foldl_addNew {added kept : List α} {a : α} :
    a ∈ added.foldl (addNew (· == ·)) kept ↔ a ∈ kept ∨ a ∈ added := by
  induction added generalizing kept with
  | nil => simp
  | cons b added ih => rw [List.foldl_cons, ih, mem_addNew, List.mem_cons, or_assoc]

/-- Elements that repeat each other have one image, so that the images of
the kept elements are the images of all in the order of first occurrences. -/
theorem foldl_addNew_map {β : Type} {repeats : β → β → Bool} {f : β → α}
    (hf : ∀ a b, repeats a b = true → f a = f b) (added kept : List β) (start : List α) :
    ((added.foldl (addNew repeats) kept).map f).foldl (addNew (· == ·)) start =
      (added.map f).foldl (addNew (· == ·)) ((kept.map f).foldl (addNew (· == ·)) start) := by
  induction added generalizing kept with
  | nil => rfl
  | cons a added ih =>
      rw [List.foldl_cons, ih, List.map_cons, List.foldl_cons]
      congr 1
      rw [addNew]
      by_cases hkept : kept.any (repeats a) = true
      · obtain ⟨b, hb, hab⟩ := List.any_eq_true.1 hkept
        have hmem : f a ∈ kept.map f := by
          rw [hf a b hab]
          exact List.mem_map_of_mem hb
        rw [if_pos hkept, addNew_of_mem (mem_foldl_addNew.2 (.inr hmem))]
      · rw [if_neg hkept, List.map_append, List.foldl_append, List.map_singleton,
          List.foldl_cons, List.foldl_nil]

theorem foldl_addNew_eq_eraseDups (added kept : List α) [DecidablePred (· ∈ kept)] :
    added.foldl (addNew (· == ·)) kept =
      kept ++ (added.filter fun a => a ∉ kept).eraseDups := by
  rw [foldl_addNew, List.eraseDups]
  congr 2
  apply List.filter_congr
  intro a _
  rw [Bool.eq_iff_iff, Bool.not_eq_true', List.any_eq_false, decide_eq_true_iff]
  constructor
  · intro h hmem
    exact h a hmem (beq_self_eq_true a)
  · intro h b hb heq
    exact h (eq_of_beq heq ▸ hb)

end Lawful

end JsonbAlgebra
