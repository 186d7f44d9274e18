import JsonbAlgebra.Keyed
import Mathlib.Data.String.Basic

/-!
# Keyed lists in order

In a keyed list whose keys ascend every key has one place, which is also the
place where an insertion puts it.  Inserting what is there changes nothing, and
an insertion leaves no trace once its key is erased.
-/

namespace JsonbAlgebra.Keyed

variable {α : Type} {fields : Keyed α} {key : String} {value : α}

theorem mem_of_find? (h : fields.find? key = some value) : (key, value) ∈ fields := by
  induction fields with
  | nil => cases h
  | cons entry rest ih =>
      obtain ⟨name, first⟩ := entry
      rw [find?] at h
      split at h
      · rename_i hname
        rw [hname, Option.some.inj h]
        exact List.mem_cons_self
      · exact List.mem_cons_of_mem _ (ih h)

theorem erase_of_find?_eq_none (h : fields.find? key = none) : fields.erase key = fields := by
  induction fields with
  | nil => rfl
  | cons entry rest ih =>
      obtain ⟨name, first⟩ := entry
      rw [find?] at h
      split at h
      · cases h
      · rename_i hname
        rw [erase, if_neg hname, ih h]

theorem insert_insert (fields : Keyed α) (key : String) (first second : α) :
    (fields.insert key first).insert key second = fields.insert key second := by
  induction fields with
  | nil => simp [insert]
  | cons entry rest ih =>
      obtain ⟨name, old⟩ := entry
      by_cases hname : name = key
      · simp [insert, hname]
      · by_cases hbefore : key < name
        · simp [insert, hname, hbefore]
        · simp [insert, hname, hbefore, ih]

/-! ## Different keys -/

theorem insert_comm (fields : Keyed α) {key other : String} (first second : α)
    (h : key ≠ other) :
    (fields.insert key first).insert other second =
      (fields.insert other second).insert key first := by
  induction fields with
  | nil =>
      rcases lt_or_gt_of_ne h with hlt | hlt <;>
        simp [insert, h, h.symm, hlt, lt_asymm hlt]
  | cons entry rest ih =>
      obtain ⟨name, old⟩ := entry
      by_cases hkey : name = key
      · subst hkey
        by_cases hbefore : other < name
        · simp [insert, h, h.symm, hbefore, lt_asymm hbefore]
        · simp [insert, h, hbefore]
      · by_cases hother : name = other
        · subst hother
          by_cases hbefore : key < name
          · simp [insert, h, h.symm, hbefore, lt_asymm hbefore]
          · simp [insert, hkey, hbefore]
        · by_cases hfirst : key < name <;> by_cases hsecond : other < name
          · rcases lt_or_gt_of_ne h with hlt | hlt <;>
              simp [insert, hkey, hother, h, h.symm, hfirst, hsecond, hlt, lt_asymm hlt]
          · have hlt : key < other := lt_of_lt_of_le hfirst (not_lt.1 hsecond)
            simp [insert, hkey, hother, h, hfirst, hsecond, lt_asymm hlt]
          · have hlt : other < key := lt_of_lt_of_le hsecond (not_lt.1 hfirst)
            simp [insert, hkey, hother, h.symm, hfirst, hsecond, lt_asymm hlt]
          · simp [insert, hkey, hother, hfirst, hsecond, ih]

theorem find?_erase_ne (fields : Keyed α) {key other : String} (h : other ≠ key) :
    (fields.erase key).find? other = fields.find? other := by
  induction fields with
  | nil => rfl
  | cons entry rest ih =>
      obtain ⟨name, old⟩ := entry
      by_cases hname : name = key
      · subst hname
        simp [erase, find?, h.symm]
      · simp [erase, find?, hname, ih]

/-! ## Ascending keys -/

/-- A key behind the first one of an ordered list is greater. -/
theorem Ordered.lt_of_find? {entry : String × α} {rest : Keyed α}
    (hordered : Ordered (entry :: rest)) (h : rest.find? key = some value) : entry.1 < key :=
  (List.pairwise_cons.1 hordered).1 _ (mem_of_find? h)

theorem Ordered.find?_rest {entry : String × α} {rest : Keyed α}
    (hordered : Ordered (entry :: rest)) (hkey : ¬ entry.1 < key) : rest.find? key = none := by
  cases hfind : rest.find? key with
  | none => rfl
  | some value => exact absurd (hordered.lt_of_find? hfind) hkey

theorem Ordered.insert_of_find? (hordered : Ordered fields) (h : fields.find? key = some value) :
    fields.insert key value = fields := by
  induction fields with
  | nil => cases h
  | cons entry rest ih =>
      obtain ⟨name, first⟩ := entry
      by_cases hname : name = key
      · rw [find?, if_pos hname] at h
        rw [insert, if_pos hname, hname, Option.some.inj h]
      · rw [find?, if_neg hname] at h
        have hbefore : name < key := hordered.lt_of_find? h
        rw [insert, if_neg hname, if_neg (lt_asymm hbefore), ih hordered.of_cons h]

theorem Ordered.find?_erase_self (hordered : Ordered fields) (key : String) :
    (fields.erase key).find? key = none := by
  induction fields with
  | nil => rfl
  | cons entry rest ih =>
      obtain ⟨name, first⟩ := entry
      by_cases hname : name = key
      · rw [erase, if_pos hname]
        exact hordered.find?_rest (by rw [hname]; exact lt_irrefl key)
      · rw [erase, if_neg hname, find?, if_neg hname, ih hordered.of_cons]

theorem Ordered.erase_insert (hordered : Ordered fields) (key : String) (value : α) :
    (fields.insert key value).erase key = fields.erase key := by
  induction fields with
  | nil => simp [insert, erase]
  | cons entry rest ih =>
      obtain ⟨name, old⟩ := entry
      by_cases hname : name = key
      · simp [insert, erase, hname]
      · by_cases hbefore : key < name
        · have hrest : erase rest key = rest :=
            erase_of_find?_eq_none (hordered.find?_rest (lt_asymm hbefore))
          simp [insert, erase, hname, hbefore, hrest]
        · simp [insert, erase, hname, hbefore, ih hordered.of_cons]

end JsonbAlgebra.Keyed
