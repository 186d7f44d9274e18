import JsonbAlgebra.Proofs.KeyedOrder
import Mathlib.Data.List.Dedup
import Mathlib.Data.List.Perm.Subperm

/-!
# Keyed lists by their lookups

A keyed list in order is determined by what is found under each key.  Inserting and
merging keep the order.  What is merged into a list may have the same key more than
once: the last entry for a key counts, and a key without an entry keeps its value.  So
a merge of ordered lists has under a key the value of the second list, or else that of
the first, and merging is associative.
-/

namespace JsonbAlgebra.Keyed

variable {α : Type} {fields others : Keyed α} {key : String} {value : α}

/-- A check that looks every entry of one list up in another. -/
theorem all_found_iff {test : α → α → Bool} (check : Keyed α → Bool) (hnil : check [] = true)
    (hcons : ∀ key value rest,
      check ((key, value) :: rest) = ((others.find? key).any (test value) && check rest)) :
    check fields = true ↔
      ∀ key value, (key, value) ∈ fields →
        ∃ found, others.find? key = some found ∧ test value found = true := by
  induction fields with
  | nil => simp [hnil]
  | cons entry rest ih =>
      obtain ⟨key, value⟩ := entry
      rw [hcons, Bool.and_eq_true, ih, Option.any_eq_true]
      constructor
      · rintro ⟨hvalue, hothers⟩ name other hmem
        rcases List.mem_cons.1 hmem with heq | hmem
        · cases heq
          exact hvalue
        · exact hothers name other hmem
      · intro h
        exact ⟨h key value List.mem_cons_self,
          fun name other hmem => h name other (List.mem_cons_of_mem _ hmem)⟩

/-! ## Keys -/

theorem mem_keys_iff : key ∈ fields.keys ↔ ∃ value, fields.find? key = some value := by
  induction fields with
  | nil => simp [keys]
  | cons entry rest ih =>
      obtain ⟨name, first⟩ := entry
      by_cases hname : name = key
      · simp [keys, find?, hname]
      · have hrest : key ∈ keys ((name, first) :: rest) ↔ key ∈ keys rest := by
          simp [keys, Ne.symm hname]
        rw [hrest, ih, find?, if_neg hname]

theorem mem_keys_of_mem (h : (key, value) ∈ fields) : key ∈ fields.keys :=
  List.mem_map_of_mem h

theorem Ordered.find?_of_mem (hordered : Ordered fields) (h : (key, value) ∈ fields) :
    fields.find? key = some value := by
  induction fields with
  | nil => cases h
  | cons entry rest ih =>
      rcases List.mem_cons.1 h with rfl | hmem
      · rw [find?, if_pos rfl]
      · obtain ⟨name, first⟩ := entry
        have hbefore : name < key := (List.pairwise_cons.1 hordered).1 _ hmem
        rw [find?, if_neg hbefore.ne, ih hordered.of_cons hmem]

theorem Ordered.nodup_keys (hordered : Ordered fields) : fields.keys.Nodup :=
  List.pairwise_map.2 (hordered.imp fun h => h.ne)

/-- As many keys, each of them among the others, are the same keys. -/
theorem Ordered.sameKeys_iff (hfields : Ordered fields) (hothers : Ordered others) :
    (∀ key, key ∈ fields.keys ↔ key ∈ others.keys) ↔
      fields.length = others.length ∧ ∀ key ∈ fields.keys, key ∈ others.keys := by
  have hlength : ∀ list : Keyed α, list.keys.length = list.length := fun list => by simp [keys]
  constructor
  · intro h
    have hperm := (List.perm_ext_iff_of_nodup hfields.nodup_keys hothers.nodup_keys).2 h
    rw [← hlength, ← hlength]
    exact ⟨hperm.length_eq, fun key => (h key).1⟩
  · rintro ⟨hsize, hsubset⟩
    have hsubperm := List.subperm_of_subset hfields.nodup_keys hsubset
    have hperm := hsubperm.perm_of_length_le (by rw [hlength, hlength, hsize])
    exact fun key => hperm.mem_iff

/-! ## Extensionality -/

theorem Ordered.ext (hfields : Ordered fields) (hothers : Ordered others)
    (h : ∀ key, fields.find? key = others.find? key) : fields = others := by
  induction fields generalizing others with
  | nil =>
      cases others with
      | nil => rfl
      | cons other behind =>
          have hfront := h other.1
          simp [find?] at hfront
  | cons entry rest ih =>
      obtain ⟨name, first⟩ := entry
      cases others with
      | nil =>
          have hfront := h name
          simp [find?] at hfront
      | cons other behind =>
          obtain ⟨otherName, second⟩ := other
          have hname : name = otherName := by
            -- Otherwise each of the two keys in front stands behind the other.
            by_contra hne
            have hfirst := h name
            have hsecond := h otherName
            rw [find?, if_pos rfl, find?, if_neg (Ne.symm hne)] at hfirst
            rw [find?, if_neg hne, find?, if_pos rfl] at hsecond
            exact lt_asymm (hothers.lt_of_find? hfirst.symm) (hfields.lt_of_find? hsecond)
          subst hname
          have hvalue : first = second := by simpa [find?] using h name
          have hrest : rest = behind := by
            refine ih hfields.of_cons hothers.of_cons fun key => ?_
            by_cases hkey : name = key
            · subst hkey
              rw [hfields.find?_rest (lt_irrefl name), hothers.find?_rest (lt_irrefl name)]
            · simpa [find?, hkey] using h key
          rw [hvalue, hrest]

/-! ## Merging -/

theorem mem_of_mem_insert {entry : String × α} (h : entry ∈ fields.insert key value) :
    entry = (key, value) ∨ entry ∈ fields := by
  induction fields with
  | nil => exact .inl (List.mem_singleton.1 h)
  | cons first rest ih =>
      obtain ⟨name, old⟩ := first
      rw [insert] at h
      split at h
      · exact (List.mem_cons.1 h).imp_right (List.mem_cons_of_mem _)
      · split at h
        · exact List.mem_cons.1 h
        · rcases List.mem_cons.1 h with rfl | hmem
          · exact .inr List.mem_cons_self
          · exact (ih hmem).imp_right (List.mem_cons_of_mem _)

theorem Ordered.insert (hordered : Ordered fields) (key : String) (value : α) :
    Ordered (fields.insert key value) := by
  induction fields with
  | nil => exact List.pairwise_singleton _ _
  | cons entry rest ih =>
      obtain ⟨name, old⟩ := entry
      obtain ⟨hbehind, hrest⟩ := List.pairwise_cons.1 hordered
      by_cases hname : name = key
      · rw [Keyed.insert, if_pos hname]
        exact List.pairwise_cons.2 ⟨fun entry hmem => hname ▸ hbehind entry hmem, hrest⟩
      · by_cases hbefore : key < name
        · rw [Keyed.insert, if_neg hname, if_pos hbefore]
          refine List.pairwise_cons.2 ⟨fun entry hmem => ?_, hordered⟩
          rcases List.mem_cons.1 hmem with rfl | hmem
          · exact hbefore
          · exact lt_trans hbefore (hbehind entry hmem)
        · rw [Keyed.insert, if_neg hname, if_neg hbefore]
          refine List.pairwise_cons.2 ⟨fun entry hmem => ?_, ih hrest⟩
          rcases mem_of_mem_insert hmem with rfl | hmem
          · exact lt_of_le_of_ne (not_lt.1 hbefore) hname
          · exact hbehind entry hmem

theorem Ordered.merge (hordered : Ordered fields) (extra : Keyed α) :
    Ordered (fields.merge extra) := by
  induction extra generalizing fields with
  | nil => exact hordered
  | cons entry rest ih => exact ih (hordered.insert entry.1 entry.2)

/-! ## Entries with repeated keys -/

/-- The value of the last entry for a key, in a list that need not be in order. -/
def last? (entries : List (String × α)) (key : String) : Option α :=
  (entries.findRev? fun entry => entry.1 = key).map Prod.snd

theorem last?_cons (entry : String × α) (rest : List (String × α)) (key : String) :
    last? (entry :: rest) key =
      (last? rest key).or (if entry.1 = key then some entry.2 else none) := by
  rw [last?, last?, List.findRev?]
  cases rest.findRev? fun entry => entry.1 = key with
  | some other => rfl
  | none => by_cases hkey : entry.1 = key <;> simp [hkey]

theorem last?_isSome_iff {entries : List (String × α)} :
    (last? entries key).isSome = true ↔ key ∈ entries.map Prod.fst := by
  induction entries with
  | nil => simp [last?]
  | cons entry rest ih =>
      rw [last?_cons, Option.isSome_or, Bool.or_eq_true, ih, List.map_cons, List.mem_cons,
        or_comm]
      by_cases hkey : entry.1 = key
      · simp [hkey]
      · simp [hkey, Ne.symm hkey]

theorem last?_eq_none {entries : List (String × α)} (h : key ∉ entries.map Prod.fst) :
    last? entries key = none := by
  rwa [← last?_isSome_iff, Bool.not_eq_true, Option.isSome_eq_false_iff, Option.isNone_iff_eq_none]
    at h

/-- In an ordered list the last entry for a key is the only one. -/
theorem Ordered.last?_eq_find? (hordered : Ordered fields) (key : String) :
    last? fields key = fields.find? key := by
  induction fields with
  | nil => rfl
  | cons entry rest ih =>
      obtain ⟨name, value⟩ := entry
      rw [last?_cons, ih hordered.of_cons, find?]
      by_cases hname : name = key
      · subst hname
        rw [hordered.find?_rest (lt_irrefl name), Option.none_or, if_pos rfl]
      · rw [if_neg hname, if_neg hname, Option.or_none]

theorem find?_merge_last (fields : Keyed α) (entries : List (String × α)) (key : String) :
    (fields.merge entries).find? key = (last? entries key).or (fields.find? key) := by
  induction entries generalizing fields with
  | nil => rfl
  | cons entry rest ih =>
      have hmerge : fields.merge (entry :: rest) = (fields.insert entry.1 entry.2).merge rest := rfl
      rw [hmerge, ih, last?_cons, Option.or_assoc]
      by_cases hkey : entry.1 = key
      · rw [if_pos hkey, ← hkey, find?_insert_self, Option.some_or]
      · rw [if_neg hkey, find?_insert_ne _ _ (Ne.symm hkey), Option.none_or]

theorem mem_keys_merge {entries : List (String × α)} :
    key ∈ (fields.merge entries).keys ↔ key ∈ entries.map Prod.fst ∨ key ∈ fields.keys := by
  simp only [mem_keys_iff, ← Option.isSome_iff_exists, find?_merge_last, Option.isSome_or,
    Bool.or_eq_true, last?_isSome_iff]

theorem ordered_ofList (pairs : List (String × α)) : Ordered (ofList pairs) :=
  (show Ordered [] from List.Pairwise.nil).merge pairs

theorem Ordered.length_merge (hordered : Ordered fields) (entries : List (String × α)) :
    (fields.merge entries).length = (fields.keys ++ entries.map Prod.fst).dedup.length := by
  have hperm : (fields.merge entries).keys.Perm (fields.keys ++ entries.map Prod.fst).dedup := by
    refine (List.perm_ext_iff_of_nodup (hordered.merge entries).nodup_keys
      (List.nodup_dedup _)).2 fun key => ?_
    rw [mem_keys_merge, List.mem_dedup, List.mem_append, or_comm]
  rw [← hperm.length_eq, keys, List.length_map]

/-! ## Merging ordered lists -/

/-- What a merge holds under a key: the later value, if there is one. -/
theorem find?_merge {extra : Keyed α} (hextra : Ordered extra) (fields : Keyed α) (key : String) :
    (fields.merge extra).find? key = (extra.find? key).or (fields.find? key) := by
  rw [find?_merge_last, hextra.last?_eq_find?]

theorem merge_assoc {first second third : Keyed α} (hfirst : Ordered first)
    (hsecond : Ordered second) (hthird : Ordered third) :
    (first.merge second).merge third = first.merge (second.merge third) := by
  refine ((hfirst.merge second).merge third).ext (hfirst.merge _) fun key => ?_
  rw [find?_merge hthird, find?_merge hsecond, find?_merge (hsecond.merge third),
    find?_merge hthird, Option.or_assoc]

end JsonbAlgebra.Keyed
