import JsonbAlgebra.Proofs.ByteOrder
import JsonbAlgebra.Proofs.KeyedLookups
import JsonbAlgebra.Proofs.Success
import JsonbAlgebra.Settings

/-!
# Names of declared types

A name of a declared type is registered and looked up in lower case, so of all
registrations of a name, in any case of its letters, the last one counts, and a name that
is never registered keeps its standard kind.  The object that registered names are written
as is read back as the same names: it has all standard names in it, and what is read is
registered on top of these.
-/

namespace JsonbAlgebra

/-! ## Lower case -/

theorem Text.toLower_of_isUpper_eq_false {c : Char} (h : c.isUpper = false) : c.toLower = c :=
  dif_neg (of_decide_eq_false h)

theorem Text.isUpper_toLower (c : Char) : c.toLower.isUpper = false := by
  cases hupper : c.isUpper with
  | false => rw [toLower_of_isUpper_eq_false hupper, hupper]
  | true =>
      have hbounds := of_decide_eq_true hupper
      have hlower : c.toLower.val = c.val + 32 := congrArg Char.val (dif_pos hbounds)
      refine decide_eq_false ?_
      rw [hlower]
      simp only [ge_iff_le, UInt32.le_iff_toNat_le, UInt32.toNat_add, Char.reduceVal,
        UInt32.reduceToNat] at hbounds ⊢
      omega

theorem Text.toLower_toLower (text : String) : text.toLower.toLower = text.toLower := by
  have hlower : ∀ text : String, text.toLower.toList = text.toList.map Char.toLower :=
    fun _ => String.toList_map
  rw [← String.toList_inj, hlower, hlower, List.map_map]
  exact List.map_congr_left fun c _ => toLower_of_isUpper_eq_false (isUpper_toLower c)

namespace ColumnKinds

/-- The names differ at most in the case of their letters. -/
def SameName (name other : String) : Prop :=
  name.toLower = other.toLower

instance (name other : String) : Decidable (SameName name other) :=
  inferInstanceAs (Decidable (_ = _))

/-- The kind of the last registration of a name, in any case of its letters. -/
def lastKind? (registrations : List (String × ColumnKind)) (name : String) :
    Option ColumnKind :=
  (registrations.findRev? fun registration => SameName registration.1 name).map Prod.snd

def lowered (registrations : List (String × ColumnKind)) : List (String × ColumnKind) :=
  registrations.map fun registration => (registration.1.toLower, registration.2)

/-! ## Registering -/

theorem entries_registerAll (kinds : ColumnKinds) (registrations : List (String × ColumnKind)) :
    (kinds.registerAll registrations).entries = kinds.entries.merge (lowered registrations) := by
  induction registrations generalizing kinds with
  | nil => rfl
  | cons registration rest ih => exact ih (kinds.register registration.1 registration.2)

theorem last?_lowered (registrations : List (String × ColumnKind)) (name : String) :
    Keyed.last? (lowered registrations) name.toLower = lastKind? registrations name := by
  induction registrations with
  | nil => rfl
  | cons registration rest ih =>
      have hlowered : lowered (registration :: rest) =
          (registration.1.toLower, registration.2) :: lowered rest := rfl
      rw [hlowered, Keyed.last?_cons, ih, lastKind?, lastKind?, List.findRev?]
      cases rest.findRev? fun registration => SameName registration.1 name with
      | some other => rfl
      | none =>
          by_cases hname : registration.1.toLower = name.toLower <;> simp [SameName, hname]

theorem find?_registerAll (kinds : ColumnKinds) (registrations : List (String × ColumnKind))
    (name : String) :
    (kinds.registerAll registrations).entries.find? name.toLower =
      (lastKind? registrations name).or (kinds.entries.find? name.toLower) := by
  rw [entries_registerAll, Keyed.find?_merge_last, last?_lowered]

theorem kindOf_registerAll (kinds : ColumnKinds) (registrations : List (String × ColumnKind))
    (name : String) :
    (kinds.registerAll registrations).kindOf name =
      (lastKind? registrations name).getD (kinds.kindOf name) := by
  rw [kindOf, find?_registerAll, kindOf]
  cases lastKind? registrations name <;> rfl

/-! ## Names in order and in lower case -/

/-- What holds of the names of standard kinds and is kept by every registration. -/
structure Sound (kinds : ColumnKinds) : Prop where
  ordered : kinds.entries.Ordered
  lower : ∀ name ∈ kinds.entries.keys, name.toLower = name
  standard : ∀ name ∈ standard.entries.keys, name ∈ kinds.entries.keys

theorem sound_standard : standard.Sound where
  ordered := Keyed.ordered_ofList _
  lower := by decide +kernel
  standard := fun _ h => h

theorem Sound.registerAll {kinds : ColumnKinds} (h : kinds.Sound)
    (registrations : List (String × ColumnKind)) : (kinds.registerAll registrations).Sound where
  ordered := by
    rw [entries_registerAll]
    exact h.ordered.merge _
  lower := by
    intro name hname
    rw [entries_registerAll, Keyed.mem_keys_merge] at hname
    rcases hname with hregistered | hname
    · rw [lowered, List.map_map, List.mem_map] at hregistered
      obtain ⟨registration, -, rfl⟩ := hregistered
      exact Text.toLower_toLower registration.1
    · exact h.lower name hname
  standard := by
    intro name hname
    rw [entries_registerAll, Keyed.mem_keys_merge]
    exact .inr (h.standard name hname)

theorem lowered_of_lower {kinds : ColumnKinds}
    (h : ∀ name ∈ kinds.entries.keys, name.toLower = name) :
    lowered kinds.entries = kinds.entries := by
  have hentry : ∀ entry ∈ kinds.entries, (entry.1.toLower, entry.2) = entry := by
    rintro ⟨name, kind⟩ hmem
    rw [h name (Keyed.mem_keys_of_mem hmem)]
  exact (List.map_congr_left hentry).trans (List.map_id _)

/-- Registering the entries of sound kinds on top of the standard ones gives them back. -/
theorem Sound.registerAll_entries {kinds : ColumnKinds} (h : kinds.Sound) :
    ColumnKinds.standard.registerAll kinds.entries = kinds := by
  have hentries : (ColumnKinds.standard.registerAll kinds.entries).entries = kinds.entries := by
    rw [entries_registerAll, lowered_of_lower h.lower]
    refine (sound_standard.ordered.merge _).ext h.ordered fun name => ?_
    rw [Keyed.find?_merge h.ordered]
    cases hfound : kinds.entries.find? name with
    | some kind => rfl
    | none =>
        have hmissing : name ∉ ColumnKinds.standard.entries.keys := by
          intro hname
          obtain ⟨kind, hkind⟩ := Keyed.mem_keys_iff.1 (h.standard name hname)
          rw [hfound] at hkind
          cases hkind
        rw [Option.none_or, ← Option.not_isSome_iff_eq_none, Option.isSome_iff_exists,
          ← Keyed.mem_keys_iff]
        exact hmissing
  exact congrArg ColumnKinds.mk hentries

/-! ## Reading -/

theorem named?_name (kind : ColumnKind) : ColumnKind.named? kind.name = some kind := by
  cases kind <;> rfl

/-- A value that a kind can be read from. -/
def Spelled (isEmpty : Document → Bool) (value : Document) (kind : ColumnKind) : Prop :=
  (Settings.readName isEmpty value).bind ColumnKind.named? = some kind

theorem mapM_of_spelled {isEmpty : Document → Bool} {fields : List (String × Document)}
    {entries : List (String × ColumnKind)} {read : String × Document → Option (String × ColumnKind)}
    (hread : ∀ field, read field =
      ((Settings.readName isEmpty field.2).bind ColumnKind.named?).map ((field.1, ·)))
    (h : List.Forall₂ (fun field entry => field.1 = entry.1 ∧ Spelled isEmpty field.2 entry.2)
      fields entries) : fields.mapM read = some entries := by
  induction h with
  | nil => rfl
  | @cons field entry _ _ hfirst _ ih =>
      obtain ⟨hname, hkind⟩ := hfirst
      rw [Spelled] at hkind
      rw [List.mapM_cons, hread, hkind, hname, ih]
      rfl

theorem readKinds_of_spelled {isEmpty : Document → Bool} {fields : List (String × Document)}
    {entries : List (String × ColumnKind)}
    (h : List.Forall₂ (fun field entry => field.1 = entry.1 ∧ Spelled isEmpty field.2 entry.2)
      fields entries) :
    Settings.readKinds isEmpty (.object fields) =
      some (ColumnKinds.standard.registerAll entries) := by
  rw [Settings.readKinds, mapM_of_spelled (fun _ => rfl) h]
  rfl

theorem readKinds_toDocument (isEmpty : Document → Bool) {kinds : ColumnKinds}
    (h : kinds.Sound) : Settings.readKinds isEmpty kinds.toDocument = some kinds := by
  have hspelled : List.Forall₂
      (fun field entry => field.1 = entry.1 ∧ Spelled isEmpty field.2 entry.2)
      (kinds.entries.map fun entry => (entry.1, .string entry.2.name)) kinds.entries := by
    rw [List.forall₂_map_left_iff]
    exact List.forall₂_same.2 fun entry _ => ⟨rfl, named?_name entry.2⟩
  exact (readKinds_of_spelled hspelled).trans (congrArg some h.registerAll_entries)

/-! ## Names in byte order -/

/-- Of ascending names the last that is the same as a given one is the greatest. -/
theorem lastKind?_of_greatest {entries : List (String × ColumnKind)}
    (hordered : Keyed.Ordered entries) {entry : String × ColumnKind} (hmem : entry ∈ entries)
    {name : String} (hname : SameName entry.1 name)
    (hgreatest : ∀ other ∈ entries, SameName other.1 name → ¬ entry.1 < other.1) :
    lastKind? entries name = some entry.2 := by
  obtain ⟨before, after, rfl⟩ := List.append_of_mem hmem
  obtain ⟨-, hrest, -⟩ := List.pairwise_append.1 hordered
  have hafter : ∀ other ∈ after, ¬ SameName other.1 name := fun other hother hsame =>
    hgreatest other (by simp [hother]) hsame ((List.pairwise_cons.1 hrest).1 other hother)
  rw [lastKind?, List.findRev?_eq_find?_reverse, List.reverse_append, List.reverse_cons,
    List.append_assoc, List.find?_append, List.find?_eq_none.2 (by simpa using hafter)]
  simp [hname]

theorem lastKind?_eq_none {entries : List (String × ColumnKind)} {name : String}
    (h : ∀ entry ∈ entries, ¬ SameName entry.1 name) : lastKind? entries name = none := by
  rw [lastKind?, List.findRev?_eq_find?_reverse, List.find?_eq_none.2 (by simpa using h)]
  rfl

/-- A name has the kind of its last registration in any case of its letters, or else its
standard kind, or else it is a scalar, and there are as many entries as different names in
lower case.  The object of registered kinds is read back as the same kinds.  An object of
names and kinds is read by registering them in the byte order of the names, so of names
that differ only in case the one with the greatest bytes counts. -/
theorem registered_kinds :
    (∀ registrations name, (standard.registerAll registrations).kindOf name =
      ((lastKind? registrations name).or (standard.entries.find? name.toLower)).getD .scalar) ∧
    (∀ registrations : List (String × ColumnKind),
      (standard.registerAll registrations).entries.length =
        (standard.entries.keys ++
          registrations.map fun registration => registration.1.toLower).dedup.length) ∧
    (∀ isEmpty registrations,
      Settings.readKinds isEmpty (standard.registerAll registrations).toDocument =
        some (standard.registerAll registrations)) ∧
    ∀ entries : List (String × ColumnKind),
      entries.Pairwise (fun first second => Text.bytes first.1 < Text.bytes second.1) →
      (∀ isEmpty fields,
        List.Forall₂ (fun field entry => field.1 = entry.1 ∧ Spelled isEmpty field.2 entry.2)
          fields entries →
        Settings.readKinds isEmpty (.object fields) = some (standard.registerAll entries)) ∧
      (∀ entry ∈ entries, ∀ name, SameName entry.1 name →
        (∀ other ∈ entries, SameName other.1 name →
          ¬ Text.bytes entry.1 < Text.bytes other.1) →
        (standard.registerAll entries).kindOf name = entry.2) ∧
      ∀ name, (∀ entry ∈ entries, ¬ SameName entry.1 name) →
        (standard.registerAll entries).kindOf name = standard.kindOf name := by
  refine ⟨?_, ?_, ?_, ?_⟩
  · intro registrations name
    rw [kindOf, find?_registerAll]
  · intro registrations
    rw [entries_registerAll, sound_standard.ordered.length_merge, lowered, List.map_map]
    rfl
  · exact fun isEmpty registrations =>
      readKinds_toDocument isEmpty (sound_standard.registerAll registrations)
  · intro entries hbytes
    simp only [Text.bytes_lt_iff] at hbytes ⊢
    refine ⟨fun isEmpty fields hfields => readKinds_of_spelled hfields, ?_, ?_⟩
    · intro entry hmem name hname hgreatest
      rw [kindOf_registerAll, lastKind?_of_greatest hbytes hmem hname hgreatest]
      rfl
    · intro name hnone
      rw [kindOf_registerAll, lastKind?_eq_none hnone]
      rfl

theorem registered_kinds_two_spellings :
    Settings.readKinds Settings.isNull
        (.object [("JSON", .string "scalar"), ("json", .object [("array", .null)])]) =
          some (standard.registerAll [("JSON", .scalar), ("json", .array)]) ∧
      (standard.registerAll [("JSON", .scalar), ("json", .array)]).kindOf "Json" = .array ∧
      (standard.registerAll [("JSON", .scalar), ("json", .array)]).kindOf "JSONB" = .json ∧
      (standard.registerAll [("JSON", .scalar), ("json", .array)]).kindOf "uuid" = .scalar := by
  have hbytes : Text.bytes "JSON" < Text.bytes "json" :=
    Text.bytes_lt_iff.2 (by decide +kernel)
  have hupper : "JSON".toLower = "json" := by decide +kernel
  have hlower : "json".toLower = "json" := by decide +kernel
  have hmixed : "Json".toLower = "json" := by decide +kernel
  have hjsonb : "JSONB".toLower = "jsonb" := by decide +kernel
  have hneither : ∀ entry ∈ [("JSON", ColumnKind.scalar), ("json", .array)],
      ¬ SameName entry.1 "JSONB" := by
    simp [SameName, hupper, hlower, hjsonb]
  obtain ⟨hlast, -, -, hread⟩ := registered_kinds
  obtain ⟨hfields, hgreatest, hstandard⟩ := hread [("JSON", .scalar), ("json", .array)]
    (List.pairwise_pair.2 hbytes)
  refine ⟨hfields _ _ (.cons ⟨rfl, named?_name .scalar⟩ (.cons ⟨rfl, named?_name .array⟩ .nil)),
    hgreatest ("json", .array) (by simp) "Json" (hlower.trans hmixed.symm) ?_,
    (hstandard "JSONB" hneither).trans (by decide +kernel),
    (hlast _ "uuid").trans (by decide +kernel)⟩
  simp only [List.forall_mem_cons]
  exact ⟨fun _ => List.lt_asymm hbytes, fun _ => List.lt_irrefl _, by simp⟩

end ColumnKinds

end JsonbAlgebra
