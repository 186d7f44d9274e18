import JsonbAlgebra.Proofs.FaultOrigins
import JsonbAlgebra.Proofs.UpdateCalls

/-!
# Where value lists stand

A value list is meant for the alternatives of a membership and for nothing else.
The check of an operation sees to that wherever a slot names its tags: no slot
but the one for alternatives accepts the tag of value lists, and that one accepts
no other.  A slot that names no tags accepts value lists as well, and a value
that is assigned to a column is not checked at all.  These two are the only ways
in, so an expression keeps its value lists in place exactly if no operand in an
open slot has their tag.

Evaluation complains about a value list, or the lack of one, only where one is
out of place.
-/

namespace JsonbAlgebra

/-! ## Slots for value lists -/

theorem Contract.mem_slots {contract : Contract} {index : Nat} {slot : Slot}
    (h : contract.slotAt index = some slot) : slot ∈ contract.slots := by
  rw [slotAt] at h
  split at h
  · exact List.mem_of_getElem? h
  · split at h
    · exact List.mem_of_getElem? h
    · cases h

namespace Operator

theorem exists_slotAt {operator : Operator} {count index : Nat}
    (hadmits : operator.contract.admits count = true) (hindex : index < count) :
    ∃ slot, operator.contract.slotAt index = some slot := by
  have hslots : 0 < operator.contract.slots.length ∧
      (operator.contract.most.all fun most => most ≤ operator.contract.slots.length) = true := by
    cases operator <;> decide
  rw [Contract.slotAt]
  by_cases hown : index < operator.contract.slots.length
  · rw [if_pos hown]
    exact ⟨_, List.getElem?_eq_getElem hown⟩
  · rw [if_neg hown, Contract.isVariadic]
    cases hmost : operator.contract.most with
    | none =>
        have hover : index % operator.contract.slots.length < operator.contract.slots.length :=
          Nat.mod_lt index hslots.1
        exact ⟨_, List.getElem?_eq_getElem hover⟩
    | some most =>
        rw [Contract.admits, hmost, Option.all_some, Bool.and_eq_true, decide_eq_true_iff,
          decide_eq_true_iff] at hadmits
        rw [hmost, Option.all_some, decide_eq_true_iff] at hslots
        omega

theorem slotAt_of_accepts {operator : Operator} {index : Nat} {slot : Slot}
    (hslot : operator.contract.slotAt index = some slot)
    (haccepts : slot.accepts .valueList = true) :
    slot.accepted = [] ∨ (operator = .inList ∧ index = 1) := by
  by_cases hlist : operator = .inList
  · subst hlist
    rcases index with _ | _ | index
    · cases hslot
      exact .inl rfl
    · exact .inr ⟨rfl, rfl⟩
    · cases hslot
  · have hnamed : ∀ operator : Operator, operator ≠ .inList →
        ∀ slot ∈ operator.contract.slots, Tag.valueList ∉ slot.accepted := by
      intro operator
      cases operator <;> decide
    rw [Slot.accepts, Bool.or_eq_true, List.isEmpty_iff, List.any_eq_true] at haccepts
    refine haccepts.imp_right ?_
    rintro ⟨tag, hmem, hfits⟩
    have htag : tag = .valueList := by
      cases tag with
      | valueList => rfl
      | _ => cases hfits
    rw [htag] at hmem
    exact absurd hmem (hnamed operator hlist slot (Contract.mem_slots hslot))

end Operator

/-! ## Value lists in place -/

namespace Expr

/-- In every operation, the value lists among the operands are the alternatives
of a membership, and none of them is empty. -/
inductive ListsInPlace : Expr → Prop
  | column (ref : ColumnRef) : ListsInPlace (.column ref)
  | constant (value : Constant) : ListsInPlace (.constant value)
  | operation {operator : Operator} {operands : List Expr}
      (hplace : ∀ (index : Nat) (operand : Expr), operands[index]? = some operand →
        (operand.isValueList = true ↔ operator = .inList ∧ index = 1))
      (hfull : ∀ operand ∈ operands, operand.isEmptyList = false)
      (hoperands : ∀ operand ∈ operands, ListsInPlace operand) :
      ListsInPlace (.operation operator operands)

theorem ListsInPlace.place {operator : Operator} {operands : List Expr}
    (h : (Expr.operation operator operands).ListsInPlace) (index : Nat) (operand : Expr)
    (hoperand : operands[index]? = some operand) :
    operand.isValueList = true ↔ operator = .inList ∧ index = 1 := by
  cases h with
  | operation hplace => exact hplace index operand hoperand

/-- In every operation, no operand in a slot that accepts all tags has the tag
of value lists. -/
inductive OpenSlotsClear : Expr → Prop
  | column (ref : ColumnRef) : OpenSlotsClear (.column ref)
  | constant (value : Constant) : OpenSlotsClear (.constant value)
  | operation {operator : Operator} {operands : List Expr}
      (hclear : ∀ (index : Nat) (operand : Expr) (slot : Slot), operands[index]? = some operand →
        operator.contract.slotAt index = some slot → slot.accepted = [] →
        operand.tag ≠ .valueList)
      (hoperands : ∀ operand ∈ operands, OpenSlotsClear operand) :
      OpenSlotsClear (.operation operator operands)

/-- An expression that stands for one value: no value list itself, and with all
value lists inside it in place. -/
structure Single (e : Expr) : Prop where
  isValueList : e.isValueList = false
  inPlace : e.ListsInPlace

theorem tag_of_isValueList {e : Expr} (h : e.isValueList = true) : e.tag = .valueList := by
  cases e with
  | constant value => exact Constant.tag_eq_valueList.2 h
  | _ => cases h

theorem Single.tag_ne {e : Expr} (h : e.Single) : e.tag ≠ .valueList := by
  induction e with
  | column ref => exact ref.type.tag_ne_valueList
  | constant value =>
      intro htag
      have hvalue : value.isValueList = true := Constant.tag_eq_valueList.1 htag
      have hfree : value.isValueList = false := h.isValueList
      simp [hvalue] at hfree
  | operation operator operands ih =>
      cases h.inPlace with
      | operation hplace _ hoperands =>
          refine tag_operation_ne fun hlist operand hmem => ?_
          obtain ⟨index, hoperand⟩ := List.getElem?_of_mem hmem
          have hfree : operand.isValueList = false := by
            rw [Bool.eq_false_iff]
            exact fun hvalue => hlist ((hplace index operand hoperand).1 hvalue).1
          exact ih operand hmem ⟨hfree, hoperands operand hmem⟩

theorem listsInPlace_iff {e : Expr} (hwell : e.WellFormed) :
    e.ListsInPlace ↔ e.OpenSlotsClear := by
  induction e with
  | column ref => exact ⟨fun _ => .column ref, fun _ => .column ref⟩
  | constant value => exact ⟨fun _ => .constant value, fun _ => .constant value⟩
  | operation operator operands ih =>
      obtain ⟨hfault, hoperands⟩ := wellFormed_operation_iff.1 hwell
      obtain ⟨hadmits, haccepts⟩ := applicationFault?_eq_none hfault
      constructor
      · intro h
        cases h with
        | operation hplace _ hinner =>
            refine .operation ?_ fun operand hmem =>
              (ih operand hmem (hoperands operand hmem)).1 (hinner operand hmem)
            intro index operand slot hoperand hslot hopen
            have hfree : operand.isValueList = false := by
              rw [Bool.eq_false_iff]
              intro hvalue
              obtain ⟨rfl, rfl⟩ := (hplace index operand hoperand).1 hvalue
              cases hslot
              cases hopen
            have hmem := List.mem_of_getElem? hoperand
            exact Single.tag_ne ⟨hfree, hinner operand hmem⟩
      · intro h
        cases h with
        | operation hclear hinner =>
            have hplaced : ∀ operand ∈ operands, operand.ListsInPlace := fun operand hmem =>
              (ih operand hmem (hoperands operand hmem)).2 (hinner operand hmem)
            refine .operation ?_ (isEmptyList_of_applicationFault? hfault) hplaced
            intro index operand hoperand
            have hmem := List.mem_of_getElem? hoperand
            constructor
            · -- a list gets in through an open slot or as alternatives
              intro hvalue
              have htag := tag_of_isValueList hvalue
              obtain ⟨hindex, -⟩ := List.getElem?_eq_some_iff.1 hoperand
              obtain ⟨slot, hslot⟩ := Operator.exists_slotAt hadmits hindex
              have haccept := haccepts index operand slot hoperand hslot
              rw [htag] at haccept
              refine (Operator.slotAt_of_accepts hslot haccept).resolve_left fun hopen => ?_
              exact hclear index operand slot hoperand hslot hopen htag
            · -- what has the tag of lists without being one has passed a list on
              rintro ⟨rfl, rfl⟩
              have haccept := haccepts 1 operand _ hoperand rfl
              have hfits : operand.tag.fits .valueList = true := by
                simpa [Slot.accepts] using haccept
              by_contra hvalue
              have hsingle : operand.Single := ⟨by simpa using hvalue, hplaced operand hmem⟩
              exact hsingle.tag_ne (eq_valueList_of_fits hfits)

theorem single_iff {e : Expr} (hwell : e.WellFormed) :
    e.Single ↔ e.OpenSlotsClear ∧ e.tag ≠ .valueList := by
  constructor
  · intro h
    exact ⟨(listsInPlace_iff hwell).1 h.inPlace, h.tag_ne⟩
  · rintro ⟨hclear, htag⟩
    refine ⟨?_, (listsInPlace_iff hwell).2 hclear⟩
    rw [Bool.eq_false_iff]
    exact fun hvalue => htag (tag_of_isValueList hvalue)

end Expr

/-! ## Evaluation without complaints about value lists -/

/-- An outcome that is no complaint about a value list or the lack of one. -/
def Spares {α : Type} : Except EvaluationFault α → Prop
  | .ok _ => True
  | .error fault => fault ≠ .missingValueList ∧ fault ≠ .strayValueList

theorem spares_iff {α : Type} {x : Except EvaluationFault α} :
    Spares x ↔ FailsWith (fun fault => fault ≠ .missingValueList ∧ fault ≠ .strayValueList) x := by
  cases x with
  | error fault => simp [Spares, FailsWith]
  | ok a => simp [Spares, FailsWith]

/-- What lies in the data is no complaint about value lists. -/
theorem EvaluationFault.ne_of_isOfData {fault : EvaluationFault} (h : fault.isOfData = true) :
    fault ≠ .missingValueList ∧ fault ≠ .strayValueList := by
  cases fault <;> simp_all [isOfData]

theorem Constant.datum_spares {constant : Constant} (h : constant.isValueList = false) :
    Spares constant.datum := by
  refine spares_iff.2 (Constant.datum_fails.imp fun fault hfault => ?_)
  rcases hfault with hdata | ⟨-, hlist⟩
  · exact EvaluationFault.ne_of_isOfData hdata
  · rw [h] at hlist
    cases hlist

namespace Operator

/-- Outside of memberships, only an operand can be the reason of a complaint
about value lists. -/
theorem evaluate_spares {operator : Operator} (hlist : operator ≠ .inList)
    {results : List Outcome} (h : ∀ result ∈ results, Spares result) (operands : List Expr) :
    Spares (operator.evaluate operands results) := by
  refine spares_iff.2 (evaluate_fails (fun _ => EvaluationFault.ne_of_isOfData) hlist ?_ ?_ ?_ _)
  · exact ⟨nofun, nofun⟩
  · exact .inr ⟨nofun, nofun⟩
  · exact fun result hmem => spares_iff.1 (h result hmem)

theorem inAlternatives_spares {subject : Outcome} (h : Spares subject) {alternatives : Constant}
    (hlist : alternatives.isValueList = true) :
    Spares (inAlternatives subject (.constant alternatives)) :=
  spares_iff.2 (inAlternatives_fails (fun _ => EvaluationFault.ne_of_isOfData) (spares_iff.1 h)
    (.inl ⟨alternatives, rfl, hlist⟩))

end Operator

namespace Expr

/-- Evaluation never asks for a value list and never meets one, as long as they
are in place. -/
theorem Single.evaluate_spares {e : Expr} (h : e.Single) (row : Row) :
    Spares (e.evaluate row) := by
  induction e with
  | column ref => trivial
  | constant value => exact Constant.datum_spares h.isValueList
  | operation operator operands ih =>
      cases h.inPlace with
      | operation hplace _ hoperands =>
          have hresult : ∀ index operand, operands[index]? = some operand →
              ¬ (operator = .inList ∧ index = 1) → Spares (operand.evaluate row) := by
            intro index operand hoperand hfree
            have hmem := List.mem_of_getElem? hoperand
            have hvalue : operand.isValueList = false := by
              rw [Bool.eq_false_iff]
              exact fun hvalue => hfree ((hplace index operand hoperand).1 hvalue)
            exact ih operand hmem ⟨hvalue, hoperands operand hmem⟩
          rw [evaluate, evaluateAll_eq_map]
          by_cases hlist : operator = .inList
          · -- the result of the alternatives is a complaint, but is never looked at
            subst hlist
            rcases operands with _ | ⟨subject, _ | ⟨alternatives, _ | ⟨third, rest⟩⟩⟩
            · exact ⟨by simp, by simp⟩
            · exact ⟨by simp, by simp⟩
            · have hvalue : alternatives.isValueList = true :=
                (hplace 1 alternatives rfl).2 ⟨rfl, rfl⟩
              have hsubject := hresult 0 subject rfl (by simp)
              cases alternatives with
              | constant value => exact Operator.inAlternatives_spares hsubject hvalue
              | _ => cases hvalue
            · exact ⟨by simp, by simp⟩
          · refine Operator.evaluate_spares hlist ?_ operands
            rw [List.forall_mem_map]
            intro operand hmem
            obtain ⟨index, hoperand⟩ := List.getElem?_of_mem hmem
            exact hresult index operand hoperand fun hin => hlist hin.1

end Expr

/-! ## Updates -/

namespace Patch

/-- A patch keeps value lists in place exactly if its value does: the slots of
SET name their tags, so neither operand of the patch can be a value list. -/
theorem single_wrap {patch : Patch} {current : Expr}
    (h : Expr.applicationFault? .set [current, Expr.pathOperand patch.path, patch.value] = none) :
    (patch.wrap current).Single ↔ current.Single ∧ patch.value.ListsInPlace := by
  have hpath : (Expr.pathOperand patch.path).Single := ⟨rfl, .constant _⟩
  constructor
  · intro hsingle
    cases hsingle.inPlace with
    | operation hplace _ hoperands =>
        simp only [List.forall_mem_cons] at hoperands
        refine ⟨⟨?_, hoperands.1⟩, hoperands.2.2.1⟩
        rw [Bool.eq_false_iff]
        intro hvalue
        have hin := (hplace 0 current rfl).1 hvalue
        cases hin.1
  · rintro ⟨hcurrent, hinner⟩
    have hvalue : patch.value.isValueList = false := by
      have haccepts := (Expr.applicationFault?_eq_none h).2 2 patch.value (.json "value") rfl rfl
      rw [Bool.eq_false_iff]
      intro hvalue
      rw [Expr.tag_of_isValueList hvalue] at haccepts
      cases haccepts
    have hfree : ∀ operand ∈ [current, Expr.pathOperand patch.path, patch.value],
        operand.Single := by
      simpa using ⟨hcurrent, hpath, hvalue, hinner⟩
    refine ⟨rfl, .operation ?_ (Expr.isEmptyList_of_applicationFault? h) fun operand hmem =>
      (hfree operand hmem).inPlace⟩
    intro index operand hoperand
    have hsingle := hfree operand (List.mem_of_getElem? hoperand)
    simp [hsingle.isValueList]

theorem single_mergeInto {patch : Patch} {assignments merged : List Assignment}
    (h : patch.mergeInto assignments = .ok merged) :
    (∀ assignment ∈ merged, assignment.value.Single) ↔
      (∀ assignment ∈ assignments, assignment.value.Single) ∧ patch.value.ListsInPlace := by
  induction assignments generalizing merged with
  | nil =>
      obtain ⟨value, haround, rfl⟩ := mergeInto_nil_eq_ok.1 h
      obtain ⟨hfault, rfl⟩ := around_eq_ok.1 haround
      have hcolumn : (Expr.column patch.target).Single := ⟨rfl, .column _⟩
      rw [List.forall_mem_singleton, single_wrap hfault]
      simp [hcolumn]
  | cons assignment rest ih =>
      rcases mergeInto_cons_eq_ok.1 h with
        ⟨-, value, haround, rfl⟩ | ⟨-, others, hothers, rfl⟩
      · obtain ⟨hfault, rfl⟩ := around_eq_ok.1 haround
        rw [List.forall_mem_cons, List.forall_mem_cons, single_wrap hfault]
        exact and_right_comm
      · rw [List.forall_mem_cons, List.forall_mem_cons, ih hothers]
        exact and_assoc.symm

end Patch

namespace Update

theorem single_merged {patches : List Patch} {start merged : List Assignment}
    (h : patches.foldlM (fun assignments patch => patch.mergeInto assignments) start =
      .ok merged) :
    (∀ assignment ∈ merged, assignment.value.Single) ↔
      (∀ assignment ∈ start, assignment.value.Single) ∧
        ∀ patch ∈ patches, patch.value.ListsInPlace := by
  induction patches generalizing start with
  | nil =>
      cases h
      simp
  | cons patch patches ih =>
      obtain ⟨next, hnext, hrest⟩ := foldlM_cons_eq_ok.1 h
      rw [ih hrest, Patch.single_mergeInto hnext, List.forall_mem_cons, and_assoc]

theorem single_lowered {update : Update} (hwell : update.WellFormed) {lowered : List Assignment}
    (h : update.lower = .ok lowered) :
    (∀ assignment ∈ lowered, assignment.value.Single) ↔
      (∀ assignment ∈ update.assignments,
        assignment.value.OpenSlotsClear ∧ assignment.value.tag ≠ .valueList) ∧
        ∀ patch ∈ update.patches, patch.value.OpenSlotsClear := by
  rw [single_merged (lower_eq_ok.1 h).2]
  refine and_congr ?_ ?_
  · exact forall₂_congr fun assignment hmem =>
      Expr.single_iff (hwell.assignments assignment hmem)
  · exact forall₂_congr fun patch hmem => Expr.listsInPlace_iff (hwell.patches patch hmem)

end Update

theorem Expr.single_filter {filter : Expr} (hwell : filter.WellFormed)
    (hfits : filter.tag.fits .boolean = true) : filter.Single ↔ filter.OpenSlotsClear := by
  have htag : filter.tag ≠ .valueList := by
    intro htag
    rw [htag] at hfits
    cases hfits
  rw [single_iff hwell]
  exact and_iff_left htag

namespace Dialect

/-- No operand is ever an empty value list.  Value lists stand only as the
alternatives of memberships, and every membership has one there, exactly if no
operand in an open slot has their tag; evaluation then never complains about
them.  The values and the filter of a compiled update hold value lists in place
exactly if that is so of every assigned value, every patch and the filter, and no
assigned value has the tag of value lists itself. -/
theorem value_lists_in_place (dialect : Dialect) (style : Placeholder) :
    (∀ operator operands, (Expr.operation operator operands).WellFormed →
      ∀ operand ∈ operands, operand.isEmptyList = false) ∧
    (∀ e : Expr, e.WellFormed → (e.ListsInPlace ↔ e.OpenSlotsClear)) ∧
    (∀ (e : Expr) (row : Row), e.Single → e.evaluate row ≠ .error .missingValueList ∧
      e.evaluate row ≠ .error .strayValueList) ∧
    ∀ (table : String) (calls : List Call) (update : Update) (filter : Option Expr)
      (statement : Statement), (∀ call ∈ calls, call.WellFormed) →
      (∀ condition, filter = some condition → condition.WellFormed) →
      Update.ofCalls table calls = .ok update →
      dialect.compileUpdate style update filter = .ok statement →
      ∃ lowered, update.lower = .ok lowered ∧
        ((∀ assignment ∈ lowered, assignment.value.Single) ∧
            (∀ condition, filter = some condition → condition.Single) ↔
          ((∀ assignment ∈ update.assignments,
            assignment.value.OpenSlotsClear ∧ assignment.value.tag ≠ .valueList) ∧
            ∀ patch ∈ update.patches, patch.value.OpenSlotsClear) ∧
            ∀ condition, filter = some condition → condition.OpenSlotsClear) := by
  refine ⟨?_, fun e hwell => Expr.listsInPlace_iff hwell, ?_, ?_⟩
  · intro operator operands hwell
    exact Expr.isEmptyList_of_applicationFault? (Expr.wellFormed_operation_iff.1 hwell).1
  · intro e row hsingle
    have hspares := hsingle.evaluate_spares row
    constructor
    · intro hmissing
      rw [hmissing] at hspares
      exact hspares.1 rfl
    · intro hstray
      rw [hstray] at hspares
      exact hspares.2 rfl
  · intro table calls update filter statement hcalls hfilter hupdate hcompile
    obtain ⟨draft, hdraft, -⟩ := compileUpdate_eq_ok.1 hcompile
    obtain ⟨lowered, drafts, condition, hlower, -, hcondition, -⟩ := draftUpdate_eq_ok.1 hdraft
    refine ⟨lowered, hlower, ?_⟩
    rw [Update.single_lowered (.ofCalls hcalls hupdate) hlower]
    refine and_congr_right fun _ => ?_
    cases filter with
    | none => simp
    | some filter =>
        obtain ⟨hfits, -⟩ := draftFilter_some.1 hcondition
        simpa using Expr.single_filter (hfilter filter rfl) hfits

/-- A membership as an assigned value and as the filter, next to a patch. -/
theorem value_lists_in_place_guarded :
    let name : Expr := .column ⟨none, ["name"], .text⟩
    let known : Expr :=
      .operation .inList [name, .constant (.valueList [.string "a", .string "b"])]
    let calls : List Call :=
      [.set ⟨none, "known", .boolean⟩ known, .setJsonAt (.jsonb "doc") ["a"] .null]
    let row : Row := fun _ => .text "c"
    known.ListsInPlace ∧ known.evaluate row ≠ .error .missingValueList ∧
      ∃ update lowered, Update.ofCalls "t" calls = .ok update ∧ update.lower = .ok lowered ∧
        (∀ assignment ∈ lowered, assignment.value.Single) ∧ known.Single := by
  intro name known calls row
  have hwell : known.WellFormed := ⟨rfl, trivial, trivial, trivial⟩
  have hclear : known.OpenSlotsClear := by
    refine .operation ?_ (by simpa using ⟨.column _, .constant _⟩)
    intro index operand slot hoperand hslot hopen
    rcases index with _ | _ | index
    · obtain rfl : name = operand := Option.some.inj hoperand
      simp [name, Expr.tag, SqlType.tag]
    · cases hslot
      cases hopen
    · cases hslot
  obtain ⟨-, hplace, hevaluate, hupdates⟩ := value_lists_in_place postgres .anonymous
  have hlists : known.ListsInPlace := (hplace known hwell).2 hclear
  have hcalls : ∀ call ∈ calls, call.WellFormed := by
    simpa [calls] using ⟨hwell, trivial⟩
  have hfilter : ∀ condition, some known = some condition → condition.WellFormed := by
    simpa using hwell
  obtain ⟨lowered, hlower, hiff⟩ :=
    hupdates "t" calls _ (some known) _ hcalls hfilter rfl (by unfold known name; rfl)
  have hassigned : known.tag ≠ .valueList := by decide
  have hsingle := hiff.2 ⟨⟨List.forall_mem_singleton.2 ⟨hclear, hassigned⟩,
    List.forall_mem_singleton.2 (.constant _)⟩, by simpa using hclear⟩
  exact ⟨hlists, (hevaluate known row ⟨rfl, hlists⟩).1, _, lowered, rfl, hlower, hsingle.1,
    hsingle.2 known rfl⟩

/-- A comparison with a value list, a membership in what only may be one, and an
assigned value list without values: none of them is refused. -/
theorem value_lists_astray :
    let list : Expr := .constant (.valueList [.ofWord 1, .ofWord 2])
    let one : Expr := .constant (.integer 1)
    let compared : Expr := .operation .eq [list, one]
    let sifted : Expr := .operation .inList [one, .operation .coalesce [list]]
    let column : Column := ⟨none, "c", .bigint⟩
    let row : Row := fun _ => .null
    Expr.apply .eq [list, one] = .ok compared ∧ ¬ compared.ListsInPlace ∧
      compared.evaluate row = .error .strayValueList ∧
      sifted.WellFormed ∧ ¬ sifted.ListsInPlace ∧
      sifted.evaluate row = .error .missingValueList ∧
      ∃ update statement,
        Update.ofCalls "t" [.set column (.constant (.valueList []))] = .ok update ∧
        postgres.compileUpdate .anonymous update none = .ok statement ∧
        statement.sql = "UPDATE t SET c = ()" := by
  intro list one compared sifted column row
  have hcompared : ¬ compared.ListsInPlace := by
    intro h
    have hin := (Expr.ListsInPlace.place h 0 list rfl).1 rfl
    cases hin.1
  have hsifted : ¬ sifted.ListsInPlace := by
    intro h
    have hvalue := (Expr.ListsInPlace.place h 1 (.operation .coalesce [list]) rfl).2 ⟨rfl, rfl⟩
    cases hvalue
  have hwell : sifted.WellFormed := ⟨rfl, trivial, ⟨rfl, trivial, trivial⟩, trivial⟩
  exact ⟨rfl, hcompared, rfl, hwell, hsifted, rfl, _, _, rfl, rfl, by decide +kernel⟩

end Dialect

end JsonbAlgebra
