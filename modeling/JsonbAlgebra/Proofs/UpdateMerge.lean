import JsonbAlgebra.Proofs.ExprInduction
import JsonbAlgebra.Proofs.Success
import JsonbAlgebra.Update

/-!
# Merging patches into assignments

One step of lowering puts a patch around the value of its column, or around
the column itself.  This module says what such a step does to the columns and
to the value of each of them, and that all values stay well formed.
-/

namespace JsonbAlgebra

def Assignment.key (assignment : Assignment) : List String :=
  assignment.target.segments

def Patch.key (patch : Patch) : List String :=
  patch.target.segments

namespace Patch

def wrap (patch : Patch) (current : Expr) : Expr :=
  .operation .set [current, Expr.pathOperand patch.path, patch.value]

theorem around_eq_ok {patch : Patch} {current value : Expr} :
    patch.around current = .ok value ↔
      Expr.applicationFault? .set
          [current, Expr.pathOperand patch.path, patch.value] = none ∧
        value = patch.wrap current :=
  Expr.apply_eq_ok_iff

theorem mergeInto_cons_eq_ok {patch : Patch} {assignment : Assignment}
    {rest merged : List Assignment} :
    patch.mergeInto (assignment :: rest) = .ok merged ↔
      (assignment.key = patch.key ∧
        ∃ value, patch.around assignment.value = .ok value ∧
          merged = { assignment with value } :: rest) ∨
      (assignment.key ≠ patch.key ∧
        ∃ others, patch.mergeInto rest = .ok others ∧ merged = assignment :: others) := by
  rw [mergeInto]
  by_cases hkey : assignment.target.segments = patch.target.segments
  · have hkey' : assignment.key = patch.key := hkey
    rw [if_pos hkey, bind_eq_ok]
    simp only [hkey', ne_eq, not_true_eq_false, false_and, or_false, true_and]
    exact exists_congr fun value => and_congr_right fun _ =>
      ⟨fun h => (Except.ok.inj h).symm, fun h => congrArg Except.ok h.symm⟩
  · have hkey' : assignment.key ≠ patch.key := hkey
    rw [if_neg hkey, bind_eq_ok]
    simp only [hkey', ne_eq, not_false_eq_true, false_and, false_or, true_and]
    exact exists_congr fun others => and_congr_right fun _ =>
      ⟨fun h => (Except.ok.inj h).symm, fun h => congrArg Except.ok h.symm⟩

theorem mergeInto_nil_eq_ok {patch : Patch} {merged : List Assignment} :
    patch.mergeInto [] = .ok merged ↔
      ∃ value, patch.around (.column patch.target) = .ok value ∧
        merged = [⟨patch.target, value⟩] := by
  rw [mergeInto, bind_eq_ok]
  exact exists_congr fun value => and_congr_right fun _ =>
    ⟨fun h => (Except.ok.inj h).symm, fun h => congrArg Except.ok h.symm⟩

end Patch

theorem Update.lower_eq_ok {update : Update} {lowered : List Assignment} :
    update.lower = .ok lowered ↔
      update.isEmpty = false ∧
        update.patches.foldlM (fun assignments patch => patch.mergeInto assignments)
          update.assignments = .ok lowered := by
  unfold lower
  cases update.isEmpty <;> simp

/-! ## Well-formed values -/

structure Update.WellFormed (update : Update) : Prop where
  assignments : ∀ assignment ∈ update.assignments, assignment.value.WellFormed
  patches : ∀ patch ∈ update.patches, patch.value.WellFormed

theorem Patch.around_wellFormed {patch : Patch} {current value : Expr}
    (hpatch : patch.value.WellFormed) (hcurrent : current.WellFormed)
    (h : patch.around current = .ok value) : value.WellFormed := by
  obtain ⟨hfault, rfl⟩ := around_eq_ok.1 h
  rw [wrap, Expr.wellFormed_operation_iff]
  refine ⟨hfault, ?_⟩
  simp only [List.forall_mem_cons, List.not_mem_nil, false_imp_iff, implies_true, and_true]
  exact ⟨hcurrent, Expr.wellFormed_constant _, hpatch⟩

theorem Patch.mergeInto_wellFormed {patch : Patch} {assignments merged : List Assignment}
    (hpatch : patch.value.WellFormed) (h : patch.mergeInto assignments = .ok merged)
    (hassignments : ∀ assignment ∈ assignments, assignment.value.WellFormed) :
    ∀ assignment ∈ merged, assignment.value.WellFormed := by
  induction assignments generalizing merged with
  | nil =>
      obtain ⟨value, hvalue, rfl⟩ := mergeInto_nil_eq_ok.1 h
      rw [List.forall_mem_singleton]
      exact around_wellFormed hpatch (Expr.wellFormed_column patch.target) hvalue
  | cons assignment rest ih =>
      obtain ⟨hfirst, hrest⟩ := List.forall_mem_cons.1 hassignments
      rcases mergeInto_cons_eq_ok.1 h with
        ⟨-, value, hvalue, rfl⟩ | ⟨-, others, hothers, rfl⟩
      · exact List.forall_mem_cons.2 ⟨around_wellFormed hpatch hfirst hvalue, hrest⟩
      · exact List.forall_mem_cons.2 ⟨hfirst, ih hothers hrest⟩

theorem Update.WellFormed.lower {update : Update} {lowered : List Assignment}
    (hupdate : update.WellFormed) (h : update.lower = .ok lowered) :
    ∀ assignment ∈ lowered, assignment.value.WellFormed :=
  foldlM_invariant
    (fun patch hpatch _ _ hmerge => patch.mergeInto_wellFormed (hupdate.patches patch hpatch) hmerge)
    (lower_eq_ok.1 h).2 hupdate.assignments

end JsonbAlgebra
