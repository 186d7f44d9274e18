import Mathlib.Data.List.Forall2

/-!
# Successful computations

A computation that may stop with a fault succeeds exactly when each of its
steps does, and its fault is that of a step.  These equivalences take a run
apart, so that no later proof has to look into the way the steps are chained.
-/

namespace JsonbAlgebra

theorem bind_eq_ok {ε α β : Type} {x : Except ε α} {f : α → Except ε β} {b : β} :
    x >>= f = .ok b ↔ ∃ a, x = .ok a ∧ f a = .ok b := by
  cases x with
  | error fault => simp [bind, Except.bind]
  | ok a => simp [bind, Except.bind]

theorem bind_eq_error {ε α β : Type} {x : Except ε α} {f : α → Except ε β} {fault : ε} :
    x >>= f = .error fault ↔ x = .error fault ∨ ∃ a, x = .ok a ∧ f a = .error fault := by
  cases x with
  | error other => simp [bind, Except.bind]
  | ok a => simp [bind, Except.bind]

theorem map_eq_ok {ε α β : Type} {x : Except ε α} {f : α → β} {b : β} :
    x.map f = .ok b ↔ ∃ a, x = .ok a ∧ f a = b := by
  cases x with
  | error fault => simp [Except.map]
  | ok a => simp [Except.map]

theorem map_eq_error {ε α β : Type} {x : Except ε α} {f : α → β} {fault : ε} :
    x.map f = .error fault ↔ x = .error fault := by
  cases x with
  | error other => simp [Except.map]
  | ok a => simp [Except.map]

theorem mapError_eq_ok {ε ε' α : Type} {x : Except ε α} {f : ε → ε'} {a : α} :
    x.mapError f = .ok a ↔ x = .ok a := by
  cases x with
  | error fault => simp [Except.mapError]
  | ok b => simp [Except.mapError]

theorem mapM_eq_ok {ε α β : Type} {f : α → Except ε β} {as : List α} {bs : List β} :
    as.mapM f = .ok bs ↔ List.Forall₂ (fun a b => f a = .ok b) as bs := by
  induction as generalizing bs with
  | nil =>
      cases bs <;> simp [pure, Except.pure]
  | cons a as ih =>
      rw [List.mapM_cons, bind_eq_ok]
      constructor
      · rintro ⟨b, hb, hrest⟩
        obtain ⟨others, hothers, heq⟩ := bind_eq_ok.1 hrest
        cases heq
        exact .cons hb (ih.1 hothers)
      · intro h
        cases h with
        | cons hb hothers =>
            exact ⟨_, hb, bind_eq_ok.2 ⟨_, ih.2 hothers, rfl⟩⟩

theorem exists_of_mapM_eq_error {ε α β : Type} {f : α → Except ε β} {as : List α} {fault : ε}
    (h : as.mapM f = .error fault) : ∃ a ∈ as, f a = .error fault := by
  induction as with
  | nil => cases h
  | cons a as ih =>
      rw [List.mapM_cons, bind_eq_error] at h
      obtain hfirst | ⟨b, -, hrest⟩ := h
      · exact ⟨a, List.mem_cons_self, hfirst⟩
      · obtain hothers | ⟨bs, -, hpure⟩ := bind_eq_error.1 hrest
        · obtain ⟨other, hother, hfault⟩ := ih hothers
          exact ⟨other, List.mem_cons_of_mem a hother, hfault⟩
        · cases hpure

theorem foldlM_cons_eq_ok {ε α σ : Type} {f : σ → α → Except ε σ} {a : α} {as : List α}
    {start final : σ} :
    (a :: as).foldlM f start = .ok final ↔
      ∃ next, f start a = .ok next ∧ as.foldlM f next = .ok final := by
  rw [List.foldlM_cons, bind_eq_ok]

/-- What every successful step keeps, a successful run keeps. -/
theorem foldlM_invariant {ε α σ : Type} {f : σ → α → Except ε σ} {P : σ → Prop}
    {as : List α} {start final : σ}
    (hstep : ∀ a ∈ as, ∀ state next, f state a = .ok next → P state → P next)
    (hrun : as.foldlM f start = .ok final) (hstart : P start) : P final := by
  induction as generalizing start with
  | nil =>
      cases hrun
      exact hstart
  | cons a as ih =>
      obtain ⟨next, hnext, hrest⟩ := foldlM_cons_eq_ok.1 hrun
      have hkept := hstep a List.mem_cons_self start next hnext hstart
      exact ih (fun b hb => hstep b (List.mem_cons_of_mem a hb)) hrest hkept

theorem exists_forall₂ {α β : Type} {R : α → β → Prop} {as : List α}
    (h : ∀ a ∈ as, ∃ b, R a b) : ∃ bs, List.Forall₂ R as bs := by
  induction as with
  | nil => exact ⟨[], .nil⟩
  | cons a as ih =>
      obtain ⟨b, hb⟩ := h a List.mem_cons_self
      obtain ⟨bs, hbs⟩ := ih fun other hother => h other (List.mem_cons_of_mem a hother)
      exact ⟨b :: bs, .cons hb hbs⟩

theorem exists_of_mem_forall₂ {α β : Type} {R : α → β → Prop} {as : List α} {bs : List β}
    (h : List.Forall₂ R as bs) {a : α} (hmem : a ∈ as) : ∃ b, R a b := by
  induction h with
  | nil => cases hmem
  | cons hfirst _ ih =>
      obtain rfl | hother := List.mem_cons.1 hmem
      · exact ⟨_, hfirst⟩
      · exact ih hother

theorem forall_mem_of_forall₂ {α β : Type} {P : β → Prop} {as : List α} {bs : List β}
    (h : List.Forall₂ (fun _ b => P b) as bs) : ∀ b ∈ bs, P b := by
  induction h with
  | nil => simp
  | cons hfirst _ ih => simpa using ⟨hfirst, ih⟩

theorem forall₂_imp_of_mem {α β : Type} {R S : α → β → Prop} {as : List α} {bs : List β}
    (h : List.Forall₂ R as bs) (himp : ∀ a ∈ as, ∀ b, R a b → S a b) :
    List.Forall₂ S as bs := by
  have hboth := (List.forall₂_and_left as bs).2 ⟨himp, h⟩
  exact hboth.imp fun _ b hpair => hpair.1 b hpair.2

end JsonbAlgebra
