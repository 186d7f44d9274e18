/-!
# Keyed lists

A keyed list holds values under text keys, in ascending order of the keys and
with no key twice.  Keys are compared by their code points, which is also the
order of their UTF-8 bytes.  The operations below work on any list of pairs
and keep that order where they find it.
-/

namespace JsonbAlgebra

abbrev Keyed (α : Type) :=
  List (String × α)

namespace Keyed

variable {α : Type}

def find? : Keyed α → String → Option α
  | [], _ => none
  | (name, value) :: rest, key => if name = key then some value else find? rest key

/-- Puts a value under a key, in place of the one that is there. -/
def insert : Keyed α → String → α → Keyed α
  | [], key, value => [(key, value)]
  | (name, old) :: rest, key, value =>
    if name = key then (key, value) :: rest
    else if key < name then (key, value) :: (name, old) :: rest
    else (name, old) :: insert rest key value

def erase : Keyed α → String → Keyed α
  | [], _ => []
  | (name, value) :: rest, key =>
    if name = key then rest else (name, value) :: erase rest key

def keys (fields : Keyed α) : List String :=
  fields.map Prod.fst

/-- All entries of the second list put into the first, one after another. -/
def merge (fields extra : Keyed α) : Keyed α :=
  extra.foldl (fun merged entry => merged.insert entry.1 entry.2) fields

/-- The keyed list of some pairs; of two pairs with one key the later wins. -/
def ofList (pairs : List (String × α)) : Keyed α :=
  merge [] pairs

/-- The keys ascend, so none occurs twice. -/
def Ordered (fields : Keyed α) : Prop :=
  fields.Pairwise fun first second => first.1 < second.1

@[simp] theorem find?_nil (key : String) : find? ([] : Keyed α) key = none :=
  rfl

@[simp] theorem find?_insert_self (fields : Keyed α) (key : String) (value : α) :
    (fields.insert key value).find? key = some value := by
  induction fields with
  | nil => simp [insert, find?]
  | cons entry rest ih =>
    obtain ⟨name, old⟩ := entry
    rw [insert]
    split
    · simp [find?]
    · split
      · simp [find?]
      · simp [find?, *]

theorem find?_insert_ne (fields : Keyed α) {key other : String} (value : α)
    (h : other ≠ key) : (fields.insert key value).find? other = fields.find? other := by
  induction fields with
  | nil => simp [insert, find?, h.symm]
  | cons entry rest ih =>
    obtain ⟨name, old⟩ := entry
    rw [insert]
    split
    · rename_i hname
      subst hname
      simp [find?, h.symm]
    · split
      · simp [find?, h.symm]
      · simp [find?, ih]

end Keyed

end JsonbAlgebra
