/-!
# JSON values

Objects keep their fields in order. Integers are kept apart from other numbers, which stay as they
are written. `Json.field?` looks up a part of a record, which may be written as an object or as an
array in the order of its fields; such a part is smaller than the record (`sizeOf_field?_lt`).
-/

namespace SheetDiff

/-- A JSON value. -/
inductive Json where
  | null
  | bool (value : Bool)
  /-- A number written without point and exponent. -/
  | int (value : Int)
  /-- Any other number, as it is written. -/
  | real (text : String)
  | str (value : String)
  | arr (items : List Json)
  | obj (fields : List (String × Json))
  deriving Inhabited

namespace Json

def str? : Json → Option String
  | str s => some s
  | _ => none

def items? : Json → Option (List Json)
  | arr items => some items
  | _ => none

/-- A natural number below a bound. -/
def natBelow? (bound : Nat) : Json → Option Nat
  | int n => if 0 ≤ n ∧ n < bound then some n.toNat else none
  | _ => none

/-- A natural number of 32 bits. -/
def nat32? : Json → Option Nat := natBelow? (Nat.pow 2 32)

/-- A natural number of 64 bits. -/
def nat64? : Json → Option Nat := natBelow? (Nat.pow 2 64)

/-- The name of a constant, written as a string or as an object with that one field. -/
def constant? : Json → Option String
  | str s => some s
  | obj [(name, null)] => some name
  | _ => none

/-- The values of an array. -/
def list? {α : Type} (read : Json → Option α) (j : Json) : Option (List α) := do
  (← j.items?).mapM read

/-- The values of an array that may be left out. -/
def listOr {α : Type} (read : Json → Option α) : Option Json → Option (List α)
  | none => some []
  | some j => j.list? read

/-! ## Records -/

/-- Whether a value can be a record with these fields. -/
def isRecord (names : List String) : Json → Bool
  | obj _ => true
  | arr items => items.length ≤ names.length
  | _ => false

/-- Passes what can be a record with these fields. -/
def record? (names : List String) (j : Json) : Option Unit :=
  if j.isRecord names then some () else none

/-- A field of a record; of fields with the same name the last one counts. -/
def field? (names : List String) (name : String) : Json → Option Json
  | obj fields => (fields.reverse.find? (·.1 = name)).map (·.2)
  | arr items => items[names.idxOf name]?
  | _ => none

theorem sizeOf_field?_lt {names : List String} {name : String} {j part : Json}
    (h : j.field? names name = some part) : sizeOf part < sizeOf j := by
  cases j with
  | obj fields =>
    obtain ⟨entry, hf, rfl⟩ := Option.map_eq_some_iff.1 h
    have hm := List.sizeOf_lt_of_mem (List.mem_reverse.1 (List.mem_of_find?_eq_some hf))
    obtain ⟨key, value⟩ := entry
    simp only [Prod.mk.sizeOf_spec, obj.sizeOf_spec] at hm ⊢
    omega
  | arr items =>
    have hm := List.sizeOf_lt_of_mem (List.mem_of_getElem? h)
    simp only [arr.sizeOf_spec]
    omega
  | _ => simp [field?] at h

end Json

end SheetDiff
