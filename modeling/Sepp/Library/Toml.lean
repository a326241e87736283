import Mathlib.Tactic.SplitIfs

/-!
# Documents of ordered tables

A document in the manner of TOML: nested tables that keep the order of their entries. A key stands
in a table at most once; setting a key that is there keeps its place, and a new one goes to the
end. A list of tables under one key is an item of its own, and so is an inline table, which is a
value.

## Main definitions

* `Entries.get?`, `Entries.set`, `Entries.remove` — ordered maps as lists of entries.
* `Toml.Value`, `Toml.Item`, `Toml.Table`.
* `Toml.child` — what stands under a key of a section, however the section is written.

## Main results

* `Entries.get?_set`, `Entries.get?_remove`.
-/

/-! ### Ordered maps -/

namespace Entries

variable {κ α : Type} [DecidableEq κ]

/-- The value of a key, which is the first one that stands under it. -/
def get? (key : κ) : List (κ × α) → Option α
  | [] => none
  | (k, a) :: entries => if k = key then some a else get? key entries

/-- Replaces the value of a key in its place, or appends the key. -/
def set (key : κ) (value : α) : List (κ × α) → List (κ × α)
  | [] => [(key, value)]
  | (k, a) :: entries => if k = key then (k, value) :: entries else (k, a) :: set key value entries

/-- The entries without a key. -/
def remove (key : κ) (entries : List (κ × α)) : List (κ × α) :=
  entries.filter fun entry => entry.1 ≠ key

theorem get?_set (key : κ) (value : α) (entries : List (κ × α)) (k : κ) :
    get? k (set key value entries) = if k = key then some value else get? k entries := by
  induction entries with
  | nil => simp [get?, set, eq_comm]
  | cons entry entries ih =>
    obtain ⟨k', a⟩ := entry
    rw [set]
    split_ifs with hset hk hk
    · rw [get?, if_pos (hset.trans hk.symm)]
    · have hne : k' ≠ k := fun h => hk (h.symm.trans hset)
      rw [get?, get?, if_neg hne, if_neg hne]
    · rw [get?, if_neg fun h => hset (h.trans hk), ih, if_pos hk]
    · rw [get?, get?, ih, if_neg hk]

theorem get?_remove (key : κ) (entries : List (κ × α)) (k : κ) :
    get? k (remove key entries) = if k = key then none else get? k entries := by
  induction entries with
  | nil => simp [get?, remove]
  | cons entry entries ih =>
    obtain ⟨k', a⟩ := entry
    rw [remove, List.filter_cons]
    rw [remove] at ih
    split_ifs with hkeep hk hk
    · have hne : k' ≠ key := of_decide_eq_true hkeep
      rw [get?, if_neg fun h => hne (h.trans hk), ih, if_pos hk]
    · rw [get?, get?, ih, if_neg hk]
    · rw [ih, if_pos hk]
    · have heq : k' = key := by simpa using hkeep
      rw [ih, if_neg hk, get?, if_neg fun h => hk (h.symm.trans heq)]

end Entries

/-! ### Documents -/

namespace Toml

/-- A value; a float is given by its bits, and a date and time as it is written. -/
inductive Value where
  | string (s : String)
  | integer (i : Int64)
  | float (bits : UInt64)
  | boolean (b : Bool)
  | datetime (text : String)
  | array (items : List Value)
  | inlineTable (entries : List (String × Value))

/-- What stands under a key: a value, a section, or a list of sections. -/
inductive Item where
  | value (v : Value)
  | table (entries : List (String × Item))
  | arrayOfTables (tables : List (List (String × Item)))

/-- A table, or a whole document: its entries in order. -/
abbrev Table := List (String × Item)

/-- The text of an item that is a string. -/
def Item.asStr : Item → Option String
  | value (.string s) => some s
  | _ => none

/-- The entries of an item that is a table, but not an inline one. -/
def Item.asTable : Item → Option Table
  | table entries => some entries
  | _ => none

/-- The tables of an item that is a list of them. -/
def Item.asArrayOfTables : Item → Option (List Table)
  | arrayOfTables tables => some tables
  | _ => none

/-- What stands under a key of an item, be it a table or an inline one. -/
def Item.child (key : String) : Item → Option Item
  | table entries => Entries.get? key entries
  | value (.inlineTable entries) => (Entries.get? key entries).map .value
  | _ => none

/-- What stands under a key of a section of the document. -/
def child (doc : Table) (section_ key : String) : Option Item :=
  (Entries.get? section_ doc).bind (Item.child key)

end Toml
