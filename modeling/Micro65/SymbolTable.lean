import Std.Data.HashMap
import Micro65.Text.Basic
/-!
# Symbol tables

The labels of a program in the order of their definition. The first definition of a name stands: a
second one is refused and leaves the table as it was. Names are found through an index of their
places, and letter case matters in them.
-/

namespace Micro65

/-- A label with its value. -/
structure Symbol where
  name : Text
  address : UInt16
  /-- The number of the line that defines the label. -/
  line : Nat
  deriving DecidableEq, Repr

/-- Names are hashed character by character. -/
instance : Hashable Text where
  hash t := t.foldl (fun h c => mixHash h c.val.toUInt64) 7

/-- The labels defined so far. -/
structure SymbolTable where
  /-- The symbols in the order of their definition. -/
  symbols : Array Symbol := #[]
  /-- The place of each name among the symbols. -/
  places : Std.HashMap Text Nat := ∅

namespace SymbolTable

instance : EmptyCollection SymbolTable where
  emptyCollection := {}

instance : Inhabited SymbolTable where
  default := ∅

/-- The symbols in the order of their definition. -/
def toList (t : SymbolTable) : List Symbol :=
  t.symbols.toList

/-- The symbol with this name. -/
def find? (t : SymbolTable) (name : Text) : Option Symbol :=
  t.places[name]?.bind fun place => t.symbols[place]?

/-- Puts a symbol behind the others, whose name none of them should have. -/
def push (t : SymbolTable) (s : Symbol) : SymbolTable :=
  let place := t.symbols.size
  { symbols := t.symbols.push s, places := t.places.insert s.name place }

/-- Defines a symbol, or gives the one that has its name already. -/
@[inline] def define (t : SymbolTable) (s : Symbol) : Except Symbol SymbolTable :=
  match t.find? s.name with
  | some first => .error first
  | none => .ok (t.push s)

@[simp] theorem toList_empty : toList ∅ = [] := rfl

@[simp] theorem toList_push (t : SymbolTable) (s : Symbol) :
    (t.push s).toList = t.toList ++ [s] := by
  simp [toList, push]

end SymbolTable

end Micro65
