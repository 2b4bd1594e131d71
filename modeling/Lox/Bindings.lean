import Lox.Text.Bytes
/-!
# Bindings

A finite map from names to values. A name keeps its place when it is bound again.
-/

namespace Lox

/-- Names, in the order in which they were first bound, with their values. -/
abbrev Bindings (α : Type) := List (Bytes × α)

namespace Bindings

variable {α : Type}

def get? (name : Bytes) : Bindings α → Option α
  | [] => none
  | (n, v) :: rest => if n == name then some v else get? name rest

def has (name : Bytes) (b : Bindings α) : Bool := (b.get? name).isSome

/-- Binds a name, replacing an earlier binding of it. -/
def insert (name : Bytes) (value : α) : Bindings α → Bindings α
  | [] => [(name, value)]
  | (n, v) :: rest => if n == name then (n, value) :: rest else (n, v) :: insert name value rest

def names (b : Bindings α) : List Bytes := b.map (·.1)

/-- The bindings in bytewise order of their names. -/
def sorted (b : Bindings α) : Bindings α := b.mergeSort fun p q => Bytes.le p.1 q.1

end Bindings

end Lox
