import Transportation.Bounded
/-!
# Documents

A document is data as it is stored: nothing, truth values, numbers, texts, lists and records. A
value is read from a document by its type. A record is read by the names of its fields, each of them
once, in any order and with others beside them, or from a list that has exactly its fields in their
order.
-/
namespace Transportation

/-- Stored data. Numbers that are not integers are kept apart, since nothing is read from them. -/
inductive Document where
  | null
  | bool (b : Bool)
  | integer (n : Int)
  | decimal
  | text (s : String)
  | list (items : List Document)
  | record (fields : List (String × Document))
  deriving Inhabited, Repr

structure FieldName where
  name : String
  optional : Bool := false

namespace Document

def amount? : Document → Option Int
  | .integer n => Amount.ofInt? n
  | _ => none

def count? : Document → Option Nat
  | .integer n => if 0 ≤ n ∧ n ≤ (Count.greatest : Int) then some n.toNat else none
  | _ => none

def list? (read : Document → Option α) : Document → Option (List α)
  | .list items => items.mapM read
  | _ => none

def optional? (read : Document → Option α) : Document → Option (Option α)
  | .null => some none
  | d => (read d).map some

/-- The content of a field. None is read if the field is repeated. -/
def content? (fields : List (String × Document)) (field : FieldName) : Option Document :=
  match fields.filter fun entry => entry.1 == field.name with
  | [] => if field.optional then some .null else none
  | [(_, d)] => some d
  | _ => none

def fields? (names : List FieldName) : Document → Option (List Document)
  | .record fields => names.mapM (content? fields)
  | .list items => if items.length = names.length then some items else none
  | _ => none

def alternative? : Document → Option (String × Option Document)
  | .text name => some (name, none)
  | .record [(name, content)] => some (name, some content)
  | _ => none

def name? (d : Document) : Option String :=
  match d.alternative? with
  | some (name, none) => some name
  | some (name, some .null) => some name
  | _ => none

def oneOf? (values : List α) (nameOf : α → String) (d : Document) : Option α := do
  let name ← d.name?
  values.find? fun value => nameOf value == name

def ofList (write : α → Document) (items : List α) : Document :=
  .list (items.map write)

def ofOption (write : α → Document) : Option α → Document
  | some value => write value
  | none => .null

def ofCount (n : Nat) : Document := .integer n

end Document

end Transportation
