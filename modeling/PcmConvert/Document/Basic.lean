/-
  PcmConvert.Document.Basic — values as trees of records, lists, texts and numbers. A
  `Form` writes a type as documents and reads it back. A record may also be given as the
  list of its fields; fields it does not know are skipped. A case of a choice is its tag,
  or a record from the tag to what the case carries.
-/

namespace PcmConvert

inductive Document where
  | null
  | bool (b : Bool)
  | int (n : Int)
  /-- A number that is not written as an integer. -/
  | real
  | text (s : String)
  | list (items : List Document)
  | record (fields : List (String × Document))
  deriving Inhabited

structure Form (α : Type) where
  write : α → Document
  read : Document → Option α

namespace Form

def bool : Form Bool where
  write := .bool
  read
    | .bool b => some b
    | _ => none

/-- Natural numbers below `bound`. -/
def below (bound : Nat) : Form Nat where
  write n := .int n
  read
    | .int n => if 0 ≤ n ∧ n < bound then some n.toNat else none
    | _ => none

/-- Null is none. -/
def option {α : Type} (f : Form α) : Form (Option α) where
  write
    | some a => f.write a
    | none => .null
  read
    | .null => some none
    | d => (f.read d).map some

def list {α : Type} (f : Form α) : Form (List α) where
  write as := .list (as.map f.write)
  read
    | .list ds => ds.mapM f.read
    | _ => none

/-- The case a document names, and what it carries. -/
def case? : Document → Option (String × Option Document)
  | .text s => some (s, none)
  | .record [(s, d)] => some (s, some d)
  | _ => none

/-- The value with tag `s`, if the document carries nothing. -/
def bare? {α : Type} (all : List α) (tag : α → String) (s : String) : Option Document → Option α
  | none | some .null => all.find? fun a => tag a == s
  | _ => none

/-- A choice between values that carry nothing. -/
def choice {α : Type} (all : List α) (tag : α → String) : Form α where
  write a := .text (tag a)
  read d := (case? d).bind fun c => bare? all tag c.1 c.2

/-- The values of the fields `names`, in their order: none if one is missing. -/
def fields? (names : List String) : Document → Option (List Document)
  | .record r => names.mapM fun n => (r.find? (·.1 == n)).map (·.2)
  | .list ds => if ds.length = names.length then some ds else none
  | _ => none

end Form

end PcmConvert
