/-!
# Documents

A document is data in the shape of JSON. `Document.pretty` writes it with two
spaces of indentation for every level and one entry on a line; the entries of
a record keep their order.
-/

namespace TestProgram

inductive Document where
  | null
  | bool (b : Bool)
  | number (n : Nat)
  | text (s : String)
  | list (items : List Document)
  | record (fields : List (String × Document))

namespace Document

def optional (f : α → Document) : Option α → Document
  | some a => f a
  | none => null

def texts (l : List String) : Document := list (l.map text)

/-! ## Writing -/

def hexDigits (width n : Nat) : List Char :=
  let ds := Nat.toDigits 16 n
  List.replicate (width - ds.length) '0' ++ ds

/-- One character inside quotes: quotes, backslashes and the control
characters below the space are escaped. -/
def quotedChar (c : Char) : List Char :=
  if c = '"' then ['\\', '"']
  else if c = '\\' then ['\\', '\\']
  else if c = '\n' then ['\\', 'n']
  else if c = '\r' then ['\\', 'r']
  else if c = '\t' then ['\\', 't']
  else if c = '\x08' then ['\\', 'b']
  else if c = '\x0c' then ['\\', 'f']
  else if c.toNat < 0x20 then '\\' :: 'u' :: hexDigits 4 c.toNat
  else [c]

def quoted (s : String) : String := String.ofList ('"' :: s.toList.flatMap quotedChar ++ ['"'])

def indent (depth : Nat) : String := "\n" ++ "".pushn ' ' (2 * depth)

/-- The entries of a list or record at a depth, between brackets. -/
def enclose (opening closing : String) (depth : Nat) : List String → String
  | [] => opening ++ closing
  | entries =>
    opening ++ indent (depth + 1) ++ ("," ++ indent (depth + 1)).intercalate entries
      ++ indent depth ++ closing

mutual

/-- The text of a document whose first line stands at a depth. -/
def write : (depth : Nat) → Document → String
  | _, null => "null"
  | _, bool b => if b then "true" else "false"
  | _, number n => toString n
  | _, text s => quoted s
  | depth, list items => enclose "[" "]" depth (writeItems (depth + 1) items)
  | depth, record fields => enclose "\x7b" "\x7d" depth (writeFields (depth + 1) fields)

def writeItems : (depth : Nat) → List Document → List String
  | _, [] => []
  | depth, d :: ds => write depth d :: writeItems depth ds

def writeFields : (depth : Nat) → List (String × Document) → List String
  | _, [] => []
  | depth, (key, d) :: fields => (quoted key ++ ": " ++ write depth d) :: writeFields depth fields

end

/-- The whole text of a document. -/
def pretty (d : Document) : String := write 0 d

end Document

end TestProgram
