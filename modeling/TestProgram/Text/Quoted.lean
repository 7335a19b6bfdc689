import TestProgram.Text.Unprintable

/-!
# Quoted text

Two ways to put a text between double quotes. In scripts a backslash stands
before a quote and before another backslash and nowhere else
(`Quoted.encode`, `Quoted.decode`). In messages and listings every character
without a visible form is shown by a name or a number (`Quoted.visible`).
-/

namespace TestProgram.Text.Quoted

/-- The inside of a string literal. -/
def encode : List Char → List Char
  | [] => []
  | c :: cs => if c = '"' ∨ c = '\\' then '\\' :: c :: encode cs else c :: encode cs

/-- The text that the inside of a string literal stands for; none if a
backslash stands before anything but a quote or a backslash. -/
def decode : List Char → Option (List Char)
  | [] => some []
  | '\\' :: c :: cs => if c = '"' ∨ c = '\\' then (decode cs).map (c :: ·) else none
  | ['\\'] => none
  | c :: cs => (decode cs).map (c :: ·)

theorem decode_cons_of_plain {c : Char} (h : c ≠ '\\') (cs : List Char) :
    decode (c :: cs) = (decode cs).map (c :: ·) := by
  rw [decode]
  · intro d ds hd
    exact absurd hd h
  · intro hc
    exact absurd hc h

/-- A text is read back from its literal. -/
theorem decode_encode (cs : List Char) : decode (encode cs) = some cs := by
  induction cs with
  | nil => rfl
  | cons c cs ih =>
    simp only [encode]
    split
    · rename_i h
      simp [decode, h, ih]
    · rename_i h
      rw [decode_cons_of_plain (fun hc => h (Or.inr hc)), ih]
      rfl

/-- How a listing shows one character. -/
def visibleChar (c : Char) : List Char :=
  if c = '"' then ['\\', '"']
  else if c = '\\' then ['\\', '\\']
  else if c = '\n' then ['\\', 'n']
  else if c = '\r' then ['\\', 'r']
  else if c = '\t' then ['\\', 't']
  else if c = '\x00' then ['\\', '0']
  else if Unprintable.contains c then
    ['\\', 'u', '\x7b'] ++ Nat.toDigits 16 c.toNat ++ ['\x7d']
  else [c]

/-- A text in double quotes with every character visible. -/
def visible (cs : List Char) : String :=
  String.ofList ('"' :: cs.flatMap visibleChar ++ ['"'])

end TestProgram.Text.Quoted
