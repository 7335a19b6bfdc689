import TestProgram.Text.Blank

/-!
# Splitting

A text is split at every occurrence of a character (`split`); putting the
parts together again gives the text back (`intercalate_split`). A list of
words is written with commas (`entries`).
-/

namespace TestProgram.Text

/-- The parts of a text between occurrences of `sep`, at least one. -/
def split (sep : Char) : List Char → List (List Char)
  | [] => [[]]
  | c :: cs =>
    if c = sep then [] :: split sep cs
    else match split sep cs with
      | [] => [[c]]
      | part :: parts => (c :: part) :: parts

theorem split_ne_nil (sep : Char) (cs : List Char) : split sep cs ≠ [] := by
  cases cs with
  | nil => simp [split]
  | cons c cs =>
    simp only [split]
    split
    · simp
    · split <;> simp

theorem intercalate_split (sep : Char) (cs : List Char) : [sep].intercalate (split sep cs) = cs := by
  induction cs with
  | nil => rfl
  | cons c cs ih =>
    cases h : split sep cs with
    | nil => exact absurd h (split_ne_nil sep cs)
    | cons part parts =>
      rw [h] at ih
      simp only [split, h]
      split
      · rename_i hc
        subst hc
        rw [List.intercalate_cons_cons, ih]
        rfl
      · cases parts with
        | nil => simpa using ih
        | cons q qs => rw [List.intercalate_cons_cons] at ih ⊢; simp [← ih]

/-- The words of a list with commas: no blanks around them, and no empty
words. -/
def entries (s : String) : List String :=
  ((split ',' s.toList).map trim).filterMap fun cs => if cs.isEmpty then none else some (String.ofList cs)

end TestProgram.Text
