/-!
# Sets of names

A set of names is kept as an ascending list without repetitions, ordered by
the code points of the characters, which is also the order of their UTF-8
bytes.
-/

namespace TestProgram.Names

/-- The set with one more name in it. -/
def insert (name : String) : List String → List String
  | [] => [name]
  | n :: ns =>
    if name < n then name :: n :: ns
    else if name = n then n :: ns
    else n :: insert name ns

/-- The names of one set that are not in another. -/
def difference (names others : List String) : List String := names.filter fun n => !others.contains n

theorem mem_insert {name x : String} {names : List String} :
    x ∈ insert name names ↔ x = name ∨ x ∈ names := by
  induction names with
  | nil => simp [insert]
  | cons n ns ih =>
    simp only [insert]
    split
    · simp
    · split
      · rename_i h; subst h; simp
      · simp only [List.mem_cons, ih]
        constructor
        · rintro (h | h | h) <;> simp [h]
        · rintro (h | h | h) <;> simp [h]

end TestProgram.Names
