import TestProgram.Text.Lines
import TestProgram.Text.Split

/-!
# Parts of texts

Splitting at a character gives parts without it (`not_mem_of_mem_splitOn`). So parts that are put together with a
separator are read back just if none of them contains it: the cells of a row (`splitOn_intercalate_iff`), and the
lines of a text, where already the number of parts tells (`newline_not_mem_of_length`). The words of a list with commas
are what stands between its commas, without the white space around it (`trim_spec`), where that is not empty
(`entries_eq`).
-/

namespace TestProgram.Text

/-! ## Lists with commas -/

theorem split_eq_splitOn (sep : Char) (cs : List Char) : split sep cs = cs.splitOn sep := by
  induction cs with
  | nil => rfl
  | cons c cs ih =>
    rw [split, List.splitOn_cons_eq_if_modifyHead]
    by_cases hc : c = sep
    · rw [if_pos hc, if_pos (beq_iff_eq.mpr hc), ih]
    · rw [if_neg hc, if_neg (mt beq_iff_eq.mp hc), ← ih]
      cases hsplit : split sep cs with
      | nil => exact absurd hsplit (split_ne_nil sep cs)
      | cons part parts => rfl

/-- Trimming takes the white space at both ends away, and nothing else. -/
theorem trim_spec (cs : List Char) : ∃ before after, cs = before ++ (trim cs ++ after) ∧
    (∀ c ∈ before, isBlank c = true) ∧ (∀ c ∈ after, isBlank c = true) ∧
    (∀ c ∈ (trim cs).head?, isBlank c = false) ∧ ∀ c ∈ (trim cs).getLast?, isBlank c = false := by
  have hrest : trim cs ++ ((cs.dropWhile isBlank).reverse.takeWhile isBlank).reverse = cs.dropWhile isBlank := by
    rw [trim, ← List.reverse_append, List.takeWhile_append_dropWhile, List.reverse_reverse]
  refine ⟨cs.takeWhile isBlank, ((cs.dropWhile isBlank).reverse.takeWhile isBlank).reverse, ?_, ?_, ?_, ?_, ?_⟩
  · rw [hrest, List.takeWhile_append_dropWhile]
  · exact List.all_eq_true.mp List.all_takeWhile
  · exact fun c hc => List.all_eq_true.mp List.all_takeWhile c (List.mem_reverse.mp hc)
  · intro c hc
    have hhead : (cs.dropWhile isBlank).head? = some c := by
      rw [← hrest, List.head?_append, Option.mem_def.mp hc]
      rfl
    have hnot := List.head?_dropWhile_not isBlank cs
    rwa [hhead] at hnot
  · intro c hc
    rw [trim, List.getLast?_reverse] at hc
    have hnot := List.head?_dropWhile_not isBlank (cs.dropWhile isBlank).reverse
    rwa [Option.mem_def.mp hc] at hnot

theorem entries_eq (s : String) :
    entries s = (((s.toList.splitOn ',').map trim).filter (· ≠ [])).map String.ofList := by
  rw [entries, split_eq_splitOn]
  induction (s.toList.splitOn ',').map trim with
  | nil => rfl
  | cons word words ih => cases word <;> simp_all

/-! ## Parts -/

theorem not_mem_of_mem_splitOn {sep : Char} {cs part : List Char} (h : part ∈ cs.splitOn sep) : sep ∉ part := by
  induction cs generalizing part with
  | nil =>
    obtain rfl := List.mem_singleton.mp h
    exact List.not_mem_nil
  | cons c cs ih =>
    rw [List.splitOn_cons_eq_if_modifyHead] at h
    split at h
    · rcases List.mem_cons.mp h with rfl | h
      · exact List.not_mem_nil
      · exact ih h
    · rename_i hc
      obtain ⟨first, rest, hsplit⟩ := List.exists_cons_of_ne_nil (List.splitOn_ne_nil sep cs)
      rw [hsplit, List.modifyHead_cons] at h
      rw [hsplit] at ih
      rcases List.mem_cons.mp h with rfl | h
      · exact List.not_mem_cons_of_ne_of_not_mem (fun heq => hc (beq_iff_eq.mpr heq.symm)) (ih (List.mem_cons_self ..))
      · exact ih (List.mem_cons_of_mem _ h)

theorem not_mem_of_length_splitOn {sep : Char} {cs : List Char} (h : (cs.splitOn sep).length = 1) : sep ∉ cs := by
  obtain ⟨part, hpart⟩ := List.length_eq_one_iff.mp h
  have hwhole : [sep].intercalate (cs.splitOn sep) = cs := List.intercalate_splitOn sep
  rw [hpart, List.intercalate_singleton] at hwhole
  rw [hwhole] at hpart
  exact not_mem_of_mem_splitOn (hpart ▸ List.mem_singleton_self cs)

/-- What has no separator in it goes to the first part. -/
theorem splitOn_append_of_not_mem {sep : Char} {front : List Char} (h : sep ∉ front) (cs : List Char) :
    (front ++ cs).splitOn sep = (cs.splitOn sep).modifyHead (front ++ ·) := by
  obtain ⟨first, rest, hsplit⟩ := List.exists_cons_of_ne_nil (List.splitOn_ne_nil sep cs)
  induction front with
  | nil => rw [List.nil_append, hsplit, List.modifyHead_cons, List.nil_append]
  | cons c front ih =>
    have hc : ¬ (c == sep) = true := fun heq => h (beq_iff_eq.mp heq ▸ List.mem_cons_self ..)
    rw [List.cons_append, List.splitOn_cons_eq_if_modifyHead, if_neg hc, ih (List.not_mem_of_not_mem_cons h), hsplit]
    rfl

/-! ## Separators -/

theorem mem_intercalate_of_mem {sep part : List Char} {c : Char} (hc : c ∈ part) : ∀ {parts : List (List Char)},
    part ∈ parts → c ∈ sep.intercalate parts
  | [_], h => by
    rw [List.intercalate_singleton, ← List.mem_singleton.mp h]
    exact hc
  | _ :: _ :: _, h => by
    rw [List.intercalate_cons_cons]
    rcases List.mem_cons.mp h with rfl | h
    · exact List.mem_append_left _ (List.mem_append_left _ hc)
    · exact List.mem_append_right _ (mem_intercalate_of_mem hc h)

/-- What is put together has no other characters than its parts and the separator. -/
theorem mem_of_mem_intercalate {sep : List Char} {c : Char} : ∀ {parts : List (List Char)},
    c ∈ sep.intercalate parts → c ∈ sep ∨ ∃ part ∈ parts, c ∈ part
  | [], h => absurd h List.not_mem_nil
  | [part], h => by
    rw [List.intercalate_singleton] at h
    exact .inr ⟨part, List.mem_singleton_self part, h⟩
  | part :: _ :: _, h => by
    rw [List.intercalate_cons_cons, List.mem_append, List.mem_append] at h
    rcases h with (h | h) | h
    · exact .inr ⟨part, List.mem_cons_self .., h⟩
    · exact .inl h
    · rcases mem_of_mem_intercalate h with h | ⟨other, hother, h⟩
      · exact .inl h
      · exact .inr ⟨other, List.mem_cons_of_mem _ hother, h⟩

theorem mem_of_mem_splitOn {sep c : Char} {cs part : List Char} (h : part ∈ cs.splitOn sep) (hc : c ∈ part) :
    c ∈ cs := by
  have hwhole : [sep].intercalate (cs.splitOn sep) = cs := List.intercalate_splitOn sep
  rw [← hwhole]
  exact mem_intercalate_of_mem hc h

theorem splitOn_intercalate_iff {sep : Char} {parts : List (List Char)} (hparts : parts ≠ []) :
    ([sep].intercalate parts).splitOn sep = parts ↔ ∀ part ∈ parts, sep ∉ part := by
  constructor
  · intro h part hpart
    rw [← h] at hpart
    exact not_mem_of_mem_splitOn hpart
  · exact fun h => List.splitOn_intercalate sep h hparts

/-! ## Lines -/

/-- Splitting a text at newlines splits its lines. Nothing follows the last one. -/
theorem splitOn_unlines (lines : List String) : (unlines lines).toList.splitOn '\n' =
    (lines.flatMap fun line => line.toList.splitOn '\n') ++ [[]] := by
  induction lines with
  | nil => rfl
  | cons line lines ih =>
    have htext : (unlines (line :: lines)).toList = line.toList ++ '\n' :: (unlines lines).toList := by
      rw [unlines, List.map_cons, String.join_cons, String.toList_append, String.toList_append, List.append_assoc]
      rfl
    rw [htext, List.splitOn_append_cons_self, ih, List.flatMap_cons, List.append_assoc]

theorem splitOn_unlines_eq {lines : List String} (h : ∀ line ∈ lines, '\n' ∉ line.toList) :
    (unlines lines).toList.splitOn '\n' = lines.map String.toList ++ [[]] := by
  have hparts : lines.map (fun line => line.toList.splitOn '\n') = lines.map fun line => [line.toList] :=
    List.map_congr_left fun line hline => List.splitOn_eq_singleton (h line hline)
  rw [splitOn_unlines, List.flatMap_def, hparts, ← List.flatMap_def, ← List.map_eq_flatMap]

/-- A text splits into more parts if one of its lines has a newline in it. -/
theorem newline_not_mem_of_length {lines : List String}
    (h : ((unlines lines).toList.splitOn '\n').length = lines.length + 1) : ∀ line ∈ lines, '\n' ∉ line.toList := by
  have hone (line : String) : 1 ≤ (line.toList.splitOn '\n').length :=
    List.length_pos_iff.mpr (List.splitOn_ne_nil '\n' _)
  have hmany (lines : List String) : lines.length ≤ (lines.flatMap fun line => line.toList.splitOn '\n').length := by
    induction lines with
    | nil => exact Nat.zero_le 0
    | cons line lines ih =>
      rw [List.flatMap_cons, List.length_append, List.length_cons, Nat.add_comm]
      exact Nat.add_le_add (hone line) ih
  rw [splitOn_unlines, List.length_append, List.length_singleton] at h
  induction lines with
  | nil => exact List.forall_mem_nil _
  | cons line lines ih =>
    rw [List.flatMap_cons, List.length_append, List.length_cons] at h
    have hline := hone line
    have hlines := hmany lines
    refine List.forall_mem_cons.mpr ⟨not_mem_of_length_splitOn (by omega), ih (by omega)⟩

end TestProgram.Text
